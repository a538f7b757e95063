import LinuxKernel.X86.KvmMtrrLookup

/-!
# KVM: the consistency check for large pages

When `kvm_mtrr_check_gfn_range_consistency` accepts a range of pages, all of them have the same
type. The check sees the fixed ranges of the region one by one and then the variable ranges that
overlap any part of it; `partial_map` tells whether some address may have the default type. The
addresses of the region must not wrap: at the end of the address space the check sees an empty
region.
-/

namespace LinuxKernel.X86

open List BitVec Bool

/-! ## Walking through the fixed ranges -/

def segOf (index : Nat) : Nat := if index < 8 then 0 else if index < 24 then 1 else 2

theorem fixedMtrrRangeEndAddr_segOf {index : Nat} (hindex : index < 88) :
    fixedMtrrRangeEndAddr (segOf index) index = fixedBound (index + 1) := by
  unfold fixedMtrrRangeEndAddr segOf fixedBound
  split_ifs <;> simp [fixedSeg, fixedSegTable, Nat.shiftLeft_eq] <;> omega

variable {addr : Nat}

theorem segOf_fixedIndex (haddr : addr < 0x100000) :
    segOf (fixedIndex addr) = if addr < 0x80000 then 0 else if addr < 0xc0000 then 1 else 2 := by
  unfold segOf fixedIndex
  split_ifs <;> omega

theorem fixedMtrrAddrToSeg_eq (haddr : addr < 0x100000) :
    fixedMtrrAddrToSeg addr = some (segOf (fixedIndex addr)) := by
  rw [segOf_fixedIndex haddr]
  simp only [fixedMtrrAddrToSeg, fixedSegTable, findIdx?_cons, findIdx?_nil]
  grind

theorem fixedMtrrAddrSegToRangeIndex_eq (haddr : addr < 0x100000) :
    fixedMtrrAddrSegToRangeIndex addr (segOf (fixedIndex addr)) = fixedIndex addr := by
  rw [segOf_fixedIndex haddr]
  unfold fixedMtrrAddrSegToRangeIndex fixedIndex
  split_ifs <;> simp [fixedSeg, fixedSegTable, Nat.shiftRight_eq_div_pow]

theorem segOf_succ {index : Nat} (hindex : index + 1 < 88) : segOf (index + 1) =
      if fixedMtrrSegEndRangeIndex (segOf index) < index + 1 then segOf index + 1
      else segOf index := by
  have hends : fixedMtrrSegEndRangeIndex 0 = 7 ∧ fixedMtrrSegEndRangeIndex 1 = 23 ∧
      fixedMtrrSegEndRangeIndex 2 = 87 := by decide
  unfold segOf
  grind

def fixedIter (start stop : Nat) (partialMap : Bool) (index : Nat) : MtrrIter :=
  ⟨start, stop, false, partialMap, .fixed index (segOf index)⟩

variable {m : KvmMtrr}

theorem mtrrLookupInit_fixed (henabled : mtrrIsEnabled m = true)
    (hfixed : fixedMtrrIsEnabled m = true) {start stop : Nat} (hstart : start < 0x100000) :
    mtrrLookupInit m start stop = fixedIter start stop false (fixedIndex start) := by
  simp [mtrrLookupInit, henabled, mtrrLookupFixedStart, hfixed, fixedMtrrAddrToSeg_eq hstart,
    fixedMtrrAddrSegToRangeIndex_eq hstart, fixedIter]

section
variable {m : KvmMtrr} {start stop index : Nat} {partialMap : Bool}

def fixedMtrrType (m : KvmMtrr) (index : Nat) : MtrrType := m.fixedRanges.getD index .uncachable

theorem mtrrForEachMemType_fixedIter :
    mtrrForEachMemType m (fixedIter start stop partialMap index) = (fixedMtrrType m index ::
          (mtrrForEachMemType m (mtrrLookupNext m (fixedIter start stop partialMap index))).1,
        (mtrrForEachMemType m (mtrrLookupNext m (fixedIter start stop partialMap index))).2) :=
  mtrrForEachMemType_some rfl

theorem mtrrLookupNext_fixedIter (hindex : index < 88) :
    mtrrLookupNext m (fixedIter start stop partialMap index) =
      if stop ≤ fixedBound (index + 1) then ⟨start, stop, false, partialMap, .done⟩
      else if KVM_NR_FIXED_MTRR_REGION ≤ index + 1 then
        mtrrLookupVarNext m (fixedIter start stop partialMap index) start m.head
      else fixedIter start stop partialMap (index + 1) := by
  simp only [fixedIter, mtrrLookupNext, mtrrLookupFixedNext, fixedMtrrRangeEndAddr_segOf hindex,
    mtrrLookupVarStart]
  have hregion : KVM_NR_FIXED_MTRR_REGION = 88 := rfl
  split_ifs with hend hlast hseg
  · rfl
  · rfl
  · rw [segOf_succ (by omega), if_pos hseg]
  · rw [segOf_succ (by omega), if_neg hseg]

/-- The walk sees every fixed range that begins before the end of the region. -/
theorem fixedMtrrType_mem_visits {range : Nat} (hrange : range < 88) (hle : index ≤ range)
    (hbegin : fixedBound range < stop) :
    fixedMtrrType m range ∈ (mtrrForEachMemType m (fixedIter start stop partialMap index)).1 := by
  have hregion : KVM_NR_FIXED_MTRR_REGION = 88 := rfl
  induction hle using Nat.decreasingInduction with
  | self =>
    rw [mtrrForEachMemType_fixedIter]
    exact mem_cons_self
  | of_succ index hlt ih =>
    have hbound : fixedBound (index + 1) ≤ fixedBound range := by
      rcases Nat.eq_or_lt_of_le hlt with heq | hlt
      · rw [← heq]
      · exact (fixedBound_lt hlt).le
    rw [mtrrForEachMemType_fixedIter, mtrrLookupNext_fixedIter (by omega), if_neg (by omega),
      if_neg (by omega)]
    exact mem_cons_of_mem _ ih

theorem mtrrForEachMemType_fixed_var (hindex : index < 88) (hstop : 0x100000 < stop) :
    (∀ range ∈ m.head, matchVarRange m start stop range = true →
        varMtrrType m range ∈ (mtrrForEachMemType m (fixedIter start stop partialMap index)).1) ∧
      (mtrrForEachMemType m (fixedIter start stop partialMap index)).2 =
        (partialMap || walkPartial m start stop start m.head) := by
  have hregion : KVM_NR_FIXED_MTRR_REGION = 88 := rfl
  have hindex : index ≤ 87 := by omega
  induction hindex using Nat.decreasingInduction with
  | self =>
    have hend : fixedBound (87 + 1) = 0x100000 := rfl
    rw [mtrrForEachMemType_fixedIter, mtrrLookupNext_fixedIter (by omega), if_neg (by omega),
      if_pos (by omega), mtrrForEachMemType_var]
    refine ⟨fun range hmem hmatch => mem_cons_of_mem _ (mem_map_of_mem ?_), rfl⟩
    exact mem_filter.2 ⟨hmem, hmatch⟩
  | of_succ index hlt ih =>
    have hbound : fixedBound (index + 1) < 0x100000 := fixedBound_lt (show index + 1 < 88 by omega)
    rw [mtrrForEachMemType_fixedIter, mtrrLookupNext_fixedIter (by omega), if_neg (by omega),
      if_neg (by omega)]
    have hrest := ih (by omega)
    exact ⟨fun range hmem hmatch => mem_cons_of_mem _ (hrest.1 range hmem hmatch), hrest.2⟩

end

theorem fixedBound_fixedIndex (haddr : addr < 0x100000) :
    fixedIndex addr < 88 ∧ fixedBound (fixedIndex addr) ≤ addr := by
  unfold fixedIndex fixedBound
  split_ifs <;> omega

theorem fixedIndex_mono {a b : Nat} (hle : a ≤ b) (hb : b < 0x100000) :
    fixedIndex a ≤ fixedIndex b := by
  unfold fixedIndex
  split_ifs <;> omega

/-! ## The pages of a region -/

variable {gfn : BitVec 64} {pageNum : BitVec 32}

/-- The addresses of a region, `[start, stop)`, contain those of its pages when they do not wrap. -/
theorem pageStart_frame (hwrap : pageStart gfn < pageStart (gfn + pageNum.signExtend 64)) {i : Nat}
    (hi : (i : Int) < pageNum.toInt) : pageStart (gfn + i) = pageStart gfn + i * 4096 ∧
      pageStop (gfn + i) = pageStart (gfn + i) + 4096 ∧
      pageStop (gfn + i) ≤ pageStart (gfn + pageNum.signExtend 64) ∧
      4096 ∣ pageStart (gfn + i) := by
  have hnum : pageNum.toNat < 2 ^ 31 ∧ pageNum.toInt = pageNum.toNat := by
    rw [toInt_eq_toNat_cond] at hi ⊢
    split_ifs at hi ⊢ <;> omega
  have hext : (pageNum.signExtend 64).toNat = pageNum.toNat := by
    rw [signExtend_eq_setWidth_of_msb_false]
    · rw [toNat_setWidth]
      omega
    · rw [msb_eq_false_iff_two_mul_lt]
      omega
  have hsize : PAGE_SIZE.toNat = 4096 := rfl
  have hgpa : ∀ x : BitVec 64, (gfnToGpa x).toNat = x.toNat * 4096 % 2 ^ 64 := by
    intro x
    rw [gfnToGpa, toNat_shiftLeft, Nat.shiftLeft_eq]
  simp only [pageStart, pageStop, toNat_add, hgpa, hext, natCast_eq_ofNat,
    toNat_ofNat, hsize] at hwrap ⊢
  omega

theorem consistencyLoop_some {type result : Option MtrrType} {types : List MtrrType}
    (h : consistencyLoop type types = some result) :
    (∀ t ∈ types, result = some t) ∧ ∀ t, type = some t → result = some t := by
  induction types generalizing type with
  | nil => cases type <;> simp_all [consistencyLoop]
  | cons t types ih =>
    cases type with
    | none | some type => grind [consistencyLoop]

variable (vcpu : KvmVcpu)

theorem kvmMtrrGetGuestMemoryType_fixed (henabled : mtrrIsEnabled m = true)
    (hfixed : fixedMtrrIsEnabled m = true) (hlow : pageStart gfn < 0x100000)
    (hstop : pageStop gfn = pageStart gfn + 4096) (haligned : 4096 ∣ pageStart gfn) :
    kvmMtrrGetGuestMemoryType vcpu m gfn = fixedMtrrType m (fixedIndex (pageStart gfn)) := by
  have hend : pageStop gfn ≤ fixedBound (fixedIndex (pageStart gfn) + 1) := by
    obtain ⟨page, hpage⟩ := haligned
    rw [Nat.mul_comm] at hpage
    rw [hstop, hpage]
    unfold fixedIndex fixedBound
    split_ifs <;> omega
  unfold kvmMtrrGetGuestMemoryType
  simp only [← pageStart.eq_1, ← pageStop.eq_1]
  rw [mtrrLookupInit_fixed henabled hfixed hlow, mtrrForEachMemType_fixedIter,
    mtrrLookupNext_fixedIter (fixedBound_fixedIndex hlow).1, if_pos hend,
    mtrrForEachMemType_none rfl]
  rfl

section
variable {m : KvmMtrr} {stop : Nat} {gfn : BitVec 64}

/-- A page outside the fixed ranges: the walk over a region around it sees the variable ranges, and
`partial_map` is that of the walk over them. -/
theorem visits_var (start : Nat) (henabled : mtrrIsEnabled m = true) (hout : OutsideFixed m gfn)
    (hstop : pageStart gfn < stop) : (∀ range ∈ m.head, matchVarRange m start stop range = true →
        varMtrrType m range ∈ (mtrrForEachMemType m (mtrrLookupInit m start stop)).1) ∧
      (mtrrForEachMemType m (mtrrLookupInit m start stop)).2 =
        walkPartial m start stop start m.head := by
  by_cases hfixed : fixedMtrrIsEnabled m = true ∧ start < 0x100000
  · have hhigh : 0x100000 ≤ pageStart gfn := Nat.le_of_not_lt fun hlt => hout ⟨hfixed.1, hlt⟩
    rw [mtrrLookupInit_fixed henabled hfixed.1 hfixed.2]
    exact mtrrForEachMemType_fixed_var (fixedBound_fixedIndex hfixed.2).1 (by omega)
  · rw [mtrrLookupInit_var henabled hfixed, mtrrLookupVarStart, mtrrForEachMemType_var]
    refine ⟨fun range hmem hmatch => mem_map_of_mem ?_, rfl⟩
    exact mem_filter.2 ⟨hmem, hmatch⟩

/-- If the walk over a region sees one type, which is the default type when `partial_map` is set,
each page of the region has it. -/
theorem kvmMtrrGetGuestMemoryType_of_visits (henabled : mtrrIsEnabled m = true)
    {start : Nat} (hstart : start ≤ pageStart gfn) (hpage : pageStop gfn = pageStart gfn + 4096)
    (hstop : pageStop gfn ≤ stop) (haligned : 4096 ∣ pageStart gfn) {type : MtrrType}
    (htype : ∀ t ∈ (mtrrForEachMemType m (mtrrLookupInit m start stop)).1, t = type)
    (hdefault : (mtrrForEachMemType m (mtrrLookupInit m start stop)).2 = true →
      type = mtrrDefaultType m) : kvmMtrrGetGuestMemoryType vcpu m gfn = type := by
  by_cases hfixed : fixedMtrrIsEnabled m = true ∧ pageStart gfn < 0x100000
  · obtain ⟨hindex, hbound⟩ := fixedBound_fixedIndex hfixed.2
    rw [kvmMtrrGetGuestMemoryType_fixed vcpu henabled hfixed.1 hfixed.2 hpage haligned]
    apply htype
    rw [mtrrLookupInit_fixed henabled hfixed.1 (by omega)]
    exact fixedMtrrType_mem_visits hindex (fixedIndex_mono hstart hfixed.2) (by omega)
  · obtain ⟨hvisits, hwalk⟩ := visits_var start henabled hfixed (show pageStart gfn < stop by omega)
    rw [kvmMtrrGetGuestMemoryType_var vcpu henabled hfixed]
    by_cases hnil : pageTypes m gfn = []
    · -- no range matches the page, so the walk has found a gap
      have hgap : walkPartial m start stop start m.head = true := by
        by_contra hfull
        obtain ⟨range, hmem, hcovers⟩ := covered_of_walkPartial (eq_false_iff.2 hfull) hstart
          (show pageStart gfn < stop by omega)
        rw [pageTypes, map_eq_nil_iff, filter_eq_nil_iff] at hnil
        apply hnil range hmem
        simp only [matchVarRange, not_eq_true', or_eq_false_iff, decide_eq_false_iff_not]
        omega
      rw [hnil, hdefault (hwalk.trans hgap)]
      rfl
    · apply loopType_same hnil
      intro t ht
      obtain ⟨range, hrange, rfl⟩ := mem_map.1 ht
      obtain ⟨hmem, hmatch⟩ := mem_filter.1 hrange
      refine htype _ (hvisits range hmem ?_)
      simp only [matchVarRange, not_eq_true', or_eq_false_iff, decide_eq_false_iff_not] at hmatch ⊢
      omega

end

theorem kvmMtrrGetGuestMemoryType_disabled (hdisabled : mtrrIsEnabled m = false)
    (gfn : BitVec 64) : kvmMtrrGetGuestMemoryType vcpu m gfn = mtrrDisabledType vcpu := by
  unfold kvmMtrrGetGuestMemoryType
  simp only [mtrrLookupInit, hdisabled, Bool.not_false, if_true]
  rw [mtrrForEachMemType_none rfl]
  rfl

theorem mtrrDisabled_mtrrLookupInit (henabled : mtrrIsEnabled m = true)
    (start stop : Nat) : (mtrrLookupInit m start stop).mtrrDisabled = false := by
  by_cases hfixed : fixedMtrrIsEnabled m = true ∧ start < 0x100000
  · rw [mtrrLookupInit_fixed henabled hfixed.1 hfixed.2]
    rfl
  · rw [mtrrLookupInit_var henabled hfixed]
    exact mtrrDisabled_mtrrLookupVarNext m _ start m.head

theorem kvmMtrrCheckGfnRangeConsistency_visits (henabled : mtrrIsEnabled m = true)
    (hcheck : kvmMtrrCheckGfnRangeConsistency m gfn pageNum = true) : ∃ type,
      (∀ t ∈ (mtrrForEachMemType m (mtrrLookupInit m (pageStart gfn)
        (pageStart (gfn + pageNum.signExtend 64)))).1, t = type) ∧
      ((mtrrForEachMemType m (mtrrLookupInit m (pageStart gfn)
        (pageStart (gfn + pageNum.signExtend 64)))).2 = true → type = mtrrDefaultType m) := by
  unfold kvmMtrrCheckGfnRangeConsistency at hcheck
  simp only [← pageStart.eq_1, mtrrDisabled_mtrrLookupInit henabled] at hcheck
  set visits := mtrrForEachMemType m (mtrrLookupInit m (pageStart gfn)
    (pageStart (gfn + pageNum.signExtend 64)))
  cases hloop : consistencyLoop none visits.1 with
  | none => simp [hloop] at hcheck
  | some result =>
    have hseen := (consistencyLoop_some hloop).1
    rw [hloop] at hcheck
    refine ⟨result.getD (mtrrDefaultType m), fun t ht => by simp [hseen t ht], fun hdefault => ?_⟩
    cases result with
    | none => rfl
    | some type => simpa [hdefault] using hcheck

/-- The consistency check is sound: pages of a region that passes it have the same type. -/
theorem kvmMtrrCheckGfnRangeConsistency_sound (vcpu : KvmVcpu) (writes : List (Nat × BitVec 64))
    (gfn : BitVec 64) (pageNum : BitVec 32)
    (hwrap : (gfnToGpa gfn).toNat < (gfnToGpa (gfn + pageNum.signExtend 64)).toNat)
    (hcheck : kvmMtrrCheckGfnRangeConsistency (kvmMtrrWrites vcpu writes) gfn pageNum = true)
    (i j : Nat) (hi : (i : Int) < pageNum.toInt) (hj : (j : Int) < pageNum.toInt) :
    kvmMtrrGetGuestMemoryType vcpu (kvmMtrrWrites vcpu writes) (gfn + i) =
      kvmMtrrGetGuestMemoryType vcpu (kvmMtrrWrites vcpu writes) (gfn + j) := by
  cases henabled : mtrrIsEnabled (kvmMtrrWrites vcpu writes) with
  | false =>
    rw [kvmMtrrGetGuestMemoryType_disabled vcpu henabled,
      kvmMtrrGetGuestMemoryType_disabled vcpu henabled]
  | true =>
    obtain ⟨type, htype, hdefault⟩ := kvmMtrrCheckGfnRangeConsistency_visits henabled hcheck
    have hframe : ∀ i : Nat, (i : Int) < pageNum.toInt →
        kvmMtrrGetGuestMemoryType vcpu (kvmMtrrWrites vcpu writes) (gfn + i) = type := by
      intro i hi
      obtain ⟨hstart, hpage, hstop, haligned⟩ := pageStart_frame hwrap hi
      exact kvmMtrrGetGuestMemoryType_of_visits vcpu henabled (by omega) hpage hstop haligned htype
        hdefault
    rw [hframe i hi, hframe j hj]

/-- The three fixed ranges from 0 to 0x30000 are `WB`. -/
def lowWbWrites : List (Nat × BitVec 64) :=
  [(0x250, 0x060606), (0x2ff, 0xc00)]

theorem kvmMtrrCheckGfnRangeConsistency_sound_lowWb :
    kvmMtrrGetGuestMemoryType sampleVcpu (kvmMtrrWrites sampleVcpu lowWbWrites) (0xf + (0 : Nat)) =
      kvmMtrrGetGuestMemoryType sampleVcpu (kvmMtrrWrites sampleVcpu lowWbWrites)
        (0xf + (1 : Nat)) :=
  kvmMtrrCheckGfnRangeConsistency_sound sampleVcpu lowWbWrites 0xf 2 (by decide) (by decide +kernel)
    0 1 (by decide) (by decide)

/-- The first page is `UC`, the default type is `WB`. -/
def firstPageUcWrites : List (Nat × BitVec 64) :=
  [(0x200, 0), (0x201, 0xffffff800), (0x2ff, 0x806)]

/-- At the end of the address space the check sees an empty region, although the second page is the
first one of memory. -/
theorem kvmMtrrCheckGfnRangeConsistency_wraps :
    (∀ write ∈ firstPageUcWrites, kvmMtrrValid sampleVcpu write.1 write.2 = true) ∧
    kvmMtrrCheckGfnRangeConsistency (kvmMtrrWrites sampleVcpu firstPageUcWrites) 0xfffffffffffff 2 =
      true ∧
    kvmMtrrGetGuestMemoryType sampleVcpu (kvmMtrrWrites sampleVcpu firstPageUcWrites)
      (0xfffffffffffff + (0 : Nat)) = .wrback ∧
    kvmMtrrGetGuestMemoryType sampleVcpu (kvmMtrrWrites sampleVcpu firstPageUcWrites)
      (0xfffffffffffff + (1 : Nat)) = .uncachable := by
  decide +kernel

end LinuxKernel.X86
