import LinuxKernel.X86.KvmMtrr

/-!
# KVM: what the MTRR lookups return

The list of variable ranges holds the enabled ones in the order of descending bases after every
sequence of writes. The iterator visits the fixed ranges of a region below 1MB and then the variable
ranges that overlap it.

The type of a page obeys the precedence rules unless a `UC` range is met first or behind two types
the rules do not combine.
-/

namespace LinuxKernel.X86

open List

/-! ## The list of enabled ranges -/

/-- The list holds each enabled range once, in the order of descending bases. -/
structure KvmMtrr.Listed (m : KvmMtrr) : Prop where
  sorted : m.head.Pairwise fun a b => (m.varRanges b).base ≤ (m.varRanges a).base
  nodup : m.head.Nodup
  mem_iff : ∀ range, range ∈ m.head ↔ varMtrrRangeIsValid (m.varRanges range) = true

theorem listed_kvmVcpuMtrrInit : kvmVcpuMtrrInit.Listed := by
  refine ⟨Pairwise.nil, nodup_nil, fun range => ?_⟩
  simp [kvmVcpuMtrrInit, varMtrrRangeIsValid]

variable {m : KvmMtrr}

theorem KvmMtrr.Listed.mem_removed (h : m.Listed) (cur range : Fin KVM_NR_VAR_MTRR) :
    range ∈ (if varMtrrRangeIsValid (m.varRanges cur) then m.head.erase cur else m.head) ↔
      range ≠ cur ∧ varMtrrRangeIsValid (m.varRanges range) = true := by
  split
  · rw [h.nodup.mem_erase_iff, h.mem_iff]
  next hinvalid =>
    rw [h.mem_iff]
    constructor
    · intro hvalid
      exact ⟨fun heq => hinvalid (heq ▸ hvalid), hvalid⟩
    · exact fun hboth => hboth.2

theorem KvmMtrr.Listed.setVarMtrrMsr (h : m.Listed) (vcpu : KvmVcpu) (msr : Nat)
    (data : BitVec 64) : (setVarMtrrMsr vcpu m msr data).Listed := by
  unfold X86.setVarMtrrMsr
  extract_lets cur head old range varRanges head'
  have hmem := h.mem_removed cur
  have hsub : head.Sublist m.head := by
    unfold head
    split
    · exact erase_sublist
    · exact Sublist.refl _
  -- The ranges that stay in the list are as they were.
  have hother : ∀ r ∈ head, varRanges r = m.varRanges r := fun r hr =>
    Function.update_of_ne ((hmem r).1 hr).1 _ _
  have hcur : varRanges cur = range := Function.update_self _ _ _
  have hnotMem : cur ∉ head := fun hin => ((hmem cur).1 hin).1 rfl
  have hsorted : head.Pairwise fun a b => (varRanges b).base ≤ (varRanges a).base := by
    apply (h.sorted.sublist hsub).imp_of_mem
    intro a b ha hb hle
    rwa [hother a ha, hother b hb]
  have hvalid : ∀ r, r ∈ head ∨ r = cur ∧ varMtrrRangeIsValid range = true ↔
      varMtrrRangeIsValid (varRanges r) = true := by
    intro r
    rw [hmem]
    by_cases heq : r = cur
    · simp [heq, hcur]
    · simp [heq, varRanges]
  by_cases hrange : varMtrrRangeIsValid range = true
  · have hhead' : head' = head.orderedInsert
        (fun a b => (varRanges b).base ≤ (varRanges a).base) cur := if_pos hrange
    have hperm := perm_orderedInsert (fun a b => (varRanges b).base ≤ (varRanges a).base) cur head
    rw [hhead']
    refine ⟨hsorted.orderedInsert cur head, ?_, fun r => ?_⟩
    · exact hperm.nodup_iff.2 (nodup_cons.2 ⟨hnotMem, h.nodup.sublist hsub⟩)
    · rw [← hvalid, hperm.mem_iff]
      simp [hrange, or_comm]
  · have hhead' : head' = head := if_neg hrange
    rw [hhead']
    refine ⟨hsorted, h.nodup.sublist hsub, fun r => ?_⟩
    rw [← hvalid]
    simp [hrange]

theorem KvmMtrr.Listed.kvmMtrrSetMsr {m' : KvmMtrr} (h : m.Listed) {vcpu : KvmVcpu} {msr : Nat}
    {data : BitVec 64} (hset : kvmMtrrSetMsr vcpu m msr data = some m') : m'.Listed := by
  unfold X86.kvmMtrrSetMsr at hset
  split at hset
  · simp at hset
  split at hset
  · cases hset
    exact ⟨h.sorted, h.nodup, h.mem_iff⟩
  split at hset
  · cases hset
    exact ⟨h.sorted, h.nodup, h.mem_iff⟩
  · cases hset
    exact h.setVarMtrrMsr vcpu msr data

theorem listed_kvmMtrrWrites (vcpu : KvmVcpu) (writes : List (Nat × BitVec 64)) :
    (kvmMtrrWrites vcpu writes).Listed := by
  apply foldlRecOn writes _ listed_kvmVcpuMtrrInit
  intro m hm write _
  cases hset : kvmMtrrSetMsr vcpu m write.1 write.2 with
  | none => exact hm
  | some m' => exact hm.kvmMtrrSetMsr hset

/-! ## The visits of the iterator -/

section
variable {m : KvmMtrr} {iter : MtrrIter}

theorem mtrrForEachMemType_none (h : mtrrLookupOkay m iter = none) :
    mtrrForEachMemType m iter = ([], iter.partialMap) := by
  rw [mtrrForEachMemType]
  split
  · rfl
  · simp_all

theorem mtrrForEachMemType_some {type : MtrrType} (h : mtrrLookupOkay m iter = some type) :
    mtrrForEachMemType m iter = (type :: (mtrrForEachMemType m (mtrrLookupNext m iter)).1,
        (mtrrForEachMemType m (mtrrLookupNext m iter)).2) := by
  rw [mtrrForEachMemType]
  split <;> simp_all

def varMtrrType (m : KvmMtrr) (range : Fin KVM_NR_VAR_MTRR) : MtrrType :=
  ⟨(m.varRanges range).base.setWidth 8⟩

/-- What `partial_map` is at the end of a walk over the variable ranges. -/
def walkPartial (m : KvmMtrr) (start stop : Nat) : Nat → List (Fin KVM_NR_VAR_MTRR) → Bool
  | startMax, [] => startMax < stop
  | startMax, range :: rest =>
    if matchVarRange m start stop range then
      startMax < (varMtrrRange (m.varRanges range)).1 ||
        walkPartial m start stop (max startMax (varMtrrRange (m.varRanges range)).2) rest
    else walkPartial m start stop startMax rest

theorem mtrrForEachMemType_var (m : KvmMtrr) (iter : MtrrIter) (startMax : Nat)
    (ranges : List (Fin KVM_NR_VAR_MTRR)) :
    mtrrForEachMemType m (mtrrLookupVarNext m iter startMax ranges) =
      ((ranges.filter (matchVarRange m iter.start iter.stop)).map (varMtrrType m),
        iter.partialMap || walkPartial m iter.start iter.stop startMax ranges) := by
  induction ranges generalizing iter startMax with
  | nil =>
    rw [mtrrForEachMemType_none rfl]
    rfl
  | cons range rest ih =>
    rw [mtrrLookupVarNext, walkPartial]
    by_cases hmatch : matchVarRange m iter.start iter.stop range = true
    · rw [if_pos hmatch, if_pos hmatch, mtrrForEachMemType_some rfl]
      simp only [mtrrLookupNext]
      rw [ih, filter_cons_of_pos hmatch, Bool.or_assoc]
      rfl
    · rw [if_neg hmatch, if_neg hmatch, ih, filter_cons_of_neg hmatch]

/-- A walk that ends with `partial_map` clear has met a range for each address from `start_max`
on. -/
theorem covered_of_walkPartial {start stop startMax : Nat} {ranges : List (Fin KVM_NR_VAR_MTRR)}
    (h : walkPartial m start stop startMax ranges = false) {a : Nat} (hlo : startMax ≤ a)
    (hhi : a < stop) : ∃ range ∈ ranges, (varMtrrRange (m.varRanges range)).1 ≤ a ∧
      a < (varMtrrRange (m.varRanges range)).2 := by
  induction ranges generalizing startMax with
  | nil =>
    simp only [walkPartial, decide_eq_false_iff_not] at h
    omega
  | cons range rest ih =>
    rw [walkPartial] at h
    split at h
    · simp only [Bool.or_eq_false_iff, decide_eq_false_iff_not] at h
      by_cases hcovers : a < (varMtrrRange (m.varRanges range)).2
      · exact ⟨range, by simp, by omega, hcovers⟩
      · obtain ⟨r, hr, hcov⟩ := ih h.2 (by omega)
        exact ⟨r, by simp [hr], hcov⟩
    · obtain ⟨r, hr, hcov⟩ := ih h hlo
      exact ⟨r, by simp [hr], hcov⟩

end

theorem mtrrDisabled_mtrrLookupVarNext (m : KvmMtrr) (iter : MtrrIter) (startMax : Nat)
    (ranges : List (Fin KVM_NR_VAR_MTRR)) :
    (mtrrLookupVarNext m iter startMax ranges).mtrrDisabled = iter.mtrrDisabled := by
  induction ranges with
  | nil => rfl
  | cons range rest ih =>
    rw [mtrrLookupVarNext]
    split
    · rfl
    · exact ih

theorem mtrrLookupInit_var (henabled : mtrrIsEnabled m = true) {start stop : Nat}
    (hfixed : ¬ (fixedMtrrIsEnabled m = true ∧ start < 0x100000)) :
    mtrrLookupInit m start stop = mtrrLookupVarStart m ⟨start, stop, false, false, .done⟩ := by
  have hnone : mtrrLookupFixedStart m ⟨start, stop, false, false, .done⟩ = none := by
    unfold mtrrLookupFixedStart
    by_cases hfe : fixedMtrrIsEnabled m = true
    · have hseg : fixedMtrrAddrToSeg start = none := by
        have hstart : 0x100000 ≤ start := Nat.le_of_not_lt fun hlt => hfixed ⟨hfe, hlt⟩
        simp only [fixedMtrrAddrToSeg, fixedSegTable, findIdx?_eq_none_iff, mem_cons,
          not_mem_nil, or_false, forall_eq_or_imp, forall_eq, decide_eq_false_iff_not]
        omega
      simp [hfe, hseg]
    · simp [hfe]
  rw [mtrrLookupInit, hnone]
  simp [henabled]

/-! ## The type of a page outside the fixed ranges -/

/-- The first address of a page, and the address behind it. -/
def pageStart (gfn : BitVec 64) : Nat := (gfnToGpa gfn).toNat

def pageStop (gfn : BitVec 64) : Nat := (gfnToGpa gfn + PAGE_SIZE).toNat

def pageTypes (m : KvmMtrr) (gfn : BitVec 64) : List MtrrType :=
  (m.head.filter (matchVarRange m (pageStart gfn) (pageStop gfn))).map (varMtrrType m)

def loopType (default : MtrrType) (types : List MtrrType) : MtrrType :=
  match guestTypeLoop none types with
  | .error type => type
  | .ok type => type.getD default

/-- The page is not in an enabled fixed range. -/
def OutsideFixed (m : KvmMtrr) (gfn : BitVec 64) : Prop :=
  ¬ (fixedMtrrIsEnabled m = true ∧ pageStart gfn < 0x100000)

theorem kvmMtrrGetGuestMemoryType_var (vcpu : KvmVcpu)
    (henabled : mtrrIsEnabled m = true) {gfn : BitVec 64} (hout : OutsideFixed m gfn) :
    kvmMtrrGetGuestMemoryType vcpu m gfn = loopType (mtrrDefaultType m) (pageTypes m gfn) := by
  have hinit : mtrrLookupInit m (pageStart gfn) (pageStop gfn) =
      mtrrLookupVarNext m ⟨pageStart gfn, pageStop gfn, false, false, .done⟩ (pageStart gfn)
        m.head :=
    mtrrLookupInit_var henabled hout
  unfold kvmMtrrGetGuestMemoryType
  simp only [← pageStart.eq_1, ← pageStop.eq_1]
  rw [hinit, mtrrForEachMemType_var, mtrrDisabled_mtrrLookupVarNext]
  rfl

/-! ## Combining types -/

theorem isWtOrWb_iff (type : MtrrType) :
    isWtOrWb type = true ↔ type = .wrthrough ∨ type = .wrback := by
  have hall : ∀ byte : BitVec 8, isWtOrWb ⟨byte⟩ = true ↔
      (⟨byte⟩ : MtrrType) = .wrthrough ∨ (⟨byte⟩ : MtrrType) = .wrback := by
    decide +kernel
  exact hall type.byte

variable {type : MtrrType} {types : List MtrrType}

/-- All types are equal, or all are `WT` or `WB`: the loop goes on. -/
def Compatible (types : List MtrrType) : Prop :=
  (∃ type, ∀ t ∈ types, t = type) ∨ ∀ t ∈ types, t = .wrthrough ∨ t = .wrback

/-- What the loop returns from type `type` on. -/
def loopTypeFrom (default type : MtrrType) (types : List MtrrType) : MtrrType :=
  match guestTypeLoop (some type) types with
  | .error type => type
  | .ok type => type.getD default

theorem loopTypeFrom_cons (default type currType : MtrrType) (types : List MtrrType) :
    loopTypeFrom default type (currType :: types) =
      if type = currType then loopTypeFrom default type types
      else if currType = .uncachable then .uncachable
      else if isWtOrWb type && isWtOrWb currType then loopTypeFrom default .wrthrough types
      else .wrback := by
  unfold loopTypeFrom
  rw [guestTypeLoop]
  split_ifs <;> rfl

theorem compatible_iff (hmem : .wrthrough ∈ types) :
    Compatible types ↔ ∀ t ∈ types, t = .wrthrough ∨ t = .wrback := by
  constructor
  · rintro (⟨x, hx⟩ | hx) t ht
    · exact .inl ((hx t ht).trans (hx .wrthrough hmem).symm)
    · exact hx t ht
  · exact .inr

variable {default : MtrrType}

theorem loopTypeFrom_same (h : ∀ t ∈ types, t = type) : loopTypeFrom default type types = type := by
  induction types with
  | nil => rfl
  | cons t types ih =>
    rw [loopTypeFrom_cons, if_pos (h t (by simp)).symm]
    exact ih fun t ht => h t (by simp [ht])

theorem loopTypeFrom_wt_wb (h : ∀ t ∈ type :: types, t = .wrthrough ∨ t = .wrback)
    (hmem : .wrthrough ∈ type :: types) : loopTypeFrom default type types = .wrthrough := by
  induction types generalizing type with
  | nil =>
    cases mem_singleton.1 hmem
    rfl
  | cons t types ih =>
    simp only [forall_mem_cons] at h
    rw [loopTypeFrom_cons]
    by_cases hsame : type = t
    · rw [if_pos hsame]
      exact ih (forall_mem_cons.2 ⟨h.1, h.2.2⟩) (by simpa [hsame] using hmem)
    have hnotUc : t ≠ .uncachable := by
      rcases h.2.1 with rfl | rfl <;> decide
    have hboth : (isWtOrWb type && isWtOrWb t) = true := by
      rw [Bool.and_eq_true, isWtOrWb_iff, isWtOrWb_iff]
      exact ⟨h.1, h.2.1⟩
    rw [if_neg hsame, if_neg hnotUc, if_pos hboth]
    exact ih (forall_mem_cons.2 ⟨.inl rfl, h.2.2⟩) mem_cons_self

/-- The first `UC` decides if the types before it go together. -/
theorem loopTypeFrom_eq_uncachable_iff {before after : List MtrrType}
    (htype : type ≠ .uncachable) (hbefore : .uncachable ∉ before) :
    loopTypeFrom default type (before ++ .uncachable :: after) = .uncachable ↔
      Compatible (type :: before) := by
  have hne : MtrrType.wrthrough ≠ .uncachable ∧ MtrrType.wrback ≠ .uncachable := by decide
  induction before generalizing type with
  | nil =>
    rw [nil_append, loopTypeFrom_cons, if_neg htype]
    simp [Compatible]
  | cons t before ih =>
    have ht : t ≠ .uncachable := fun heq => hbefore (by simp [heq])
    have hbefore' : .uncachable ∉ before := fun hmem => hbefore (by simp [hmem])
    rw [cons_append, loopTypeFrom_cons]
    by_cases hsame : type = t
    · rw [if_pos hsame]
      apply (ih htype hbefore').trans
      simp [Compatible, hsame]
    rw [if_neg hsame, if_neg ht]
    by_cases hboth : (isWtOrWb type && isWtOrWb t) = true
    · rw [if_pos hboth]
      apply (ih hne.1 hbefore').trans
      rw [Bool.and_eq_true, isWtOrWb_iff, isWtOrWb_iff] at hboth
      have hmem : MtrrType.wrthrough ∈ type :: t :: before := by grind
      rw [compatible_iff mem_cons_self, compatible_iff hmem]
      simp [hboth]
    · rw [if_neg hboth]
      rw [Bool.and_eq_true, isWtOrWb_iff, isWtOrWb_iff] at hboth
      simp only [hne.2, false_iff]
      rintro (⟨x, hx⟩ | hx)
      · exact hsame ((hx type (by simp)).trans (hx t (by simp)).symm)
      · exact hboth ⟨hx type (by simp), hx t (by simp)⟩

theorem loopTypeFrom_uncachable
    (h : ∃ t ∈ types, t ≠ .uncachable) : loopTypeFrom default .uncachable types = .wrback := by
  induction types with
  | nil => simp at h
  | cons t types ih =>
    rw [loopTypeFrom_cons]
    by_cases hsame : MtrrType.uncachable = t
    · rw [if_pos hsame]
      obtain ⟨x, hx, hne⟩ := h
      rcases mem_cons.1 hx with rfl | hx
      · exact absurd hsame.symm hne
      · exact ih ⟨x, hx, hne⟩
    · have hnot : isWtOrWb .uncachable = false := by decide
      rw [if_neg hsame, if_neg (Ne.symm hsame), hnot, Bool.false_and, if_neg (by decide)]

/-! ## The precedence rules -/

def KvmMtrr.Matches (m : KvmMtrr) (gfn : BitVec 64) (range : Fin KVM_NR_VAR_MTRR) : Prop :=
  varMtrrRangeIsValid (m.varRanges range) = true ∧
    matchVarRange m (pageStart gfn) (pageStop gfn) range = true

instance (m : KvmMtrr) (gfn : BitVec 64) (range : Fin KVM_NR_VAR_MTRR) :
    Decidable (m.Matches gfn range) :=
  inferInstanceAs (Decidable (_ ∧ _))

/-- The precedences of Intel SDM 11.11.4.1 for the type of a page. -/
structure Precedence (m : KvmMtrr) (gfn : BitVec 64) (type : MtrrType) : Prop where
  uc : (∃ range, m.Matches gfn range ∧ varMtrrType m range = .uncachable) → type = .uncachable
  wt : (∀ range, m.Matches gfn range →
      varMtrrType m range = .wrthrough ∨ varMtrrType m range = .wrback) →
    (∃ range, m.Matches gfn range ∧ varMtrrType m range = .wrthrough) →
    (∃ range, m.Matches gfn range ∧ varMtrrType m range = .wrback) → type = .wrthrough
  same : ∀ t, (∃ range, m.Matches gfn range) →
    (∀ range, m.Matches gfn range → varMtrrType m range = t) → type = t

/-- No matching range is `UC`, or all are; or there are matching ranges above the highest `UC` one,
and their types are equal or all `WT` or `WB`. -/
def UcDecides (m : KvmMtrr) (gfn : BitVec 64) : Prop :=
  (∀ range, m.Matches gfn range → varMtrrType m range ≠ .uncachable) ∨
  (∀ range, m.Matches gfn range → varMtrrType m range = .uncachable) ∨
  ∃ uc, m.Matches gfn uc ∧ varMtrrType m uc = .uncachable ∧
    (∀ range, m.Matches gfn range → varMtrrType m range = .uncachable →
      (m.varRanges range).base ≤ (m.varRanges uc).base) ∧
    (∃ range, m.Matches gfn range ∧ (m.varRanges uc).base < (m.varRanges range).base) ∧
    ((∃ t, ∀ range, m.Matches gfn range → (m.varRanges uc).base < (m.varRanges range).base →
        varMtrrType m range = t) ∨
      ∀ range, m.Matches gfn range → (m.varRanges uc).base < (m.varRanges range).base →
        varMtrrType m range = .wrthrough ∨ varMtrrType m range = .wrback)

section
variable {m : KvmMtrr} {gfn : BitVec 64}

/-- The ranges the loop sees for a page. -/
def pageRanges (m : KvmMtrr) (gfn : BitVec 64) : List (Fin KVM_NR_VAR_MTRR) :=
  m.head.filter (matchVarRange m (pageStart gfn) (pageStop gfn))

theorem KvmMtrr.Listed.mem_pageRanges (h : m.Listed) {range : Fin KVM_NR_VAR_MTRR} :
    range ∈ pageRanges m gfn ↔ m.Matches gfn range := by
  rw [pageRanges, mem_filter, h.mem_iff]
  rfl

theorem loopType_cons (default type : MtrrType) (types : List MtrrType) :
    loopType default (type :: types) = loopTypeFrom default type types := rfl

variable {default : MtrrType} {types : List MtrrType}

theorem loopType_same {t : MtrrType} (hne : types ≠ []) (h : ∀ x ∈ types, x = t) :
    loopType default types = t := by
  obtain ⟨type, types, rfl⟩ := exists_cons_of_ne_nil hne
  obtain ⟨rfl, hsame⟩ := forall_mem_cons.1 h
  exact loopTypeFrom_same hsame

theorem KvmMtrr.Listed.loopType_all (h : m.Listed) {t : MtrrType} (hex : ∃ r, m.Matches gfn r)
    (hall : ∀ r, m.Matches gfn r → varMtrrType m r = t) :
    loopType default (pageTypes m gfn) = t := by
  obtain ⟨range, hmatch⟩ := hex
  apply loopType_same (ne_nil_of_mem (mem_map_of_mem (h.mem_pageRanges.2 hmatch)))
  intro x hx
  obtain ⟨r, hr, rfl⟩ := mem_map.1 hx
  exact hall r (h.mem_pageRanges.1 hr)

theorem loopType_wt_wb (h : ∀ x ∈ types, x = .wrthrough ∨ x = .wrback) (hmem : .wrthrough ∈ types) :
    loopType default types = .wrthrough := by
  cases types with
  | nil => simp at hmem
  | cons type types => exact loopTypeFrom_wt_wb h hmem

/-- The two rules without `UC` always hold. -/
theorem KvmMtrr.Listed.precedence_iff (h : m.Listed) (default : MtrrType) :
    Precedence m gfn (loopType default (pageTypes m gfn)) ↔
      ((∃ range, m.Matches gfn range ∧ varMtrrType m range = .uncachable) →
        loopType default (pageTypes m gfn) = .uncachable) := by
  refine ⟨fun hprec => hprec.uc, fun huc => ⟨huc, ?_, ?_⟩⟩
  · intro hall ⟨range, hmatch, htype⟩ _
    apply loopType_wt_wb
    · intro x hx
      obtain ⟨r, hr, rfl⟩ := mem_map.1 hx
      exact hall r (h.mem_pageRanges.1 hr)
    · exact mem_map.2 ⟨range, h.mem_pageRanges.2 hmatch, htype⟩
  · exact fun t hex hall => h.loopType_all hex hall

/-- The list of a page split at its first `UC` range: what comes before has higher bases. -/
theorem KvmMtrr.Listed.split_first_uc (h : m.Listed)
    (hex : ∃ range, m.Matches gfn range ∧ varMtrrType m range = .uncachable) :
    ∃ before uc after, pageRanges m gfn = before ++ uc :: after ∧
      varMtrrType m uc = .uncachable ∧ (∀ r ∈ before, varMtrrType m r ≠ .uncachable) ∧
      ∀ r, m.Matches gfn r → ((m.varRanges uc).base < (m.varRanges r).base ↔ r ∈ before) := by
  obtain ⟨range, hmatch, huc⟩ := hex
  have hfind : ((pageRanges m gfn).find? fun r => varMtrrType m r == .uncachable).isSome := by
    rw [find?_isSome]
    exact ⟨range, h.mem_pageRanges.2 hmatch, by simpa using huc⟩
  obtain ⟨uc, hsome⟩ := Option.isSome_iff_exists.1 hfind
  obtain ⟨htype, before, after, hsplit, hbefore⟩ := find?_eq_some_iff_append.1 hsome
  have htype : varMtrrType m uc = .uncachable := by simpa using htype
  have hbefore : ∀ r ∈ before, varMtrrType m r ≠ .uncachable := by simpa using hbefore
  refine ⟨before, uc, after, hsplit, htype, hbefore, fun r hr => ?_⟩
  have hsorted : (pageRanges m gfn).Pairwise fun a b =>
      (m.varRanges b).base ≤ (m.varRanges a).base := h.sorted.sublist filter_sublist
  rw [hsplit, pairwise_append, pairwise_cons] at hsorted
  obtain ⟨-, ⟨hafter, -⟩, hcross⟩ := hsorted
  constructor
  · intro hlt
    have hmem := h.mem_pageRanges.2 hr
    rw [hsplit, mem_append, mem_cons] at hmem
    rcases hmem with hmem | rfl | hmem
    · exact hmem
    · exact absurd hlt (BitVec.lt_irrefl _)
    · exact absurd (hafter r hmem) (BitVec.not_le.2 hlt)
  · intro hmem
    have hle := hcross r hmem uc (by simp)
    -- The type is part of the base, so a range with the same base would be `UC` too.
    apply BitVec.lt_of_le_ne hle
    intro heq
    apply hbefore r hmem
    rw [← htype, varMtrrType, varMtrrType, heq]

variable {before after : List (Fin KVM_NR_VAR_MTRR)} {uc : Fin KVM_NR_VAR_MTRR}

/-- With some but not all of the matching ranges `UC`, the loop returns `UC` if there are ranges
before the first `UC` one and their types go together. -/
theorem loopType_eq_uncachable_iff (hsplit : pageRanges m gfn = before ++ uc :: after)
    (htype : varMtrrType m uc = .uncachable) (hbefore : ∀ r ∈ before, varMtrrType m r ≠ .uncachable)
    (hother : ∃ r ∈ pageRanges m gfn, varMtrrType m r ≠ .uncachable) :
    loopType default (pageTypes m gfn) = .uncachable ↔
      before ≠ [] ∧ Compatible (before.map (varMtrrType m)) := by
  have htypes : pageTypes m gfn =
      before.map (varMtrrType m) ++ .uncachable :: after.map (varMtrrType m) := by
    rw [pageTypes, ← pageRanges, hsplit, map_append, map_cons, htype]
  rw [htypes]
  cases before with
  | nil =>
    have hafter : ∃ t ∈ after.map (varMtrrType m), t ≠ .uncachable := by
      obtain ⟨r, hr, hne⟩ := hother
      rw [hsplit] at hr
      rcases mem_cons.1 hr with rfl | hr
      · exact absurd htype hne
      · exact ⟨_, mem_map_of_mem hr, hne⟩
    have hne : MtrrType.wrback ≠ .uncachable := by decide
    rw [map_nil, nil_append, loopType_cons, loopTypeFrom_uncachable hafter]
    simp [hne]
  | cons first before =>
    have hnotMem : .uncachable ∉ before.map (varMtrrType m) := by
      intro hmem
      obtain ⟨r, hr, heq⟩ := mem_map.1 hmem
      exact hbefore r (by simp [hr]) heq
    rw [map_cons, cons_append, loopType_cons,
      loopTypeFrom_eq_uncachable_iff (hbefore first (by simp)) hnotMem]
    simp

/-- The condition, with the list of the page split at its first `UC` range. -/
theorem KvmMtrr.Listed.ucDecides_iff (h : m.Listed)
    (hsplit : pageRanges m gfn = before ++ uc :: after) (htype : varMtrrType m uc = .uncachable)
    (habove : ∀ r, m.Matches gfn r → ((m.varRanges uc).base < (m.varRanges r).base ↔ r ∈ before))
    (hbefore : ∀ r ∈ before, varMtrrType m r ≠ .uncachable)
    (hother : ∃ r ∈ pageRanges m gfn, varMtrrType m r ≠ .uncachable) :
    UcDecides m gfn ↔ before ≠ [] ∧ Compatible (before.map (varMtrrType m)) := by
  have hmatches : ∀ r ∈ before, m.Matches gfn r := fun r hr =>
    h.mem_pageRanges.1 (by rw [hsplit]; simp [hr])
  have huc : m.Matches gfn uc := h.mem_pageRanges.1 (by rw [hsplit]; simp)
  have htop : ∀ r, m.Matches gfn r → varMtrrType m r = .uncachable →
      (m.varRanges r).base ≤ (m.varRanges uc).base := by
    intro r hr hrType
    by_contra hlt
    exact hbefore r ((habove r hr).1 (BitVec.not_le.1 hlt)) hrType
  have hforall : ∀ P : Fin KVM_NR_VAR_MTRR → Prop, (∀ r, m.Matches gfn r →
      (m.varRanges uc).base < (m.varRanges r).base → P r) ↔ ∀ r ∈ before, P r := fun P =>
    ⟨fun hP r hr => hP r (hmatches r hr) ((habove r (hmatches r hr)).2 hr),
      fun hP r hr hlt => hP r ((habove r hr).1 hlt)⟩
  simp only [Compatible, mem_map, forall_exists_index, and_imp, forall_apply_eq_imp_iff₂]
  constructor
  · rintro (hnone | hall | ⟨top, hmatch, htopType, hmax, ⟨r, hr, hlt⟩, hcompat⟩)
    · exact absurd htype (hnone uc huc)
    · obtain ⟨r, hr, hne⟩ := hother
      exact absurd (hall r (h.mem_pageRanges.1 hr)) hne
    -- The highest `UC` range has the base of the first one in the list.
    have hbase : (m.varRanges top).base = (m.varRanges uc).base :=
      BitVec.le_antisymm (htop top hmatch htopType) (hmax uc huc htype)
    simp only [hbase, hforall] at hlt hcompat
    exact ⟨ne_nil_of_mem ((habove r hr).1 hlt), hcompat⟩
  · intro ⟨hne, hcompat⟩
    obtain ⟨first, hfirst⟩ := exists_mem_of_ne_nil before hne
    have hfirst' := hmatches first hfirst
    refine .inr (.inr ⟨uc, huc, htype, htop, ⟨first, hfirst', (habove first hfirst').2 hfirst⟩, ?_⟩)
    simpa only [hforall] using hcompat

end

/-- After every sequence of writes, the type of a page outside the fixed ranges obeys the precedence
rules for exactly these registers. -/
theorem kvmMtrrGetGuestMemoryType_precedence_iff (vcpu : KvmVcpu) (writes : List (Nat × BitVec 64))
    (gfn : BitVec 64) (henabled : mtrrIsEnabled (kvmMtrrWrites vcpu writes) = true)
    (hout : OutsideFixed (kvmMtrrWrites vcpu writes) gfn) :
    Precedence (kvmMtrrWrites vcpu writes) gfn
        (kvmMtrrGetGuestMemoryType vcpu (kvmMtrrWrites vcpu writes) gfn) ↔
      UcDecides (kvmMtrrWrites vcpu writes) gfn := by
  have hlisted := listed_kvmMtrrWrites vcpu writes
  generalize kvmMtrrWrites vcpu writes = m at *
  rw [kvmMtrrGetGuestMemoryType_var vcpu henabled hout, hlisted.precedence_iff]
  by_cases hex : ∃ range, m.Matches gfn range ∧ varMtrrType m range = .uncachable
  · rw [forall_prop_of_true hex]
    by_cases hall : ∀ range, m.Matches gfn range → varMtrrType m range = .uncachable
    · obtain ⟨range, hmatch, -⟩ := hex
      exact ⟨fun _ => .inr (.inl hall), fun _ => hlisted.loopType_all ⟨range, hmatch⟩ hall⟩
    have hother : ∃ r ∈ pageRanges m gfn, varMtrrType m r ≠ .uncachable := by
      simp only [not_forall, exists_prop] at hall
      obtain ⟨r, hr, hne⟩ := hall
      exact ⟨r, hlisted.mem_pageRanges.2 hr, hne⟩
    obtain ⟨before, uc, after, hsplit, htype, hbefore, habove⟩ := hlisted.split_first_uc hex
    rw [loopType_eq_uncachable_iff hsplit htype hbefore hother,
      hlisted.ucDecides_iff hsplit htype habove hbefore hother]
  · refine ⟨fun _ => .inl fun range hmatch huc => hex ⟨range, hmatch, huc⟩, fun _ hyes => ?_⟩
    exact absurd hyes hex

def sampleVcpu : KvmVcpu := ⟨0xfffffff000000000, true⟩

/-- `UC` from 0 to 4GB and `WB` from 2GB to 4GB. -/
def lowUcWrites : List (Nat × BitVec 64) :=
  [(0x200, 0), (0x201, 0xf00000800), (0x202, 0x80000006), (0x203, 0xf80000800), (0x2ff, 0x806)]

theorem kvmMtrrGetGuestMemoryType_precedence_lowUc :
    Precedence (kvmMtrrWrites sampleVcpu lowUcWrites) 0x80000
      (kvmMtrrGetGuestMemoryType sampleVcpu (kvmMtrrWrites sampleVcpu lowUcWrites) 0x80000) := by
  apply (kvmMtrrGetGuestMemoryType_precedence_iff sampleVcpu lowUcWrites 0x80000 (by decide +kernel)
    (by unfold OutsideFixed; decide +kernel)).2
  refine .inr (.inr ⟨0, by decide +kernel, by decide +kernel, by decide +kernel,
    ⟨1, by decide +kernel, by decide +kernel⟩, .inl ⟨.wrback, by decide +kernel⟩⟩)

/-- `WB` from 0 to 4GB and `UC` from 2GB to 4GB. -/
def highUcWrites : List (Nat × BitVec 64) :=
  [(0x200, 6), (0x201, 0xf00000800), (0x202, 0x80000000), (0x203, 0xf80000800), (0x2ff, 0x806)]

/-- The `UC` range has the higher base and is met first: the page gets `WB`. -/
theorem kvmMtrrGetGuestMemoryType_highUc :
    (∀ write ∈ highUcWrites, kvmMtrrValid sampleVcpu write.1 write.2 = true) ∧
    mtrrIsEnabled (kvmMtrrWrites sampleVcpu highUcWrites) = true ∧
    OutsideFixed (kvmMtrrWrites sampleVcpu highUcWrites) 0x80000 ∧
    (kvmMtrrWrites sampleVcpu highUcWrites).Matches 0x80000 1 ∧
    varMtrrType (kvmMtrrWrites sampleVcpu highUcWrites) 1 = .uncachable ∧
    kvmMtrrGetGuestMemoryType sampleVcpu (kvmMtrrWrites sampleVcpu highUcWrites) 0x80000 =
      .wrback := by
  unfold OutsideFixed
  decide +kernel

end LinuxKernel.X86
