import LinuxKernel.X86.Mtrr

/-!
# KVM: the MTRRs of a guest

`arch/x86/kvm/mtrr.c`. The guest writes its MTRRs as MSRs; the enabled variable ranges are kept in a
list, in the order of descending bases. An iterator visits the memory types of the fixed and then of
the variable ranges that a region meets, and from them `kvm_mtrr_get_guest_memory_type` finds the
type of one page, and `kvm_mtrr_check_gfn_range_consistency` whether a large page has one type.

Addresses are numbers below 2^64. The iterator's `union` holds the members for the fixed ranges
while its flag `fixed` is set and those for the variable ranges while it is not, so it is one of the
alternatives of `MtrrPos`. `update_mtrr` only drops page table entries and is left out.
-/

namespace LinuxKernel.X86

abbrev KVM_NR_VAR_MTRR : Nat := 8

def KVM_NR_FIXED_MTRR_REGION : Nat := 88

def MSR_MTRRfix64K_00000 : Nat := 0x250
def MSR_MTRRfix16K_80000 : Nat := 0x258
def MSR_MTRRfix16K_A0000 : Nat := 0x259
def MSR_MTRRfix4K_C0000 : Nat := 0x268
def MSR_MTRRfix4K_F8000 : Nat := 0x26f
def MSR_MTRRdefType : Nat := 0x2ff

def mtrrPhysBaseMsr (reg : Nat) : Nat := 0x200 + 2 * reg

def mtrrPhysMaskMsr (reg : Nat) : Nat := 0x200 + 2 * reg + 1

/-- What the MTRR code asks the virtual CPU: `kvm_vcpu_reserved_gpa_bits_raw` and
`guest_cpuid_has(X86_FEATURE_MTRR)`. -/
structure KvmVcpu where
  reservedGpaBitsRaw : BitVec 64
  guestHasMtrr : Bool

/-- `struct kvm_mtrr_range` without its node. -/
structure KvmMtrrRange where
  base : BitVec 64
  mask : BitVec 64
  deriving DecidableEq, Repr

/-- `struct kvm_mtrr`. A node of the list is the index of its range. -/
structure KvmMtrr where
  varRanges : Fin KVM_NR_VAR_MTRR → KvmMtrrRange
  fixedRanges : List MtrrType
  deftype : BitVec 64
  head : List (Fin KVM_NR_VAR_MTRR)

/-- The state of a new virtual CPU: zeroed memory, and `kvm_vcpu_mtrr_init`. -/
def kvmVcpuMtrrInit : KvmMtrr where
  varRanges := fun _ => ⟨0, 0⟩
  fixedRanges := List.replicate KVM_NR_FIXED_MTRR_REGION .uncachable
  deftype := 0
  head := []

/-! ## Writing the registers -/

def isMtrrBaseMsr (msr : Nat) : Bool := msr % 2 = 0

def varMtrrMsrToRange (msr : Nat) : Fin KVM_NR_VAR_MTRR :=
  Fin.ofNat KVM_NR_VAR_MTRR ((msr - mtrrPhysBaseMsr 0) / 2)

def msrMtrrValid (msr : Nat) : Bool :=
  (mtrrPhysBaseMsr 0 ≤ msr && msr ≤ mtrrPhysMaskMsr (KVM_NR_VAR_MTRR - 1)) ||
    msr = MSR_MTRRfix64K_00000 || msr = MSR_MTRRfix16K_80000 || msr = MSR_MTRRfix16K_A0000 ||
    (MSR_MTRRfix4K_C0000 ≤ msr && msr ≤ MSR_MTRRfix4K_F8000) || msr = MSR_MTRRdefType

def validMtrrType (t : BitVec 8) : Bool :=
  t.toNat < 8 && (1 <<< t.toNat) &&& 0x73 ≠ 0

def msrByte (data : BitVec 64) (i : Nat) : BitVec 8 := (data >>> (i * 8)).setWidth 8

def kvmMtrrValid (vcpu : KvmVcpu) (msr : Nat) (data : BitVec 64) : Bool :=
  if !msrMtrrValid msr then
    false
  else if msr = MSR_MTRRdefType then
    if data &&& ~~~0xcff#64 ≠ 0 then false else validMtrrType (msrByte data 0)
  else if MSR_MTRRfix64K_00000 ≤ msr ∧ msr ≤ MSR_MTRRfix4K_F8000 then
    (List.range 8).all fun i => validMtrrType (msrByte data i)
  else if isMtrrBaseMsr msr then
    validMtrrType (msrByte data 0) && data &&& (vcpu.reservedGpaBitsRaw ||| 0xf00#64) = 0
  else
    data &&& (vcpu.reservedGpaBitsRaw ||| 0x7ff#64) = 0

/-- The index of the first of the eight fixed ranges of an MSR: the start of the segment and the
eight ranges of each unit before. -/
def fixedMsrToRangeIndex (msr : Nat) : Option Nat :=
  if msr = MSR_MTRRfix64K_00000 then some 0
  else if MSR_MTRRfix16K_80000 ≤ msr ∧ msr ≤ MSR_MTRRfix16K_A0000 then
    some (8 + 8 * (msr - MSR_MTRRfix16K_80000))
  else if MSR_MTRRfix4K_C0000 ≤ msr ∧ msr ≤ MSR_MTRRfix4K_F8000 then
    some (24 + 8 * (msr - MSR_MTRRfix4K_C0000))
  else none

def varMtrrRangeIsValid (range : KvmMtrrRange) : Bool :=
  range.mask &&& (1 <<< 11 : BitVec 64) ≠ 0

/-- The list is searched for the first range whose base is not above the new one, which goes in
front of it. -/
def setVarMtrrMsr (vcpu : KvmVcpu) (m : KvmMtrr) (msr : Nat) (data : BitVec 64) : KvmMtrr :=
  let cur := varMtrrMsrToRange msr
  -- remove the entry if it's in the list.
  let head := if varMtrrRangeIsValid (m.varRanges cur) then m.head.erase cur else m.head
  let range : KvmMtrrRange :=
    if isMtrrBaseMsr msr then { m.varRanges cur with base := data }
    else { m.varRanges cur with mask := data ||| vcpu.reservedGpaBitsRaw }
  let varRanges := Function.update m.varRanges cur range
  -- add it to the list if it's enabled.
  let head :=
    if varMtrrRangeIsValid range then
      head.orderedInsert (fun a b => (varRanges b).base ≤ (varRanges a).base) cur
    else head
  { m with varRanges := varRanges, head := head }

/-- `none` when the function returns 1. -/
def kvmMtrrSetMsr (vcpu : KvmVcpu) (m : KvmMtrr) (msr : Nat) (data : BitVec 64) : Option KvmMtrr :=
  if !kvmMtrrValid vcpu msr data then
    none
  else
    match fixedMsrToRangeIndex msr with
    | some index =>
      some { m with
        fixedRanges := (List.range 8).foldl
          (fun ranges i => ranges.set (index + i) ⟨msrByte data i⟩)
          m.fixedRanges }
    | none =>
      if msr = MSR_MTRRdefType then some { m with deftype := data }
      else some (setVarMtrrMsr vcpu m msr data)

def kvmMtrrWrites (vcpu : KvmVcpu) (writes : List (Nat × BitVec 64)) : KvmMtrr :=
  writes.foldl (fun m write => (kvmMtrrSetMsr vcpu m write.1 write.2).getD m) kvmVcpuMtrrInit

/-! ## The segments of the fixed ranges -/

structure FixedMtrrSegment where
  start : Nat
  stop : Nat
  rangeShift : Nat
  rangeStart : Nat
  deriving DecidableEq, Repr

/-- `fixed_seg_table`: 64K, 16K and 4K ranges. -/
def fixedSegTable : List FixedMtrrSegment :=
  [⟨0x0, 0x80000, 16, 0⟩, ⟨0x80000, 0xc0000, 14, 8⟩, ⟨0xc0000, 0x100000, 12, 24⟩]

def fixedSeg (seg : Nat) : FixedMtrrSegment := fixedSegTable.getD seg ⟨0, 0, 0, 0⟩

def fixedMtrrSegEndRangeIndex (seg : Nat) : Nat :=
  (fixedSeg seg).rangeStart +
    (((fixedSeg seg).stop - (fixedSeg seg).start) >>> (fixedSeg seg).rangeShift) - 1

/-- `none` for the result -1. -/
def fixedMtrrAddrToSeg (addr : Nat) : Option Nat :=
  fixedSegTable.findIdx? fun seg => decide (seg.start ≤ addr ∧ addr < seg.stop)

def fixedMtrrAddrSegToRangeIndex (addr seg : Nat) : Nat :=
  (fixedSeg seg).rangeStart + ((addr - (fixedSeg seg).start) >>> (fixedSeg seg).rangeShift)

def fixedMtrrRangeEndAddr (seg index : Nat) : Nat :=
  (fixedSeg seg).start + ((index - (fixedSeg seg).rangeStart + 1) <<< (fixedSeg seg).rangeShift)

/-! ## The iterator -/

def IA32_MTRR_DEF_TYPE_E : BitVec 64 := 1 <<< 11
def IA32_MTRR_DEF_TYPE_FE : BitVec 64 := 1 <<< 10

def mtrrIsEnabled (m : KvmMtrr) : Bool := m.deftype &&& IA32_MTRR_DEF_TYPE_E ≠ 0

def fixedMtrrIsEnabled (m : KvmMtrr) : Bool := m.deftype &&& IA32_MTRR_DEF_TYPE_FE ≠ 0

def mtrrDefaultType (m : KvmMtrr) : MtrrType := ⟨m.deftype.setWidth 8⟩

def mtrrDisabledType (vcpu : KvmVcpu) : MtrrType :=
  if vcpu.guestHasMtrr then .uncachable else .wrback

def varMtrrRange (range : KvmMtrrRange) : Nat × Nat :=
  let start := range.base &&& PAGE_MASK
  let mask := range.mask &&& PAGE_MASK
  (start.toNat, ((start ||| ~~~mask) + 1).toNat)

/-- The private fields of the iterator: the index and the segment of a fixed range; or a variable
range with the rest of the list, and `start_max`; or no range. -/
inductive MtrrPos
  | fixed (index seg : Nat)
  | var (range : Fin KVM_NR_VAR_MTRR) (rest : List (Fin KVM_NR_VAR_MTRR)) (startMax : Nat)
  | done

structure MtrrIter where
  start : Nat
  stop : Nat
  mtrrDisabled : Bool
  partialMap : Bool
  pos : MtrrPos

def matchVarRange (m : KvmMtrr) (start stop : Nat) (range : Fin KVM_NR_VAR_MTRR) : Bool :=
  !(stop ≤ (varMtrrRange (m.varRanges range)).1 || (varMtrrRange (m.varRanges range)).2 ≤ start)

/-- `__mtrr_lookup_var_next`, and what `match_var_range` does to the iterator at a match. -/
def mtrrLookupVarNext (m : KvmMtrr) (iter : MtrrIter) (startMax : Nat) :
    List (Fin KVM_NR_VAR_MTRR) → MtrrIter
  | [] => { iter with partialMap := iter.partialMap || startMax < iter.stop, pos := .done }
  | range :: rest =>
    if matchVarRange m iter.start iter.stop range then
      { iter with
        partialMap := iter.partialMap || startMax < (varMtrrRange (m.varRanges range)).1
        pos := .var range rest (max startMax (varMtrrRange (m.varRanges range)).2) }
    else
      mtrrLookupVarNext m iter startMax rest

def mtrrLookupVarStart (m : KvmMtrr) (iter : MtrrIter) : MtrrIter :=
  mtrrLookupVarNext m iter iter.start m.head

def mtrrLookupFixedNext (m : KvmMtrr) (iter : MtrrIter) (index seg : Nat) : MtrrIter :=
  -- terminate the lookup.
  if iter.stop ≤ fixedMtrrRangeEndAddr seg index then { iter with pos := .done }
  -- have looked up for all fixed MTRRs.
  else if KVM_NR_FIXED_MTRR_REGION ≤ index + 1 then mtrrLookupVarStart m iter
  -- switch to next segment.
  else if fixedMtrrSegEndRangeIndex seg < index + 1 then
    { iter with pos := .fixed (index + 1) (seg + 1) }
  else { iter with pos := .fixed (index + 1) seg }

/-- `mtrr_lookup_fixed_start`, `none` when it returns false. -/
def mtrrLookupFixedStart (m : KvmMtrr) (iter : MtrrIter) : Option MtrrIter :=
  if !fixedMtrrIsEnabled m then none
  else
    (fixedMtrrAddrToSeg iter.start).map fun seg =>
      { iter with pos := .fixed (fixedMtrrAddrSegToRangeIndex iter.start seg) seg }

def mtrrLookupInit (m : KvmMtrr) (start stop : Nat) : MtrrIter :=
  let iter : MtrrIter := ⟨start, stop, false, false, .done⟩
  if !mtrrIsEnabled m then { iter with mtrrDisabled := true }
  else (mtrrLookupFixedStart m iter).getD (mtrrLookupVarStart m iter)

/-- The memory type at the iterator, or `none` when `mtrr_lookup_okay` returns false. -/
def mtrrLookupOkay (m : KvmMtrr) (iter : MtrrIter) : Option MtrrType :=
  match iter.pos with
  | .fixed index _ => some (m.fixedRanges.getD index .uncachable)
  | .var range _ _ => some ⟨(m.varRanges range).base.setWidth 8⟩
  | .done => none

def mtrrLookupNext (m : KvmMtrr) (iter : MtrrIter) : MtrrIter :=
  match iter.pos with
  | .fixed index seg => mtrrLookupFixedNext m iter index seg
  | .var _ rest startMax => mtrrLookupVarNext m iter startMax rest
  | .done => iter

/-- How many ranges the iterator can still visit. -/
def MtrrIter.left (m : KvmMtrr) (iter : MtrrIter) : Nat :=
  match iter.pos with
  | .fixed index _ => KVM_NR_FIXED_MTRR_REGION - index + m.head.length + 1
  | .var _ rest _ => rest.length + 1
  | .done => 0

theorem left_mtrrLookupVarNext_le (m : KvmMtrr) (iter : MtrrIter) (startMax : Nat)
    (ranges : List (Fin KVM_NR_VAR_MTRR)) :
    (mtrrLookupVarNext m iter startMax ranges).left m ≤ ranges.length := by
  induction ranges with
  | nil => simp [mtrrLookupVarNext, MtrrIter.left]
  | cons range rest ih =>
    rw [mtrrLookupVarNext]
    split
    · simp [MtrrIter.left]
    · rw [List.length_cons]
      omega

theorem left_mtrrLookupNext_lt {m : KvmMtrr} {iter : MtrrIter} {type : MtrrType}
    (h : mtrrLookupOkay m iter = some type) : (mtrrLookupNext m iter).left m < iter.left m := by
  obtain ⟨start, stop, disabled, partialMap, pos⟩ := iter
  cases pos with
  | fixed index seg =>
    simp only [mtrrLookupNext, mtrrLookupFixedNext]
    split_ifs with hend hall hseg
    · simp [MtrrIter.left]
    · have hle := left_mtrrLookupVarNext_le m
        ⟨start, stop, disabled, partialMap, .fixed index seg⟩ start m.head
      simp only [MtrrIter.left, mtrrLookupVarStart] at hle ⊢
      omega
    · simp only [MtrrIter.left]
      omega
    · simp only [MtrrIter.left]
      omega
  | var range rest startMax =>
    have hle := left_mtrrLookupVarNext_le m
      ⟨start, stop, disabled, partialMap, .var range rest startMax⟩ startMax rest
    simp only [mtrrLookupNext, MtrrIter.left] at hle ⊢
    omega
  | done => simp [mtrrLookupOkay] at h

/-- The types the loop sees when no round leaves it, and `partial_map` at
its end. -/
def mtrrForEachMemType (m : KvmMtrr) (iter : MtrrIter) : List MtrrType × Bool :=
  match _h : mtrrLookupOkay m iter with
  | none => ([], iter.partialMap)
  | some type =>
    (type :: (mtrrForEachMemType m (mtrrLookupNext m iter)).1,
      (mtrrForEachMemType m (mtrrLookupNext m iter)).2)
termination_by iter.left m
decreasing_by all_goals exact left_mtrrLookupNext_lt _h

/-! ## The type of a page -/

def gfnToGpa (gfn : BitVec 64) : BitVec 64 := gfn <<< 12

def PAGE_SIZE : BitVec 64 := 4096

def isWtOrWb (type : MtrrType) : Bool :=
  (1 <<< type.byte.toNat) &&&
    (1 <<< MtrrType.wrback.byte.toNat ||| 1 <<< MtrrType.wrthrough.byte.toNat)
    ≠ 0

/-- The body of the loop in `kvm_mtrr_get_guest_memory_type`; the type -1 is `none`, and an error is
a `return` inside the loop. -/
def guestTypeLoop : Option MtrrType → List MtrrType → Except MtrrType (Option MtrrType)
  | type, [] => .ok type
  | none, currType :: types => guestTypeLoop (some currType) types
  | some type, currType :: types =>
    if type = currType then guestTypeLoop (some type) types
    else if currType = .uncachable then .error .uncachable
    else if isWtOrWb type && isWtOrWb currType then guestTypeLoop (some .wrthrough) types
    -- We use WB for this undefined behavior. :(
    else .error .wrback

def kvmMtrrGetGuestMemoryType (vcpu : KvmVcpu) (m : KvmMtrr) (gfn : BitVec 64) : MtrrType :=
  let start := gfnToGpa gfn
  let stop := start + PAGE_SIZE
  let iter := mtrrLookupInit m start.toNat stop.toNat
  match guestTypeLoop none (mtrrForEachMemType m iter).1 with
  | .error type => type
  | .ok type =>
    if iter.mtrrDisabled then mtrrDisabledType vcpu
    -- not contained in any MTRRs.
    else type.getD (mtrrDefaultType m)

def consistencyLoop : Option MtrrType → List MtrrType → Option (Option MtrrType)
  | type, [] => some type
  | none, memType :: types => consistencyLoop (some memType) types
  | some type, memType :: types =>
    if type ≠ memType then none else consistencyLoop (some type) types

/-- `page_num` is an `int`. -/
def kvmMtrrCheckGfnRangeConsistency (m : KvmMtrr) (gfn : BitVec 64) (pageNum : BitVec 32) : Bool :=
  let start := gfnToGpa gfn
  let stop := gfnToGpa (gfn + pageNum.signExtend 64)
  let iter := mtrrLookupInit m start.toNat stop.toNat
  let (types, partialMap) := mtrrForEachMemType m iter
  match consistencyLoop none types with
  | none => false
  | some type =>
    if iter.mtrrDisabled then true
    else if !partialMap then true
    else
      match type with
      | none => true
      | some type => type == mtrrDefaultType m

end LinuxKernel.X86
