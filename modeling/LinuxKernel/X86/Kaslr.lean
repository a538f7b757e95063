import Mathlib

/-!
# Choosing a random place for the kernel

`arch/x86/boot/compressed/kaslr.c` cuts the RAM entries of the e820 table at the ranges that must
not be overwritten. What is left is stored as areas of slots, and one slot of all areas is chosen
at random. Addresses are 64-bit words.
-/

namespace LinuxKernel.X86.Kaslr

open List Nat Option

/-! ## Words -/

def wadd (a b : Nat) : Nat := (a + b) % 2 ^ 64

def wsub (a b : Nat) : Nat := (a + 2 ^ 64 - b) % 2 ^ 64

def align (x a : Nat) : Nat := wadd x (a - 1) / a * a

def alignDown (x a : Nat) : Nat := x / a * a

/-! ## Memory to avoid -/

structure MemVector where
  start : Nat
  size : Nat
  deriving DecidableEq, Repr

def MemVector.stop (v : MemVector) : Nat := wadd v.start v.size

def memOverlaps (one two : MemVector) : Bool :=
  if one.stop ≤ two.start then false
  else if two.stop ≤ one.start then false
  else true

structure SetupIndirect where
  type : Nat
  len : Nat
  addr : Nat
  deriving DecidableEq, Repr

/-- A `struct setup_data` at address `addr`; `indirect` is what its data holds. -/
structure SetupData where
  addr : Nat
  type : Nat
  len : Nat
  indirect : SetupIndirect
  deriving DecidableEq, Repr

def SETUP_INDIRECT : Nat := 2 ^ 31

/-- What `mem_avoid_overlap` avoids for one node of the `setup_data` list. -/
def SetupData.avoid (ptr : SetupData) : List MemVector :=
  ⟨ptr.addr, 16 + ptr.len⟩ ::
    if ptr.type = SETUP_INDIRECT ∧ ptr.indirect.type ≠ SETUP_INDIRECT then
      [⟨ptr.indirect.addr, ptr.indirect.len⟩]
    else []

/-- What the choice depends on; `CONFIG_PHYSICAL_ALIGN` is `2 ^ alignShift`. -/
structure Env where
  alignShift : Nat
  memAvoid : List MemVector
  setupData : List SetupData
  memLimit : Nat
  memmapTooLarge : Bool

def Env.physicalAlign (env : Env) : Nat := 2 ^ env.alignShift

def Env.avoid (env : Env) : List MemVector :=
  env.memAvoid ++ env.setupData.flatMap SetupData.avoid

def noteOverlap (img : MemVector) (acc : Nat × Option MemVector) (avoid : MemVector) :
    Nat × Option MemVector :=
  if memOverlaps img avoid ∧ avoid.start < acc.1 then (avoid.start, some avoid) else acc

def memAvoidOverlap (env : Env) (img : MemVector) : Option MemVector :=
  (env.avoid.foldl (noteOverlap img) (img.stop, none)).2

/-! ## Slots -/

structure SlotArea where
  addr : Nat
  num : Nat
  deriving DecidableEq, Repr

def MAX_SLOT_AREA : Nat := 100

/-- `slot_areas`, `slot_max` and `max_gb_huge_pages`. -/
structure SlotState where
  areas : List SlotArea
  slotMax : Nat
  maxGbHugePages : Nat
  deriving DecidableEq, Repr

def storeSlotInfo (env : Env) (imageSize : Nat) (st : SlotState) (region : MemVector) : SlotState :=
  if st.areas.length = MAX_SLOT_AREA then st
  else
    let num := wadd 1 (wsub region.size imageSize / env.physicalAlign)
    { st with areas := st.areas ++ [⟨region.start, num⟩], slotMax := wadd st.slotMax num }

def PUD_SIZE : Nat := 2 ^ 30

def storeBefore (env : Env) (imageSize : Nat) (region : MemVector) (pudStart : Nat)
    (st : SlotState) : SlotState :=
  if wadd region.start imageSize ≤ pudStart then
    storeSlotInfo env imageSize st ⟨region.start, wsub pudStart region.start⟩
  else st

def storeBehind (env : Env) (imageSize : Nat) (region : MemVector) (pudEnd : Nat)
    (st : SlotState) : SlotState :=
  if wadd pudEnd imageSize ≤ region.stop then
    storeSlotInfo env imageSize st ⟨pudEnd, wsub region.stop pudEnd⟩
  else st

def processGbHugePages (env : Env) (imageSize : Nat) (st : SlotState) (region : MemVector) :
    SlotState :=
  if st.maxGbHugePages = 0 then storeSlotInfo env imageSize st region
  else
    let pudStart := align region.start PUD_SIZE
    let pudEnd := alignDown region.stop PUD_SIZE
    if pudEnd ≤ pudStart then storeSlotInfo env imageSize st region
    else
      let st := storeBefore env imageSize region pudStart st
      let gbHugePages := (pudEnd - pudStart) / PUD_SIZE
      if st.maxGbHugePages < gbHugePages then
        let pudEnd := wadd pudStart (st.maxGbHugePages * PUD_SIZE % 2 ^ 64)
        storeBehind env imageSize region pudEnd { st with maxGbHugePages := 0 }
      else
        storeBehind env imageSize region pudEnd
          { st with maxGbHugePages := st.maxGbHugePages - gbHugePages }

def processMemRegionLoop (env : Env) (imageSize regionEnd : Nat) :
    Nat → SlotState → Nat → Option SlotState
  | 0, _, _ => none
  | fuel + 1, st, start =>
    if MAX_SLOT_AREA ≤ st.areas.length then some st
    else
      let start := align start env.physicalAlign
      if regionEnd < start then some st
      else
        let region : MemVector := ⟨start, regionEnd - start⟩
        if region.size < imageSize then some st
        else
          match memAvoidOverlap env region with
          | none => some (processGbHugePages env imageSize st region)
          | some overlap =>
            let st :=
              if wadd start imageSize ≤ overlap.start then
                processGbHugePages env imageSize st ⟨start, overlap.start - start⟩
              else st
            processMemRegionLoop env imageSize regionEnd fuel st overlap.stop

/-- `process_mem_region` without immovable memory: `__process_mem_region`. -/
def processMemRegion (env : Env) (fuel minimum imageSize : Nat) (st : SlotState)
    (entry : MemVector) : Option SlotState :=
  processMemRegionLoop env imageSize (min entry.stop env.memLimit) fuel st (max entry.start minimum)

structure BootE820Entry where
  addr : Nat
  size : Nat
  type : Nat
  deriving DecidableEq, Repr

def E820_TYPE_RAM : Nat := 1

/-- `process_e820_entries`; the loop ends when the slot areas are full. -/
def processE820Entries (env : Env) (fuel minimum imageSize : Nat) :
    SlotState → List BootE820Entry → Option SlotState
  | st, [] => some st
  | st, entry :: table =>
    if entry.type ≠ E820_TYPE_RAM then processE820Entries env fuel minimum imageSize st table
    else do
      let st ← processMemRegion env fuel minimum imageSize st ⟨entry.addr, entry.size⟩
      if st.areas.length = MAX_SLOT_AREA then return st
      else processE820Entries env fuel minimum imageSize st table

def fetchSlot (env : Env) : List SlotArea → Nat → Nat
  | [], _ => 0
  | area :: areas, slot =>
    if area.num ≤ slot then fetchSlot env areas (slot - area.num)
    else wadd area.addr (slot * env.physicalAlign % 2 ^ 64)

/-- `slots_fetch_random`, with the value of `kaslr_get_random_long`. -/
def slotsFetchRandom (env : Env) (random : Nat) (st : SlotState) : Nat :=
  if st.slotMax = 0 then 0 else fetchSlot env st.areas (random % st.slotMax)

/-- `find_random_phys_addr` on a system that was not started by EFI. -/
def findRandomPhysAddr (env : Env) (fuel : Nat) (table : List BootE820Entry)
    (maxGbHugePages minimum imageSize random : Nat) : Option Nat :=
  if env.memLimit < wadd minimum imageSize then some 0
  else if env.memmapTooLarge then some 0
  else do
    let st ← processE820Entries env fuel minimum imageSize ⟨[], 0, maxGbHugePages⟩ table
    let physAddr := slotsFetchRandom env random st
    if physAddr < minimum ∨ env.memLimit < wadd physAddr imageSize then return 0
    else return physAddr

/-! ## Words without overflow -/

variable {a : Nat} {b : Nat}

theorem wadd_eq (h : a + b < 2 ^ 64) : wadd a b = a + b := mod_eq_of_lt h

theorem wsub_eq (hb : b ≤ a) (ha : a < 2 ^ 64) : wsub a b = a - b := by
  rw [wsub]
  omega

variable {x : Nat}

theorem align_eq (ha : 0 < a) (h : x + a ≤ 2 ^ 64) : align x a = (x + (a - 1)) / a * a := by
  rw [align, wadd_eq (by omega)]

theorem le_align (ha : 0 < a) (h : x + a ≤ 2 ^ 64) : x ≤ align x a := by
  rw [align_eq ha h]
  have hdiv := div_add_mod' (x + (a - 1)) a
  have hmod := mod_lt (x + (a - 1)) ha
  omega

theorem dvd_align (x a : Nat) : a ∣ align x a := dvd_mul_left ..

theorem align_le_of_dvd {y : Nat} (ha : 0 < a) (h : x + a ≤ 2 ^ 64) (hxy : x ≤ y)
    (hy : a ∣ y) : align x a ≤ y := by
  obtain ⟨q, rfl⟩ := hy
  rw [align_eq ha h, mul_comm]
  refine mul_le_mul_left a (le_of_lt_succ ?_)
  rw [div_lt_iff_lt_mul ha, succ_mul, mul_comm q]
  omega

theorem alignDown_le (x a : Nat) : alignDown x a ≤ x := div_mul_le_self x a

/-! ## The lowest overlap -/

/-- The range ends inside of the address space, with room to align its end. -/
def MemVector.NoWrap (v : MemVector) (a : Nat) : Prop := v.start + v.size + a ≤ 2 ^ 64

theorem MemVector.NoWrap.stop_eq {v : MemVector} (h : v.NoWrap a) (ha : 0 < a) :
    v.stop = v.start + v.size := by
  unfold NoWrap at h
  exact wadd_eq (by omega)

theorem memOverlaps_iff {one two : MemVector} :
    memOverlaps one two = true ↔ two.start < one.stop ∧ one.start < two.stop := by
  unfold memOverlaps
  repeat' split
  all_goals simp only [Bool.false_eq_true, false_iff, true_iff]; omega

/-- What the loop of `mem_avoid_overlap` knows after the ranges `seen`. -/
def OverlapOf (img : MemVector) (seen : List MemVector) (acc : Nat × Option MemVector) : Prop :=
  (acc = (img.stop, none) ∧ ∀ v ∈ seen, ¬memOverlaps img v) ∨
  ∃ o ∈ seen, acc = (o.start, some o) ∧ memOverlaps img o ∧
    ∀ v ∈ seen, memOverlaps img v → o.start ≤ v.start

variable {img : MemVector} {seen : List MemVector} {acc : Nat × Option MemVector}

theorem OverlapOf.note (h : OverlapOf img seen acc) (v : MemVector) :
    OverlapOf img (seen ++ [v]) (noteOverlap img acc v) := by
  unfold noteOverlap
  rcases h with ⟨rfl, hnone⟩ | ⟨o, ho, rfl, hover, hmin⟩
  · by_cases hv : memOverlaps img v
    · -- an overlapping range starts below the end of the image
      rw [if_pos ⟨hv, (memOverlaps_iff.mp hv).1⟩]
      exact .inr ⟨v, by simp, rfl, hv, forall_mem_append.2
        ⟨fun w hw hwv => absurd hwv (hnone w hw), forall_mem_singleton.2 fun _ => le_rfl⟩⟩
    · rw [if_neg (fun h => hv h.1)]
      exact .inl ⟨rfl, forall_mem_append.2 ⟨hnone, forall_mem_singleton.2 hv⟩⟩
  · split
    next hv =>
      exact .inr ⟨v, by simp, rfl, hv.1, forall_mem_append.2
        ⟨fun w hw hwv => le_trans (le_of_lt hv.2) (hmin w hw hwv),
          forall_mem_singleton.2 fun _ => le_rfl⟩⟩
    next hv =>
      exact .inr ⟨o, by simp [ho], rfl, hover, forall_mem_append.2 ⟨hmin,
        forall_mem_singleton.2 fun hwv => Nat.le_of_not_lt fun hlt => hv ⟨hwv, hlt⟩⟩⟩

theorem overlapOf_foldl (h : OverlapOf img seen acc) (vs : List MemVector) :
    OverlapOf img (seen ++ vs) (vs.foldl (noteOverlap img) acc) := by
  induction vs generalizing seen acc with
  | nil => rwa [append_nil]
  | cons v vs ih =>
    have hrest := ih (h.note v)
    rwa [append_assoc] at hrest

theorem overlapOf_avoid (env : Env) (img : MemVector) :
    OverlapOf img env.avoid (env.avoid.foldl (noteOverlap img) (img.stop, none)) := by
  have h : OverlapOf img [] (img.stop, none) := .inl ⟨rfl, by simp⟩
  exact overlapOf_foldl h env.avoid

variable {env : Env}

theorem memAvoidOverlap_none (h : memAvoidOverlap env img = none) :
    ∀ v ∈ env.avoid, ¬memOverlaps img v := by
  rcases overlapOf_avoid env img with ⟨-, hnone⟩ | ⟨o, -, hacc, -⟩
  · exact hnone
  · rw [memAvoidOverlap, hacc] at h
    cases h

theorem memAvoidOverlap_some {o : MemVector} (h : memAvoidOverlap env img = some o) :
    o ∈ env.avoid ∧ memOverlaps img o ∧ ∀ v ∈ env.avoid, memOverlaps img v → o.start ≤ v.start := by
  rcases overlapOf_avoid env img with ⟨hacc, -⟩ | ⟨o', ho, hacc, hover, hmin⟩ <;>
    (rw [memAvoidOverlap, hacc] at h; cases h)
  exact ⟨ho, hover, hmin⟩

/-! ## Free regions -/

/-- A region between `lo` and `hi` that starts at an aligned address, can hold the image and has
nothing to avoid in it. -/
structure Env.Free (env : Env) (imageSize lo hi : Nat) (region : MemVector) : Prop where
  dvd : env.physicalAlign ∣ region.start
  lo_le : lo ≤ region.start
  le_hi : region.start + region.size ≤ hi
  image_le : imageSize ≤ region.size
  apart : ∀ v ∈ env.avoid, v.start + v.size ≤ region.start ∨ region.start + region.size ≤ v.start

theorem Env.physicalAlign_pos (env : Env) : 0 < env.physicalAlign := Nat.two_pow_pos _

variable {imageSize start : Nat}

/-- What the loop does with the aligned region from `start` to `regionEnd`: it is free, or it is cut
at an overlap, before which it is free, and continues behind the overlap. -/
theorem region_cases {regionEnd : Nat} (hend : regionEnd < 2 ^ 64)
    (havoid : ∀ v ∈ env.avoid, v.NoWrap env.physicalAlign) (hdvd : env.physicalAlign ∣ start)
    (hle : start ≤ regionEnd) (himage : imageSize ≤ regionEnd - start) :
    (memAvoidOverlap env ⟨start, regionEnd - start⟩ = none ∧
      env.Free imageSize start regionEnd ⟨start, regionEnd - start⟩) ∨
    ∃ o ∈ env.avoid, memAvoidOverlap env ⟨start, regionEnd - start⟩ = some o ∧
      start < o.start + o.size ∧ o.start < regionEnd ∧ (start + imageSize ≤ o.start →
        env.Free imageSize start regionEnd ⟨start, o.start - start⟩) := by
  have hpos := env.physicalAlign_pos
  have hstop : (MemVector.mk start (regionEnd - start)).stop = regionEnd := by
    rw [MemVector.stop, wadd_eq (by dsimp only; omega)]
    dsimp only
    omega
  have hoverlaps : ∀ v ∈ env.avoid, (memOverlaps ⟨start, regionEnd - start⟩ v = true ↔
      v.start < regionEnd ∧ start < v.start + v.size) := by
    intro v hv
    rw [memOverlaps_iff, hstop, (havoid v hv).stop_eq hpos]
  cases hover : memAvoidOverlap env ⟨start, regionEnd - start⟩ with
  | none =>
    refine .inl ⟨rfl, hdvd, le_rfl, by dsimp only; omega, himage, fun v hv => ?_⟩
    have := mt (hoverlaps v hv).mpr (memAvoidOverlap_none hover v hv)
    dsimp only
    omega
  | some o =>
    obtain ⟨ho, hoimg, hmin⟩ := memAvoidOverlap_some hover
    obtain ⟨hoend, hostart⟩ := (hoverlaps o ho).mp hoimg
    refine .inr ⟨o, ho, rfl, hostart, hoend, fun hroom => ?_⟩
    -- an avoided range that starts before the overlap does not overlap the region
    refine ⟨hdvd, le_rfl, ?_, ?_, fun v hv => ?_⟩ <;> dsimp only
    · omega
    · omega
    · have := mt (hmin v hv)
      rw [hoverlaps v hv] at this
      omega

section
variable {env : Env} {imageSize lo hi : Nat} (hhi : hi < 2 ^ 64)
  (havoid : ∀ v ∈ env.avoid, v.NoWrap env.physicalAlign)
include hhi havoid

theorem processMemRegionLoop_keeps {P : SlotState → Prop}
    (hstore : ∀ st region, P st → env.Free imageSize lo hi region →
      P (processGbHugePages env imageSize st region))
    {fuel : Nat} {st : SlotState} {start : Nat} (hst : P st) (hlo : lo ≤ start)
    (hroom : start + env.physicalAlign ≤ 2 ^ 64) (hfuel : hi + 1 - start < fuel) :
    ∃ st', processMemRegionLoop env imageSize hi fuel st start = some st' ∧ P st' := by
  have hpos := env.physicalAlign_pos
  induction fuel generalizing st start with
  | zero => omega
  | succ fuel ih =>
    have halign := le_align hpos hroom
    rw [processMemRegionLoop]
    split
    · exact ⟨st, rfl, hst⟩
    dsimp only
    split
    · exact ⟨st, rfl, hst⟩
    split
    · exact ⟨st, rfl, hst⟩
    next hle himage =>
      rw [not_lt] at hle himage
      have hwiden : ∀ region, env.Free imageSize (align start env.physicalAlign) hi region →
          env.Free imageSize lo hi region := fun region h =>
        { h with lo_le := le_trans (le_trans hlo halign) h.lo_le }
      rcases region_cases hhi havoid (dvd_align start env.physicalAlign) hle himage with
        ⟨hnone, hfree⟩ | ⟨o, ho, hsome, hostart, hoend, hfree⟩
      · rw [hnone]
        exact ⟨_, rfl, hstore st _ hst (hwiden _ hfree)⟩
      rw [hsome]
      have hwrap := havoid o ho
      have hstop := hwrap.stop_eq hpos
      rw [wadd_eq (by omega)]
      refine ih ?_ (by omega) (by rw [hstop]; exact hwrap) (by omega)
      split
      · rename_i hbefore
        exact hstore st _ hst (hwiden _ (hfree hbefore))
      · exact hst

end

/-! ## Every stored slot is free -/

theorem Env.Free.sub {lo hi : Nat} {region : MemVector}
    (h : env.Free imageSize lo hi region) {size : Nat} (hdvd : env.physicalAlign ∣ start)
    (hstart : region.start ≤ start) (hstop : start + size ≤ region.start + region.size)
    (himage : imageSize ≤ size) : env.Free imageSize lo hi ⟨start, size⟩ where
  dvd := hdvd
  lo_le := le_trans h.lo_le hstart
  le_hi := le_trans hstop h.le_hi
  image_le := himage
  apart := by
    intro v hv
    have := h.apart v hv
    dsimp only
    omega

/-- No sum of `process_gb_huge_pages` overflows, for regions below `hi`. -/
def GbRoom (imageSize hi maxGbHugePages : Nat) : Prop :=
  maxGbHugePages = 0 ∨ (hi + imageSize < 2 ^ 64 ∧ hi + PUD_SIZE ≤ 2 ^ 64)

section
variable {env : Env} {imageSize lo hi : Nat} {P : SlotState → Prop}
  (hstore : ∀ st region, P st → env.Free imageSize lo hi region →
    P (storeSlotInfo env imageSize st region))
include hstore

variable {st : SlotState} {region : MemVector}

theorem storeBefore_keeps (hhi : hi < 2 ^ 64) {pudStart : Nat}
    (hst : P st) (hfree : env.Free imageSize lo hi region)
    (hpud : pudStart ≤ region.start + region.size) :
    P (storeBefore env imageSize region pudStart st) := by
  have hle := hfree.le_hi
  have himage := hfree.image_le
  unfold storeBefore
  rw [wadd_eq (by omega)]
  split
  · rw [wsub_eq (by omega) (by omega)]
    exact hstore st _ hst (hfree.sub hfree.dvd le_rfl (by omega) (by omega))
  · exact hst

theorem storeBehind_keeps (hroom : hi + imageSize < 2 ^ 64)
    {pudEnd : Nat} (hst : P st) (hfree : env.Free imageSize lo hi region)
    (hdvd : env.physicalAlign ∣ pudEnd) (hstart : region.start ≤ pudEnd)
    (hpud : pudEnd ≤ region.start + region.size) :
    P (storeBehind env imageSize region pudEnd st) := by
  have hle := hfree.le_hi
  have hstop : region.stop = region.start + region.size := wadd_eq (by omega)
  unfold storeBehind
  rw [wadd_eq (by omega)]
  split
  · rw [wsub_eq (by omega) (by omega)]
    exact hstore st _ hst (hfree.sub hdvd hstart (by omega) (by omega))
  · exact hst

theorem processGbHugePages_keeps
    (hpages : ∀ st n, P st → n ≤ st.maxGbHugePages → P { st with maxGbHugePages := n })
    (halign : env.physicalAlign ∣ PUD_SIZE) (hhi : hi < 2 ^ 64)
    (hgb : GbRoom imageSize hi st.maxGbHugePages) (hst : P st)
    (hfree : env.Free imageSize lo hi region) : P (processGbHugePages env imageSize st region) := by
  unfold processGbHugePages
  split
  · exact hstore st region hst hfree
  next hpages0 =>
    obtain ⟨hroom, hpud⟩ := hgb.resolve_left hpages0
    have hle := hfree.le_hi
    have hstop : region.stop = region.start + region.size := wadd_eq (by omega)
    have hpudPos : 0 < PUD_SIZE := by decide
    have hstart := le_align hpudPos (show region.start + PUD_SIZE ≤ 2 ^ 64 by omega)
    have hdown := alignDown_le region.stop PUD_SIZE
    rw [hstop] at hdown ⊢
    generalize hps : align region.start PUD_SIZE = pudStart at *
    generalize hpe : alignDown (region.start + region.size) PUD_SIZE = pudEnd at *
    dsimp only
    split
    · exact hstore st region hst hfree
    have hbefore := storeBefore_keeps hstore hhi hst hfree (show pudStart ≤ _ by omega)
    have hdvdStart : PUD_SIZE ∣ pudStart := hps ▸ dvd_align region.start PUD_SIZE
    have hdvdEnd : PUD_SIZE ∣ pudEnd := hpe ▸ dvd_mul_left ..
    generalize storeBefore env imageSize region pudStart st = st₁ at *
    split
    · rename_i hfew
      -- the pages that are skipped end inside of the region
      have hskip : pudStart + st₁.maxGbHugePages * PUD_SIZE ≤ pudEnd := by
        have := mul_le_mul_right PUD_SIZE (le_of_lt hfew)
        have := div_mul_le_self (pudEnd - pudStart) PUD_SIZE
        omega
      rw [mod_eq_of_lt (by omega), wadd_eq (by omega)]
      refine storeBehind_keeps hstore hroom (hpages st₁ 0 hbefore (zero_le _)) hfree ?_
        (by omega) (by omega)
      exact halign.trans ((Nat.dvd_add_right hdvdStart).mpr (Nat.dvd_mul_left ..))
    · exact storeBehind_keeps hstore hroom (hpages st₁ _ hbefore (sub_le _ _)) hfree
        (halign.trans hdvdEnd) (by omega) (by omega)

end

/-! ## The chosen address -/

/-- A place for the image: aligned, inside of one RAM entry, within the limits, and clear of all
that is to be avoided. -/
structure SlotOk (env : Env) (table : List BootE820Entry) (minimum imageSize a : Nat) : Prop where
  dvd : env.physicalAlign ∣ a
  minimum_le : minimum ≤ a
  inside : ∃ e ∈ table, e.type = E820_TYPE_RAM ∧ e.addr ≤ a ∧ a + imageSize ≤ e.addr + e.size
  le_limit : a + imageSize ≤ env.memLimit
  apart : ∀ v ∈ env.avoid, Disjoint (Set.Ico a (a + imageSize)) (Set.Ico v.start (v.start + v.size))

/-- What is assumed of the machine: `CONFIG_PHYSICAL_ALIGN` as in `Kconfig`, and that no sum
overflows. -/
structure InputOk (env : Env) (table : List BootE820Entry)
    (maxGbHugePages minimum imageSize : Nat) : Prop where
  le_shift : 21 ≤ env.alignShift
  shift_le : env.alignShift ≤ 24
  memLimit_lt : env.memLimit < 2 ^ 64
  minimum_room : minimum + env.physicalAlign ≤ 2 ^ 64
  avoid : ∀ v ∈ env.avoid, v.NoWrap env.physicalAlign
  entry_stop : ∀ e ∈ table, e.type = E820_TYPE_RAM → e.addr + e.size < 2 ^ 64
  entry_start : ∀ e ∈ table, e.type = E820_TYPE_RAM → e.addr + env.physicalAlign ≤ 2 ^ 64
  gb : GbRoom imageSize env.memLimit maxGbHugePages

section
variable {env : Env} {table : List BootE820Entry} {maxGbHugePages minimum imageSize : Nat}

variable {e : BootE820Entry} {region : MemVector}

/-- Every slot of a free region of a RAM entry is a place for the image. -/
def AreasOk (env : Env) (table : List BootE820Entry) (minimum imageSize : Nat)
    (areas : List SlotArea) : Prop :=
  ∀ area ∈ areas, ∀ j, j < area.num →
    SlotOk env table minimum imageSize (area.addr + j * env.physicalAlign)

theorem num_eq {env : Env} (hshift : 1 ≤ env.alignShift) {size imageSize : Nat}
    (himage : imageSize ≤ size) (hsize : size < 2 ^ 64) :
    wadd 1 (wsub size imageSize / env.physicalAlign) =
      1 + (size - imageSize) / env.physicalAlign := by
  have htwo : 2 ^ 1 ≤ env.physicalAlign := Nat.pow_le_pow_right Nat.two_pos hshift
  have hdiv : (size - imageSize) / env.physicalAlign ≤ (size - imageSize) / 2 :=
    div_le_div_left htwo two_pos
  rw [wsub_eq himage hsize, wadd_eq (by omega)]

variable {st : SlotState}

theorem storeSlotInfo_ok (hin : InputOk env table maxGbHugePages minimum imageSize)
    (he : e ∈ table) (hram : e.type = E820_TYPE_RAM)
    (hst : AreasOk env table minimum imageSize st.areas)
    (hfree : env.Free imageSize (max e.addr minimum) (min (e.addr + e.size) env.memLimit) region) :
    AreasOk env table minimum imageSize (storeSlotInfo env imageSize st region).areas := by
  have hle := hfree.le_hi
  have hlimit := hin.memLimit_lt
  have hshift := hin.le_shift
  unfold storeSlotInfo
  split
  · exact hst
  · refine forall_mem_append.2 ⟨hst, forall_mem_singleton.2 fun j hj => ?_⟩
    have himage := hfree.image_le
    have hlo := hfree.lo_le
    rw [num_eq (by omega) himage (by omega)] at hj
    dsimp only at hj ⊢
    have hslot : j * env.physicalAlign ≤ region.size - imageSize :=
      (le_div_iff_mul_le env.physicalAlign_pos).mp (by omega)
    refine ⟨(Nat.dvd_add_right hfree.dvd).mpr (Nat.dvd_mul_left ..), by omega,
      ⟨e, he, hram, by omega, by omega⟩, by omega, fun v hv => ?_⟩
    rw [Set.Ico_disjoint_Ico]
    have := hfree.apart v hv
    omega

/-- What the state keeps while the entries are processed. -/
def StateOk (env : Env) (table : List BootE820Entry) (minimum imageSize : Nat) (st : SlotState) :
    Prop :=
  AreasOk env table minimum imageSize st.areas ∧ GbRoom imageSize env.memLimit st.maxGbHugePages

variable {fuel : Nat}

theorem processMemRegion_ok (hin : InputOk env table maxGbHugePages minimum imageSize)
    (he : e ∈ table) (hram : e.type = E820_TYPE_RAM)
    (hfuel : 2 ^ 64 < fuel) (hst : StateOk env table minimum imageSize st) :
    ∃ st', processMemRegion env fuel minimum imageSize st ⟨e.addr, e.size⟩ = some st' ∧
      StateOk env table minimum imageSize st' := by
  have hlimit := hin.memLimit_lt
  have hstop : (MemVector.mk e.addr e.size).stop = e.addr + e.size :=
    wadd_eq (hin.entry_stop e he hram)
  rw [processMemRegion, hstop]
  refine processMemRegionLoop_keeps (by omega) hin.avoid ?_ hst le_rfl ?_ (by omega)
  · intro st region hst hfree
    have hdvd : env.physicalAlign ∣ PUD_SIZE := pow_dvd_pow 2 (hin.shift_le.trans (by decide))
    refine processGbHugePages_keeps ?_ ?_ hdvd (by omega) ?_ hst hfree
    · intro st region hst hfree
      refine ⟨storeSlotInfo_ok hin he hram hst.1 hfree, ?_⟩
      unfold storeSlotInfo
      split <;> exact hst.2
    · intro st n hst hn
      refine ⟨hst.1, hst.2.imp_left fun h0 => ?_⟩
      dsimp only
      omega
    · refine hst.2.imp_right fun hroom => ?_
      omega
  · have := hin.entry_start e he hram
    have := hin.minimum_room
    dsimp only
    omega

theorem processE820Entries_ok (hin : InputOk env table maxGbHugePages minimum imageSize)
    (hfuel : 2 ^ 64 < fuel) {entries : List BootE820Entry} (hsub : entries ⊆ table)
    (hst : StateOk env table minimum imageSize st) :
    ∃ st', processE820Entries env fuel minimum imageSize st entries = some st' ∧
      StateOk env table minimum imageSize st' := by
  induction entries generalizing st with
  | nil => exact ⟨st, rfl, hst⟩
  | cons e entries ih =>
    have hsub' := (cons_subset.mp hsub).2
    rw [processE820Entries]
    split
    · exact ih hsub' hst
    next hram =>
      obtain ⟨st₁, hregion, hst₁⟩ := processMemRegion_ok hin (cons_subset.mp hsub).1
        (Decidable.not_not.mp hram) hfuel hst
      rw [hregion, bind_eq_bind, bind_some]
      split
      · exact ⟨st₁, rfl, hst₁⟩
      · exact ih hsub' hst₁

theorem fetchSlot_ok (hlimit : env.memLimit < 2 ^ 64) {areas : List SlotArea}
    (hareas : AreasOk env table minimum imageSize areas) {slot : Nat}
    (hne : fetchSlot env areas slot ≠ 0) :
    SlotOk env table minimum imageSize (fetchSlot env areas slot) := by
  induction areas generalizing slot with
  | nil => exact absurd rfl hne
  | cons area areas ih =>
    rw [fetchSlot] at hne ⊢
    split at hne
    next hskip =>
      rw [if_pos hskip]
      exact ih (fun b hb => hareas b (mem_cons_of_mem _ hb)) hne
    next hin =>
      have hok := hareas area mem_cons_self slot (Nat.lt_of_not_le hin)
      have hle := hok.le_limit
      rw [if_neg hin, mod_eq_of_lt (by omega), wadd_eq (by omega)]
      exact hok

/-- Where no sum overflows, the search for a random address ends, and an address that it returns is
a place for the image. -/
theorem findRandomPhysAddr_safe (hin : InputOk env table maxGbHugePages minimum imageSize)
    {fuel : Nat} (hfuel : 2 ^ 64 < fuel) (random : Nat) :
    ∃ a, findRandomPhysAddr env fuel table maxGbHugePages minimum imageSize random = some a ∧
      (a ≠ 0 → SlotOk env table minimum imageSize a) := by
  have hinit : StateOk env table minimum imageSize ⟨[], 0, maxGbHugePages⟩ :=
    ⟨fun _ h => absurd h List.not_mem_nil, hin.gb⟩
  obtain ⟨st, hentries, hst⟩ := processE820Entries_ok hin hfuel (List.Subset.refl table) hinit
  unfold findRandomPhysAddr
  rw [hentries, bind_eq_bind, bind_some]
  repeat' split
  · exact ⟨0, rfl, absurd rfl⟩
  · exact ⟨0, rfl, absurd rfl⟩
  dsimp only
  split
  · exact ⟨0, rfl, absurd rfl⟩
  refine ⟨_, rfl, fun hne => ?_⟩
  unfold slotsFetchRandom at hne ⊢
  split at hne
  · exact absurd rfl hne
  next hmax =>
    rw [if_neg hmax]
    exact fetchSlot_ok hin.memLimit_lt hst.1 hne

end

/-- A machine with 1 GiB of RAM, half of it avoided by a range that goes almost to the end of the
address space. -/
def wrapEnv (size : Nat) : Env where
  alignShift := 21
  memAvoid := [⟨0x60000000, size⟩]
  setupData := []
  memLimit := 2 ^ 46
  memmapTooLarge := false

def wrapTable : List BootE820Entry := [⟨0x40000000, 0x40000000, E820_TYPE_RAM⟩]

theorem inputOk_halfAvoided : InputOk (wrapEnv 0x20000000) wrapTable 0 0x1000000 0x1000000 where
  le_shift := by decide
  shift_le := by decide
  memLimit_lt := by decide
  minimum_room := by decide
  avoid := by
    intro v hv
    rw [mem_singleton.mp hv]
    show 0x60000000 + 0x20000000 + 2 ^ 21 ≤ 2 ^ 64
    decide
  entry_stop := by decide
  entry_start := by decide
  gb := .inl rfl

theorem findRandomPhysAddr_safe_halfAvoided :
    ∃ a, findRandomPhysAddr (wrapEnv 0x20000000) (2 ^ 64 + 1) wrapTable 0 0x1000000 0x1000000 3 =
        some a ∧
      (a ≠ 0 → SlotOk (wrapEnv 0x20000000) wrapTable 0x1000000 0x1000000 a) :=
  findRandomPhysAddr_safe inputOk_halfAvoided (by decide) 3

/-- The end of the avoided range fits in a word, but not its alignment: the scan starts again at
address 0, and the address that is chosen is in front of the RAM. -/
theorem findRandomPhysAddr_wraps :
    0x60000000 + 0xffffffff9fffffff < 2 ^ 64 ∧
      findRandomPhysAddr (wrapEnv 0xffffffff9fffffff) 101 wrapTable 0 0x1000000 0x1000000 257 =
        some 0x1000000 ∧
      ∀ e ∈ wrapTable, 0x1000000 < e.addr := by
  refine ⟨by decide, by decide +kernel, by decide⟩

end LinuxKernel.X86.Kaslr
