import LinuxKernel.Foundation.Align

/-!
# Splitting a range of memory by page size

`split_mem_range` of `arch/x86/mm/init.c` on x86-64. A range of addresses is cut into at most five
pieces that can be mapped with pages of 4K, 2M and 1G; neighbours with the same page sizes are then
merged.
-/

namespace LinuxKernel.X86

open Foundation List
open BitVec hiding and_assoc append_assoc

/-! ## The code -/

def PAGE_SHIFT : Nat := 12
def PMD_SIZE : BitVec 64 := BitVec.ofNat 64 (2 ^ 21)
def PUD_SIZE : BitVec 64 := BitVec.ofNat 64 (2 ^ 30)
def NR_RANGE_MR : Nat := 5

def LEVEL_2M : BitVec 32 := 1 <<< 2
def LEVEL_1G : BitVec 32 := 1 <<< 3

def pfnDown (x : BitVec 64) : BitVec 64 := x >>> PAGE_SHIFT

structure MapRange where
  start : BitVec 64
  stop : BitVec 64
  pageSizeMask : BitVec 32
  deriving DecidableEq, Repr

/-- What `split_mem_range` reads besides its arguments. -/
structure MapConfig where
  pageSizeMask : BitVec 32
  afterBootmem : Bool
  memblockIsRegionMemory : BitVec 64 → BitVec 64 → Bool

/-- `save_mr`; nothing if it panics. -/
def saveMr (mr : List MapRange) (startPfn endPfn : BitVec 64) (pageSizeMask : BitVec 32) :
    Option (List MapRange) :=
  if startPfn < endPfn then
    if NR_RANGE_MR ≤ mr.length then none
    else some (mr ++ [⟨startPfn <<< PAGE_SHIFT, endPfn <<< PAGE_SHIFT, pageSizeMask⟩])
  else some mr

/-- A piece that is not empty is saved, and the next one starts behind it. -/
def savePiece (mr : List MapRange) (pfn startPfn endPfn : BitVec 64) (pageSizeMask : BitVec 32) :
    Option (List MapRange × BitVec 64) :=
  if startPfn < endPfn then (saveMr mr startPfn endPfn pageSizeMask).map (·, endPfn)
  else some (mr, pfn)

def saveRanges (cfg : MapConfig) (mr : List MapRange) (start stop : BitVec 64) :
    Option (List MapRange) := do
  let limitPfn := pfnDown stop
  let pfn := pfnDown start
  -- head if not big page alignment
  let endPfn := roundUp pfn (pfnDown PMD_SIZE)
  let endPfn := if limitPfn < endPfn then limitPfn else endPfn
  let (mr, pfn) ← savePiece mr pfn pfn endPfn 0
  -- big page (2M) range
  let startPfn := roundUp pfn (pfnDown PMD_SIZE)
  let endPfn := roundUp pfn (pfnDown PUD_SIZE)
  let endPfn :=
    if roundDown limitPfn (pfnDown PMD_SIZE) < endPfn then roundDown limitPfn (pfnDown PMD_SIZE)
    else endPfn
  let (mr, pfn) ← savePiece mr pfn startPfn endPfn (cfg.pageSizeMask &&& LEVEL_2M)
  -- big page (1G) range
  let startPfn := roundUp pfn (pfnDown PUD_SIZE)
  let endPfn := roundDown limitPfn (pfnDown PUD_SIZE)
  let (mr, pfn) ← savePiece mr pfn startPfn endPfn (cfg.pageSizeMask &&& (LEVEL_2M ||| LEVEL_1G))
  -- tail is not big page (1G) alignment
  let startPfn := roundUp pfn (pfnDown PMD_SIZE)
  let endPfn := roundDown limitPfn (pfnDown PMD_SIZE)
  let (mr, pfn) ← savePiece mr pfn startPfn endPfn (cfg.pageSizeMask &&& LEVEL_2M)
  -- tail is not big page (2M) alignment
  saveMr mr pfn limitPfn 0

def adjustTo (cfg : MapConfig) (level : BitVec 32) (size : BitVec 64) (r : MapRange) : MapRange :=
  if cfg.pageSizeMask &&& level ≠ 0 ∧ r.pageSizeMask &&& level = 0 then
    let start := roundDown r.start size
    let stop := roundUp r.stop size
    if cfg.memblockIsRegionMemory start (stop - start) then
      { r with pageSizeMask := r.pageSizeMask ||| level }
    else r
  else r

def adjustRangePageSizeMask (cfg : MapConfig) (mr : List MapRange) : List MapRange :=
  mr.map fun r => adjustTo cfg LEVEL_1G PUD_SIZE (adjustTo cfg LEVEL_2M PMD_SIZE r)

def rangesBeforeMerge (cfg : MapConfig) (mr : List MapRange) (start stop : BitVec 64) :
    Option (List MapRange) :=
  (saveRanges cfg mr start stop).map fun mr =>
    if cfg.afterBootmem then mr else adjustRangePageSizeMask cfg mr

def mergeRanges (mr : List MapRange) (i : Nat) : List MapRange :=
  match _hrest : mr.drop i with
  | a :: b :: rest =>
    if a.stop ≠ b.start ∨ a.pageSizeMask ≠ b.pageSizeMask then mergeRanges mr (i + 1)
    else mergeRanges (mr.take i ++ { b with start := a.start } :: rest) i
  | _ => mr
termination_by mr.length - i
decreasing_by
  · have hlen := congrArg List.length _hrest
    simp only [List.length_drop, List.length_cons] at hlen
    omega
  · have hlen := congrArg List.length _hrest
    simp only [List.length_drop, List.length_cons] at hlen
    simp only [List.length_append, List.length_take, List.length_cons]
    omega

def splitMemRange (cfg : MapConfig) (mr : List MapRange) (start stop : BitVec 64) :
    Option (List MapRange) :=
  (rangesBeforeMerge cfg mr start stop).map fun mr => mergeRanges mr 0

/-! ## Ranges -/

/-- The ranges are not empty, and each starts where the one before it ends, from `lo` to `hi`. -/
def Tiles : Nat → List MapRange → Nat → Prop
  | lo, [], hi => lo = hi
  | lo, r :: mr, hi => r.start.toNat = lo ∧ r.start.toNat < r.stop.toNat ∧ Tiles r.stop.toNat mr hi

namespace MapRange

def Carries (r : MapRange) (level : BitVec 32) : Prop := r.pageSizeMask &&& level ≠ 0

def Aligned (r : MapRange) (size : Nat) : Prop :=
  r.start.toNat % size = 0 ∧ r.stop.toNat % size = 0

/-- The range is aligned to the page sizes that it may be mapped with. -/
def AlignedToMask (r : MapRange) : Prop :=
  (r.Carries LEVEL_2M → r.Aligned (2 ^ 21)) ∧ (r.Carries LEVEL_1G → r.Aligned (2 ^ 30))

end MapRange

variable {lo hi : Nat} {mr : List MapRange}

theorem Tiles.append {r : MapRange} (h : Tiles lo mr hi)
    (hstart : r.start.toNat = hi) (hlt : r.start.toNat < r.stop.toNat) :
    Tiles lo (mr ++ [r]) r.stop.toNat := by
  induction mr generalizing lo with
  | nil =>
    obtain rfl : lo = hi := h
    exact ⟨hstart, hlt, rfl⟩
  | cons r' mr ih => exact ⟨h.1, h.2.1, ih h.2.2⟩

theorem Tiles.map {f : MapRange → MapRange}
    (hf : ∀ r, (f r).start = r.start ∧ (f r).stop = r.stop) (h : Tiles lo mr hi) :
    Tiles lo (mr.map f) hi := by
  induction mr generalizing lo with
  | nil => exact h
  | cons r mr ih =>
    obtain ⟨hstart, hstop⟩ := hf r
    refine ⟨by rw [hstart, h.1], by rw [hstart, hstop]; exact h.2.1, ?_⟩
    rw [hstop]
    exact ih h.2.2

/-! ## The pieces -/

variable {start stop : BitVec 64}

section
variable {first limit k : Nat} {mr : List MapRange} {pfn startPfn endPfn : BitVec 64}
  {mask : BitVec 32}

/-- The pages from `first` to `pfn` have been saved, in at most `k` ranges. -/
structure Saved (first limit k : Nat) (mr : List MapRange) (pfn : BitVec 64) : Prop where
  tiles : Tiles (first * 2 ^ 12) mr (pfn.toNat * 2 ^ 12)
  length_le : mr.length ≤ k
  pfn_le : pfn.toNat ≤ limit
  aligned : ∀ r ∈ mr, r.AlignedToMask

theorem toNat_pfn_shift (h : pfn.toNat < 2 ^ 52) :
    (pfn <<< PAGE_SHIFT).toNat = pfn.toNat * 2 ^ 12 := by
  rw [toNat_shiftLeft, Nat.shiftLeft_eq]
  show pfn.toNat * 2 ^ 12 % 2 ^ 64 = _
  omega

theorem saveMr_saved (h : Saved first limit k mr pfn) (hk : k < NR_RANGE_MR)
    (hlimit : limit < 2 ^ 52) (hlt : pfn < endPfn) (hend : endPfn.toNat ≤ limit)
    (halign : (MapRange.mk (pfn <<< PAGE_SHIFT) (endPfn <<< PAGE_SHIFT) mask).AlignedToMask) :
    ∃ mr', saveMr mr pfn endPfn mask = some mr' ∧ Saved first limit (k + 1) mr' endPfn := by
  have hlen := h.length_le
  have hlt' := lt_def.1 hlt
  have hstart := toNat_pfn_shift (show pfn.toNat < 2 ^ 52 by omega)
  have hstop := toNat_pfn_shift (show endPfn.toNat < 2 ^ 52 by omega)
  have hnonempty : (pfn <<< PAGE_SHIFT).toNat < (endPfn <<< PAGE_SHIFT).toNat := by omega
  have htiles := h.tiles.append (r := ⟨pfn <<< PAGE_SHIFT, endPfn <<< PAGE_SHIFT, mask⟩) hstart
    hnonempty
  refine ⟨_, by rw [saveMr, if_pos hlt, if_neg (by omega)], ?_, ?_, hend, ?_⟩
  · rw [← hstop]
    exact htiles
  · rw [length_append, length_singleton]
    omega
  · exact forall_mem_append.2 ⟨h.aligned, forall_mem_singleton.2 halign⟩

/-- A piece that is not empty starts at `pfn` and is aligned as its mask says. -/
def PieceFits (limit : Nat) (pfn startPfn endPfn : BitVec 64) (mask : BitVec 32) : Prop :=
  startPfn < endPfn → startPfn = pfn ∧ endPfn.toNat ≤ limit ∧
    (MapRange.mk (startPfn <<< PAGE_SHIFT) (endPfn <<< PAGE_SHIFT) mask).AlignedToMask

theorem savePiece_saved (h : Saved first limit k mr pfn) (hk : k < NR_RANGE_MR)
    (hlimit : limit < 2 ^ 52) (hpiece : PieceFits limit pfn startPfn endPfn mask) :
    ∃ mr' pfn', savePiece mr pfn startPfn endPfn mask = some (mr', pfn') ∧
      Saved first limit (k + 1) mr' pfn' ∧
      (startPfn.toNat < endPfn.toNat ∧ pfn'.toNat = endPfn.toNat ∨
        endPfn.toNat ≤ startPfn.toNat ∧ pfn'.toNat = pfn.toNat) := by
  by_cases hlt : startPfn < endPfn
  · obtain ⟨rfl, hend, halign⟩ := hpiece hlt
    obtain ⟨mr', hsave, hsaved⟩ := saveMr_saved h hk hlimit hlt hend halign
    refine ⟨mr', endPfn, ?_, hsaved, .inl ⟨lt_def.1 hlt, rfl⟩⟩
    rw [savePiece, if_pos hlt, hsave]
    rfl
  · have hge := Nat.le_of_not_lt (mt lt_def.2 hlt)
    refine ⟨mr, pfn, by rw [savePiece, if_neg hlt], ?_, .inr ⟨hge, rfl⟩⟩
    exact { h with length_le := h.length_le.trans (Nat.le_succ k) }

theorem toNat_roundUp_pmd (h : pfn.toNat < 2 ^ 52) :
    (roundUp pfn (pfnDown PMD_SIZE)).toNat = (pfn.toNat + 511) / 512 * 512 :=
  @toNat_roundUp 64 9 (by decide) pfn (by omega)

theorem toNat_roundUp_pud (h : pfn.toNat < 2 ^ 52) :
    (roundUp pfn (pfnDown PUD_SIZE)).toNat = (pfn.toNat + 262143) / 262144 * 262144 :=
  @toNat_roundUp 64 18 (by decide) pfn (by omega)

theorem toNat_roundDown_pmd (pfn : BitVec 64) :
    (roundDown pfn (pfnDown PMD_SIZE)).toNat = pfn.toNat / 512 * 512 :=
  @toNat_roundDown 64 9 (by decide) pfn

theorem toNat_roundDown_pud (pfn : BitVec 64) :
    (roundDown pfn (pfnDown PUD_SIZE)).toNat = pfn.toNat / 262144 * 262144 :=
  @toNat_roundDown 64 18 (by decide) pfn

theorem alignedToMask_zero (start stop : BitVec 64) : (MapRange.mk start stop 0).AlignedToMask :=
  ⟨fun h => absurd zero_and h, fun h => absurd zero_and h⟩

theorem alignedToMask_shift (hstart : startPfn.toNat < 2 ^ 52) (hend : endPfn.toNat < 2 ^ 52)
    (h2m : mask &&& LEVEL_2M ≠ 0 → startPfn.toNat % 512 = 0 ∧ endPfn.toNat % 512 = 0)
    (h1g : mask &&& LEVEL_1G ≠ 0 → startPfn.toNat % 262144 = 0 ∧ endPfn.toNat % 262144 = 0) :
    (MapRange.mk (startPfn <<< PAGE_SHIFT) (endPfn <<< PAGE_SHIFT) mask).AlignedToMask := by
  simp only [MapRange.AlignedToMask, MapRange.Carries, MapRange.Aligned, toNat_pfn_shift hstart,
    toNat_pfn_shift hend]
  constructor
  · intro hcarries
    have haligned := h2m hcarries
    omega
  · intro hcarries
    have haligned := h1g hcarries
    omega

theorem toNat_ite_lt (a b : BitVec 64) : (if a < b then a else b).toNat = min a.toNat b.toNat := by
  by_cases hlt : a < b
  · rw [if_pos hlt, Nat.min_eq_left (lt_def.1 hlt).le]
  · rw [if_neg hlt, Nat.min_eq_right (Nat.le_of_not_lt (mt lt_def.2 hlt))]

variable {limitPfn : BitVec 64} (hlimit : limitPfn.toNat < 2 ^ 52)
    (hle : pfn.toNat ≤ limitPfn.toNat)
include hlimit hle

theorem pieceFits_pmds (cfg : MapConfig) (hpfn : pfn.toNat % 512 = 0 ∨ pfn.toNat = limitPfn.toNat)
    (halign : endPfn.toNat % 512 = 0) (hend : endPfn.toNat ≤ limitPfn.toNat) :
    PieceFits limitPfn.toNat pfn (roundUp pfn (pfnDown PMD_SIZE)) endPfn
      (cfg.pageSizeMask &&& LEVEL_2M) := by
  intro hlt
  have hup := toNat_roundUp_pmd (show pfn.toNat < 2 ^ 52 by omega)
  have hlt' := lt_def.1 hlt
  refine ⟨eq_of_toNat_eq (by omega), hend,
    alignedToMask_shift (by omega) (by omega) (fun _ => by omega) fun hcarries => ?_⟩
  refine absurd ?_ hcarries
  rw [BitVec.and_assoc]
  exact and_zero

theorem pieceFits_puds (mask : BitVec 32)
    (hpfn : pfn.toNat % 262144 = 0 ∨ limitPfn.toNat / 512 * 512 ≤ pfn.toNat) :
    PieceFits limitPfn.toNat pfn (roundUp pfn (pfnDown PUD_SIZE))
      (roundDown limitPfn (pfnDown PUD_SIZE)) mask := by
  intro hlt
  have hup := toNat_roundUp_pud (show pfn.toNat < 2 ^ 52 by omega)
  have hdown := toNat_roundDown_pud limitPfn
  have hlt' := lt_def.1 hlt
  exact ⟨eq_of_toNat_eq (by omega), by omega,
    alignedToMask_shift (by omega) (by omega) (fun _ => by omega) fun _ => by omega⟩

omit hle

theorem saveTail (h : Saved first limitPfn.toNat k mr pfn) (hk : k < NR_RANGE_MR) :
    ∃ mr', saveMr mr pfn limitPfn 0 = some mr' ∧
      Saved first limitPfn.toNat (k + 1) mr' limitPfn := by
  by_cases hlt : pfn < limitPfn
  · exact saveMr_saved h hk hlimit hlt le_rfl (alignedToMask_zero _ _)
  have hge := Nat.le_of_not_lt (mt lt_def.2 hlt)
  have heq : pfn = limitPfn := eq_of_toNat_eq (Nat.le_antisymm h.pfn_le hge)
  refine ⟨mr, by rw [saveMr, if_neg hlt], ?_⟩
  rw [← heq] at h ⊢
  exact { h with length_le := h.length_le.trans (Nat.le_succ k) }

omit hlimit

/-- The ranges that are saved tile the pages from the first to the last, and `save_mr` does not
panic. -/
theorem saveRanges_saved (cfg : MapConfig) (hlt : start < stop) :
    ∃ mr, saveRanges cfg [] start stop = some mr ∧
      Saved (pfnDown start).toNat (pfnDown stop).toNat NR_RANGE_MR mr (pfnDown stop) := by
  have hlimit : (pfnDown stop).toNat < 2 ^ 52 := by
    rw [pfnDown, toNat_ushiftRight, PAGE_SHIFT]
    omega
  have hle : (pfnDown start).toNat ≤ (pfnDown stop).toNat := by
    rw [pfnDown, pfnDown, toNat_ushiftRight, toNat_ushiftRight,
      Nat.shiftRight_eq_div_pow, Nat.shiftRight_eq_div_pow]
    exact Nat.div_le_div_right hlt.le
  unfold saveRanges
  generalize pfnDown start = pfn₀ at *
  generalize pfnDown stop = limitPfn at *
  have h₀ : Saved pfn₀.toNat limitPfn.toNat 0 [] pfn₀ := ⟨rfl, le_rfl, hle, by simp⟩
  have hdown := toNat_roundDown_pmd limitPfn
  have hdown' := toNat_roundDown_pud limitPfn
  have hpmd {pfn : BitVec 64} (h : pfn.toNat ≤ limitPfn.toNat) := @toNat_roundUp_pmd pfn (by omega)
  have hpud {pfn : BitVec 64} (h : pfn.toNat ≤ limitPfn.toNat) := @toNat_roundUp_pud pfn (by omega)
  have hend₀ := toNat_ite_lt limitPfn (roundUp pfn₀ (pfnDown PMD_SIZE))
  have hup₀ := hpmd hle
  obtain ⟨mr₁, pfn₁, hsave₁, h₁, hpfn₁⟩ := savePiece_saved h₀ (by decide) hlimit
    (show PieceFits limitPfn.toNat pfn₀ pfn₀ (if limitPfn < roundUp pfn₀ (pfnDown PMD_SIZE)
      then limitPfn else roundUp pfn₀ (pfnDown PMD_SIZE)) 0 from
      fun _ => ⟨rfl, by omega, alignedToMask_zero _ _⟩)
  have hle₁ := h₁.pfn_le
  have hup₁ := hpmd hle₁
  have hup₁' := hpud hle₁
  have hend₁ := toNat_ite_lt (roundDown limitPfn (pfnDown PMD_SIZE))
    (roundUp pfn₁ (pfnDown PUD_SIZE))
  obtain ⟨mr₂, pfn₂, hsave₂, h₂, hpfn₂⟩ := savePiece_saved h₁ (by decide) hlimit
    (pieceFits_pmds hlimit hle₁ cfg (by omega) (by rw [hend₁]; omega) (by omega))
  have hle₂ := h₂.pfn_le
  have hup₂ := hpud hle₂
  obtain ⟨mr₃, pfn₃, hsave₃, h₃, hpfn₃⟩ := savePiece_saved h₂ (by decide) hlimit
    (pieceFits_puds hlimit hle₂ (cfg.pageSizeMask &&& (LEVEL_2M ||| LEVEL_1G)) (by omega))
  obtain ⟨mr₄, pfn₄, hsave₄, h₄, hpfn₄⟩ := savePiece_saved h₃ (by decide) hlimit
    (pieceFits_pmds hlimit h₃.pfn_le cfg (by omega) (by rw [hdown]; omega) (by omega))
  obtain ⟨mr₅, hsave₅, h₅⟩ := saveTail hlimit h₄ (by decide)
  refine ⟨mr₅, ?_, h₅⟩
  simp only [hsave₁, hsave₂, hsave₃, hsave₄, hsave₅, Option.bind_eq_bind, Option.bind_some]

end

/-! ## The adjustment of the masks -/

section
variable {cfg : MapConfig} {level level' : BitVec 32} {size : BitVec 64} {r : MapRange}

/-- The range rounded to multiples of `size` is all memory. -/
def InMemory (cfg : MapConfig) (size : BitVec 64) (r : MapRange) : Prop :=
  cfg.memblockIsRegionMemory (roundDown r.start size)
    (roundUp r.stop size - roundDown r.start size) = true

@[simp] theorem start_adjustTo : (adjustTo cfg level size r).start = r.start := by
  grind [adjustTo]

@[simp] theorem stop_adjustTo : (adjustTo cfg level size r).stop = r.stop := by
  grind [adjustTo]

theorem carries_of_adjustTo (h : (adjustTo cfg level size r).Carries level) :
    r.Carries level ∨ InMemory cfg size r := by
  simp only [adjustTo] at h
  split at h
  · split at h
    next hmemory => exact .inr hmemory
    · exact .inl h
  · exact .inl h

theorem carries_adjustTo_of_ne (hne : level &&& level' = 0) :
    (adjustTo cfg level size r).Carries level' ↔ r.Carries level' := by
  have hor : (r.pageSizeMask ||| level) &&& level' = r.pageSizeMask &&& level' := by
    rw [and_or_distrib_right, hne]
    exact or_zero
  simp only [adjustTo]
  split
  · split
    · rw [MapRange.Carries, MapRange.Carries, hor]
    · exact Iff.rfl
  · exact Iff.rfl

end

/-- A range is aligned to a page size that it may be mapped with, or memory goes on around it up to
the alignment. -/
def AlignedOrInMemory (cfg : MapConfig) (r : MapRange) : Prop :=
  (r.Carries LEVEL_2M → r.Aligned (2 ^ 21) ∨ InMemory cfg PMD_SIZE r) ∧
    (r.Carries LEVEL_1G → r.Aligned (2 ^ 30) ∨ InMemory cfg PUD_SIZE r)

theorem adjust_alignedOrInMemory (cfg : MapConfig) {r : MapRange} (h : r.AlignedToMask) :
    AlignedOrInMemory cfg (adjustTo cfg LEVEL_1G PUD_SIZE (adjustTo cfg LEVEL_2M PMD_SIZE r)) := by
  simp only [AlignedOrInMemory, MapRange.Aligned, InMemory, start_adjustTo, stop_adjustTo]
  constructor
  · intro hcarries
    rcases carries_of_adjustTo ((carries_adjustTo_of_ne (by decide)).1 hcarries) with hold | hmemory
    · exact .inl (h.1 hold)
    · exact .inr hmemory
  · intro hcarries
    rcases carries_of_adjustTo hcarries with hold | hmemory
    · exact .inl (h.2 ((carries_adjustTo_of_ne (by decide)).1 hold))
    · rw [InMemory, start_adjustTo, stop_adjustTo] at hmemory
      exact .inr hmemory

/-! ## The merge pass -/

def mergeInto (a : MapRange) : List MapRange → List MapRange
  | [] => [a]
  | b :: rest =>
    if a.stop ≠ b.start ∨ a.pageSizeMask ≠ b.pageSizeMask then a :: mergeInto b rest
    else mergeInto { b with start := a.start } rest

theorem mergeRanges_append (front : List MapRange) (a : MapRange) (rest : List MapRange) :
    mergeRanges (front ++ a :: rest) front.length = front ++ mergeInto a rest := by
  induction rest generalizing front a with
  | nil =>
    rw [mergeRanges, drop_left]
    rfl
  | cons b rest ih =>
    rw [mergeRanges, drop_left]
    simp only [mergeInto]
    split
    · have hnext := ih (front ++ [a]) b
      rw [append_assoc, append_assoc, length_append] at hnext
      exact hnext
    · rw [take_left]
      exact ih front { b with start := a.start }

theorem mergeInto_spec {a : MapRange} {rest : List MapRange} (h : Tiles lo (a :: rest) hi) :
    ∃ a' rest', mergeInto a rest = a' :: rest' ∧ a'.pageSizeMask = a.pageSizeMask ∧
      Tiles lo (a' :: rest') hi ∧ rest'.length ≤ rest.length ∧
      (a' :: rest').IsChain fun r r' => r.pageSizeMask ≠ r'.pageSizeMask := by
  induction rest generalizing lo a with
  | nil => exact ⟨a, [], rfl, rfl, h, le_rfl, .singleton a⟩
  | cons b rest ih =>
    obtain ⟨hlo, hlt, hstart, hlt', hrest⟩ := h
    unfold mergeInto
    split
    next hdiff =>
      have hstop : a.stop = b.start := eq_of_toNat_eq hstart.symm
      have hne := hdiff.resolve_left (not_not.2 hstop)
      obtain ⟨b', rest', hmerge, hmask, htiles, hlen, hchain⟩ := ih ⟨hstart, hlt', hrest⟩
      rw [hmerge]
      exact ⟨a, b' :: rest', rfl, rfl, ⟨hlo, hlt, htiles⟩, Nat.succ_le_succ hlen,
        isChain_cons_cons.2 ⟨by rwa [hmask], hchain⟩⟩
    next hsame =>
      obtain ⟨a', rest', hmerge, hmask, htiles, hlen, hchain⟩ :=
        ih (a := { b with start := a.start })
          ⟨hlo, by show a.start.toNat < b.stop.toNat; omega, hrest⟩
      exact ⟨a', rest', hmerge, hmask.trans (not_not.1 (not_or.1 hsame).2).symm, htiles,
        hlen.trans (Nat.le_succ _), hchain⟩

/-! ## The result -/

theorem rangesBeforeMerge_saved (cfg : MapConfig) (hlt : start < stop) :
    ∃ mr, rangesBeforeMerge cfg [] start stop = some mr ∧ mr.length ≤ NR_RANGE_MR ∧
      Tiles ((pfnDown start).toNat * 2 ^ 12) mr ((pfnDown stop).toNat * 2 ^ 12) ∧
      (∀ r ∈ mr, AlignedOrInMemory cfg r) ∧
      (cfg.afterBootmem = true → ∀ r ∈ mr, r.AlignedToMask) := by
  obtain ⟨mr, hsave, hsaved⟩ := saveRanges_saved cfg hlt
  cases hboot : cfg.afterBootmem with
  | true =>
    refine ⟨mr, by rw [rangesBeforeMerge, hsave, hboot]; rfl, hsaved.length_le, hsaved.tiles, ?_,
      fun _ => hsaved.aligned⟩
    intro r hr
    obtain ⟨h2m, h1g⟩ := hsaved.aligned r hr
    exact ⟨fun hcarries => .inl (h2m hcarries), fun hcarries => .inl (h1g hcarries)⟩
  | false =>
    refine ⟨adjustRangePageSizeMask cfg mr, by rw [rangesBeforeMerge, hsave, hboot]; rfl, ?_, ?_,
      ?_, by simp⟩
    · rw [adjustRangePageSizeMask, length_map]
      exact hsaved.length_le
    · exact hsaved.tiles.map fun r => by simp
    · intro r hr
      obtain ⟨r', hr', rfl⟩ := mem_map.1 hr
      exact adjust_alignedOrInMemory cfg (hsaved.aligned r' hr')

theorem mergeRanges_tiles (h : Tiles lo mr hi) :
    Tiles lo (mergeRanges mr 0) hi ∧ (mergeRanges mr 0).length ≤ mr.length ∧
      (mergeRanges mr 0).IsChain fun r r' => r.pageSizeMask ≠ r'.pageSizeMask := by
  cases mr with
  | nil =>
    rw [mergeRanges]
    exact ⟨h, le_rfl, .nil⟩
  | cons a rest =>
    obtain ⟨a', rest', hmerge, -, htiles, hlen, hchain⟩ := mergeInto_spec h
    have heq : mergeRanges (a :: rest) 0 = a' :: rest' :=
      (mergeRanges_append [] a rest).trans hmerge
    rw [heq]
    exact ⟨htiles, Nat.succ_le_succ hlen, hchain⟩

/-- The ranges of `split_mem_range` are at most five, tile the pages of the range and differ from
their neighbours in their masks. The pieces it saves are aligned to the page sizes in their masks;
when the masks are adjusted, a piece gets a page size that it is not aligned to if the memory around
it allows it. -/
theorem splitMemRange_spec (cfg : MapConfig) {start stop : BitVec 64} (hlt : start < stop) :
    ∃ saved before merged, saveRanges cfg [] start stop = some saved ∧
      rangesBeforeMerge cfg [] start stop = some before ∧
      splitMemRange cfg [] start stop = some merged ∧
      before.length ≤ NR_RANGE_MR ∧ merged.length ≤ NR_RANGE_MR ∧
      Tiles ((pfnDown start).toNat * 2 ^ 12) merged ((pfnDown stop).toNat * 2 ^ 12) ∧
      (∀ r ∈ saved, r.AlignedToMask) ∧
      (∀ r ∈ before, AlignedOrInMemory cfg r) ∧
      (cfg.afterBootmem = true → ∀ r ∈ before, r.AlignedToMask) ∧
      merged.IsChain fun r r' => r.pageSizeMask ≠ r'.pageSizeMask := by
  obtain ⟨saved, hsave, hsaved⟩ := saveRanges_saved cfg hlt
  obtain ⟨mr, hbefore, hlen, htiles, hmemory, haligned⟩ := rangesBeforeMerge_saved cfg hlt
  obtain ⟨htiles', hlen', hchain⟩ := mergeRanges_tiles htiles
  exact ⟨saved, mr, mergeRanges mr 0, hsave, hbefore, by rw [splitMemRange, hbefore]; rfl, hlen,
    hlen'.trans hlen, htiles', hsaved.aligned, hmemory, haligned, hchain⟩

def bootConfig : MapConfig := ⟨LEVEL_2M, false, fun _ _ => true⟩

theorem splitMemRange_spec_boot :
    (0x1000 : BitVec 64) < 0x400000 ∧
      ∃ merged, splitMemRange bootConfig [] 0x1000 0x400000 = some merged ∧
        Tiles (1 * 2 ^ 12) merged (1024 * 2 ^ 12) := by
  have hlt : (0x1000 : BitVec 64) < 0x400000 := by decide
  obtain ⟨-, -, merged, -, -, hmerged, -, -, htiles, -⟩ := splitMemRange_spec bootConfig hlt
  exact ⟨hlt, merged, hmerged, htiles⟩

/-- The first range is to be mapped with 2M pages and does not start on a multiple of 2M. -/
theorem rangesBeforeMerge_unaligned :
    rangesBeforeMerge bootConfig [] 0x1000 0x400000 =
        some [⟨0x1000, 0x200000, LEVEL_2M⟩, ⟨0x200000, 0x400000, LEVEL_2M⟩] ∧
      (MapRange.mk 0x1000 0x200000 LEVEL_2M).Carries LEVEL_2M ∧
      ¬ (MapRange.mk 0x1000 0x200000 LEVEL_2M).Aligned (2 ^ 21) := by
  refine ⟨by decide, by unfold MapRange.Carries; decide, by unfold MapRange.Aligned; decide⟩

end LinuxKernel.X86
