import LinuxKernel.X86.Mtrr

/-!
# MTRRs: the type of a region

`mtrr_type_lookup` walks the map and combines the types of the parts of a region, the entries and
the holes, in the order of their addresses. The type it returns is the combination of the types of
all addresses. The flag `uniform` is cleared when the combined type changes on the way: a region
that starts with the lowest of its types keeps the flag, whatever the other types are.
-/

namespace LinuxKernel.X86

open Foundation Foundation.Segments

/-- The merged type, and what `*uniform` is then. -/
def typeMerge (type newType : MtrrType) (uniform : Bool) : MtrrType × Bool :=
  if type = .invalid then
    (newType, uniform)
  else
    let effectiveType := getEffectiveType type newType
    (effectiveType, if type ≠ effectiveType then false else uniform)

def typeLookupFrom (defType : MtrrType) (stop : Nat) :
    List CacheMap → (start : Nat) → MtrrType → Bool → MtrrType × Bool
  | [], start, type, uniform =>
    -- End of region past last entry in map? -> use default type.
    if start < stop then typeMerge type defType uniform else (type, uniform)
  | cur :: map, start, type, uniform =>
    if stop ≤ start then
      (type, uniform)
    else if cur.stop ≤ start then
      typeLookupFrom defType stop map start type uniform
    else if start < cur.start then
      -- At least some part of region has default type.
      let (type, uniform) := typeMerge type defType uniform
      if stop ≤ cur.start then
        (type, uniform)
      else
        let (type, uniform) := typeMerge type cur.type uniform
        typeLookupFrom defType stop map cur.stop type uniform
    else
      let (type, uniform) := typeMerge type cur.type uniform
      typeLookupFrom defType stop map cur.stop type uniform

/-- What `mtrr_type_lookup` reads: `mtrr_state_set`, the bit `MTRR_STATE_MTRR_ENABLED`, the default
type and the map. -/
structure MtrrTable where
  stateSet : Bool
  enabled : Bool
  defType : MtrrType
  map : List CacheMap
  deriving DecidableEq, Repr

/-- The type of the region `[start, stop)` and `*uniform`. -/
def mtrrTypeLookup (t : MtrrTable) (start stop : Nat) : MtrrType × Bool :=
  if !t.stateSet then
    -- Uniformity is unknown.
    (.uncachable, false)
  else if !t.enabled then
    (.uncachable, true)
  else
    typeLookupFrom t.defType stop t.map start .invalid true

/-! ## The type of an address -/

def typeIn (defType : MtrrType) (map : List CacheMap) (a : Nat) : MtrrType :=
  ((cacheMapLayout.lookup map a).map Prod.fst).getD defType

def MtrrTable.typeAt (t : MtrrTable) : Nat → MtrrType :=
  typeIn t.defType t.map

/-- The combination of the types of all addresses of a region that is not empty. -/
def regionType (typeAt : Nat → MtrrType) (start stop : Nat) (hlt : start < stop) : MtrrType :=
  (Finset.Ico start stop).inf' (Finset.nonempty_Ico.2 hlt) typeAt

/-! ## The parts of a region -/

def regionParts (defType : MtrrType) (stop : Nat) : List CacheMap → Nat → List MtrrType
  | [], start => if start < stop then [defType] else []
  | cur :: map, start =>
    if stop ≤ start then []
    else if cur.stop ≤ start then regionParts defType stop map start
    else if start < cur.start then
      if stop ≤ cur.start then [defType]
      else defType :: cur.type :: regionParts defType stop map cur.stop
    else cur.type :: regionParts defType stop map cur.stop

def mergeParts (acc : MtrrType × Bool) (parts : List MtrrType) : MtrrType × Bool :=
  parts.foldl (fun acc part => typeMerge acc.1 part acc.2) acc

theorem typeLookupFrom_eq (defType : MtrrType) (stop : Nat) (map : List CacheMap) (start : Nat)
    (type : MtrrType) (uniform : Bool) : typeLookupFrom defType stop map start type uniform =
      mergeParts (type, uniform) (regionParts defType stop map start) := by
  induction map generalizing start type uniform with
  | nil =>
    unfold typeLookupFrom regionParts
    split <;> rfl
  | cons cur map ih =>
    unfold typeLookupFrom regionParts
    simp only [ih]
    split_ifs <;> rfl

section
variable {defType : MtrrType} {start stop : Nat} {map : List CacheMap} {cur : CacheMap} {a : Nat}

theorem typeIn_cons_of_covers (hlo : cur.start ≤ a) (hhi : a < cur.stop) :
    typeIn defType (cur :: map) a = cur.type := by
  have hcovers : cacheMapLayout.Covers a cur := ⟨hlo, hhi⟩
  rw [typeIn, lookup_cons, if_pos hcovers]
  rfl

theorem typeIn_cons_of_not (hout : a < cur.start ∨ cur.stop ≤ a) :
    typeIn defType (cur :: map) a = typeIn defType map a := by
  have hcovers : ¬ cacheMapLayout.Covers a cur := by
    intro ⟨hlo, hhi⟩
    simp only [cacheMapLayout] at hlo hhi
    omega
  rw [typeIn, lookup_cons, if_neg hcovers, typeIn]

theorem typeIn_of_below (hsorted : cacheMapLayout.Sorted (cur :: map))
    (ha : a < cur.start) : typeIn defType (cur :: map) a = defType := by
  have hnone : cacheMapLayout.lookup (cur :: map) a = none := by
    rw [lookup_eq_none_iff]
    intro x hx hcovers
    have ⟨hcur, hrest, _⟩ := sorted_cons.1 hsorted
    simp only [cacheMapLayout, Layout.Covers] at hcur hrest hcovers
    cases List.mem_cons.1 hx with
    | inl heq => subst heq; omega
    | inr hmem => have := hrest x hmem; omega
  rw [typeIn, hnone]
  rfl

variable (defType) in
theorem head?_regionParts (hsorted : cacheMapLayout.Sorted map) (hlt : start < stop) :
    (regionParts defType stop map start).head? = some (typeIn defType map start) := by
  induction map with
  | nil => simp [regionParts, hlt, typeIn]
  | cons cur map ih =>
    rw [regionParts, if_neg (by omega)]
    split_ifs with hpast hbelow hout
    · rw [ih (sorted_cons.1 hsorted).2.2, typeIn_cons_of_not (.inr hpast)]
    · rw [typeIn_of_below hsorted hbelow]
      rfl
    · rw [typeIn_of_below hsorted hbelow]
      rfl
    · rw [typeIn_cons_of_covers (by omega) (by omega)]
      rfl

theorem regionParts_of_le (hle : stop ≤ start) : regionParts defType stop map start = [] := by
  cases map with
  | nil | cons cur map => simp [regionParts, hle]

variable (defType) in
/-- One address further on, the walk meets the same parts, or all but the first. -/
theorem regionParts_step (hsorted : cacheMapLayout.Sorted map) (hlt : start < stop) :
    regionParts defType stop map start = regionParts defType stop map (start + 1) ∨
      ∃ t, regionParts defType stop map start = t :: regionParts defType stop map (start + 1) := by
  induction map with
  | nil =>
    rw [regionParts, regionParts, if_pos hlt]
    split_ifs
    · exact .inl rfl
    · exact .inr ⟨_, rfl⟩
  | cons cur map ih =>
    have ⟨hcur, _, hmap⟩ := sorted_cons.1 hsorted
    simp only [cacheMapLayout] at hcur
    have hrest := ih hmap
    have hend : ∀ a, stop ≤ a → regionParts defType stop map a = [] := fun _ => regionParts_of_le
    rw [regionParts, regionParts, if_neg (by omega)]
    grind

variable (defType) in
/-- The walk from a later address of the region meets the last of the parts, and the parts before
them are types of addresses before it. -/
theorem regionParts_suffix (hsorted : cacheMapLayout.Sorted map) {mid : Nat} (hlo : start ≤ mid)
    (hhi : mid ≤ stop) :
    ∃ pre, regionParts defType stop map start = pre ++ regionParts defType stop map mid ∧
      ∀ t ∈ pre, ∃ a, start ≤ a ∧ a < mid ∧ typeIn defType map a = t := by
  induction mid, hlo using Nat.le_induction with
  | base => exact ⟨[], rfl, by simp⟩
  | succ mid hle ih =>
    obtain ⟨pre, hpre, htypes⟩ := ih (by omega)
    have htypes' : ∀ t ∈ pre, ∃ a, start ≤ a ∧ a < mid + 1 ∧ typeIn defType map a = t := by
      intro t ht
      obtain ⟨a, halo, hahi, ha⟩ := htypes t ht
      exact ⟨a, halo, by omega, ha⟩
    have hhead := head?_regionParts defType hsorted hhi
    rcases regionParts_step defType hsorted hhi with hsame | ⟨t, hstep⟩
    · exact ⟨pre, by rw [hpre, hsame], htypes'⟩
    · rw [hstep] at hpre hhead
      cases hhead
      refine ⟨pre ++ [_], by rw [hpre, List.append_assoc]; rfl, ?_⟩
      exact List.forall_mem_append.2 ⟨htypes', by simpa using ⟨mid, hle, by omega, rfl⟩⟩

theorem mem_regionParts (hsorted : cacheMapLayout.Sorted map) {t : MtrrType} :
    t ∈ regionParts defType stop map start ↔
      ∃ a, start ≤ a ∧ a < stop ∧ typeIn defType map a = t := by
  constructor
  · intro ht
    by_cases hle : start ≤ stop
    · obtain ⟨pre, hpre, htypes⟩ := regionParts_suffix defType hsorted hle le_rfl
      rw [hpre, regionParts_of_le le_rfl, List.append_nil] at ht
      exact htypes t ht
    · rw [regionParts_of_le (by omega)] at ht
      simp at ht
  · intro ⟨a, hlo, hhi, ht⟩
    have ⟨pre, hpre, _⟩ := regionParts_suffix defType hsorted hlo hhi.le
    have hhead := List.mem_of_head? (head?_regionParts defType hsorted hhi)
    rw [hpre, ← ht]
    exact List.mem_append_right _ hhead

end

/-! ## Merging the parts -/

theorem inf_ne_invalid {c : MtrrType} (hc : c ≠ .invalid) (t : MtrrType) : c ⊓ t ≠ .invalid := by
  have hne : MtrrType.uncachable ≠ .invalid ∧ MtrrType.wrthrough ≠ .invalid := by decide
  rw [inf_eq_getEffectiveType]
  unfold getEffectiveType
  grind

theorem uncachable_le (t : MtrrType) : .uncachable ≤ t := by
  rw [← inf_eq_left, inf_eq_getEffectiveType]
  simp [getEffectiveType]

theorem le_foldl_inf {x c : MtrrType} {ts : List MtrrType} :
    x ≤ ts.foldl (· ⊓ ·) c ↔ x ≤ c ∧ ∀ t ∈ ts, x ≤ t := by
  induction ts generalizing c with
  | nil => simp
  | cons t ts ih => simp [ih, and_assoc]

/-- The flag survives when the first type is also the combined one. -/
theorem mergeParts_of_valid {c : MtrrType} (hc : c ≠ .invalid) (uniform : Bool)
    (ts : List MtrrType) : mergeParts (c, uniform) ts =
      (ts.foldl (· ⊓ ·) c, uniform && decide (ts.foldl (· ⊓ ·) c = c)) := by
  induction ts generalizing c uniform with
  | nil => simp [mergeParts]
  | cons t ts ih =>
    have hmerge : typeMerge c t uniform = (c ⊓ t, if c ≠ c ⊓ t then false else uniform) := by
      rw [typeMerge, if_neg hc]
      rfl
    have hstep : mergeParts (c, uniform) (t :: ts) =
        mergeParts (c ⊓ t, if c ≠ c ⊓ t then false else uniform) ts := by
      rw [mergeParts, List.foldl_cons, hmerge]
      rfl
    rw [hstep, ih (inf_ne_invalid hc t), List.foldl_cons]
    by_cases hkeep : c ⊓ t = c
    · rw [hkeep]
      simp
    -- The combined type only goes down: it does not come back to `c`.
    have hlower : ts.foldl (· ⊓ ·) (c ⊓ t) ≠ c := by
      intro heq
      have hle : c ≤ c ⊓ t := (le_foldl_inf.1 heq.ge).1
      exact hkeep (le_antisymm inf_le_left hle)
    simp [Ne.symm hkeep, hlower]

theorem mergeParts_invalid_append {pre ts : List MtrrType} (uniform : Bool)
    (hpre : ∀ t ∈ pre, t = .invalid) :
    mergeParts (.invalid, uniform) (pre ++ ts) = mergeParts (.invalid, uniform) ts := by
  induction pre with
  | nil => rfl
  | cons t pre ih =>
    have ht : t = .invalid := hpre t (by simp)
    have hpre' : ∀ t ∈ pre, t = .invalid := fun t ht => hpre t (by simp [ht])
    rw [← ih hpre', ht]
    rfl

/-! ## The result of the lookup -/

theorem le_regionType {typeAt : Nat → MtrrType} {start stop : Nat} (hlt : start < stop)
    {x : MtrrType} :
    x ≤ regionType typeAt start stop hlt ↔ ∀ a, start ≤ a → a < stop → x ≤ typeAt a := by
  simp [regionType, Finset.le_inf'_iff]

theorem regionType_le {typeAt : Nat → MtrrType} {start stop a : Nat} (hlt : start < stop)
    (hlo : start ≤ a) (hhi : a < stop) : regionType typeAt start stop hlt ≤ typeAt a :=
  (le_regionType hlt).1 (le_refl _) a hlo hhi

section
variable {defType : MtrrType} {start stop : Nat} {map : List CacheMap}

/-- From the first address with a type other than `MTRR_TYPE_INVALID` on, the types are combined. -/
theorem typeLookupFrom_of_valid (hsorted : cacheMapLayout.Sorted map) {mid : Nat}
    (hlo : start ≤ mid) (hhi : mid < stop) (hmid : typeIn defType map mid ≠ .invalid)
    (hbefore : ∀ a, start ≤ a → a < mid → typeIn defType map a = .invalid) :
    typeLookupFrom defType stop map start .invalid true =
      (regionType (typeIn defType map) mid stop hhi,
        decide (regionType (typeIn defType map) mid stop hhi = typeIn defType map mid)) := by
  have ⟨pre, hpre, htypes⟩ := regionParts_suffix defType hsorted hlo hhi.le
  have hinvalid : ∀ t ∈ pre, t = .invalid := by
    intro t ht
    have ⟨a, halo, hahi, ha⟩ := htypes t ht
    rw [← ha, hbefore a halo hahi]
  obtain ⟨ts, hts⟩ := List.head?_eq_some_iff.1 (head?_regionParts defType hsorted hhi)
  -- The combination over the parts is the one over the addresses.
  have hregion : ts.foldl (· ⊓ ·) (typeIn defType map mid) =
      regionType (typeIn defType map) mid stop hhi := by
    apply eq_of_forall_le_iff
    intro x
    rw [le_foldl_inf, le_regionType, ← List.forall_mem_cons, ← hts]
    constructor
    · intro h a halo hahi
      exact h _ ((mem_regionParts hsorted).2 ⟨a, halo, hahi, rfl⟩)
    · intro h t ht
      have ⟨a, halo, hahi, ha⟩ := (mem_regionParts hsorted).1 ht
      exact ha ▸ h a halo hahi
  have hfirst : mergeParts (.invalid, true) (typeIn defType map mid :: ts) =
      mergeParts (typeIn defType map mid, true) ts := rfl
  rw [typeLookupFrom_eq, hpre, mergeParts_invalid_append true hinvalid, hts, hfirst,
    mergeParts_of_valid hmid, hregion, Bool.true_and]

theorem typeLookupFrom_of_invalid (hsorted : cacheMapLayout.Sorted map)
    (hall : ∀ a, start ≤ a → a < stop → typeIn defType map a = .invalid) :
    typeLookupFrom defType stop map start .invalid true = (.invalid, true) := by
  have hinvalid : ∀ t ∈ regionParts defType stop map start, t = .invalid := by
    intro t ht
    have ⟨a, halo, hahi, ha⟩ := (mem_regionParts hsorted).1 ht
    rw [← ha, hall a halo hahi]
  have hparts : mergeParts (.invalid, true) (regionParts defType stop map start ++ []) =
      mergeParts (.invalid, true) [] := mergeParts_invalid_append true hinvalid
  rw [List.append_nil] at hparts
  rw [typeLookupFrom_eq, hparts]
  rfl

end

/-- `mid` is the first address of the region with a type other than `MTRR_TYPE_INVALID`. -/
def FirstValid (typeAt : Nat → MtrrType) (start stop mid : Nat) : Prop :=
  start ≤ mid ∧ mid < stop ∧ typeAt mid ≠ .invalid ∧ ∀ a, start ≤ a → a < mid → typeAt a = .invalid

/-- When the lookup is exact: all addresses have one type; or the first valid type does not absorb
all later ones and, where addresses of type `MTRR_TYPE_INVALID` come before it, two of the types
from there on combine to `UC`. -/
def LookupExact (typeAt : Nat → MtrrType) (start stop : Nat) : Prop :=
  (∀ a, start ≤ a → a < stop → typeAt a = typeAt start) ∨
    ∃ mid, FirstValid typeAt start stop mid ∧
      (∃ a, mid ≤ a ∧ a < stop ∧ getEffectiveType (typeAt mid) (typeAt a) ≠ typeAt mid) ∧
      (start < mid → ∃ a b, (mid ≤ a ∧ a < stop) ∧ (mid ≤ b ∧ b < stop) ∧
        getEffectiveType (typeAt a) (typeAt b) = .uncachable)

section
variable {typeAt : Nat → MtrrType} {start stop mid : Nat}

theorem firstValid_or_invalid (typeAt : Nat → MtrrType) (start stop : Nat) :
    (∀ a, start ≤ a → a < stop → typeAt a = .invalid) ∨
    ∃ mid, FirstValid typeAt start stop mid := by
  by_cases hall : ∀ a, start ≤ a → a < stop → typeAt a = .invalid
  · exact .inl hall
  right
  have hex : ∃ a, start ≤ a ∧ a < stop ∧ typeAt a ≠ .invalid := by
    simpa only [not_forall, exists_prop] using hall
  have ⟨hlo, hhi, hvalid⟩ := Nat.find_spec hex
  refine ⟨Nat.find hex, hlo, hhi, hvalid, ?_⟩
  intro a ha hlt
  have hmin := Nat.find_min hex hlt
  by_contra hne
  exact hmin ⟨ha, hlt.trans hhi, hne⟩

theorem FirstValid.unique {mid' : Nat} (h : FirstValid typeAt start stop mid)
    (h' : FirstValid typeAt start stop mid') : mid = mid' := by
  have ⟨hlo, _, hvalid, hbefore⟩ := h
  have ⟨hlo', _, hvalid', hbefore'⟩ := h'
  rcases Nat.lt_trichotomy mid mid' with hlt | heq | hlt
  · exact absurd (hbefore' mid hlo hlt) hvalid
  · exact heq
  · exact absurd (hbefore mid' hlo' hlt) hvalid'

/-- The first type is the combined one if it absorbs the others. -/
theorem regionType_eq_first_iff (hlt : start < stop) :
    regionType typeAt start stop hlt = typeAt start ↔
      ∀ a, start ≤ a → a < stop → getEffectiveType (typeAt start) (typeAt a) = typeAt start := by
  have hle : regionType typeAt start stop hlt ≤ typeAt start := regionType_le hlt (le_refl _) hlt
  rw [le_antisymm_iff, and_iff_right hle, le_regionType]
  simp only [← inf_eq_left, inf_eq_getEffectiveType]

/-- Types that combine with `s` to something other than `UC` have a common lower bound. -/
theorem exists_le_of_pair (s : MtrrType) (hs : getEffectiveType s s ≠ .uncachable) :
    ∃ low, low ≠ .uncachable ∧ ∀ t, getEffectiveType s t ≠ .uncachable → low ≤ t := by
  have hne : MtrrType.wrthrough ≠ .uncachable ∧ MtrrType.wrback ≠ .wrthrough := by decide
  rw [getEffectiveType_self] at hs
  by_cases hwb : s = .wrback
  · refine ⟨.wrthrough, hne.1, fun t ht => ?_⟩
    rw [← inf_eq_left, inf_eq_getEffectiveType]
    unfold getEffectiveType at ht ⊢
    grind
  · refine ⟨s, hs, fun t ht => ?_⟩
    rw [← inf_eq_left, inf_eq_getEffectiveType]
    unfold getEffectiveType at ht ⊢
    grind

/-- The combined type is `UC` if two of the types combine to it. -/
theorem regionType_eq_uncachable_iff (hlt : start < stop) :
    regionType typeAt start stop hlt = .uncachable ↔
      ∃ a b, (start ≤ a ∧ a < stop) ∧ (start ≤ b ∧ b < stop) ∧
        getEffectiveType (typeAt a) (typeAt b) = .uncachable := by
  constructor
  · intro huc
    by_contra hnone
    have hpair : ∀ a, start ≤ a → a < stop →
        getEffectiveType (typeAt start) (typeAt a) ≠ .uncachable := by
      intro a hlo hhi heq
      exact hnone ⟨start, a, ⟨le_refl _, hlt⟩, ⟨hlo, hhi⟩, heq⟩
    -- Then `WT`, or the only type there is, is below all of them.
    obtain ⟨low, hlow, hle⟩ := exists_le_of_pair (typeAt start) (hpair start (le_refl _) hlt)
    have hregion : low ≤ regionType typeAt start stop hlt :=
      (le_regionType hlt).2 fun a hlo hhi => hle _ (hpair a hlo hhi)
    rw [huc] at hregion
    exact hlow (le_antisymm hregion (uncachable_le low))
  · intro ⟨a, b, ha, hb, heq⟩
    apply le_antisymm _ (uncachable_le _)
    rw [← heq]
    exact le_inf (regionType_le hlt ha.1 ha.2) (regionType_le hlt hb.1 hb.2)

/-- Before the first valid type there is only `MTRR_TYPE_INVALID`, which combines with any other
type to `UC`. -/
theorem FirstValid.regionType_eq (h : FirstValid typeAt start stop mid) (hmid : start < mid)
    (hlt : start < stop) : regionType typeAt start stop hlt = .uncachable := by
  have ⟨hlo, hhi, hvalid, hbefore⟩ := h
  apply (regionType_eq_uncachable_iff hlt).2
  refine ⟨start, mid, ⟨le_refl _, hlt⟩, ⟨hlo, hhi⟩, ?_⟩
  have hne : MtrrType.wrthrough ≠ .invalid ∧ MtrrType.wrback ≠ .invalid := by decide
  unfold getEffectiveType
  grind

/-- The lookup of a region from its first valid type on, against the region itself. -/
theorem FirstValid.exact_iff (h : FirstValid typeAt start stop mid) (hlt : start < stop)
    (hhi : mid < stop) : (regionType typeAt mid stop hhi = regionType typeAt start stop hlt ∧
      (regionType typeAt mid stop hhi = typeAt mid ↔
        ∀ a, start ≤ a → a < stop → typeAt a = regionType typeAt mid stop hhi)) ↔
    LookupExact typeAt start stop := by
  have ⟨hlo, _, hvalid, hbefore⟩ := h
  rcases Nat.eq_or_lt_of_le hlo with rfl | hmid
  · -- The first address is valid: the flag is wrong if it absorbs a type other than its own.
    have hall : (∀ a, start ≤ a → a < stop → typeAt a = regionType typeAt start stop hlt) ↔
        ∀ a, start ≤ a → a < stop → typeAt a = typeAt start := by
      constructor
      · intro h a hlo hhi
        rw [h a hlo hhi, h start (le_refl _) hlt]
      · intro h a hlo hhi
        rw [h a hlo hhi, eq_comm, regionType_eq_first_iff]
        intro b hblo hbhi
        rw [h b hblo hbhi, getEffectiveType_self]
    rw [hall, regionType_eq_first_iff]
    constructor
    · intro ⟨_, hiff⟩
      by_cases habsorb : ∀ a, start ≤ a → a < stop →
          getEffectiveType (typeAt start) (typeAt a) = typeAt start
      · exact .inl (hiff.1 habsorb)
      · refine .inr ⟨start, h, ?_, fun hlt => absurd hlt (lt_irrefl _)⟩
        simpa only [not_forall, exists_prop] using habsorb
    · intro hexact
      refine ⟨rfl, fun habsorb => ?_, fun hsame a hlo hhi => ?_⟩
      · rcases hexact with hsame | ⟨mid, hfirst, ⟨a, halo, hahi, hne⟩, _⟩
        · exact hsame
        · rw [hfirst.unique h] at halo hne
          exact absurd (habsorb a halo hahi) hne
      · rw [hsame a hlo hhi, getEffectiveType_self]
  · -- The first address is not valid: the whole region combines to `UC`.
    have hstart : typeAt start ≠ typeAt mid := by
      rw [hbefore start (le_refl _) hmid]
      exact hvalid.symm
    have hmixed : ∀ c : MtrrType, ¬ ∀ a, start ≤ a → a < stop → typeAt a = c := fun c hall =>
      hstart ((hall start (le_refl _) hlt).trans (hall mid hlo hhi).symm)
    rw [h.regionType_eq hmid, regionType_eq_uncachable_iff, regionType_eq_first_iff,
      iff_false_right (hmixed _)]
    constructor
    · intro ⟨hpair, habsorb⟩
      refine .inr ⟨mid, h, ?_, fun _ => hpair⟩
      simpa only [not_forall, exists_prop] using habsorb
    intro hexact
    rcases hexact with hsame | ⟨mid', hfirst, ⟨a, halo, hahi, hne⟩, hpair⟩
    · exact absurd hsame (hmixed _)
    · rw [hfirst.unique h] at halo hne hpair
      exact ⟨hpair hmid, fun habsorb => hne (habsorb a halo hahi)⟩

end

/-- The type is the combination of the types of all addresses and the flag says whether they all
have it, for exactly these regions. -/
theorem mtrrTypeLookup_iff (t : MtrrTable) (hset : t.stateSet = true) (henabled : t.enabled = true)
    (hsorted : cacheMapLayout.Sorted t.map) (start stop : Nat) (hlt : start < stop) :
    ((mtrrTypeLookup t start stop).1 = regionType t.typeAt start stop hlt ∧
      ((mtrrTypeLookup t start stop).2 = true ↔
        ∀ a, start ≤ a → a < stop → t.typeAt a = (mtrrTypeLookup t start stop).1)) ↔
    LookupExact t.typeAt start stop := by
  have hlookup : mtrrTypeLookup t start stop =
      typeLookupFrom t.defType stop t.map start .invalid true := by
    simp [mtrrTypeLookup, hset, henabled]
  rcases firstValid_or_invalid t.typeAt start stop with hall | ⟨mid, hmid⟩
  · have hregion : regionType t.typeAt start stop hlt = .invalid := by
      rw [← hall start (le_refl _) hlt, regionType_eq_first_iff]
      intro a hlo hhi
      rw [hall a hlo hhi, hall start (le_refl _) hlt, getEffectiveType_self]
    rw [hlookup, typeLookupFrom_of_invalid hsorted hall, hregion]
    constructor
    · intro _
      refine .inl fun a hlo hhi => ?_
      rw [hall a hlo hhi, hall start (le_refl _) hlt]
    · intro _
      exact ⟨rfl, fun _ => hall, fun _ => rfl⟩
  · have ⟨hlo, hhi, hvalid, hbefore⟩ := hmid
    rw [hlookup, typeLookupFrom_of_valid hsorted hlo hhi hvalid hbefore, ← hmid.exact_iff hlt hhi]
    simp only [decide_eq_true_eq]
    exact Iff.rfl

/-- A write-back page, then an uncachable one, and a region over both. -/
theorem mtrrTypeLookup_iff_twoPages :
    ((mtrrTypeLookup ⟨true, true, .uncachable, [⟨0, 4096, .wrback, false⟩]⟩ 0 8192).1 =
        regionType (MtrrTable.typeAt ⟨true, true, .uncachable, [⟨0, 4096, .wrback, false⟩]⟩) 0 8192
          (by decide) ∧
      ((mtrrTypeLookup ⟨true, true, .uncachable, [⟨0, 4096, .wrback, false⟩]⟩ 0 8192).2 = true ↔
        ∀ a, 0 ≤ a → a < 8192 →
          MtrrTable.typeAt ⟨true, true, .uncachable, [⟨0, 4096, .wrback, false⟩]⟩ a =
            (mtrrTypeLookup ⟨true, true, .uncachable, [⟨0, 4096, .wrback, false⟩]⟩ 0 8192).1)) := by
  apply (mtrrTypeLookup_iff ⟨true, true, .uncachable, [⟨0, 4096, .wrback, false⟩]⟩ rfl rfl
    (sorted_cons.2 ⟨by decide, by simp, sorted_nil⟩) 0 8192 (by decide)).2
  refine .inr ⟨0, ⟨le_refl _, by decide, by decide, fun a ha hlt => by omega⟩, ?_, by simp⟩
  exact ⟨4096, by decide, by decide, by decide⟩

/-- The same pages in the other order: the flag says that the region is uniform, and the second page
has another type than the one returned. -/
theorem mtrrTypeLookup_uniform_absorbed :
    cacheMapLayout.Sorted [⟨0, 4096, .uncachable, false⟩, ⟨4096, 8192, .wrback, false⟩] ∧
    mtrrTypeLookup ⟨true, true, .uncachable,
      [⟨0, 4096, .uncachable, false⟩, ⟨4096, 8192, .wrback, false⟩]⟩ 0 8192 = (.uncachable, true) ∧
    MtrrTable.typeAt ⟨true, true, .uncachable,
      [⟨0, 4096, .uncachable, false⟩, ⟨4096, 8192, .wrback, false⟩]⟩ 4096 = .wrback := by
  refine ⟨?_, by decide, by decide⟩
  exact sorted_cons.2 ⟨by decide, by simp [cacheMapLayout],
    sorted_cons.2 ⟨by decide, by simp, sorted_nil⟩⟩

end LinuxKernel.X86
