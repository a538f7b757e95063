import LinuxKernel.X86.MtrrMap

/-!
# MTRRs: building and rebuilding the map

After `mtrr_build_map`, and after each change of a register with the rebuild that follows it, every
address has the type the registers give it.
-/

namespace LinuxKernel.X86

open Foundation Foundation.Segments Nat Option
open List hiding lookup_append lookup_nil

/-! ## The fixed ranges -/

/-- The entries give the addresses below `start` the types of their fixed ranges. -/
structure FixedRuns (all : List MtrrType) (start : Nat) (m : List CacheMap) : Prop where
  sorted : cacheMapLayout.Sorted m
  unmarked : ∀ x ∈ m, x.fixed = false
  below : ∀ x ∈ m, x.stop ≤ start
  lookup : ∀ a, cacheMapLayout.lookup m a =
    if a < start then all[fixedIndex a]?.map (·, false) else none

section
variable {all : List MtrrType} {start stop : Nat} {m : List CacheMap} {type : MtrrType}

theorem fixedRuns_nil : FixedRuns all 0 [] :=
  ⟨sorted_nil, by simp, by simp, fun a => by simp⟩

theorem FixedRuns.append (h : FixedRuns all start m) (hlt : start < stop)
    (htype : ∀ a, start ≤ a → a < stop → all[fixedIndex a]? = some type) :
    FixedRuns all stop (m ++ [⟨start, stop, type, false⟩]) where
  sorted := sorted_append.2
    ⟨h.sorted, sorted_cons.2 ⟨hlt, by simp, sorted_nil⟩, by simpa [cacheMapLayout] using h.below⟩
  unmarked := forall_mem_append.2 ⟨h.unmarked, by simp⟩
  below := forall_mem_append.2 ⟨fun x hx => (h.below x hx).trans hlt.le, by simp⟩
  lookup := by
    intro a
    rw [lookup_append, h.lookup, lookup_cons_cacheMap, lookup_nil]
    dsimp only
    by_cases hlo : a < start
    · rw [if_pos hlo, if_neg (by omega), if_pos (by omega), or_none]
    rw [if_neg hlo, none_or]
    by_cases hhi : a < stop
    · rw [if_pos (show start ≤ a ∧ a < stop by omega), if_pos hhi, htype a (by omega) hhi]
      rfl
    · rw [if_neg (by omega), if_neg hhi]

theorem FixedRuns.addMapEntry_eq {size : Nat} (h : FixedRuns all start m) (hlt : start < stop)
    (hmerge : Unmergeable m start type) (hsize : m.length < size) :
    addMapEntry size m start stop type = some (m ++ [⟨start, stop, type, false⟩]) :=
  addMapEntryFrom_append hlt h.below hmerge hsize 0 (zero_le _)

end

variable {size : Nat} {m : List CacheMap}

/-- The loop over the fixed ranges. The range `j` is the first of the run of ranges with the same
type that ends before index `i`. -/
theorem addFixedRanges_spec (hsize : 88 < size) {all : List MtrrType}
    (hall : all.length = 88) (ranges : List MtrrType) {i j : Nat} {type : MtrrType}
    (hranges : all.drop i = ranges) (hi : i ≤ 88) (hj : j < i)
    (hruns : FixedRuns all (fixedBound j) m) (hlen : m.length ≤ j)
    (hmerge : Unmergeable m (fixedBound j) type)
    (htype : ∀ a, fixedBound j ≤ a → a < fixedBound i → all[fixedIndex a]? = some type) :
    ∃ m', addFixedRanges size ranges i (fixedBound j) (fixedBound i) (fixedLen (i - 1)) type m =
        some m' ∧
      FixedRuns all (fixedBound 88) m' ∧ m'.length ≤ 88 := by
  induction ranges generalizing i j type m with
  | nil =>
    have hi : i = 88 := by
      have := drop_eq_nil_iff.1 hranges
      omega
    subst hi
    have hlt := fixedBound_lt hj
    refine ⟨_, hruns.addMapEntry_eq hlt hmerge (by omega), hruns.append hlt htype, ?_⟩
    simp only [length_append, length_singleton]
    omega
  | cons next ranges ih =>
    have hlast : i < 88 := by
      have := congrArg length hranges
      simp only [length_drop, length_cons] at this
      omega
    have hnext : all[i]? = some next := by
      have := congrArg head? hranges
      rwa [head?_drop] at this
    have hranges' : all.drop (i + 1) = ranges := by
      rw [← drop_drop, hranges]
      rfl
    have hnextType : ∀ a, fixedBound i ≤ a → a < fixedBound (i + 1) →
        all[fixedIndex a]? = some next := by
      intro a hlo hhi
      rw [fixedIndex_eq hlast hlo hhi, hnext]
    rw [addFixedRanges, fixedLen_succ (by omega), ← fixedBound_succ]
    by_cases hsame : next = type
    · rw [if_neg (not_not.2 hsame)]
      apply ih hranges' (by omega) (by omega) hruns hlen hmerge
      intro a hlo hhi
      by_cases ha : a < fixedBound i
      · exact htype a hlo ha
      · rw [hnextType a (by omega) hhi, hsame]
    · have hlt := fixedBound_lt hj
      rw [if_pos hsame, hruns.addMapEntry_eq hlt hmerge (by omega)]
      apply ih hranges' (by omega) (by omega) (hruns.append hlt htype) ?_ ?_ hnextType
      · simp only [length_append, length_singleton]
        omega
      intro x hx hstop
      rcases mem_append.1 hx with hx | hx
      · have := hruns.below x hx
        omega
      · rw [mem_singleton.1 hx]
        exact .inr (Ne.symm hsame)

def MtrrState.fixedTop (s : MtrrState) : Nat := if s.fixedEnabled then 0x100000 else 0

theorem addFixed_spec (hsize : 88 < size) (s : MtrrState) :
    ∃ m, addFixed size s = some m ∧ FixedRuns s.fixedRanges.toList s.fixedTop m ∧
      m.length ≤ 88 := by
  unfold addFixed MtrrState.fixedTop
  by_cases henabled : s.fixedEnabled = true
  · have hfirst : ∀ a, fixedBound 0 ≤ a → a < fixedBound 1 →
        s.fixedRanges.toList[fixedIndex a]? = some (s.fixedRanges.get 0) := by
      intro a hlo hhi
      rw [fixedIndex_eq (by decide) hlo hhi]
      simp [Vector.get]
    have hlen : s.fixedRanges.toList.length = 88 := by simp
    have hloop : ∃ m, addFixedRanges size s.fixedRanges.toList.tail 1 (fixedBound 0) (fixedBound 1)
          (fixedLen (1 - 1)) (s.fixedRanges.get 0) [] = some m ∧
        FixedRuns s.fixedRanges.toList (fixedBound 88) m ∧ m.length ≤ 88 :=
      addFixedRanges_spec hsize hlen _ drop_one (by decide) (by decide) fixedRuns_nil
        le_rfl (fun x hx => absurd hx not_mem_nil) hfirst
    rw [if_pos henabled, if_pos henabled]
    exact hloop
  · rw [if_neg henabled, if_neg henabled]
    exact ⟨[], rfl, fixedRuns_nil, by simp⟩

/-! ## The fixed entries -/

/-- The fixed entries of the map: they give the addresses below `top` the types of the fixed ranges,
and `WB` to those from 4GB to `tom2`. -/
structure FixedPart (all : List MtrrType) (top tom2 : Nat) (fixed : List CacheMap) : Prop where
  sorted : cacheMapLayout.Sorted fixed
  marked : ∀ x ∈ fixed, x.fixed = true
  lookup : ∀ a, cacheMapLayout.lookup fixed a =
    if a < top then all[fixedIndex a]?.map (·, true)
    else if 2 ^ 32 ≤ a ∧ a < tom2 then some (.wrback, true) else none

theorem lookup_map_mark (m : List CacheMap) (a : Nat) :
    cacheMapLayout.lookup (m.map ({ · with fixed := true })) a =
      (cacheMapLayout.lookup m a).map fun v => (v.1, true) := by
  induction m with
  | nil => rfl
  | cons x m ih =>
    rw [map_cons, lookup_cons_cacheMap, lookup_cons_cacheMap, ih]
    split <;> rfl

theorem FixedRuns.fixedPart {all : List MtrrType} {top : Nat} (h : FixedRuns all top m) :
    FixedPart all top 0 (m.map ({ · with fixed := true })) where
  sorted := by
    refine ⟨pairwise_map.2 h.sorted.ordered, fun x hx => ?_⟩
    obtain ⟨y, hy, rfl⟩ := mem_map.1 hx
    exact h.sorted.nonempty y hy
  marked := by simp
  lookup := by
    intro a
    rw [lookup_map_mark, h.lookup]
    by_cases ha : a < top
    · rw [if_pos ha, if_pos ha]
      cases all[fixedIndex a]? <;> rfl
    · rw [if_neg ha, if_neg ha, if_neg (by omega)]
      rfl

def tom2Entries (tom2 : BitVec 64) : List CacheMap :=
  if tom2 ≠ 0 then [⟨2 ^ 32, tom2.toNat, .wrback, true⟩] else []

variable {x : CacheMap}

section
variable {all : List MtrrType} {top tom2 : Nat} {fixed : List CacheMap}

theorem FixedPart.stop_le (h : FixedPart all top 0 fixed) (hx : x ∈ fixed) : x.stop ≤ top := by
  have hlt : x.start < x.stop := h.sorted.nonempty x hx
  have hlast : cacheMapLayout.lookup fixed (x.stop - 1) = some (x.type, x.fixed) :=
    h.sorted.lookup_of_mem hx ⟨by simp only [cacheMapLayout]; omega, by
      simp only [cacheMapLayout]; omega⟩
  by_contra hgt
  rw [h.lookup, if_neg (by omega)] at hlast
  simp at hlast

theorem addTom2_spec {size : Nat} {tom2 : BitVec 64} (h : FixedPart all top 0 fixed)
    (htop : top ≤ 2 ^ 32) (htom2 : tom2 = 0 ∨ 2 ^ 32 < tom2.toNat)
    (hsize : (fixed ++ tom2Entries tom2).length ≤ size) :
    addTom2 size tom2 fixed = some (fixed ++ tom2Entries tom2) ∧
      FixedPart all top tom2.toNat (fixed ++ tom2Entries tom2) := by
  by_cases hzero : tom2 = 0
  · subst hzero
    exact ⟨by simp [addTom2, tom2Entries], by simpa [tom2Entries] using h⟩
  have hlt : 2 ^ 32 < tom2.toNat := htom2.resolve_left hzero
  have hbelow : ∀ x ∈ fixed, x.stop ≤ 2 ^ 32 := fun x hx => (h.stop_le hx).trans htop
  have hentries : tom2Entries tom2 = [⟨2 ^ 32, tom2.toNat, .wrback, true⟩] := if_pos hzero
  rw [hentries] at hsize ⊢
  simp only [length_append, length_singleton] at hsize
  have hadd : addMapEntry size fixed (2 ^ 32) tom2.toNat .wrback =
      some (fixed ++ [⟨2 ^ 32, tom2.toNat, .wrback, false⟩]) :=
    addMapEntryFrom_append hlt hbelow (fun x hx _ => .inl (h.marked x hx)) (by omega) 0
      (zero_le _)
  refine ⟨?_, ?_, ?_, ?_⟩
  · rw [addTom2, if_pos hzero, hadd]
    simp only [bind_eq_bind, bind_some, length_append, length_singleton,
      Nat.add_sub_cancel, modify_length]
    rfl
  · exact sorted_append.2
      ⟨h.sorted, sorted_cons.2 ⟨hlt, by simp, sorted_nil⟩, by simpa [cacheMapLayout] using hbelow⟩
  · exact forall_mem_append.2 ⟨h.marked, by simp⟩
  · intro a
    rw [lookup_append, h.lookup, lookup_cons_cacheMap, lookup_nil]
    dsimp only
    by_cases ha : a < top
    · rw [if_pos ha, if_pos ha, if_neg (by omega), or_none]
    · rw [if_neg ha, if_neg ha, if_neg (by omega), none_or]

end

/-! ## The array is large enough -/

/-- Where the fixed entries or the variable ranges start or end. -/
def Ends (fixed ranges : List CacheMap) (q : Nat) : Prop :=
  cacheMapLayout.Boundary fixed q ∨ cacheMapLayout.Boundary ranges q

def CoveredBy (ranges : List CacheMap) (a : Nat) : Prop :=
  ∃ r ∈ ranges, r.start ≤ a ∧ a < r.stop

abbrev LaidOn (fixed ranges m : List CacheMap) : Prop :=
  Laid fixed (Ends fixed ranges) (CoveredBy ranges) m

def StartsAt (top tom2 : Nat) (ranges : List CacheMap) (q : Nat) : Prop :=
  top ≤ q ∧ CoveredBy ranges q ∧ (q = top ∨ q = tom2 ∨ ∃ r ∈ ranges, q = r.start ∨ q = r.stop)

section
variable {all : List MtrrType} {top tom2 : Nat} {fixed ranges m : List CacheMap}

theorem Laid.lookup_fixed_start (hfix : FixedPart all top tom2 fixed)
    (h : LaidOn fixed ranges m) (hx : x ∈ m)
    (hvar : x.fixed = false) : cacheMapLayout.lookup fixed x.start = none := by
  have hlookup : cacheMapLayout.lookup m x.start = some (x.type, x.fixed) :=
    h.sorted.lookup_of_mem hx ⟨le_rfl, h.sorted.nonempty x hx⟩
  cases hv : cacheMapLayout.lookup fixed x.start with
  | none => rfl
  | some v =>
    obtain ⟨y, hy, hcovers, -⟩ := exists_of_lookup hv
    have hmark := hfix.marked y hy
    rw [← h.fixed_eq] at hy
    rw [h.sorted.lookup_of_mem (mem_filter.1 hy).1 hcovers] at hlookup
    simp [cacheMapLayout, hmark, hvar] at hlookup

section
variable (hfix : FixedPart all top tom2 fixed) (hidx : ∀ a, a < top → fixedIndex a < all.length)
include hfix hidx

theorem FixedPart.uncovered {q : Nat}
    (hnone : cacheMapLayout.lookup fixed q = none) : top ≤ q ∧ ¬ (2 ^ 32 ≤ q ∧ q < tom2) := by
  rw [hfix.lookup] at hnone
  by_cases htop : q < top
  · rw [if_pos htop, getElem?_eq_getElem (hidx q htop)] at hnone
    simp at hnone
  · refine ⟨by omega, fun htom => ?_⟩
    rw [if_neg htop, if_pos htom] at hnone
    simp at hnone

/-- A boundary of the fixed entries that is none of their addresses is the end of the fixed ranges
or of `TOP_MEM2`. -/
theorem FixedPart.boundary_uncovered {q : Nat}
    (hq : cacheMapLayout.Boundary fixed q) (hnone : cacheMapLayout.lookup fixed q = none) :
    q = top ∨ q = tom2 := by
  obtain ⟨y, hy, hq⟩ := hq
  simp only [cacheMapLayout] at hq
  have hlt : y.start < y.stop := hfix.sorted.nonempty y hy
  have hcovered : ∀ a, y.start ≤ a → a < y.stop → a < top ∨ 2 ^ 32 ≤ a ∧ a < tom2 := by
    intro a hlo hhi
    have hlookup : cacheMapLayout.lookup fixed a = some (y.type, y.fixed) :=
      hfix.sorted.lookup_of_mem hy ⟨hlo, hhi⟩
    rw [hfix.lookup] at hlookup
    grind
  have hout := hfix.uncovered hidx hnone
  have hstart := hcovered y.start le_rfl hlt
  have hlast := hcovered (y.stop - 1) (by omega) (by omega)
  omega

/-- What is left to count: the starts of the variable entries are the ends of the two fixed areas,
or starts or ends of ranges. -/
theorem Laid.start_cases (h : LaidOn fixed ranges m) (hx : x ∈ m)
    (hvar : x.fixed = false) : StartsAt top tom2 ranges x.start := by
  have hnone := h.lookup_fixed_start hfix hx hvar
  have hlookup : cacheMapLayout.lookup m x.start = some (x.type, false) := by
    rw [← hvar]
    exact h.sorted.lookup_of_mem hx ⟨le_rfl, h.sorted.nonempty x hx⟩
  refine ⟨(hfix.uncovered hidx hnone).1, h.covered _ _ hlookup, ?_⟩
  rcases h.boundary x.start ⟨x, hx, .inl rfl⟩ with hq | hq
  · rcases hfix.boundary_uncovered hidx hq hnone with heq | heq
    · exact .inl heq
    · exact .inr (.inl heq)
  · exact .inr (.inr hq)

end

/-- Counting the starts. No entry starts where the last range ends; and if one starts at `top`, it
does so in the place of the range that covers `top`, whose own start is then not counted. -/
theorem length_le_of_starts {l : List CacheMap} (hsorted : cacheMapLayout.Sorted l)
    (hstarts : ∀ x ∈ l, StartsAt top tom2 ranges x.start) : l.length ≤ 2 * ranges.length := by
  by_cases hempty : ranges = []
  · have hnil : l = [] := by
      apply eq_nil_iff_forall_not_mem.2
      intro x hx
      obtain ⟨r, hr, -⟩ := (hstarts x hx).2.1
      simp [hempty] at hr
    simp [hnil]
  set starts := (ranges.map fun r => max r.start top).toFinset
  set stops := (ranges.map CacheMap.stop).toFinset with hstopsDef
  have hcardStarts : starts.card ≤ ranges.length := by
    simpa using toFinset_card_le (ranges.map fun r => max r.start top)
  have hcardStops : stops.card ≤ ranges.length := by
    simpa using toFinset_card_le (ranges.map CacheMap.stop)
  have hne : stops.Nonempty := by simpa [hstopsDef] using hempty
  have hpos := hne.card_pos
  have hmemStart : ∀ r ∈ ranges, max r.start top ∈ starts := fun r hr =>
    mem_toFinset.2 (mem_map.2 ⟨r, hr, rfl⟩)
  have hmemStop : ∀ r ∈ ranges, r.stop ∈ stops := fun r hr =>
    mem_toFinset.2 (mem_map_of_mem hr)
  have hmem : ∀ x ∈ l, x.start ∈ insert tom2 starts ∪ stops.erase (stops.max' hne) := by
    intro x hx
    obtain ⟨htop, ⟨r, hr, hlo, hhi⟩, hcases⟩ := hstarts x hx
    have hlast := stops.le_max' r.stop (hmemStop r hr)
    rw [Finset.mem_union, Finset.mem_insert, Finset.mem_erase]
    rcases hcases with heq | heq | ⟨r', hr', heq | heq⟩
    · rw [show x.start = max r.start top by omega]
      exact .inl (.inr (hmemStart r hr))
    · exact .inl (.inl heq)
    · rw [show x.start = max r'.start top by omega]
      exact .inl (.inr (hmemStart r' hr'))
    · exact .inr ⟨by omega, heq ▸ hmemStop r' hr'⟩
  calc l.length ≤ (insert tom2 starts ∪ stops.erase (stops.max' hne)).card :=
        hsorted.length_le_card hmem
    _ ≤ (insert tom2 starts).card + (stops.erase (stops.max' hne)).card :=
        Finset.card_union_le _ _
    _ ≤ (starts.card + 1) + (stops.card - 1) :=
        Nat.add_le_add (Finset.card_insert_le _ _)
          (Finset.card_erase_of_mem (stops.max'_mem hne)).le
    _ ≤ 2 * ranges.length := by omega

theorem Laid.length_le (hfix : FixedPart all top tom2 fixed)
    (hidx : ∀ a, a < top → fixedIndex a < all.length) (h : LaidOn fixed ranges m) :
    m.length ≤ fixed.length + 2 * ranges.length := by
  have hsplit := length_eq_length_filter_add (l := m) CacheMap.fixed
  rw [h.fixed_eq] at hsplit
  suffices hvar : (m.filter (!·.fixed)).length ≤ 2 * ranges.length by omega
  have hstarts : ∀ x ∈ m.filter (!·.fixed), StartsAt top tom2 ranges x.start := by
    intro x hx
    have ⟨hmem, hfixed⟩ := mem_filter.1 hx
    exact h.start_cases hfix hidx hmem (by simpa using hfixed)
  have hsorted : cacheMapLayout.Sorted (m.filter (!·.fixed)) :=
    ⟨h.sorted.ordered.sublist filter_sublist, fun x hx => h.sorted.nonempty x (mem_filter.1 hx).1⟩
  exact length_le_of_starts hsorted hstarts

theorem take_eq_of_filter_eq {l extra : List CacheMap} (hsorted : cacheMapLayout.Sorted m)
    (hfilter : m.filter CacheMap.fixed = l ++ extra) (hbelow : ∀ x ∈ l, x.start < top)
    (hmarked : ∀ x ∈ m, x.start < top → x.fixed = true) : m.take l.length = l := by
  induction m generalizing l with
  | nil =>
    obtain ⟨rfl, -⟩ := append_eq_nil_iff.1 hfilter.symm
    rfl
  | cons x m ih =>
    cases l with
    | nil => rfl
    | cons y l =>
      obtain ⟨hx, hrest, hsorted⟩ := sorted_cons.1 hsorted
      simp only [cacheMapLayout] at hx hrest
      have hy : y ∈ x :: m := mem_of_mem_filter (p := CacheMap.fixed) (by simp [hfilter])
      have hlt : x.start < top := by
        have := hbelow y mem_cons_self
        rcases mem_cons.1 hy with rfl | hy
        · exact this
        · have := hrest y hy
          omega
      rw [filter_cons_of_pos (hmarked x mem_cons_self hlt)] at hfilter
      obtain ⟨rfl, htail⟩ := cons_eq_cons.1 hfilter
      rw [length_cons, take_succ_cons, ih hsorted htail (forall_mem_cons.1 hbelow).2
        (forall_mem_cons.1 hmarked).2]

theorem Laid.take_fixed {extra : List CacheMap} (hfix : FixedPart all top tom2 (fixed ++ extra))
    (hidx : ∀ a, a < top → fixedIndex a < all.length) (hbelow : ∀ x ∈ fixed, x.stop ≤ top)
    (h : LaidOn (fixed ++ extra) ranges m) : m.take fixed.length = fixed := by
  apply take_eq_of_filter_eq h.sorted h.fixed_eq
  · exact fun x hx => (hfix.sorted.nonempty x (by simp [hx])).trans_le (hbelow x hx)
  intro x hx hlt
  -- a fixed entry has the first address of each entry that starts below `top`
  by_contra hvar
  have hnone := h.lookup_fixed_start hfix hx (by simpa using hvar)
  have := (hfix.uncovered hidx hnone).1
  omega

end

/-! ## The variable ranges -/

def requested (physHiRsvd : BitVec 32) (mtrr : MtrrVarRange) : Option CacheMap :=
  let (type, start, len) := getVarMtrrState physHiRsvd mtrr
  if type ≠ .invalid then some ⟨start.toNat, (start + len).toNat, type, false⟩ else none

def MtrrState.requests (s : MtrrState) : List CacheMap :=
  s.varRanges.filterMap (requested s.physHiRsvd)

def paintAll (ranges : List CacheMap) (a : Nat) (c : Option (MtrrType × Bool)) :
    Option (MtrrType × Bool) :=
  ranges.foldl (fun c r => if r.start ≤ a ∧ a < r.stop then paint r.type c else c) c

theorem addVarRange_eq (size : Nat) (physHiRsvd : BitVec 32) (m : List CacheMap)
    (mtrr : MtrrVarRange) : addVarRange size physHiRsvd m mtrr =
      match requested physHiRsvd mtrr with
      | some r => addMapEntry size m r.start r.stop r.type
      | none => some m := by
  unfold addVarRange requested
  dsimp only
  split_ifs <;> rfl

variable {fixed : List CacheMap}

theorem addVarRanges_spec {ranges : List CacheMap}
    (hroom : ∀ m, LaidOn fixed ranges m → m.length ≤ size)
    (physHiRsvd : BitVec 32) (regs : List MtrrVarRange)
    (hregs : ∀ r ∈ regs.filterMap (requested physHiRsvd), r ∈ ranges)
    (hlaid : LaidOn fixed ranges m) :
    ∃ m', regs.foldlM (addVarRange size physHiRsvd) m = some m' ∧ LaidOn fixed ranges m' ∧
      ∀ a, cacheMapLayout.lookup m' a =
        paintAll (regs.filterMap (requested physHiRsvd)) a (cacheMapLayout.lookup m a) := by
  induction regs generalizing m with
  | nil => exact ⟨m, rfl, hlaid, fun a => rfl⟩
  | cons mtrr regs ih =>
    rw [foldlM_cons, addVarRange_eq]
    cases hreq : requested physHiRsvd mtrr with
    | none =>
      rw [filterMap_cons_none hreq] at hregs ⊢
      exact ih hregs hlaid
    | some r =>
      rw [filterMap_cons_some hreq] at hregs ⊢
      have hr : r ∈ ranges := hregs r (by simp)
      obtain ⟨m₁, hadd, hlaid₁, hlookup₁⟩ := addMapEntry_spec r.type hroom hlaid
        (show Ends fixed ranges r.start from .inr ⟨r, hr, .inl rfl⟩)
        (show Ends fixed ranges r.stop from .inr ⟨r, hr, .inr rfl⟩)
        fun a hlo hhi => ⟨r, hr, hlo, hhi⟩
      obtain ⟨m', hrun, hlaid', hlookup⟩ := ih (fun r hr => hregs r (by simp [hr])) hlaid₁
      refine ⟨m', ?_, hlaid', fun a => ?_⟩
      · dsimp only
        rw [hadd]
        exact hrun
      · rw [hlookup, hlookup₁]
        rfl

/-! ## The type the registers give an address -/

def combineTypes : List MtrrType → Option MtrrType
  | [] => none
  | type :: types => some (types.foldl getEffectiveType type)

def MtrrState.varTypes (s : MtrrState) (a : Nat) : List MtrrType :=
  s.varRanges.filterMap fun mtrr =>
    let (type, start, len) := getVarMtrrState s.physHiRsvd mtrr
    if type ≠ .invalid ∧ start.toNat ≤ a ∧ a < start.toNat + len.toNat then some type else none

/-- The type of an address: the one of its fixed range, `WB` up to `TOP_MEM2`, or the combination of
the types of all variable ranges that cover it. -/
def MtrrState.typeAt (s : MtrrState) (a : Nat) : Option MtrrType :=
  if a < s.fixedTop then s.fixedRanges.toList[fixedIndex a]?
  else if 2 ^ 32 ≤ a ∧ a < s.tom2.toNat then some .wrback
  else combineTypes (s.varTypes a)

/-- No enabled variable range goes beyond the last address. -/
def MtrrState.NoWrap (s : MtrrState) : Prop :=
  ∀ mtrr ∈ s.varRanges, (getVarMtrrState s.physHiRsvd mtrr).1 ≠ .invalid →
    (getVarMtrrState s.physHiRsvd mtrr).2.1.toNat +
      (getVarMtrrState s.physHiRsvd mtrr).2.2.toNat < 2 ^ 64

theorem combineTypes_perm {l l' : List MtrrType} (h : l.Perm l') :
    combineTypes l = combineTypes l' := by
  have hfold : ∀ (x type : MtrrType) (types : List MtrrType),
      x ≤ types.foldl getEffectiveType type ↔ ∀ t ∈ type :: types, x ≤ t := by
    intro x type types
    rw [forall_mem_cons]
    induction types generalizing type with
    | nil => simp
    | cons t types ih =>
      rw [foldl_cons, ih, ← inf_eq_getEffectiveType, le_inf_iff, forall_mem_cons, and_assoc]
  cases l with
  | nil => rw [h.nil_eq]
  | cons t l =>
    cases l' with
    | nil => simp at h
    | cons t' l' =>
      rw [combineTypes, combineTypes, some.injEq]
      apply eq_of_forall_le_iff
      intro x
      rw [hfold, hfold]
      exact ⟨fun hall y hy => hall y (h.mem_iff.2 hy), fun hall y hy => hall y (h.mem_iff.1 hy)⟩

theorem paintAll_fixed (ranges : List CacheMap) (a : Nat) (type : MtrrType) :
    paintAll ranges a (some (type, true)) = some (type, true) := by
  induction ranges with
  | nil => rfl
  | cons r ranges ih =>
    rw [paintAll, foldl_cons]
    split <;> exact ih

def coveringTypes (ranges : List CacheMap) (a : Nat) : List MtrrType :=
  (ranges.filter fun r => decide (r.start ≤ a ∧ a < r.stop)).map CacheMap.type

theorem coveringTypes_cons (r : CacheMap) (ranges : List CacheMap) (a : Nat) :
    coveringTypes (r :: ranges) a =
      if r.start ≤ a ∧ a < r.stop then r.type :: coveringTypes ranges a
      else coveringTypes ranges a := by
  unfold coveringTypes
  split <;> simp [*]

theorem paintAll_some (ranges : List CacheMap) (a : Nat) (type : MtrrType) :
    paintAll ranges a (some (type, false)) =
      some ((coveringTypes ranges a).foldl getEffectiveType type, false) := by
  induction ranges generalizing type with
  | nil => rfl
  | cons r ranges ih =>
    rw [paintAll, foldl_cons, coveringTypes_cons]
    split
    · rw [foldl_cons, getEffectiveType_comm type]
      exact ih _
    · exact ih _

theorem paintAll_none (ranges : List CacheMap) (a : Nat) :
    paintAll ranges a none = (combineTypes (coveringTypes ranges a)).map (·, false) := by
  induction ranges with
  | nil => rfl
  | cons r ranges ih =>
    rw [paintAll, foldl_cons, coveringTypes_cons]
    split
    · exact paintAll_some ranges a r.type
    · exact ih

variable {s : MtrrState}

theorem MtrrState.NoWrap.coveringTypes_eq (h : s.NoWrap) (a : Nat) :
    coveringTypes s.requests a = s.varTypes a := by
  unfold coveringTypes MtrrState.requests
  rw [filter_filterMap, map_filterMap]
  apply filterMap_congr
  intro mtrr hmem
  have hwrap := h mtrr hmem
  unfold requested
  generalize getVarMtrrState s.physHiRsvd mtrr = state at hwrap ⊢
  obtain ⟨type, start, len⟩ := state
  dsimp only at hwrap ⊢
  by_cases hvalid : type = .invalid
  · simp [hvalid]
  have hstop : (start + len).toNat = start.toNat + len.toNat := by
    rw [BitVec.toNat_add, mod_eq_of_lt (hwrap hvalid)]
  rw [hstop]
  by_cases hcovers : start.toNat ≤ a ∧ a < start.toNat + len.toNat
  · simp [hvalid, hcovers]
  · simp [hvalid, hcovers]
    omega

/-! ## Building and rebuilding -/

theorem MtrrState.fixedIndex_lt (s : MtrrState) {a : Nat} (ha : a < s.fixedTop) :
    fixedIndex a < s.fixedRanges.toList.length := by
  have hlen : s.fixedRanges.toList.length = 88 := by simp
  unfold MtrrState.fixedTop at ha
  unfold fixedIndex
  split_ifs at ha ⊢ <;> omega

theorem MtrrState.fixedTop_le (s : MtrrState) : s.fixedTop ≤ 2 ^ 32 := by
  unfold MtrrState.fixedTop
  split_ifs <;> omega

/-! ## The life of the map -/

/-- What happens after the map has been built: `set_mtrr` changes a variable register and rebuilds
the map, and `mtrr_copy_map` moves it to memory of the right size. -/
inductive MtrrEvent
  | setMtrr (reg : Nat) (range : MtrrVarRange)
  | copyMap

def MtrrState.setVarRange (s : MtrrState) (reg : Nat) (range : MtrrVarRange) : MtrrState :=
  { s with
    varRanges := s.varRanges.set reg range
    numVarRanges_le := by simpa using s.numVarRanges_le }

def mtrrStep : MtrrState × MtrrMap → MtrrEvent → Option (MtrrState × MtrrMap)
  | (s, m), .setMtrr reg range => do
      let m ← genericRebuildMap (s.setVarRange reg range) m
      return (s.setVarRange reg range, m)
  | (s, m), .copyMap => some (s, mtrrCopyMap s m)

def mtrrRun (s : MtrrState) (events : List MtrrEvent) : Option (MtrrState × MtrrMap) := do
  let m ← mtrrBuildMap s
  events.foldlM mtrrStep (s, m)

def MtrrMap.typeAt (m : MtrrMap) (a : Nat) : Option MtrrType :=
  (cacheMapLayout.lookup m.map a).map Prod.fst

structure MtrrMapInv (s : MtrrState) (m : MtrrMap) : Prop where
  fixed_le : m.fixed ≤ m.map.length
  fixedPart : FixedPart s.fixedRanges.toList s.fixedTop 0 (m.map.take m.fixed)
  size_le : m.fixed + (tom2Entries s.tom2).length + 2 * s.varRanges.length ≤ m.size
  length_le : m.map.length ≤ m.fixed + (tom2Entries s.tom2).length + 2 * s.varRanges.length
  sorted : cacheMapLayout.Sorted m.map
  typeAt : s.NoWrap → ∀ a, m.typeAt a = s.typeAt a

theorem mtrrMapInv_of_mapAddVar (hfix : FixedPart s.fixedRanges.toList s.fixedTop 0 fixed)
    (htom2 : s.tom2 = 0 ∨ 2 ^ 32 < s.tom2.toNat)
    (hsize : fixed.length + (tom2Entries s.tom2).length + 2 * s.varRanges.length ≤ size) :
    ∃ map, mapAddVar size s fixed = some map ∧ MtrrMapInv s ⟨map, size, fixed.length⟩ := by
  have hreqs : s.requests.length ≤ s.varRanges.length := length_filterMap_le _ _
  have hidx : ∀ a, a < s.fixedTop → fixedIndex a < s.fixedRanges.toList.length :=
    fun a ha => s.fixedIndex_lt ha
  have ⟨htomEq, hpart⟩ := addTom2_spec hfix s.fixedTop_le htom2
    (show (fixed ++ tom2Entries s.tom2).length ≤ size by rw [length_append]; omega)
  have hlen : ∀ m, LaidOn (fixed ++ tom2Entries s.tom2) s.requests m →
      m.length ≤ fixed.length + (tom2Entries s.tom2).length + 2 * s.varRanges.length := by
    intro m hlaid
    have hle := hlaid.length_le hpart hidx
    rw [length_append] at hle
    omega
  have hlaid : LaidOn (fixed ++ tom2Entries s.tom2) s.requests (fixed ++ tom2Entries s.tom2) := by
    refine ⟨hpart.sorted, filter_eq_self.2 hpart.marked, fun q hq => .inl hq, ?_⟩
    intro a type ha
    obtain ⟨x, hx, -, hval⟩ := exists_of_lookup ha
    simp [cacheMapLayout, hpart.marked x hx] at hval
  obtain ⟨m, hrun, hlaid', hlookup⟩ := addVarRanges_spec (fun m hm => (hlen m hm).trans hsize)
    s.physHiRsvd s.varRanges (fun r hr => hr) hlaid
  have htake := hlaid'.take_fixed hpart hidx fun x hx => hfix.stop_le hx
  refine ⟨m, by rw [mapAddVar, htomEq]; exact hrun, ?_, ?_, hsize, hlen m hlaid', hlaid'.sorted,
    fun hwrap a => ?_⟩
  · have hlength := congrArg length htake
    rw [length_take] at hlength
    dsimp only
    omega
  · rw [htake]
    exact hfix
  · show (cacheMapLayout.lookup m a).map Prod.fst = s.typeAt a
    rw [hlookup, hpart.lookup, MtrrState.typeAt]
    split_ifs with hlow htom
    · rw [getElem?_eq_getElem (s.fixedIndex_lt hlow)]
      simp [paintAll_fixed]
    · simp [paintAll_fixed]
    · rw [paintAll_none, ← MtrrState.requests, hwrap.coveringTypes_eq]
      cases combineTypes (s.varTypes a) <;> rfl

theorem mtrrBuildMap_inv (s : MtrrState) (htom2 : s.tom2 = 0 ∨ 2 ^ 32 < s.tom2.toNat) :
    ∃ m, mtrrBuildMap s = some m ∧ MtrrMapInv s m := by
  obtain ⟨runs, hadd, hruns, hlen⟩ := addFixed_spec (show 88 < CACHE_MAP_MAX by decide) s
  have hsize : (runs.map ({ · with fixed := true })).length + (tom2Entries s.tom2).length +
      2 * s.varRanges.length ≤ CACHE_MAP_MAX := by
    have hmax : CACHE_MAP_MAX = 600 := by decide
    have htom : (tom2Entries s.tom2).length ≤ 1 := by
      unfold tom2Entries
      split <;> simp
    rw [length_map]
    rcases s.numVarRanges_le with hnum | ⟨hnum, hzero⟩
    · omega
    · have htomZero : (tom2Entries s.tom2).length = 0 := by simp [tom2Entries, hzero]
      unfold MTRR_MAX_VAR_RANGES at hnum
      omega
  obtain ⟨map, hvar, hinv⟩ := mtrrMapInv_of_mapAddVar hruns.fixedPart htom2 hsize
  refine ⟨_, ?_, hinv⟩
  rw [mtrrBuildMap, hadd]
  simp only [bind_eq_bind, bind_some]
  rw [hvar]
  rfl

theorem getCacheMapSize_eq (s : MtrrState) (m : MtrrMap) :
    getCacheMapSize s m = m.fixed + (tom2Entries s.tom2).length + 2 * s.varRanges.length := by
  unfold getCacheMapSize tom2Entries
  split <;> simp
  omega

theorem MtrrMapInv.step {m : MtrrMap} (h : MtrrMapInv s m)
    (htom2 : s.tom2 = 0 ∨ 2 ^ 32 < s.tom2.toNat) (event : MtrrEvent) :
    ∃ s' m', mtrrStep (s, m) event = some (s', m') ∧ MtrrMapInv s' m' ∧ s'.tom2 = s.tom2 := by
  cases event with
  | setMtrr reg range =>
    have hlen : (m.map.take m.fixed).length = m.fixed := by rw [length_take, min_eq_left h.fixed_le]
    have hregs : (s.setVarRange reg range).varRanges.length = s.varRanges.length :=
      length_set
    have hsize : (m.map.take m.fixed).length + (tom2Entries (s.setVarRange reg range).tom2).length +
        2 * (s.setVarRange reg range).varRanges.length ≤ m.size := by
      rw [hlen, hregs]
      exact h.size_le
    obtain ⟨map, hadd, hinv⟩ := mtrrMapInv_of_mapAddVar (s := s.setVarRange reg range) h.fixedPart
      htom2 hsize
    refine ⟨s.setVarRange reg range, _, ?_, hinv, rfl⟩
    rw [mtrrStep, genericRebuildMap, hadd, hlen]
    rfl
  | copyMap =>
    refine ⟨s, mtrrCopyMap s m, rfl, ?_, rfl⟩
    unfold mtrrCopyMap
    split
    · exact h
    · exact { h with size_le := (getCacheMapSize_eq s m).ge }

theorem mtrrRun_inv (s : MtrrState) (htom2 : s.tom2 = 0 ∨ 2 ^ 32 < s.tom2.toNat)
    (events : List MtrrEvent) : ∃ s' m, mtrrRun s events = some (s', m) ∧ MtrrMapInv s' m := by
  obtain ⟨m, hbuild, hinv⟩ := mtrrBuildMap_inv s htom2
  have hrun : ∀ events s m, (s.tom2 = 0 ∨ 2 ^ 32 < s.tom2.toNat) → MtrrMapInv s m →
      ∃ s' m', foldlM mtrrStep (s, m) events = some (s', m') ∧ MtrrMapInv s' m' := by
    intro events
    induction events with
    | nil => exact fun s m _ hinv => ⟨s, m, rfl, hinv⟩
    | cons event events ih =>
      intro s m htom2 hinv
      obtain ⟨s₁, m₁, hstep, hinv₁, htom⟩ := hinv.step htom2 event
      obtain ⟨s', m', hrest, hinv'⟩ := ih s₁ m₁ (htom ▸ htom2) hinv₁
      refine ⟨s', m', ?_, hinv'⟩
      rw [foldlM_cons, hstep]
      exact hrest
  obtain ⟨s', m', hfold, hinv'⟩ := hrun events s m htom2 hinv
  refine ⟨s', m', ?_, hinv'⟩
  rw [mtrrRun, hbuild]
  exact hfold

/-- An array of the size that `get_cache_map_size` gives has room for every entry that a rebuild
inserts on the way: without room `add_map_entry_at` would have no result. -/
theorem genericRebuildMap_room (s : MtrrState) (htom2 : s.tom2 = 0 ∨ 2 ^ 32 < s.tom2.toNat) :
    ∃ runs, addFixed CACHE_MAP_MAX s = some runs ∧ ∀ (m : MtrrMap) (rest : List CacheMap),
      m.map = runs.map ({ · with fixed := true }) ++ rest → m.fixed = runs.length →
      m.size = getCacheMapSize s m → (genericRebuildMap s m).isSome := by
  obtain ⟨runs, hadd, hruns, -⟩ := addFixed_spec (show 88 < CACHE_MAP_MAX by decide) s
  refine ⟨runs, hadd, fun m rest hmap hfixed hsize => ?_⟩
  have htake : m.map.take m.fixed = runs.map ({ · with fixed := true }) := by
    rw [hmap, hfixed]
    exact List.take_left' (List.length_map _)
  rw [getCacheMapSize_eq, hfixed] at hsize
  obtain ⟨map, hvar, -⟩ := mtrrMapInv_of_mapAddVar hruns.fixedPart htom2
    (show (runs.map _).length + _ + _ ≤ m.size by rw [List.length_map, hsize])
  rw [genericRebuildMap, htake, hvar]
  rfl

/-- The same registers, with the variable ones in another order. -/
structure MtrrState.Reordered (s s' : MtrrState) : Prop where
  varRanges : s'.varRanges.Perm s.varRanges
  fixedRanges : s'.fixedRanges = s.fixedRanges
  fixedEnabled : s'.fixedEnabled = s.fixedEnabled
  tom2 : s'.tom2 = s.tom2
  physHiRsvd : s'.physHiRsvd = s.physHiRsvd

theorem MtrrState.Reordered.typeAt {s' : MtrrState} (h : s.Reordered s') (a : Nat) :
    s'.typeAt a = s.typeAt a := by
  have hvar : (s'.varTypes a).Perm (s.varTypes a) := by
    unfold MtrrState.varTypes
    rw [h.physHiRsvd]
    exact h.varRanges.filterMap _
  unfold MtrrState.typeAt MtrrState.fixedTop
  rw [h.fixedEnabled, h.fixedRanges, h.tom2, combineTypes_perm hvar]

theorem MtrrState.Reordered.noWrap {s' : MtrrState} (h : s.Reordered s') (hwrap : s.NoWrap) :
    s'.NoWrap := by
  intro mtrr hmem
  rw [h.physHiRsvd]
  exact hwrap mtrr (h.varRanges.mem_iff.1 hmem)

/-- After the map has been built and after every change of a register, the map is sorted and its
type for each address is the one of the registers, whatever their order. -/
theorem mtrrRun_correct (s : MtrrState) (htom2 : s.tom2 = 0 ∨ 2 ^ 32 < s.tom2.toNat)
    (events : List MtrrEvent) :
    ∃ s' m, mtrrRun s events = some (s', m) ∧ cacheMapLayout.Sorted m.map ∧
      (s'.NoWrap → (∀ a, m.typeAt a = s'.typeAt a) ∧
        ∀ t events₂ t' m₂, (t.tom2 = 0 ∨ 2 ^ 32 < t.tom2.toNat) →
          mtrrRun t events₂ = some (t', m₂) → s'.Reordered t' → ∀ a, m₂.typeAt a = m.typeAt a) := by
  obtain ⟨s', m, hrun, hinv⟩ := mtrrRun_inv s htom2 events
  refine ⟨s', m, hrun, hinv.sorted, fun hwrap => ⟨hinv.typeAt hwrap, ?_⟩⟩
  intro t events₂ t' m₂ htom2₂ hrun₂ hre a
  obtain ⟨t'', m₂', hrun₂', hinv₂⟩ := mtrrRun_inv t htom2₂ events₂
  rw [hrun₂] at hrun₂'
  cases hrun₂'
  rw [hinv₂.typeAt (hre.noWrap hwrap), hinv.typeAt hwrap, hre.typeAt]

/-- Write-back memory up to 4GB with an uncachable hole at its end, and `TOP_MEM2` at 5GB. -/
def sampleMtrrState : MtrrState where
  varRanges := [⟨6, 0, 0x800, 0xffff⟩, ⟨0xc0000000, 0, 0xc0000800, 0xffff⟩]
  fixedRanges := Vector.replicate 88 .wrback
  fixedEnabled := true
  tom2 := 0x140000000
  physHiRsvd := 0xffff0000
  numVarRanges_le := by decide

theorem genericRebuildMap_room_sample :
    ∃ runs, addFixed CACHE_MAP_MAX sampleMtrrState = some runs ∧
      (genericRebuildMap sampleMtrrState
        ⟨runs.map ({ · with fixed := true }), runs.length + 2 * 2 + 1, runs.length⟩).isSome := by
  obtain ⟨runs, hadd, hroom⟩ := genericRebuildMap_room sampleMtrrState (by decide)
  exact ⟨runs, hadd, hroom _ [] (List.append_nil _).symm rfl rfl⟩

/-- The hole moves down by a gigabyte, and the map is copied to memory of its size. -/
theorem mtrrRun_correct_sample :
    let range : MtrrVarRange := ⟨0x80000000, 0, 0xc0000800, 0xffff⟩
    let s := sampleMtrrState.setVarRange 1 range
    ∃ m, mtrrRun sampleMtrrState [.setMtrr 1 range, .copyMap] = some (s, m) ∧
      cacheMapLayout.Sorted m.map ∧ ∀ a, m.typeAt a = s.typeAt a := by
  intro range s
  obtain ⟨s', m, hrun, hsorted, htype⟩ := mtrrRun_correct sampleMtrrState (by decide)
    [.setMtrr 1 range, .copyMap]
  have hstate : s' = s := by
    obtain ⟨m₀, -, hsteps⟩ := bind_eq_some_iff.1 hrun
    obtain ⟨p, hset, hcopy⟩ := bind_eq_some_iff.1 hsteps
    obtain ⟨m₁, -, hpair⟩ := bind_eq_some_iff.1 hset
    cases hpair
    cases hcopy
    rfl
  subst hstate
  have hwrap : s.NoWrap := by
    unfold MtrrState.NoWrap
    decide
  exact ⟨m, hrun, hsorted, (htype hwrap).1⟩

end LinuxKernel.X86
