import Mathlib

/-!
# Maps kept as sorted segments

A map from addresses to values is kept as a list of entries. Each entry stands for a half-open
segment of addresses and the value they have; the entries are in the order of their addresses and do
not overlap. Such a list is changed at one place, by putting other entries in the place of some:
`edit_replace` says when that gives the addresses between `lo` and `hi` a new value and leaves the
rest of the map alone.

Some entries may be protected: an edit takes none of them away and adds none.
-/

namespace LinuxKernel.Foundation.Segments

open List

variable {E K V : Type} [LinearOrder K]

structure Layout (E K V : Type) where
  start : E → K
  stop : E → K
  value : E → V

variable {L : Layout E K V}

namespace Layout

def Covers (L : Layout E K V) (a : K) (x : E) : Prop :=
  L.start x ≤ a ∧ a < L.stop x

instance (L : Layout E K V) (a : K) : DecidablePred (L.Covers a) :=
  fun x => inferInstanceAs (Decidable (L.start x ≤ a ∧ a < L.stop x))

def lookup (L : Layout E K V) (m : List E) (a : K) : Option V :=
  (m.find? fun x => decide (L.Covers a x)).map L.value

structure Sorted (L : Layout E K V) (m : List E) : Prop where
  ordered : m.Pairwise fun x y => L.stop x ≤ L.start y
  nonempty : ∀ x ∈ m, L.start x < L.stop x

def Boundary (L : Layout E K V) (m : List E) (q : K) : Prop :=
  ∃ x ∈ m, q = L.start x ∨ q = L.stop x

end Layout

/-! ## Looking up -/

@[simp] theorem lookup_nil (a : K) : L.lookup [] a = none := rfl

theorem lookup_cons (x : E) (m : List E) (a : K) :
    L.lookup (x :: m) a = if L.Covers a x then some (L.value x) else L.lookup m a := by
  by_cases h : L.Covers a x <;> simp [Layout.lookup, h]

theorem lookup_append (m₁ m₂ : List E) (a : K) :
    L.lookup (m₁ ++ m₂) a = (L.lookup m₁ a).or (L.lookup m₂ a) := by
  simp only [Layout.lookup, find?_append]
  cases m₁.find? fun x => decide (L.Covers a x) <;> rfl

variable {m : List E} {a : K}

theorem lookup_eq_none_iff : L.lookup m a = none ↔ ∀ x ∈ m, ¬ L.Covers a x := by
  simp [Layout.lookup, find?_eq_none]

theorem exists_of_lookup {v : V} (h : L.lookup m a = some v) :
    ∃ x ∈ m, L.Covers a x ∧ L.value x = v := by
  obtain ⟨x, hfind, hv⟩ := Option.map_eq_some_iff.1 h
  have hcovers := find?_some hfind
  exact ⟨x, mem_of_find?_eq_some hfind, of_decide_eq_true hcovers, hv⟩

/-! ## Sorted lists of segments -/

theorem sorted_nil : L.Sorted [] :=
  ⟨Pairwise.nil, by simp⟩

theorem sorted_cons {x : E} :
    L.Sorted (x :: m) ↔ L.start x < L.stop x ∧ (∀ y ∈ m, L.stop x ≤ L.start y) ∧ L.Sorted m := by
  constructor
  · intro h
    have hord := pairwise_cons.1 h.ordered
    exact ⟨h.nonempty x (by simp), hord.1, hord.2, fun y hy => h.nonempty y (by simp [hy])⟩
  intro ⟨hx, hm, h⟩
  refine ⟨pairwise_cons.2 ⟨hm, h.ordered⟩, ?_⟩
  intro y hy
  cases mem_cons.1 hy with
  | inl heq => exact heq ▸ hx
  | inr hmem => exact h.nonempty y hmem

theorem sorted_append {m₁ m₂ : List E} :
    L.Sorted (m₁ ++ m₂) ↔ L.Sorted m₁ ∧ L.Sorted m₂ ∧ ∀ x ∈ m₁, ∀ y ∈ m₂, L.stop x ≤ L.start y := by
  constructor
  · intro h
    have hord := pairwise_append.1 h.ordered
    exact ⟨⟨hord.1, fun x hx => h.nonempty x (mem_append_left _ hx)⟩,
      ⟨hord.2.1, fun x hx => h.nonempty x (mem_append_right _ hx)⟩, hord.2.2⟩
  · intro ⟨h₁, h₂, h⟩
    refine ⟨pairwise_append.2 ⟨h₁.ordered, h₂.ordered, h⟩, ?_⟩
    intro x hx
    cases mem_append.1 hx with
    | inl hmem => exact h₁.nonempty x hmem
    | inr hmem => exact h₂.nonempty x hmem

theorem Layout.Sorted.lookup_of_mem (h : L.Sorted m) {x : E} (hx : x ∈ m)
    (ha : L.Covers a x) : L.lookup m a = some (L.value x) := by
  induction m with
  | nil => simp at hx
  | cons y m ih =>
    have ⟨hy, hm, htail⟩ := sorted_cons.1 h
    rw [lookup_cons]
    cases mem_cons.1 hx with
    | inl heq => rw [← heq, if_pos ha]
    | inr hmem =>
      have hout : ¬ L.Covers a y := fun hc =>
        absurd (lt_of_lt_of_le hc.2 ((hm x hmem).trans ha.1)) (lt_irrefl a)
      rw [if_neg hout, ih htail hmem]

theorem Layout.Sorted.length_le_card (h : L.Sorted m) {s : Finset K}
    (hs : ∀ x ∈ m, L.start x ∈ s) : m.length ≤ s.card := by
  classical
  have hlt : m.Pairwise fun x y => L.start x < L.start y :=
    h.ordered.imp_of_mem fun hx _ hle => (h.nonempty _ hx).trans_le hle
  have hnodup : (m.map L.start).Nodup :=
    pairwise_map.2 (hlt.imp fun hxy => ne_of_lt hxy)
  calc m.length = (m.map L.start).toFinset.card := by
        rw [toFinset_card_of_nodup hnodup, length_map]
    _ ≤ s.card := by
        apply Finset.card_le_card
        intro q hq
        obtain ⟨x, hx, rfl⟩ := mem_map.1 (mem_toFinset.1 hq)
        exact hs x hx

/-! ## Changing a map at one place -/

/-- `m'` is `m` with the value `c` at the addresses from `lo` to `hi`, the protected entries as they
were, and no other new boundaries than `lo` and `hi`. -/
structure Edit (L : Layout E K V) (protect : E → Bool) (m m' : List E) (lo hi : K)
    (c : Option V) : Prop where
  sorted : L.Sorted m'
  lookup : ∀ a, L.lookup m' a = if lo ≤ a ∧ a < hi then c else L.lookup m a
  protect_eq : m'.filter protect = m.filter protect
  boundary : ∀ q, L.Boundary m' q → L.Boundary m q ∨ q = lo ∨ q = hi

variable {protect : E → Bool} {m m' m'' : List E} {lo hi : K} {c d : Option V}

theorem Edit.trans (h : Edit L protect m m' lo hi c) (h' : Edit L protect m' m'' lo hi d) :
    Edit L protect m m'' lo hi d where
  sorted := h'.sorted
  lookup := by
    intro a
    rw [h'.lookup]
    split
    · rfl
    next ha => rw [h.lookup, if_neg ha]
  protect_eq := h'.protect_eq.trans h.protect_eq
  boundary := by
    intro q hq
    rcases h'.boundary q hq with hq | hq
    · exact h.boundary q hq
    · exact .inr hq

omit [LinearOrder K] in
theorem boundary_append {m₁ m₂ : List E} {q : K} :
    L.Boundary (m₁ ++ m₂) q ↔ L.Boundary m₁ q ∨ L.Boundary m₂ q := by
  simp only [Layout.Boundary, mem_append, or_and_right, exists_or]

/-- Other entries in the place of `mid`, with no address before or behind those of `mid` but the
ones from `lo` to `hi`. -/
theorem edit_replace {pre post : List E} (mid mid' : List E) (h : L.Sorted (pre ++ (mid ++ post)))
    (hlo : ∀ x ∈ pre, L.stop x ≤ lo) (hhi : ∀ x ∈ post, hi ≤ L.start x) (hmid : L.Sorted mid')
    (hstart : ∀ y ∈ mid', lo ≤ L.start y ∨ ∃ x ∈ mid, L.start x ≤ L.start y)
    (hstop : ∀ y ∈ mid', L.stop y ≤ hi ∨ ∃ x ∈ mid, L.stop y ≤ L.stop x)
    (hlookup : ∀ a, L.lookup mid' a = if lo ≤ a ∧ a < hi then c else L.lookup mid a)
    (hprotect : mid'.filter protect = mid.filter protect)
    (hboundary : ∀ q, L.Boundary mid' q → L.Boundary mid q ∨ q = lo ∨ q = hi) :
    Edit L protect (pre ++ (mid ++ post)) (pre ++ (mid' ++ post)) lo hi c where
  sorted := by
    have ⟨hsPre, hsRest, hord⟩ := sorted_append.1 h
    have ⟨_, hsPost, hordPost⟩ := sorted_append.1 hsRest
    have hpost : ∀ x ∈ mid', ∀ y ∈ post, L.stop x ≤ L.start y := by
      intro x hx y hy
      rcases hstop x hx with hle | ⟨z, hz, hle⟩
      · exact hle.trans (hhi y hy)
      · exact hle.trans (hordPost z hz y hy)
    refine sorted_append.2 ⟨hsPre, sorted_append.2 ⟨hmid, hsPost, hpost⟩, ?_⟩
    intro x hx y hy
    cases mem_append.1 hy with
    | inl hmem =>
      rcases hstart y hmem with hle | ⟨z, hz, hle⟩
      · exact (hlo x hx).trans hle
      · exact (hord x hx z (mem_append_left _ hz)).trans hle
    | inr hmem => exact hord x hx y (mem_append_right _ hmem)
  lookup := by
    intro a
    simp only [lookup_append, hlookup]
    split
    next ha =>
      have hnonePre : L.lookup pre a = none := lookup_eq_none_iff.2 fun x hx hc =>
        absurd (hc.2.trans_le ((hlo x hx).trans ha.1)) (lt_irrefl a)
      have hnonePost : L.lookup post a = none := lookup_eq_none_iff.2 fun x hx hc =>
        absurd (ha.2.trans_le ((hhi x hx).trans hc.1)) (lt_irrefl a)
      rw [hnonePre, hnonePost, Option.none_or, Option.or_none]
    · rfl
  protect_eq := by
    simp only [filter_append, hprotect]
  boundary := by
    intro q hq
    simp only [boundary_append] at hq ⊢
    rcases hq with hq | hq | hq
    · exact .inl (.inl hq)
    · exact (hboundary q hq).imp (fun hq => .inr (.inl hq)) id
    · exact .inl (.inr (.inr hq))

end LinuxKernel.Foundation.Segments
