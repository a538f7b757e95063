import Mathlib

/-!
# Min-heaps

The implicit binary tree of `include/linux/min_heap.h`: the children of position `i` are `2 i + 1`
and `2 i + 2`. Around the loop of `min_heapify` the order is right but below one position, around
that of `min_heap_push` it is right but above one position.
-/

namespace LinuxKernel.Lib.MinHeap

open List Nat

variable {α : Type}

/-! ## The code -/

/-- `struct min_heap` with the `elem_size` of its callbacks. The array is small enough for the `int`
arithmetic of the code not to overflow. -/
structure Heap (α : Type) where
  data : Nat → α
  nr : Nat
  size : Nat
  elemSize : Nat
  nr_le : nr ≤ size
  size_le : size ≤ 2 ^ 30
  offset_lt : size * elemSize < 2 ^ 31

/-- The position of a left child and the offset of an element are exact as an `int`. -/
theorem Heap.int_exact (heap : Heap α) {pos : Nat} (hpos : pos < heap.size) :
    Int.bmod (pos * 2 + 1) (2 ^ 32) = pos * 2 + 1 ∧
      Int.bmod (pos * heap.elemSize) (2 ^ 32) = pos * heap.elemSize := by
  have hsize := heap.size_le
  have hoffset : pos * heap.elemSize < 2 ^ 31 :=
    (Nat.mul_le_mul_right _ hpos.le).trans_lt heap.offset_lt
  constructor <;> apply Int.bmod_eq_of_le <;> push_cast at * <;> omega

def swp (data : Nat → α) (i j : Nat) : Nat → α :=
  fun k => data (Equiv.swap i j k)

def store (data : Nat → α) (i : Nat) (x : α) : Nat → α :=
  Function.update data i x

def smallest (less : α → α → Bool) (nr : Nat) (data : Nat → α) (pos : Nat) : Nat :=
  let least := if less (data (pos * 2 + 1)) (data pos) then pos * 2 + 1 else pos
  if pos * 2 + 2 < nr ∧ less (data (pos * 2 + 2)) (data least) then pos * 2 + 2 else least

def heapifyLoop (less : α → α → Bool) (nr : Nat) (data : Nat → α) (pos : Nat) : Nat → α :=
  if nr ≤ pos * 2 + 1 then data
  else
    let least := smallest less nr data pos
    if least = pos then data
    else if least = pos * 2 + 1 then heapifyLoop less nr (swp data least pos) (pos * 2 + 1)
    else heapifyLoop less nr (swp data least pos) (pos * 2 + 2)
termination_by nr - pos

def minHeapify (less : α → α → Bool) (heap : Heap α) (pos : Nat) : Heap α :=
  { heap with data := heapifyLoop less heap.nr heap.data pos }

def heapifyDownTo (less : α → α → Bool) (heap : Heap α) : Nat → Heap α
  | 0 => minHeapify less heap 0
  | i + 1 => heapifyDownTo less (minHeapify less heap (i + 1)) i

def minHeapifyAll (less : α → α → Bool) (heap : Heap α) : Heap α :=
  heapifyDownTo less heap (heap.nr / 2)

def minHeapPop (less : α → α → Bool) (heap : Heap α) : Heap α :=
  if heap.nr = 0 then heap
  else
    let nr := heap.nr - 1
    minHeapify less
      { heap with
        nr := nr
        data := store heap.data 0 (heap.data nr)
        nr_le := (Nat.sub_le _ _).trans heap.nr_le } 0

def minHeapPopPush (less : α → α → Bool) (heap : Heap α) (element : α) : Heap α :=
  minHeapify less { heap with data := store heap.data 0 element } 0

def siftUp (less : α → α → Bool) (data : Nat → α) (pos : Nat) : Nat → α :=
  if pos = 0 then data
  else if less (data ((pos - 1) / 2)) (data pos) then data
  else siftUp less (swp data ((pos - 1) / 2) pos) ((pos - 1) / 2)
termination_by pos

def minHeapPush (less : α → α → Bool) (heap : Heap α) (element : α) : Heap α :=
  if hfull : heap.size ≤ heap.nr then heap
  else
    { heap with
      nr := heap.nr + 1
      nr_le := Nat.lt_of_not_le hfull
      data := siftUp less (store heap.data heap.nr element) heap.nr }

/-! ## The order -/

/-- `less` is a strict weak order: a strict order whose incomparable elements form classes. -/
structure StrictWeak (less : α → α → Bool) : Prop where
  irrefl : ∀ x, less x x = false
  trans : ∀ x y z, less x y = true → less y z = true → less x z = true
  incomp : ∀ x y z, less x y = false → less y x = false → less y z = false → less z y = false →
    less x z = false ∧ less z x = false

section
variable {less : α → α → Bool} (hless : StrictWeak less) {x y z : α}
include hless

theorem StrictWeak.asymm (h : less x y = true) : less y x = false := by
  by_contra hyx
  have hxx := hless.trans x y x h (by simpa using hyx)
  simp [hless.irrefl] at hxx

theorem StrictWeak.not_less_trans (hxy : less x y = false) (hyz : less y z = false) :
    less x z = false := by
  by_contra hxz
  have hxz : less x z = true := by simpa using hxz
  cases hyx : less y x with
  | true => simp [hless.trans y x z hyx hxz] at hyz
  | false =>
    cases hzy : less z y with
    | true => simp [hless.trans x z y hxz hzy] at hxy
    | false => simp [(hless.incomp x y z hxy hyx hyz hzy).1] at hxz

end

/-! ## Swapping -/

section
variable {data : Nat → α} {i j k nr : Nat}

@[simp] theorem swp_left : swp data i j i = data j := by simp [swp]

@[simp] theorem swp_right : swp data i j j = data i := by simp [swp]

theorem swp_of_ne (hi : k ≠ i) (hj : k ≠ j) : swp data i j k = data k := by
  rw [swp, Equiv.swap_apply_of_ne_of_ne hi hj]

@[simp] theorem store_self {x : α} : store data i x i = x := by simp [store]

theorem store_of_ne {x : α} (h : k ≠ i) : store data i x k = data k := by simp [store, h]

def elements (data : Nat → α) (nr : Nat) : List α := (List.range nr).map data

theorem elements_swp (hi : i < nr) (hj : j < nr) :
    (elements (swp data i j) nr).Perm (elements data nr) := by
  have hmap : elements (swp data i j) nr = ((range nr).map (Equiv.swap i j)).map data := by
    rw [map_map]
    rfl
  have hsub : (range nr).map (Equiv.swap i j) ⊆ range nr := by
    intro k hk
    obtain ⟨l, hl, rfl⟩ := mem_map.mp hk
    rw [mem_range] at hl ⊢
    rw [Equiv.swap_apply_def]
    split_ifs <;> assumption
  have hperm : ((range nr).map (Equiv.swap i j)).Perm (range nr) :=
    ((nodup_range.map (Equiv.injective _)).subperm hsub).perm_of_length_le (by simp)
  rw [hmap]
  exact hperm.map data

theorem elements_succ : elements data (nr + 1) = elements data nr ++ [data nr] := by
  simp [elements, range_succ]

theorem elements_succ_eq_cons :
    elements data (nr + 1) = data 0 :: (elements data (nr + 1)).tail := by
  simp [elements, range_succ_eq_map]

theorem elements_store_zero {x : α} :
    elements (store data 0 x) (nr + 1) = x :: (elements data (nr + 1)).tail := by
  simp [elements, range_succ_eq_map, store, Function.comp_def]

theorem elements_store_last :
    (data 0 :: elements (store data 0 (data nr)) nr).Perm (elements data (nr + 1)) := by
  cases nr with
  | zero => simp [elements]
  | succ k =>
    rw [elements_store_zero]
    conv_rhs => rw [elements_succ, elements_succ_eq_cons]
    exact (perm_append_singleton _ _).symm.cons _

end

/-! ## Heaps -/

/-- No element from position 1 on whose parent is at `lo` or behind is less than its parent. -/
def HeapFrom (less : α → α → Bool) (lo nr : Nat) (data : Nat → α) : Prop :=
  ∀ i, 0 < i → i < nr → lo ≤ (i - 1) / 2 → less (data i) (data ((i - 1) / 2)) = false

def IsHeap (less : α → α → Bool) (nr : Nat) (data : Nat → α) : Prop :=
  ∀ i, 0 < i → i < nr → less (data i) (data ((i - 1) / 2)) = false

/-- From `lo` on the order is right but perhaps below `pos`. -/
structure DownOrder (less : α → α → Bool) (lo nr : Nat) (data : Nat → α) (pos : Nat) : Prop where
  other : ∀ i, 0 < i → i < nr → lo ≤ (i - 1) / 2 → (i - 1) / 2 ≠ pos →
    less (data i) (data ((i - 1) / 2)) = false
  grand : ∀ i, 0 < i → i < nr → (i - 1) / 2 = pos → 0 < pos → lo ≤ (pos - 1) / 2 →
    less (data i) (data ((pos - 1) / 2)) = false

/-- The order is right but perhaps at `pos`, which may be less than its parent. -/
structure UpOrder (less : α → α → Bool) (nr : Nat) (data : Nat → α) (pos : Nat) : Prop where
  other : ∀ i, 0 < i → i < nr → i ≠ pos → less (data i) (data ((i - 1) / 2)) = false
  grand : ∀ i, 0 < i → i < nr → (i - 1) / 2 = pos → 0 < pos →
    less (data i) (data ((pos - 1) / 2)) = false

/-! ## Sifting down -/

section
variable {less : α → α → Bool} {lo nr pos c : Nat} {data : Nat → α}

theorem DownOrder.finish (h : DownOrder less lo nr data pos)
    (hmin : ∀ i, 0 < i → i < nr → (i - 1) / 2 = pos → less (data i) (data pos) = false) :
    HeapFrom less lo nr data := by
  intro i hi hinr hlo
  by_cases hp : (i - 1) / 2 = pos
  · rw [hp]
    exact hmin i hi hinr hp
  · exact h.other i hi hinr hlo hp

variable (hless : StrictWeak less)
include hless

/-- The smallest position is the parent, or a child that is less than the parent; no child is less
than what it holds. -/
theorem smallest_spec (hc : smallest less nr data pos = c) : (c = pos ∨
      (c = pos * 2 + 1 ∨ c = pos * 2 + 2 ∧ pos * 2 + 2 < nr) ∧ less (data c) (data pos) = true) ∧
    ∀ i, 0 < i → i < nr → (i - 1) / 2 = pos → less (data i) (data c) = false := by
  have hchild : ∀ i, 0 < i → (i - 1) / 2 = pos → i = pos * 2 + 1 ∨ i = pos * 2 + 2 := by omega
  subst hc
  unfold smallest
  cases hl : less (data (pos * 2 + 1)) (data pos) with
  | true =>
    simp only [if_true]
    split
    next hr =>
      refine ⟨.inr ⟨.inr ⟨rfl, hr.1⟩, hless.trans _ _ _ hr.2 hl⟩, fun i hi hinr hp => ?_⟩
      rcases hchild i hi hp with rfl | rfl
      · exact hless.asymm hr.2
      · exact hless.irrefl _
    next hr =>
      refine ⟨.inr ⟨.inl rfl, hl⟩, fun i hi hinr hp => ?_⟩
      rcases hchild i hi hp with rfl | rfl
      · exact hless.irrefl _
      · simpa [hinr] using hr
  | false =>
    simp only [Bool.false_eq_true, if_false]
    split
    next hr =>
      refine ⟨.inr ⟨.inr ⟨rfl, hr.1⟩, hr.2⟩, fun i hi hinr hp => ?_⟩
      rcases hchild i hi hp with rfl | rfl
      · exact hless.not_less_trans hl (hless.asymm hr.2)
      · exact hless.irrefl _
    next hr =>
      refine ⟨.inl rfl, fun i hi hinr hp => ?_⟩
      rcases hchild i hi hp with rfl | rfl
      · exact hl
      · simpa [hinr] using hr

variable (h : DownOrder less lo nr data pos)
include h

theorem DownOrder.move (hlo : lo ≤ pos) (hc : 0 < c)
    (hcnr : c < nr) (hp : (c - 1) / 2 = pos) (hlt : less (data c) (data pos) = true)
    (hmin : ∀ i, 0 < i → i < nr → (i - 1) / 2 = pos → less (data i) (data c) = false) :
    DownOrder less lo nr (swp data c pos) c := by
  constructor
  · intro i hi hinr hlo' hne
    by_cases hic : i = c
    · subst hic
      rw [swp_left, hp, swp_right]
      exact hless.asymm hlt
    by_cases hipos : i = pos
    · subst hipos
      have hq : (i - 1) / 2 ≠ i := by omega
      rw [swp_right, swp_of_ne hne hq]
      exact h.grand c hc hcnr hp hi hlo'
    · rw [swp_of_ne hic hipos]
      by_cases hsib : (i - 1) / 2 = pos
      · rw [hsib, swp_right]
        exact hmin i hi hinr hsib
      · rw [swp_of_ne hne hsib]
        exact h.other i hi hinr hlo' hsib
  · intro i hi hinr hic _ _
    have hci : i ≠ c := by omega
    have hpi : i ≠ pos := by omega
    rw [hp, swp_right, swp_of_ne hci hpi]
    have hother := h.other i hi hinr (by omega) (by omega)
    rwa [hic] at hother

theorem DownOrder.step (hlo : lo ≤ pos)
    (hleaf : ¬nr ≤ pos * 2 + 1) (hc : smallest less nr data pos = c) (hne : c ≠ pos) :
    DownOrder less lo nr (swp data c pos) c ∧
      (elements (swp data c pos) nr).Perm (elements data nr) ∧
      (c = pos * 2 + 1 ∨ c = pos * 2 + 2) := by
  obtain ⟨hcase, hmin⟩ := smallest_spec hless hc
  obtain ⟨hside, hlt⟩ := hcase.resolve_left hne
  refine ⟨h.move hless hlo ?_ ?_ ?_ hlt hmin, elements_swp ?_ ?_, ?_⟩ <;> omega

theorem heapifyLoop_spec (hlo : lo ≤ pos) : HeapFrom less lo nr (heapifyLoop less nr data pos) ∧
      (elements (heapifyLoop less nr data pos) nr).Perm (elements data nr) := by
  induction data, pos using heapifyLoop.induct less nr with
  | case1 data pos hleaf =>
    rw [heapifyLoop, if_pos hleaf]
    exact ⟨h.finish fun i hi hinr hp => by omega, Perm.refl _⟩
  | case2 data pos hleaf least hleast =>
    rw [heapifyLoop, if_neg hleaf]
    rw [if_pos hleast]
    exact ⟨h.finish (smallest_spec hless hleast).2, Perm.refl _⟩
  | case3 data pos hleaf least hne hleft ih =>
    obtain ⟨hstep, hperm, -⟩ := h.step hless hlo hleaf rfl hne
    rw [heapifyLoop, if_neg hleaf]
    rw [if_neg hne, if_pos hleft]
    obtain ⟨hheap, hperm'⟩ := ih (hleft ▸ hstep) (by omega)
    exact ⟨hheap, hperm'.trans hperm⟩
  | case4 data pos hleaf least hne hleft ih =>
    obtain ⟨hstep, hperm, hside⟩ := h.step hless hlo hleaf rfl hne
    rw [heapifyLoop, if_neg hleaf]
    rw [if_neg hne, if_neg hleft]
    obtain ⟨hheap, hperm'⟩ := ih (hside.resolve_left hleft ▸ hstep) (by omega)
    exact ⟨hheap, hperm'.trans hperm⟩

end

/-! ## Sifting up -/

section
variable {less : α → α → Bool} {nr pos : Nat} {data : Nat → α}

theorem UpOrder.finish (h : UpOrder less nr data pos)
    (hpos : 0 < pos → less (data pos) (data ((pos - 1) / 2)) = false) : IsHeap less nr data := by
  intro i hi hinr
  by_cases hipos : i = pos
  · subst hipos
    exact hpos hi
  · exact h.other i hi hinr hipos

variable (hless : StrictWeak less)
include hless

theorem UpOrder.move (h : UpOrder less nr data pos) (hpos : 0 < pos) (hnr : pos < nr)
    (hge : less (data ((pos - 1) / 2)) (data pos) = false) :
    UpOrder less nr (swp data ((pos - 1) / 2) pos) ((pos - 1) / 2) := by
  have hlt : (pos - 1) / 2 < pos := by omega
  generalize hpar : (pos - 1) / 2 = par at hge hlt ⊢
  have hup : 0 < par → less (data par) (data ((par - 1) / 2)) = false :=
    fun hpar0 => h.other par hpar0 (by omega) (by omega)
  constructor
  · intro i hi hinr hne
    by_cases hipos : i = pos
    · subst hipos
      rw [swp_right, hpar, swp_left]
      exact hge
    rw [swp_of_ne hne hipos]
    have hother := h.other i hi hinr hipos
    by_cases hsib : (i - 1) / 2 = par
    · rw [hsib, swp_left]
      rw [hsib] at hother
      exact hless.not_less_trans hother hge
    by_cases hchild : (i - 1) / 2 = pos
    · rw [hchild, swp_right]
      have hgrand := h.grand i hi hinr hchild hpos
      rwa [hpar] at hgrand
    · rwa [swp_of_ne hsib hchild]
  · intro i hi hinr hipar hpar0
    have hqpar : (par - 1) / 2 ≠ par := by omega
    have hqpos : (par - 1) / 2 ≠ pos := by omega
    rw [swp_of_ne hqpar hqpos]
    by_cases hipos : i = pos
    · subst hipos
      rw [swp_right]
      exact hup hpar0
    have hne : i ≠ par := by omega
    rw [swp_of_ne hne hipos]
    have hother := h.other i hi hinr hipos
    rw [hipar] at hother
    exact hless.not_less_trans hother (hup hpar0)

theorem siftUp_spec (h : UpOrder less nr data pos) (hnr : pos < nr) :
    IsHeap less nr (siftUp less data pos) ∧
      (elements (siftUp less data pos) nr).Perm (elements data nr) := by
  induction data, pos using siftUp.induct less with
  | case1 data =>
    rw [siftUp]
    exact ⟨h.finish fun h0 => absurd h0 (lt_irrefl 0), Perm.refl _⟩
  | case2 data pos hpos hlt =>
    rw [siftUp, if_neg hpos, if_pos hlt]
    exact ⟨h.finish fun _ => hless.asymm hlt, Perm.refl _⟩
  | case3 data pos hpos hlt ih =>
    rw [siftUp, if_neg hpos, if_neg hlt]
    have hmove := h.move hless (Nat.pos_of_ne_zero hpos) hnr (by simpa using hlt)
    obtain ⟨hheap, hperm⟩ := ih hmove (by omega)
    exact ⟨hheap, hperm.trans (elements_swp (by omega) hnr)⟩

end

/-! ## The operations -/

def Heap.contents (heap : Heap α) : Multiset α := elements heap.data heap.nr

def IsMinimum (less : α → α → Bool) (x : α) (m : Multiset α) : Prop :=
  x ∈ m ∧ ∀ y ∈ m, less y x = false

inductive Call (α : Type) where
  | push (element : α)
  | pop
  | popPush (element : α)
  deriving DecidableEq, Repr

def Call.run (less : α → α → Bool) (heap : Heap α) : Call α → Heap α
  | .push element => minHeapPush less heap element
  | .pop => minHeapPop less heap
  | .popPush element => minHeapPopPush less heap element

/-- What a call does to the multiset of elements, in a heap with room for `size`. -/
def Call.Changes (less : α → α → Bool) (size : Nat) (m m' : Multiset α) : Call α → Prop
  | .push element => if m.card < size then m' = element ::ₘ m else m' = m
  | .pop => if m.card = 0 then m' = 0 else ∃ least, IsMinimum less least m ∧ m = least ::ₘ m'
  | .popPush element =>
    if m.card = 0 then m' = 0
    else ∃ least rest, IsMinimum less least m ∧ m = least ::ₘ rest ∧ m' = element ::ₘ rest

def runCalls (less : α → α → Bool) (heap : Heap α) (calls : List (Call α)) : Heap α :=
  calls.foldl (Call.run less) heap

def CallsChange (less : α → α → Bool) (size : Nat) : List (Call α) → Multiset α → Multiset α → Prop
  | [], m, m' => m = m'
  | call :: calls, m, m' => ∃ m₁, call.Changes less size m m₁ ∧ CallsChange less size calls m₁ m'

section
variable {less : α → α → Bool} {heap : Heap α} {nr : Nat} {data : Nat → α}

theorem isHeap_iff : IsHeap less nr data ↔ HeapFrom less 0 nr data :=
  ⟨fun h i hi hinr _ => h i hi hinr, fun h i hi hinr => h i hi hinr (zero_le _)⟩

@[simp] theorem card_contents : heap.contents.card = heap.nr := by
  simp [Heap.contents, elements]

theorem contents_eq_zero : heap.contents = 0 ↔ heap.nr = 0 := by
  rw [← Multiset.card_eq_zero, card_contents]

/-- Only position 0 has been stored to: the order is right but perhaps below it. -/
theorem IsHeap.downOrder (h : IsHeap less nr data) (x : α)
    {nr' : Nat} (hnr : nr' ≤ nr) : DownOrder less 0 nr' (store data 0 x) 0 where
  other i hi hinr _ hne := by
    rw [store_of_ne (ne_of_gt hi), store_of_ne hne]
    exact h i hi (by omega)
  grand i _ _ _ h0 := absurd h0 (lt_irrefl 0)

variable (hless : StrictWeak less)
include hless

theorem IsHeap.heapify {nr' : Nat} (h : IsHeap less nr data) (x : α) (hnr : nr' ≤ nr) :
    IsHeap less nr' (heapifyLoop less nr' (store data 0 x) 0) ∧
      (elements (heapifyLoop less nr' (store data 0 x) 0) nr').Perm
        (elements (store data 0 x) nr') :=
  (heapifyLoop_spec hless (h.downOrder x hnr) (le_refl 0)).imp_left isHeap_iff.mpr

theorem heapifyDownTo_spec (i : Nat) (h : HeapFrom less (i + 1) heap.nr heap.data) :
    IsHeap less heap.nr (heapifyDownTo less heap i).data ∧
      (heapifyDownTo less heap i).contents = heap.contents := by
  induction i generalizing heap with
  | zero =>
    have horder : DownOrder less 0 heap.nr heap.data 0 :=
      ⟨fun j hj hjnr _ hne => h j hj hjnr (by omega), fun _ _ _ _ h0 => absurd h0 (by omega)⟩
    obtain ⟨hheap, hperm⟩ := heapifyLoop_spec hless horder (le_refl 0)
    exact ⟨isHeap_iff.mpr hheap, Multiset.coe_eq_coe.mpr hperm⟩
  | succ i ih =>
    have horder : DownOrder less (i + 1) heap.nr heap.data (i + 1) :=
      ⟨fun j hj hjnr hlo hne => h j hj hjnr (by omega), fun j _ _ _ _ hlo => by omega⟩
    obtain ⟨hheap, hperm⟩ := heapifyLoop_spec hless horder le_rfl
    have hfrom : HeapFrom less (i + 1) (minHeapify less heap (i + 1)).nr
        (minHeapify less heap (i + 1)).data := hheap
    obtain ⟨hheap', hcontents⟩ := ih hfrom
    exact ⟨hheap', hcontents.trans (Multiset.coe_eq_coe.mpr hperm)⟩

variable (h : IsHeap less heap.nr heap.data)
include h

theorem IsHeap.root_le (i : Nat) (hi : i < heap.nr) : less (heap.data i) (heap.data 0) = false := by
  induction i using Nat.strongRecOn with
  | ind i ih =>
    by_cases hi0 : i = 0
    · rw [hi0]
      exact hless.irrefl _
    · exact hless.not_less_trans (h i (by omega) hi) (ih ((i - 1) / 2) (by omega) (by omega))

theorem IsHeap.isMinimum (hnr : 0 < heap.nr) : IsMinimum less (heap.data 0) heap.contents := by
  refine ⟨?_, fun y hy => ?_⟩
  · exact Multiset.mem_coe.mpr (mem_map.mpr ⟨0, mem_range.mpr hnr, rfl⟩)
  · obtain ⟨i, hi, rfl⟩ := mem_map.mp (Multiset.mem_coe.mp hy)
    exact root_le hless h i (mem_range.mp hi)

theorem minHeapPopPush_spec (x : α) : IsHeap less heap.nr (minHeapPopPush less heap x).data ∧
      (Call.popPush x).Changes less heap.size heap.contents
        (minHeapPopPush less heap x).contents := by
  obtain ⟨hheap, hperm⟩ := h.heapify hless x le_rfl
  refine ⟨hheap, ?_⟩
  simp only [Call.Changes, card_contents]
  split
  next hnr => exact contents_eq_zero.mpr hnr
  next hnr =>
    obtain ⟨k, hk⟩ := exists_eq_succ_of_ne_zero hnr
    refine ⟨heap.data 0, (elements heap.data heap.nr).tail,
      IsHeap.isMinimum hless h (by omega), ?_, ?_⟩
    · rw [Heap.contents, Multiset.cons_coe, hk, ← elements_succ_eq_cons]
    · rw [Heap.contents, Multiset.cons_coe, Multiset.coe_eq_coe]
      refine hperm.trans ?_
      rw [hk, elements_store_zero]

theorem minHeapPop_spec : IsHeap less (minHeapPop less heap).nr (minHeapPop less heap).data ∧
      Call.pop.Changes less heap.size heap.contents (minHeapPop less heap).contents := by
  by_cases hnr : heap.nr = 0
  · rw [minHeapPop, if_pos hnr]
    exact ⟨h, by simp [Call.Changes, hnr, contents_eq_zero]⟩
  obtain ⟨k, hk⟩ := exists_eq_succ_of_ne_zero hnr
  have hrun : minHeapPop less heap = minHeapify less
      { heap with
        nr := k
        data := store heap.data 0 (heap.data k)
        nr_le := by have := heap.nr_le; omega } 0 := by
    simp [minHeapPop, hk]
  obtain ⟨hheap, hperm⟩ := h.heapify hless (heap.data k) (show k ≤ heap.nr by omega)
  rw [hrun]
  refine ⟨hheap, ?_⟩
  simp only [Call.Changes, card_contents, if_neg hnr]
  refine ⟨heap.data 0, IsHeap.isMinimum hless h (Nat.pos_of_ne_zero hnr), ?_⟩
  rw [Heap.contents, Heap.contents, Multiset.cons_coe, Multiset.coe_eq_coe,
    congrArg (elements heap.data) hk]
  exact elements_store_last.symm.trans (hperm.symm.cons _)

theorem minHeapPush_spec (x : α) :
    IsHeap less (minHeapPush less heap x).nr (minHeapPush less heap x).data ∧
      (Call.push x).Changes less heap.size heap.contents (minHeapPush less heap x).contents := by
  by_cases hfull : heap.size ≤ heap.nr
  · rw [minHeapPush, dif_pos hfull]
    exact ⟨h, by simp [Call.Changes, hfull]⟩
  have horder : UpOrder less (heap.nr + 1) (store heap.data heap.nr x) heap.nr := by
    constructor
    · intro i hi hinr hne
      rw [store_of_ne hne, store_of_ne (show (i - 1) / 2 ≠ heap.nr by omega)]
      exact h i hi (by omega)
    · omega
  obtain ⟨hheap, hperm⟩ := siftUp_spec hless horder (lt_succ_self _)
  rw [minHeapPush, dif_neg hfull]
  refine ⟨hheap, ?_⟩
  simp only [Call.Changes, card_contents, if_pos (Nat.lt_of_not_le hfull)]
  rw [Heap.contents, Heap.contents, Multiset.cons_coe, Multiset.coe_eq_coe]
  have hlast : elements (store heap.data heap.nr x) heap.nr = elements heap.data heap.nr :=
    map_congr_left fun k hk => store_of_ne (Nat.ne_of_lt (mem_range.mp hk))
  refine hperm.trans ?_
  rw [elements_succ, store_self, hlast]
  exact perm_append_singleton _ _

theorem Call.run_spec (call : Call α) :
    IsHeap less (call.run less heap).nr (call.run less heap).data ∧
      call.Changes less heap.size heap.contents (call.run less heap).contents ∧
      (call.run less heap).size = heap.size := by
  cases call with
  | push x =>
    obtain ⟨hheap, hchange⟩ := minHeapPush_spec hless h x
    refine ⟨hheap, hchange, ?_⟩
    simp only [Call.run, minHeapPush]
    split <;> rfl
  | pop =>
    obtain ⟨hheap, hchange⟩ := minHeapPop_spec hless h
    refine ⟨hheap, hchange, ?_⟩
    simp only [Call.run, minHeapPop]
    split <;> rfl
  | popPush x =>
    obtain ⟨hheap, hchange⟩ := minHeapPopPush_spec hless h x
    exact ⟨hheap, hchange, rfl⟩

theorem runCalls_spec (calls : List (Call α)) :
    IsHeap less (runCalls less heap calls).nr (runCalls less heap calls).data ∧
      CallsChange less heap.size calls heap.contents (runCalls less heap calls).contents := by
  induction calls generalizing heap with
  | nil => exact ⟨h, rfl⟩
  | cons call calls ih =>
    obtain ⟨hheap, hchange, hsize⟩ := Call.run_spec hless h call
    obtain ⟨hheap', hchange'⟩ := ih hheap
    rw [hsize] at hchange'
    exact ⟨hheap', _, hchange, hchange'⟩

end

/-- `min_heapify_all` makes a heap of any contents; from a heap, every sequence of calls leads to
heaps with a minimum at position 0, and changes the multiset of elements call by call: a push on a
full heap and a pop from an empty one do nothing, and neither does a pop-push on an empty heap. -/
theorem minHeap_calls (less : α → α → Bool) (hless : StrictWeak less) (heap : Heap α) :
    (IsHeap less heap.nr (minHeapifyAll less heap).data ∧
      (minHeapifyAll less heap).contents = heap.contents) ∧
    (IsHeap less heap.nr heap.data → ∀ calls : List (Call α),
      IsHeap less (runCalls less heap calls).nr (runCalls less heap calls).data ∧
      CallsChange less heap.size calls heap.contents (runCalls less heap calls).contents ∧
      (0 < (runCalls less heap calls).nr →
        IsMinimum less ((runCalls less heap calls).data 0)
          (runCalls less heap calls).contents)) := by
  refine ⟨heapifyDownTo_spec hless _ fun i hi hinr hlo => by omega, fun h calls => ?_⟩
  obtain ⟨hheap, hchange⟩ := runCalls_spec hless h calls
  exact ⟨hheap, hchange, IsHeap.isMinimum hless hheap⟩

theorem strictWeak_lt : StrictWeak fun x y : Nat => decide (x < y) where
  irrefl x := by simp
  trans x y z hxy hyz := by
    simp only [decide_eq_true_eq] at hxy hyz ⊢
    omega
  incomp x y z hxy hyx hyz hzy := by
    simp only [decide_eq_false_iff_not] at hxy hyx hyz hzy ⊢
    omega

def threeElements : Heap Nat := ⟨fun i => i + 5, 3, 4, 8, by decide, by decide, by decide⟩

/-- A heap of zeros. -/
def zeros (nr size : Nat) (hnr : nr ≤ size) (hsize : size ≤ 4) : Heap Nat :=
  ⟨fun _ => 0, nr, size, 8, hnr, by omega, by omega⟩

theorem minHeap_calls_threeElements :
    (IsHeap (fun x y => decide (x < y)) 3
        (minHeapifyAll (fun x y => decide (x < y)) threeElements).data ∧
      (minHeapifyAll (fun x y => decide (x < y)) threeElements).contents = threeElements.contents) ∧
    IsHeap (fun x y => decide (x < y)) 3 threeElements.data ∧
    let heap := runCalls (fun x y => decide (x < y)) threeElements [.push 1, .pop, .popPush 9]
    IsHeap (fun x y => decide (x < y)) heap.nr heap.data ∧
      CallsChange (fun x y => decide (x < y)) 4 [.push 1, .pop, .popPush 9] threeElements.contents
        heap.contents ∧
      (0 < heap.nr → IsMinimum (fun x y => decide (x < y)) (heap.data 0) heap.contents) := by
  have hheap : IsHeap (fun x y => decide (x < y)) 3 threeElements.data := by
    intro i hi hinr
    show decide (i + 5 < (i - 1) / 2 + 5) = false
    rw [decide_eq_false_iff_not]
    omega
  obtain ⟨hall, hcalls⟩ := minHeap_calls _ strictWeak_lt threeElements
  exact ⟨hall, hheap, hcalls hheap [.push 1, .pop, .popPush 9]⟩

/-- A pop-push on an empty heap and a push on a full one lose the element. -/
theorem minHeap_element_lost :
    (minHeapPopPush (fun x y => decide (x < y)) (zeros 0 4 (by decide) le_rfl) 7).contents = 0 ∧
    (minHeapPush (fun x y => decide (x < y)) (zeros 1 1 le_rfl (by decide)) 7).contents = {0} := by
  constructor
  · exact contents_eq_zero.mpr rfl
  · simp [minHeapPush, Heap.contents, elements, zeros]

end LinuxKernel.Lib.MinHeap
