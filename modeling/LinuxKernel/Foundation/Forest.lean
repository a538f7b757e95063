import Mathlib

/-!
# Forests of parent links

A partial map `next` sends an element to its parent. An element without a parent, or that is its
own parent, is a root. The map is a forest if following it from any element ends at a root. The
one rule for changing a forest is `Acyclic.link`: a link to `b` may be written at `x` if the walk
from `b` does not visit `x`.
-/

namespace LinuxKernel.Foundation.Forest

open Function List

variable {α : Type*} {next : α → Option α}

def IsRoot (next : α → Option α) (a : α) : Prop := next a = none ∨ next a = some a

/-- Following `next` from `a` visits the elements of `l` in turn and ends at the root `r`. -/
inductive Walk (next : α → Option α) : List α → α → α → Prop
  | root {a : α} (h : IsRoot next a) : Walk next [a] a a
  | step {l : List α} {a b r : α} (h : next a = some b) (hne : b ≠ a) (hrest : Walk next l b r) :
      Walk next (a :: l) a r

def EndsAt (next : α → Option α) (a r : α) : Prop := ∃ l, Walk next l a r

def Acyclic (next : α → Option α) : Prop := ∀ a, ∃ r, EndsAt next a r

/-- The walk from `b` ends, and does not visit `x`. -/
def Avoids (next : α → Option α) (x b : α) : Prop := ∃ l r, Walk next l b r ∧ x ∉ l

namespace Walk

variable {l l' : List α} {a b r r' x : α}

theorem mem_self (h : Walk next l a r) : a ∈ l := by
  cases h with
  | root _ => simp
  | step _ _ _ => simp

theorem isRoot (h : Walk next l a r) : IsRoot next r := by
  induction h with
  | root h => exact h
  | step _ _ _ ih => exact ih

theorem unique (h : Walk next l a r) : ∀ {l' r'}, Walk next l' a r' → l = l' ∧ r = r' := by
  induction h with
  | root h =>
    intro l' r' h'
    cases h' with
    | root _ => exact ⟨rfl, rfl⟩
    | step hn hne _ =>
      rcases h with h | h
      · simp [h] at hn
      · exact absurd (Option.some.inj (hn.symm.trans h)) hne
  | step hn hne _ ih =>
    intro l' r' h'
    cases h' with
    | root h' =>
      rcases h' with h' | h'
      · simp [h'] at hn
      · exact absurd (Option.some.inj (hn.symm.trans h')) hne
    | step hn' _ hrest' =>
      cases hn.symm.trans hn'
      obtain ⟨rfl, rfl⟩ := ih hrest'
      exact ⟨rfl, rfl⟩

theorem suffix_of_mem (h : Walk next l a r) (hx : x ∈ l) : ∃ l₂, l₂ <:+ l ∧ Walk next l₂ x r := by
  induction h with
  | root h =>
    obtain rfl : x = _ := by simpa using hx
    exact ⟨_, suffix_refl _, .root h⟩
  | step hn hne hrest ih =>
    rcases mem_cons.1 hx with rfl | hx
    · exact ⟨_, suffix_refl _, .step hn hne hrest⟩
    · obtain ⟨l₂, hsuf, hwalk⟩ := ih hx
      exact ⟨l₂, hsuf.trans (suffix_cons _ _), hwalk⟩

theorem nodup (h : Walk next l a r) : l.Nodup := by
  induction h with
  | root _ => simp
  | step hn hne hrest ih =>
    refine nodup_cons.2 ⟨fun hmem => ?_, ih⟩
    obtain ⟨l₂, hsuf, hwalk⟩ := hrest.suffix_of_mem hmem
    -- a second visit would start the same walk again, one element shorter
    obtain ⟨heq, -⟩ := hwalk.unique (.step hn hne hrest)
    have hlen := hsuf.length_le
    rw [heq, length_cons] at hlen
    omega

theorem mem_of_closed (h : Walk next l a r) {C : α → Prop}
    (hC : ∀ x y, C x → next x = some y → C y) (ha : C a) : ∀ x ∈ l, C x := by
  induction h with
  | root _ => exact forall_mem_singleton.2 ha
  | step hn _ _ ih => exact forall_mem_cons.2 ⟨ha, ih (hC _ _ ha hn)⟩

theorem length_le {next : Nat → Option Nat} {l : List Nat} {a r n : Nat} (h : Walk next l a r)
    (ha : a < n) (hrange : ∀ x y, next x = some y → y < n) : l.length ≤ n := by
  have hmem := h.mem_of_closed (fun x y _ hxy => hrange x y hxy) ha
  have hsub : l.toFinset ⊆ Finset.range n := by
    intro x hx
    simpa using hmem x (by simpa using hx)
  have hcard := Finset.card_le_card hsub
  rwa [toFinset_card_of_nodup h.nodup, Finset.card_range] at hcard

theorem end_mem (h : Walk next l a r) : r ∈ l := by
  induction h with
  | root _ => simp
  | step _ _ _ ih => exact mem_cons_of_mem _ ih

end Walk

theorem EndsAt.isRoot {a r : α} (h : EndsAt next a r) : IsRoot next r := by
  obtain ⟨l, h⟩ := h
  exact h.isRoot

theorem EndsAt.unique {a r r' : α} (h : EndsAt next a r) (h' : EndsAt next a r') : r = r' := by
  obtain ⟨l, h⟩ := h
  obtain ⟨l', h'⟩ := h'
  exact (h.unique h').2

theorem endsAt_root {a : α} (h : IsRoot next a) : EndsAt next a a := ⟨_, .root h⟩

/-! ## Writing a link -/

theorem avoids_of_isRoot {x b : α} (hb : IsRoot next b) (hne : x ≠ b) : Avoids next x b :=
  ⟨[b], b, .root hb, by simpa using hne⟩

theorem avoids_of_closed (hacyc : Acyclic next) {C : α → Prop}
    (hC : ∀ x y, C x → next x = some y → C y) {x b : α} (hb : C b) (hx : ¬ C x) :
    Avoids next x b := by
  obtain ⟨r, l, hwalk⟩ := hacyc b
  exact ⟨l, r, hwalk, fun hmem => hx (hwalk.mem_of_closed hC hb x hmem)⟩

variable [DecidableEq α]

theorem Walk.update {l : List α} {a r x : α} {v : Option α} (h : Walk next l a r) (hx : x ∉ l) :
    Walk (update next x v) l a r := by
  induction h with
  | @root a h =>
    have hne : a ≠ x := fun heq => hx (by simp [heq])
    exact .root (by simpa [IsRoot, update_of_ne hne] using h)
  | step hn hne _ ih =>
    rw [mem_cons, not_or] at hx
    exact .step (by rw [update_of_ne (Ne.symm hx.1)]; exact hn) hne (ih hx.2)

/-- Writing a link to `b` keeps a forest a forest, if the walk from `b` does not come back. -/
theorem Acyclic.link (h : Acyclic next) {x b : α} (hb : b = x ∨ Avoids next x b) :
    Acyclic (update next x (some b)) := by
  have hx : ∃ r, EndsAt (update next x (some b)) x r := by
    rcases hb with rfl | ⟨l, r, hwalk, hmem⟩
    · exact ⟨b, endsAt_root (Or.inr (by simp))⟩
    · have hne : b ≠ x := fun heq => hmem (heq ▸ hwalk.mem_self)
      exact ⟨r, x :: l, .step (by simp) hne (hwalk.update hmem)⟩
  intro a
  obtain ⟨r, l, hwalk⟩ := h a
  induction hwalk with
  | @root a hroot =>
    by_cases ha : a = x
    · rw [ha]
      exact hx
    · exact ⟨a, endsAt_root (by simpa [IsRoot, update_of_ne ha] using hroot)⟩
  | @step l a c r hn hne _ ih =>
    by_cases ha : a = x
    · rw [ha]
      exact hx
    · obtain ⟨r', l', hwalk'⟩ := ih
      exact ⟨r', a :: l', .step (by rw [update_of_ne ha]; exact hn) hne hwalk'⟩

end LinuxKernel.Foundation.Forest
