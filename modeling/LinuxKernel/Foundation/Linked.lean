import Mathlib

/-!
# Linked structures in a heap

A node carries a `next` and a `prev` pointer, `none` being NULL. `Chain` reads a
NULL-terminated list off the `next` pointers; `Ring` says that both directions of a
circular list describe one sequence. Reading a chain depends only on its own nodes,
which is the frame rule every store below relies on.
-/

namespace LinuxKernel.Foundation.Linked

variable {P : Type*}

structure Links (P : Type*) where
  next : P → Option P
  prev : P → Option P

/-- `Chain next p xs`: from `p`, following `next` to NULL visits exactly `xs`. -/
def Chain (next : P → Option P) : Option P → List P → Prop
  | p, [] => p = none
  | p, x :: xs => p = some x ∧ Chain next (next x) xs

variable {next next' : P → Option P} {p : Option P} {x : P} {xs ys : List P}

@[simp]
theorem chain_nil : Chain next p [] ↔ p = none := Iff.rfl

@[simp]
theorem chain_cons : Chain next p (x :: xs) ↔ p = some x ∧ Chain next (next x) xs := Iff.rfl

theorem Chain.congr (h : Chain next p xs) (heq : ∀ x ∈ xs, next' x = next x) :
    Chain next' p xs := by
  induction xs generalizing p with
  | nil => exact h
  | cons x xs ih =>
    refine ⟨h.1, ?_⟩
    rw [heq x (by simp)]
    exact ih h.2 fun y hy => heq y (by simp [hy])

section
variable [DecidableEq P]

def Links.setNext (l : Links P) (p : P) (v : Option P) : Links P :=
  { l with next := Function.update l.next p v }

def Links.setPrev (l : Links P) (p : P) (v : Option P) : Links P :=
  { l with prev := Function.update l.prev p v }

variable (l : Links P) (q : P) (v : Option P)

@[simp]
theorem next_setNext_self : (l.setNext q v).next q = v := by simp [Links.setNext]

variable {l : Links P} {q : P} {v : Option P}

theorem next_setNext_of_ne {y : P} (h : y ≠ q) : (l.setNext q v).next y = l.next y := by
  simp [Links.setNext, h]

@[simp]
theorem prev_setNext : (l.setNext q v).prev = l.prev := rfl

@[simp]
theorem prev_setPrev_self : (l.setPrev q v).prev q = v := by simp [Links.setPrev]

theorem prev_setPrev_of_ne {y : P} (h : y ≠ q) : (l.setPrev q v).prev y = l.prev y := by
  simp [Links.setPrev, h]

@[simp]
theorem next_setPrev : (l.setPrev q v).next = l.next := rfl

theorem Chain.setNext (h : Chain l.next p xs) (hq : q ∉ xs) : Chain (l.setNext q v).next p xs :=
  h.congr fun _ hx => next_setNext_of_ne (ne_of_mem_of_not_mem hx hq)

end

/-! ## Doubly linked paths and rings -/

def Path (l : Links P) (xs : List P) : Prop :=
  xs.IsChain fun a b => l.next a = some b ∧ l.prev b = some a

/-- `xs` is the circular list headed by `head`, read by `next` and, backwards, by `prev`. -/
structure Ring (l : Links P) (head : P) (xs : List P) : Prop where
  nodup : (head :: xs).Nodup
  path : Path l (head :: (xs ++ [head]))

variable {l : Links P} {a b head : P}

@[simp]
theorem path_cons_cons :
    Path l (a :: b :: xs) ↔ (l.next a = some b ∧ l.prev b = some a) ∧ Path l (b :: xs) :=
  List.isChain_cons_cons

@[simp]
theorem path_singleton : Path l [a] := List.IsChain.singleton _

theorem Path.chain_setNext [DecidableEq P] {last : P} (h : Path l (a :: (xs ++ [last])))
    (hlast : last ∉ a :: xs) : Chain (l.setNext last none).next (some a) (a :: (xs ++ [last])) := by
  induction xs generalizing a with
  | nil =>
    have hne : a ≠ last := fun h => hlast (by simp [h])
    have hnext : l.next a = some last := (path_cons_cons.mp h).1.1
    simp [next_setNext_of_ne hne, hnext]
  | cons b xs ih =>
    obtain ⟨⟨hnext, -⟩, hrest⟩ := path_cons_cons.mp h
    have hne : a ≠ last := fun h => hlast (by simp [h])
    refine ⟨rfl, ?_⟩
    rw [next_setNext_of_ne hne, hnext]
    exact ih hrest fun hmem => hlast (List.mem_cons_of_mem _ hmem)

theorem Path.prev_last {last : P} (h : Path l (xs ++ [last, head])) : l.prev head = some last := by
  induction xs with
  | nil => exact (path_cons_cons.mp h).1.2
  | cons b xs ih => exact ih (List.IsChain.tail h)

theorem Path.left_of_append (h : Path l (xs ++ ys)) : Path l xs :=
  List.IsChain.left_of_append h

end LinuxKernel.Foundation.Linked
