import Mathlib

/-!
# Cycles and depth-first search

A search that marks what it has finished and keeps the path to where it is. What is finished forms
a settled set: closed under the edges and without a cycle. An edge back to the path closes a cycle
through all of the path from there on.
-/

namespace LinuxKernel.Foundation.DepthFirst

open Relation List

variable {α : Type*} {edge : α → α → Prop}

/-- Closed under the edges, and on no cycle. -/
structure Settled (edge : α → α → Prop) (B : Set α) : Prop where
  closed : ∀ b ∈ B, ∀ c, edge b c → c ∈ B
  acyclic : ∀ b ∈ B, ¬TransGen edge b b

variable {B : Set α} {b : α}

theorem Settled.reach (h : Settled edge B) {c : α} (hb : b ∈ B)
    (hreach : TransGen edge b c) : c ∈ B := by
  induction hreach with
  | single hedge => exact h.closed b hb _ hedge
  | tail _ hedge ih => exact h.closed _ ih _ hedge

theorem Settled.insert (h : Settled edge B) {s : α} (hs : s ∉ B)
    (hedges : ∀ c, edge s c → c ∈ B) : Settled edge (insert s B) where
  closed := by
    rintro b (rfl | hb) c hedge
    · exact .inr (hedges c hedge)
    · exact .inr (h.closed b hb c hedge)
  acyclic := by
    rintro b (rfl | hb) hcycle
    · -- the cycle leaves through a settled element and comes back
      rcases TransGen.head'_iff.mp hcycle with ⟨c, hedge, hrest⟩
      have hc := hedges c hedge
      rcases reflTransGen_iff_eq_or_transGen.mp hrest with rfl | hrest
      · exact hs hc
      · exact hs (h.reach hc hrest)
    · exact h.acyclic b hb hcycle

/-- Every element of the list, which starts at the end of the path, is reached from the next. -/
def IsPath (edge : α → α → Prop) : List α → Prop
  | [] => True
  | [_] => True
  | a :: b :: path => edge b a ∧ IsPath edge (b :: path)

variable {a : α} {path : List α}

theorem IsPath.tail (h : IsPath edge (a :: path)) : IsPath edge path := by
  cases path with
  | nil => trivial
  | cons b path => exact h.2

variable {front back : List α}

theorem IsPath.reach (h : IsPath edge (a :: path)) (hb : b ∈ path) : TransGen edge b a := by
  induction path generalizing a with
  | nil => exact absurd hb not_mem_nil
  | cons c path ih =>
    rcases mem_cons.mp hb with rfl | hb
    · exact .single h.1
    · exact (ih h.2 hb).tail h.1

end LinuxKernel.Foundation.DepthFirst
