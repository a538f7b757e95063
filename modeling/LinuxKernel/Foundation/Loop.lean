import Mathlib

/-!
# Loops over a finite set of states

A `while` loop is a function that gives a result or the next state. It is run with a bound on the
number of rounds. A loop that goes on only from the states of a finite set either ends within one
round more than the set has states, or not at all.
-/

namespace LinuxKernel.Foundation

open List

variable {α β : Type}

def loop (step : α → β ⊕ α) : Nat → α → Option β
  | 0, _ => none
  | fuel + 1, a =>
    match step a with
    | .inl b => some b
    | .inr a' => loop step fuel a'

/-- The loop goes on `n` times and then gives `b`. -/
inductive Ends (step : α → β ⊕ α) : Nat → α → β → Prop
  | here {a : α} {b : β} : step a = .inl b → Ends step 0 a b
  | next {n : Nat} {a a' : α} {b : β} : step a = .inr a' → Ends step n a' b → Ends step (n + 1) a b

variable {step : α → β ⊕ α} {a : α} {b : β}

theorem Ends.unique {n n' : Nat} {b' : β} (h : Ends step n a b) (h' : Ends step n' a b') :
    n = n' ∧ b = b' := by
  induction h generalizing n' with
  | here hstep =>
    cases h' with
    | here hstep' =>
      rw [hstep, Sum.inl.injEq] at hstep'
      exact ⟨rfl, hstep'⟩
    | next hstep' _ => simp [hstep] at hstep'
  | next hstep _ ih =>
    cases h' with
    | here hstep' => simp [hstep] at hstep'
    | next hstep' hrest' =>
      rw [hstep, Sum.inr.injEq] at hstep'
      have hsame := ih (hstep' ▸ hrest')
      exact ⟨congrArg (· + 1) hsame.1, hsame.2⟩

variable {fuel : Nat}

theorem loop_eq_some_iff : loop step fuel a = some b ↔ ∃ n < fuel, Ends step n a b := by
  induction fuel generalizing a with
  | zero => simp [loop]
  | succ fuel ih =>
    rw [loop]
    cases hstep : step a with
    | inl b' =>
      simp only [Option.some.injEq]
      constructor
      · rintro rfl
        exact ⟨0, by omega, .here hstep⟩
      · rintro ⟨n, -, hends⟩
        exact ((Ends.here hstep).unique hends).2
    | inr a' =>
      simp only [ih]
      constructor
      · rintro ⟨n, hn, hends⟩
        exact ⟨n + 1, by omega, .next hstep hends⟩
      rintro ⟨n, hn, hends⟩
      cases hends with
      | here hstep' => simp [hstep] at hstep'
      | @next n _ a'' _ hstep' hrest =>
        rw [hstep, Sum.inr.injEq] at hstep'
        exact ⟨n, by omega, hstep' ▸ hrest⟩

theorem exists_of_loop (h : loop step fuel a = some b) : ∃ a', step a' = .inl b := by
  obtain ⟨n, -, hends⟩ := loop_eq_some_iff.1 h
  clear h
  induction hends with
  | here hstep => exact ⟨_, hstep⟩
  | next _ _ ih => exact ih

theorem Ends.exists_nodup {n : Nat} (h : Ends step n a b) :
    ∃ states : List α, states.length = n ∧ states.Nodup ∧
      ∀ x ∈ states, (∃ x', step x = .inr x') ∧ ∃ k ≤ n, Ends step k x b := by
  induction h with
  | here _ => exact ⟨[], rfl, nodup_nil, by simp⟩
  | @next n a a' b hstep hrest ih =>
    obtain ⟨states, hlength, hnodup, hall⟩ := ih
    have hnew : a ∉ states := by
      intro hmem
      obtain ⟨-, k, hk, hends⟩ := hall a hmem
      have hsame := (Ends.next hstep hrest).unique hends
      omega
    refine ⟨a :: states, by simp [hlength], nodup_cons.2 ⟨hnew, hnodup⟩, ?_⟩
    intro x hx
    rcases mem_cons.1 hx with rfl | hx
    · exact ⟨⟨a', hstep⟩, n + 1, le_rfl, .next hstep hrest⟩
    · obtain ⟨hgoes, k, hk, hends⟩ := hall x hx
      exact ⟨hgoes, k, by omega, hends⟩

theorem loop_of_card_lt {s : Finset α} (hs : ∀ a a', step a = .inr a' → a ∈ s)
    (hfuel : s.card < fuel) {fuel' : Nat} (h : loop step fuel' a = some b) :
    loop step fuel a = some b := by
  classical
  obtain ⟨n, -, hends⟩ := loop_eq_some_iff.1 h
  obtain ⟨states, hlength, hnodup, hall⟩ := hends.exists_nodup
  have hsub : states.toFinset ⊆ s := by
    intro x hx
    obtain ⟨⟨x', hstep⟩, -⟩ := hall x (mem_toFinset.1 hx)
    exact hs x x' hstep
  have hcard : n ≤ s.card := by
    calc n = states.toFinset.card := by rw [toFinset_card_of_nodup hnodup, hlength]
      _ ≤ s.card := Finset.card_le_card hsub
  exact loop_eq_some_iff.2 ⟨n, by omega, hends⟩

end LinuxKernel.Foundation
