import Mathlib

/-!
# Runs of a system that takes events

A step function gives the state after an event, or nothing if the event cannot occur. There is one
rule for what holds in every state of a run and one for what has to happen: a rank that goes down
with every event of a process and that no other event raises.
-/

namespace LinuxKernel.Foundation

variable {σ ε : Type} {step : σ → ε → Option σ} {s s' : σ} {events : List ε}

/-- The state after the events, if all of them can occur. -/
def runEvents (step : σ → ε → Option σ) : σ → List ε → Option σ
  | s, [] => some s
  | s, e :: events => (step s e).bind fun s' => runEvents step s' events

theorem runEvents_cons {e : ε} (h : runEvents step s (e :: events) = some s') :
    ∃ s₁, step s e = some s₁ ∧ runEvents step s₁ events = some s' :=
  Option.bind_eq_some_iff.1 h

theorem runEvents_invariant {P : σ → Prop} (hstep : ∀ s e s', P s → step s e = some s' → P s')
    (hs : P s) (hrun : runEvents step s events = some s') : P s' := by
  induction events generalizing s with
  | nil =>
    cases hrun
    exact hs
  | cons e events ih =>
    obtain ⟨s₁, hfirst, hrest⟩ := runEvents_cons hrun
    exact ih (hstep s e s₁ hs hfirst) hrest

/-- `W k s` says that the goal is at most `k` events of the process away. -/
theorem runEvents_rank (W : Nat → σ → Prop) (isOf : ε → Bool)
    (hstep : ∀ k s e s', W k s → step s e = some s' → W (if isOf e then k - 1 else k) s') {k : Nat}
    (hs : W k s) (hrun : runEvents step s events = some s') : W (k - events.countP isOf) s' := by
  induction events generalizing s k with
  | nil =>
    cases hrun
    exact hs
  | cons e events ih =>
    obtain ⟨s₁, hfirst, hrest⟩ := runEvents_cons hrun
    have hrank := ih (hstep k s e s₁ hs hfirst) hrest
    rw [List.countP_cons]
    cases hof : isOf e with
    | false =>
      rw [hof] at hrank
      exact hrank
    | true =>
      rw [hof] at hrank
      rw [Nat.add_comm, Nat.sub_add_eq]
      exact hrank

end LinuxKernel.Foundation
