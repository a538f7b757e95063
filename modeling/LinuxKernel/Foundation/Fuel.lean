import LinuxKernel.Foundation.WeakestPre

/-!
# Programs cut off by fuel

A recursive program is modelled with a bound on its depth, and fails with a designated error when
the bound is reached. `x` is cut off from `y` when each run of `x` that does not end with this
error is the run of `y`. The relation is kept by the constructs of a program, so a program with
less fuel is cut off from the same program with more.
-/

namespace LinuxKernel.Foundation

variable {ε σ α β : Type} {out : ε}

/-- Where `x` does not end with the error `out`, it does what `y` does. -/
def CutOff (out : ε) (x y : EStateM ε σ α) : Prop :=
  ∀ s, (∃ s', x s = .error out s') ∨ x s = y s

theorem CutOff.refl (x : EStateM ε σ α) : CutOff out x x := fun _ => .inr rfl

theorem CutOff.trans {x y z : EStateM ε σ α} (hxy : CutOff out x y) (hyz : CutOff out y z) :
    CutOff out x z := by
  intro s
  rcases hxy s with hout | heq
  · exact .inl hout
  · rw [heq]
    exact hyz s

theorem CutOff.throw (y : EStateM ε σ α) : CutOff out (MonadExcept.throw out) y :=
  fun s => .inl ⟨s, rfl⟩

theorem CutOff.bind {x y : EStateM ε σ β} {f g : β → EStateM ε σ α} (hxy : CutOff out x y)
    (hfg : ∀ b, CutOff out (f b) (g b)) : CutOff out (x >>= f) (y >>= g) := by
  intro s
  simp only [Bind.bind, EStateM.bind]
  rcases hxy s with ⟨s', hout⟩ | heq
  · exact .inl ⟨s', by rw [hout]⟩
  · rw [← heq]
    cases x s with
    | ok b s' => exact hfg b s'
    | error e s' => exact .inr rfl

theorem CutOff.ite {c : Prop} [Decidable c] {x x' y y' : EStateM ε σ α} (hx : CutOff out x x')
    (hy : CutOff out y y') : CutOff out (if c then x else y) (if c then x' else y') := by
  split
  · exact hx
  · exact hy

theorem CutOff.eq_of_le {x : Nat → EStateM ε σ α} (hstep : ∀ n, CutOff out (x n) (x (n + 1)))
    {n n' : Nat} (hle : n ≤ n') {s : σ} (hn : ∀ s', x n s ≠ .error out s') : x n' s = x n s := by
  have hcut : CutOff out (x n) (x n') := by
    induction hle with
    | refl => exact CutOff.refl _
    | step _ ih => exact ih.trans (hstep _)
  rcases hcut s with ⟨s', hout⟩ | heq
  · exact absurd hout (hn s')
  · exact heq.symm

end LinuxKernel.Foundation
