import LinuxKernel.Foundation.WeakestPre

/-!
# Two runs with related states

Two programs of `EStateM ε σ` agree under a relation of states when, started in related states,
both return the same value or both fail with the same error, and leave related states. The rules
below take two programs of the same structure apart together.
-/

namespace LinuxKernel.Foundation

variable {ε σ α β : Type}

/-- The same value or the same error, with related states. -/
inductive SameOutcome (R : σ → σ → Prop) : EStateM.Result ε σ α → EStateM.Result ε σ α → Prop
  | ok (a : α) {s t : σ} (h : R s t) : SameOutcome R (.ok a s) (.ok a t)
  | error (e : ε) {s t : σ} (h : R s t) : SameOutcome R (.error e s) (.error e t)

theorem SameOutcome.mono {R R' : σ → σ → Prop} {x y : EStateM.Result ε σ α}
    (h : SameOutcome R x y) (himp : ∀ s t, R s t → R' s t) : SameOutcome R' x y := by
  cases h with
  | ok a h => exact .ok a (himp _ _ h)
  | error e h => exact .error e (himp _ _ h)

def Agree (R : σ → σ → Prop) (x y : EStateM ε σ α) : Prop :=
  ∀ s t, R s t → SameOutcome R (x s) (y t)

variable {R : σ → σ → Prop}

theorem agree_pure (a : α) : Agree R (pure a : EStateM ε σ α) (pure a) :=
  fun _ _ h => .ok a h

theorem agree_throw (e : ε) : Agree R (throw e : EStateM ε σ α) (throw e) :=
  fun _ _ h => .error e h

theorem agree_bind {x y : EStateM ε σ β} {f g : β → EStateM ε σ α} (hx : Agree R x y)
    (hf : ∀ b, Agree R (f b) (g b)) : Agree R (x >>= f) (y >>= g) := by
  intro s t h
  have hout := hx s t h
  simp only [bind, EStateM.bind]
  generalize x s = r, y t = r' at hout
  cases hout with
  | ok b h' => exact hf b _ _ h'
  | error e h' => exact .error e h'

theorem agree_get_bind {f g : σ → EStateM ε σ α}
    (h : ∀ s t, R s t → SameOutcome R (f s s) (g t t)) : Agree R (get >>= f) (get >>= g) :=
  fun s t hst => h s t hst

theorem sameOutcome_set {s t s' t' : σ} (h : R s' t') :
    SameOutcome R ((set s' : EStateM ε σ PUnit) s) ((set t' : EStateM ε σ PUnit) t) :=
  .ok PUnit.unit h

theorem sameOutcome_set_bind {s t s' t' : σ} {f g : PUnit → EStateM ε σ α}
    (h : SameOutcome R (f ⟨⟩ s') (g ⟨⟩ t')) : SameOutcome R ((set s' >>= f) s) ((set t' >>= g) t) :=
  h

theorem agree_ite {c : Prop} [Decidable c] {x x' y y' : EStateM ε σ α} (htrue : Agree R x x')
    (hfalse : Agree R y y') : Agree R (if c then x else y) (if c then x' else y') := by
  split
  · exact htrue
  · exact hfalse

theorem agree_onlyIf (c : Bool) {x y : EStateM ε σ PUnit} (h : Agree R x y) :
    Agree R (onlyIf c x) (onlyIf c y) := by
  cases c with
  | true => exact h
  | false => exact agree_pure PUnit.unit

theorem agree_forM {f g : β → EStateM ε σ PUnit} (h : ∀ b, Agree R (f b) (g b)) (l : List β) :
    Agree R (l.forM f) (l.forM g) := by
  induction l with
  | nil => exact agree_pure PUnit.unit
  | cons b l ih => exact agree_bind (h b) fun _ => ih

theorem agree_foldlM {f g : α → β → EStateM ε σ α} (h : ∀ a b, Agree R (f a b) (g a b))
    (l : List β) (a : α) : Agree R (l.foldlM f a) (l.foldlM g a) := by
  induction l generalizing a with
  | nil => exact agree_pure a
  | cons b l ih => exact agree_bind (h a b) fun a' => ih a'

end LinuxKernel.Foundation
