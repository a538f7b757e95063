import Mathlib

/-!
# Weakest preconditions for programs with a state and failures

A program of `EStateM ε σ` returns a value or fails, and in both cases leaves a state. `wp x Q E s`
says that `x`, started in `s`, returns with `Q` or fails with `E`. The rules below take a program
apart along its structure; a function that has its own statement enters through `wp_seq`.
-/

namespace LinuxKernel.Foundation

variable {ε σ α β : Type}

def wp (x : EStateM ε σ α) (Q : α → σ → Prop) (E : ε → σ → Prop) (s : σ) : Prop :=
  match x s with
  | .ok a s' => Q a s'
  | .error e s' => E e s'

variable {Q Q' : α → σ → Prop} {R : β → σ → Prop} {E E' : ε → σ → Prop} {s : σ}

@[simp] theorem wp_pure (a : α) : wp (pure a : EStateM ε σ α) Q E s ↔ Q a s := Iff.rfl

@[simp] theorem wp_throw (e : ε) : wp (throw e : EStateM ε σ α) Q E s ↔ E e s := Iff.rfl

@[simp] theorem wp_get {Q : σ → σ → Prop} : wp (get : EStateM ε σ σ) Q E s ↔ Q s s := Iff.rfl

@[simp] theorem wp_set {Q : PUnit → σ → Prop} (t : σ) :
    wp (set t : EStateM ε σ PUnit) Q E s ↔ Q ⟨⟩ t := Iff.rfl

theorem wp_bind (x : EStateM ε σ β) (f : β → EStateM ε σ α) :
    wp (x >>= f) Q E s ↔ wp x (fun b s' => wp (f b) Q E s') E s := by
  unfold wp
  simp only [bind, EStateM.bind]
  cases x s <;> exact Iff.rfl

variable {x : EStateM ε σ α}

theorem wp_mono (h : wp x Q E s) (hQ : ∀ a s', Q a s' → Q' a s')
    (hE : ∀ e s', E e s' → E' e s') : wp x Q' E' s := by
  unfold wp at h ⊢
  cases hx : x s with
  | ok a s' =>
    simp only [hx] at h ⊢
    exact hQ a s' h
  | error e s' =>
    simp only [hx] at h ⊢
    exact hE e s' h

theorem wp_imp (h : wp x Q E s) (hQ : ∀ a s', Q a s' → Q' a s') : wp x Q' E s :=
  wp_mono h hQ (fun _ _ => id)

variable {f : β → EStateM ε σ α}

theorem wp_seq {x : EStateM ε σ β} (hx : wp x R E s)
    (hf : ∀ b s', R b s' → wp (f b) Q E s') : wp (x >>= f) Q E s :=
  (wp_bind x f).2 (wp_imp hx hf)

theorem wp_read {x : EStateM ε σ β} {P : β → Prop}
    (hx : wp x (fun b s' => s' = s ∧ P b) E s) (hf : ∀ b, P b → wp (f b) Q E s) :
    wp (x >>= f) Q E s :=
  wp_seq hx fun b _ ⟨hs, hb⟩ => hs ▸ hf b hb

theorem wp_get_bind {f : σ → EStateM ε σ α} (h : wp (f s) Q E s) : wp (get >>= f) Q E s :=
  (wp_bind get f).2 h

theorem wp_set_bind {t : σ} {f : PUnit → EStateM ε σ α} (h : wp (f ⟨⟩) Q E t) :
    wp (set t >>= f) Q E s :=
  (wp_bind (set t) f).2 h

theorem wp_ok {a : α} {s' : σ} (h : wp x Q E s) (hx : x s = .ok a s') : Q a s' := by
  simpa [wp, hx] using h

theorem wp_error {e : ε} {s' : σ} (h : wp x Q E s) (hx : x s = .error e s') : E e s' := by
  simpa [wp, hx] using h

theorem exists_error_of_wp (h : wp x (fun _ _ => False) E s) :
    ∃ e s', x s = .error e s' ∧ E e s' := by
  unfold wp at h
  cases hx : x s with
  | ok a s' => simp [hx] at h
  | error e s' => exact ⟨e, s', rfl, by simpa [hx] using h⟩

def onlyIf (c : Bool) (x : EStateM ε σ PUnit) : EStateM ε σ PUnit := if c then x else pure ⟨⟩

theorem wp_onlyIf {c : Bool} {x : EStateM ε σ PUnit} {Q : PUnit → σ → Prop}
    (htrue : c = true → wp x Q E s) (hfalse : c = false → Q ⟨⟩ s) : wp (onlyIf c x) Q E s := by
  cases c with
  | true => exact htrue rfl
  | false => exact hfalse rfl

/-! ## Loops -/

theorem wp_forM {l : List β} {f : β → EStateM ε σ PUnit} {I : List β → σ → Prop}
    (hstep : ∀ done x rest, l = done ++ x :: rest → ∀ s, I done s →
      wp (f x) (fun _ s' => I (done ++ [x]) s') E s)
    (hinit : I [] s) : wp (l.forM f) (fun _ s' => I l s') E s := by
  suffices ∀ rest done s, l = done ++ rest → I done s →
      wp (rest.forM f) (fun _ s' => I l s') E s from this l [] s rfl hinit
  intro rest
  induction rest with
  | nil =>
    intro done s hl hI
    simpa [hl] using hI
  | cons x rest ih =>
    intro done s hl hI
    refine wp_seq (hstep done x rest hl s hI) (fun _ s' hI' => ih (done ++ [x]) s' ?_ hI')
    simpa using hl

theorem wp_forM_range {start count : Nat} {f : Nat → EStateM ε σ PUnit} {I : Nat → σ → Prop}
    (hstep : ∀ i, start ≤ i → i < start + count → ∀ s, I i s →
      wp (f i) (fun _ s' => I (i + 1) s') E s)
    (hinit : I start s) :
    wp ((List.range' start count).forM f) (fun _ s' => I (start + count) s') E s := by
  induction count generalizing start s with
  | zero => simpa using hinit
  | succ count ih =>
    refine wp_seq (hstep start (Nat.le_refl _) (by omega) s hinit) (fun _ s' hI => ?_)
    have hrest : wp ((List.range' (start + 1) count).forM f)
        (fun _ s' => I (start + 1 + count) s') E s' :=
      ih (fun i hlo hhi => hstep i (by omega) (by omega)) hI
    rwa [show start + 1 + count = start + (count + 1) by omega] at hrest

theorem wp_foldlM {l : List β} {f : α → β → EStateM ε σ α} {I : α → σ → Prop} {a : α}
    (hstep : ∀ x ∈ l, ∀ a s, I a s → wp (f a x) I E s) (hinit : I a s) :
    wp (l.foldlM f a) I E s := by
  induction l generalizing a s with
  | nil => exact hinit
  | cons x l ih =>
    refine wp_seq (hstep x List.mem_cons_self a s hinit) (fun a' s' hI => ?_)
    exact ih (fun y hy => hstep y (List.mem_cons_of_mem _ hy)) hI

end LinuxKernel.Foundation
