import LinuxKernel.Kconfig.SimplifySound

/-!
# Duplicate elimination in Kconfig expressions

`expr_eliminate_dups1` walks the operands of one level against each other while it rewrites them.
The walk never changes how the level branches: a leaf is only replaced by a leaf. So all slots it
still holds stay slots of the level, and joining two of them leaves the value of the level as it
was. Every join leaves a neutral operand behind, which `expr_eliminate_yn` removes, so each pass of
`expr_eliminate_dups` but the last makes the expression smaller.
-/

namespace LinuxKernel.Kconfig

open Option Kconfig.Expr

variable {S : Type} {T : Symtab S}

/-! ## Levels -/

/-- How a level branches; everything that is not an operator node of the level is a leaf. -/
inductive Spine
  | leaf
  | node (left right : Spine)

namespace Spine

def height : Spine → Nat
  | leaf => 0
  | node l r => max l.height r.height + 1

end Spine

namespace Expr

def spine (type : LogOp) : Expr S → Spine
  | .two op l r => if op = type then .node (l.spine type) (r.spine type) else .leaf
  | _ => .leaf

def slot (type : LogOp) : Expr S → List Side → Option (Expr S)
  | e, [] => some e
  | .two op l _, .left :: p => if op = type then l.slot type p else none
  | .two op _ r, .right :: p => if op = type then r.slot type p else none
  | _, _ :: _ => none

variable {type : LogOp} {e s : Expr S} {p : List Side}

@[elab_as_elim]
theorem slot_induction {Q : Expr S → List Side → Prop} (nil : Q e [])
    (left : ∀ l r p, Q l p → Q (.two type l r) (.left :: p))
    (right : ∀ l r p, Q r p → Q (.two type l r) (.right :: p)) (h : s.slot type p = some e) :
    Q s p := by
  induction p generalizing s with
  | nil =>
    obtain rfl : s = e := by simpa [slot] using h
    exact nil
  | cons side p ih =>
    cases s with
    | two op l r =>
      cases side with
      | left =>
        simp only [slot] at h
        split_ifs at h with hop
        subst hop
        exact left l r p (ih h)
      | right =>
        simp only [slot] at h
        split_ifs at h with hop
        subst hop
        exact right l r p (ih h)
    | symbol s | not s | comp rel a b => simp [slot] at h

theorem get_of_slot (h : s.slot type p = some e) : s.get p = some e := by
  refine slot_induction ?_ ?_ ?_ h
  · simp [get]
  all_goals exact fun l r p ih => by simpa [get] using ih

theorem spine_height_lt (type : LogOp) (e : Expr S) : (e.spine type).height < e.size := by
  induction e with
  | two op l r ihl ihr =>
    simp only [spine, size]
    split_ifs <;> simp only [Spine.height] <;> omega
  | symbol s | not e ih | comp rel a b => simp [spine, Spine.height, size]

theorem spine_leaf_iff : e.spine type = .leaf ↔ e.hasType type = false := by
  cases e <;> simp [spine, hasType]

theorem slot_append {l r : Expr S} (h : s.slot type p = some (.two type l r)) :
    s.slot type (p ++ [.left]) = some l ∧ s.slot type (p ++ [.right]) = some r := by
  refine slot_induction ?_ ?_ ?_ h
  · simp [slot]
  all_goals exact fun l r p ih => by simpa [slot] using ih

theorem slot_of_spine_eq {s' : Expr S} (hspine : s'.spine type = s.spine type)
    (h : s.slot type p = some e) :
    ∃ e', s'.slot type p = some e' ∧ e'.spine type = e.spine type := by
  have hnode : ∀ {s' l r : Expr S}, s'.spine type = (two type l r).spine type →
      ∃ l' r', s' = .two type l' r' ∧ l'.spine type = l.spine type ∧
        r'.spine type = r.spine type := by
    intro s' l r h
    cases s' with
    | two op l' r' =>
      simp only [spine, if_true] at h
      split_ifs at h with hop
      exact ⟨l', r', by rw [hop], Spine.node.inj h⟩
    | symbol s | not s | comp rel a b => simp [spine] at h
  revert s'
  apply slot_induction (Q := fun s p => ∀ s' : Expr S, s'.spine type = s.spine type →
    ∃ e', s'.slot type p = some e' ∧ e'.spine type = e.spine type) _ _ _ h
  · exact fun s' hspine => ⟨s', by simp [slot], hspine⟩
  · intro l r p ih s' hspine
    obtain ⟨l', r', rfl, hl, -⟩ := hnode hspine
    simpa [slot] using ih l' hl
  · intro l r p ih s' hspine
    obtain ⟨l', r', rfl, -, hr⟩ := hnode hspine
    simpa [slot] using ih r' hr

/-! ## Writing a slot -/

theorem set_slot (h : s.slot type p = some e) : s.set p e = s := by
  refine slot_induction ?_ ?_ ?_ h
  · simp [set]
  all_goals exact fun l r p ih => by simp [set, ih]

theorem slot_set (h : s.slot type p = some e) (x : Expr S) : (s.set p x).slot type p = some x := by
  refine slot_induction ?_ ?_ ?_ h
  · simp [set, slot]
  all_goals exact fun l r p ih => by simpa [set, slot] using ih

variable {x : Expr S}

section
variable (h : s.slot type p = some e)
include h

theorem spine_set (hx : x.spine type = e.spine type) : (s.set p x).spine type = s.spine type := by
  refine slot_induction ?_ ?_ ?_ h
  · simpa [set] using hx
  all_goals exact fun l r p ih => by simp [set, spine, ih]

theorem size_set (x : Expr S) : (s.set p x).size + e.size = s.size + x.size := by
  refine slot_induction ?_ ?_ ?_ h
  · simp only [set]
    omega
  all_goals
    simp only [set, size]
    omega

theorem size_slot_lt (hp : p ≠ []) : e.size < s.size := by
  have hle : e.size ≤ s.size ∧ (p ≠ [] → e.size < s.size) := by
    refine slot_induction ?_ ?_ ?_ h
    · simp
    all_goals
      simp only [size]
      omega
  exact hle.2 hp

end

theorem value_set (ρ : Valuation T) (h : s.slot type p = some e) (x : Expr S) :
    exprCalcValue ρ (s.set p x) =
      type.eval (exprCalcValue ρ (s.set p (.symbol (T.symbol type.neutral))))
        (exprCalcValue ρ x) := by
  refine slot_induction ?_ ?_ ?_ h
  · simp [set]
  · intro l r p ih
    simp only [set, exprCalcValue]
    rw [ih, LogOp.eval_assoc, LogOp.eval_assoc, type.eval_comm (exprCalcValue ρ x)]
  · intro l r p ih
    simp only [set, exprCalcValue]
    rw [ih, LogOp.eval_assoc]

theorem slot_leaf (hleaf : e.hasType type = false) (h : e.slot type p = some x) : p = [] := by
  cases p with
  | nil => rfl
  | cons side p =>
    cases e <;> cases side <;> simp_all [slot, hasType]

/-- Two different leaves are apart: writing the one leaves the other, and the order of two writes
does not matter. -/
theorem slot_set_of_ne {e1 e2 : Expr S} {p1 p2 : List Side} (h1 : s.slot type p1 = some e1)
    (h2 : s.slot type p2 = some e2) (hleaf1 : e1.hasType type = false)
    (hleaf2 : e2.hasType type = false) (hne : p1 ≠ p2) (x y : Expr S) :
    (s.set p1 x).slot type p2 = some e2 ∧ (s.set p1 x).set p2 y = (s.set p2 y).set p1 x := by
  have hroot : ∀ l r, (two type l r).slot type [] ≠ some e2 := by
    intro l r h
    obtain rfl : two type l r = e2 := by simpa [slot] using h
    simp [hasType] at hleaf2
  revert p2
  apply slot_induction (Q := fun s p1 => ∀ p2 : List Side, s.slot type p2 = some e2 → p1 ≠ p2 →
    (s.set p1 x).slot type p2 = some e2 ∧ (s.set p1 x).set p2 y = (s.set p2 y).set p1 x) _ _ _ h1
  · intro p2 h2 hne
    exact absurd (slot_leaf hleaf1 h2).symm hne
  · rintro l r p ih (_ | ⟨side, p2⟩) h2 hne
    · exact absurd h2 (hroot l r)
    · cases side with
      | left => simpa [slot, set] using ih p2 (by simpa [slot] using h2) (by simpa using hne)
      | right => simpa [slot, set] using h2
  · rintro l r p ih (_ | ⟨side, p2⟩) h2 hne
    · exact absurd h2 (hroot l r)
    · cases side with
      | left => simpa [slot, set] using h2
      | right => simpa [slot, set] using ih p2 (by simpa [slot] using h2) (by simpa using hne)

/-! ## Neutral operands -/

/-- Some `&&` has an operand `y` or some `||` an operand `n`. -/
def HasNeutral (T : Symtab S) : Expr S → Prop
  | .two op l r =>
    l = .symbol (T.symbol op.neutral) ∨ r = .symbol (T.symbol op.neutral) ∨
      l.HasNeutral T ∨ r.HasNeutral T
  | _ => False

theorem hasNeutral_set (h : s.slot type p = some e)
    (hx : x.HasNeutral T) : (s.set p x).HasNeutral T := by
  refine slot_induction ?_ ?_ ?_ h
  · simpa [set] using hx
  · exact fun l r p ih => .inr (.inr (.inl ih))
  · exact fun l r p ih => .inr (.inr (.inr ih))

theorem hasNeutral_set_neutral (h : s.slot type p = some e)
    (hp : p ≠ []) : (s.set p (.symbol (T.symbol type.neutral))).HasNeutral T := by
  revert hp
  refine slot_induction ?_ ?_ ?_ h
  · exact fun hp => absurd rfl hp
  · intro l r p ih _
    by_cases hp : p = []
    · subst hp
      exact .inl (by simp [set])
    · exact .inr (.inr (.inl (ih hp)))
  · intro l r p ih _
    by_cases hp : p = []
    · subst hp
      exact .inr (.inl (by simp [set]))
    · exact .inr (.inr (.inr (ih hp)))

end Expr

variable [DecidableEq S]

theorem exprEliminateYn_size_lt {e : Expr S} (h : e.HasNeutral T) :
    (exprEliminateYn T e).size < e.size := by
  induction e with
  | symbol s | not e ih | comp rel l r => exact absurd h id
  | two op l r ihl ihr =>
    have hl := exprEliminateYn_size_le (T := T) l
    have hr := exprEliminateYn_size_le (T := T) r
    rcases exprEliminateYn_two op l r with
      ⟨_, heq⟩ | ⟨_, heq⟩ | ⟨_, heq⟩ | ⟨_, heq⟩ | ⟨hnl, hnr, heq⟩
    case inr.inr.inr.inr =>
      rw [heq]
      simp only [size]
      rcases h with rfl | rfl | h | h
      · exact absurd rfl hnl
      · exact absurd rfl hnr
      · have := ihl h
        omega
      · have := ihr h
        omega
    all_goals
      rw [heq]
      simp only [size]
      omega

/-! ## Joins -/

variable {a : S} {e1 e2 : Expr S}

/-- What a join leaves is one symbol or comparison. -/
def Expr.Simple (t : Expr S) : Prop := t.size = 1 ∧ ∀ type, t.hasType type = false

omit [DecidableEq S] in
theorem simple_symbol (s : S) : (symbol s).Simple := ⟨rfl, fun _ => rfl⟩

omit [DecidableEq S] in
theorem simple_comp {rel : Rel} (b : S) : (comp rel a b).Simple := ⟨rfl, fun _ => rfl⟩

theorem joinOrRules_simple {t : Expr S} (ht : joinOrRules T a e1 e2 = some t) : t.Simple := by
  unfold joinOrRules at ht
  split at ht
  case h_4 => simp at ht
  all_goals
    split_ifs at ht
    all_goals
      cases ht
      first
        | exact simple_symbol _
        | exact simple_comp _

theorem joinAndRules_simple {t : Expr S} (ht : joinAndRules T a e1 e2 = some t) : t.Simple := by
  unfold joinAndRules at ht
  split at ht
  case h_8 => simp at ht
  all_goals
    split_ifs at ht
    all_goals
      cases ht
      first
        | exact simple_symbol _
        | exact simple_comp _

/-- `t` may stand for the two operands `e1` and `e2` of a level, if no constants were confused. -/
structure IsJoin (T : Symtab S) (type : LogOp) (e1 e2 t : Expr S) : Prop where
  value : confuses T type e1 e2 = false → ∀ ρ : Valuation T,
    exprCalcValue ρ t = type.eval (exprCalcValue ρ e1) (exprCalcValue ρ e2)
  size_le : t.size ≤ e1.size
  leaf : e1.hasType type = false → t.hasType type = false

theorem exprJoin_spec (e2 : Expr S) (fuel : Nat) (type : LogOp) (hfuel : e1.size < fuel) :
    ∃ o, exprJoin T fuel type e1 e2 = some o ∧ ∀ t, o = some t → IsJoin T type e1 e2 t := by
  have hpos := e1.size_pos
  obtain ⟨b, hb, hval⟩ := exprEq_spec e1 e2 hfuel
  unfold exprJoin
  rw [hb]
  cases b with
  | true =>
    refine ⟨some e1, rfl, fun t ht => ?_⟩
    cases ht
    refine ⟨fun _ ρ => ?_, le_rfl, id⟩
    rw [← hval rfl ρ, LogOp.eval_self]
  | false =>
    cases hsym : joinSym T e1 e2 with
    | none => exact ⟨none, rfl, by simp⟩
    | some a =>
      cases type with
      | or =>
        refine ⟨joinOrRules T a e1 e2, rfl, fun t ht => ?_⟩
        obtain ⟨hsize, hleaf⟩ := joinOrRules_simple ht
        exact ⟨fun _ ρ => joinOrRules_value ρ hsym ht, by omega, fun _ => hleaf _⟩
      | and =>
        refine ⟨joinAndRules T a e1 e2, rfl, fun t ht => ?_⟩
        obtain ⟨hsize, hleaf⟩ := joinAndRules_simple ht
        exact ⟨fun hapart ρ => joinAndRules_value ρ hapart hsym ht, by omega, fun _ => hleaf _⟩

/-! ## Rewriting a level -/

/-- What a walk may do to an expression on the way from one `trans_count` to the next: nothing, or
joins that leave a neutral operand, and keep its value under the condition `P`. -/
structure Rewrites (T : Symtab S) (P : Prop) (s : Expr S) (n : Nat) (s' : Expr S) (n' : Nat) :
    Prop where
  value : P → ∀ ρ : Valuation T, exprCalcValue ρ s' = exprCalcValue ρ s
  size_le : s'.size ≤ s.size
  changed : (n' = n ∧ s' = s) ∨ (n < n' ∧ s'.HasNeutral T)

namespace Rewrites

variable {P Q : Prop} {s s' s'' e e' e1 e2 t : Expr S} {n n' n'' : Nat} {p p1 p2 : List Side}
  {type : LogOp}
omit [DecidableEq S] in
theorem refl : Rewrites T P s n s n :=
  ⟨fun _ _ => rfl, le_rfl, .inl ⟨rfl, rfl⟩⟩

omit [DecidableEq S] in
theorem imp (h : Rewrites T P s n s' n') (hQ : Q → P) : Rewrites T Q s n s' n' :=
  ⟨fun hq => h.value (hQ hq), h.size_le, h.changed⟩

omit [DecidableEq S] in
theorem trans (h : Rewrites T P s n s' n') (h' : Rewrites T P s' n' s'' n'') :
    Rewrites T P s n s'' n'' := by
  refine ⟨fun hP ρ => (h'.value hP ρ).trans (h.value hP ρ), h'.size_le.trans h.size_le, ?_⟩
  -- if the second walk changed nothing, the neutral operand is the one the first left
  rcases h'.changed with ⟨rfl, rfl⟩ | ⟨hlt', hneutral'⟩
  · exact h.changed
  · rcases h.changed with ⟨rfl, rfl⟩ | ⟨hlt, _⟩
    · exact .inr ⟨hlt', hneutral'⟩
    · exact .inr ⟨hlt.trans hlt', hneutral'⟩

omit [DecidableEq S] in
theorem set (h : s.slot type p = some e) (he : Rewrites T P e n e' n') :
    Rewrites T P s n (s.set p e') n' := by
  have hself := set_slot h
  refine ⟨fun hP ρ => ?_, ?_, ?_⟩
  · calc exprCalcValue ρ (s.set p e')
        = type.eval (exprCalcValue ρ (s.set p (.symbol (T.symbol type.neutral))))
            (exprCalcValue ρ e') := value_set ρ h e'
      _ = type.eval (exprCalcValue ρ (s.set p (.symbol (T.symbol type.neutral))))
            (exprCalcValue ρ e) := by rw [he.value hP]
      _ = exprCalcValue ρ (s.set p e) := (value_set ρ h e).symm
      _ = exprCalcValue ρ s := by rw [hself]
  · have hsize := size_set h e'
    have hle := he.size_le
    omega
  · rcases he.changed with ⟨rfl, rfl⟩ | ⟨hlt, hneutral⟩
    · exact .inl ⟨rfl, hself⟩
    · exact .inr ⟨hlt, hasNeutral_set h hneutral⟩

theorem join (h1 : s.slot type p1 = some e1) (h2 : s.slot type p2 = some e2)
    (hleaf1 : e1.hasType type = false) (hleaf2 : e2.hasType type = false) (hne : p1 ≠ p2)
    (ht : IsJoin T type e1 e2 t) :
    Rewrites T (confuses T type e1 e2 = false) s n
      ((s.set p1 (.symbol (T.symbol type.neutral))).set p2 t) (n + 1) := by
  have hp1 : p1 ≠ [] := by
    intro hnil
    subst hnil
    obtain rfl : s = e1 := by simpa [slot] using h1
    exact hne (slot_leaf hleaf1 h2).symm
  let u : Expr S := .symbol (T.symbol type.neutral)
  have hother := fun x y => slot_set_of_ne h1 h2 hleaf1 hleaf2 hne x y
  have hother' := fun x y => slot_set_of_ne h2 h1 hleaf2 hleaf1 (Ne.symm hne) x y
  refine ⟨fun hapart ρ => ?_, ?_, .inr ⟨Nat.lt_succ_self n, ?_⟩⟩
  · -- both sides are the value of the rest joined with that of the two leaves
    have hs12 : s = (s.set p2 e2).set p1 e1 := by rw [set_slot h2, set_slot h1]
    have hrest : exprCalcValue ρ s = type.eval (type.eval
        (exprCalcValue ρ ((s.set p1 u).set p2 u)) (exprCalcValue ρ e2)) (exprCalcValue ρ e1) := by
      conv_lhs => rw [hs12]
      rw [value_set ρ (hother' e2 u).1 e1, ← (hother u e2).2, value_set ρ (hother u u).1 e2]
    rw [value_set ρ (hother u u).1 t, hrest, ht.value hapart, LogOp.eval_assoc,
      type.eval_comm (exprCalcValue ρ e2)]
  · have hsize1 := size_set h1 u
    have hsize2 := size_set (hother u u).1 t
    have hle := ht.size_le
    have hpos := e2.size_pos
    have hu : u.size = 1 := rfl
    change ((s.set p1 u).set p2 t).size ≤ s.size
    omega
  · rw [(hother u t).2]
    exact hasNeutral_set_neutral (hother' t u).1 hp1

end Rewrites

/-! ## The walk over a level -/

theorem square_step {a b : Nat} (h : a < b) : a * a + 2 * a + 1 ≤ b * b := by
  have hmul : (a + 1) * (a + 1) ≤ b * b := Nat.mul_le_mul h h
  have hexp : (a + 1) * (a + 1) = a * a + 2 * a + 1 := by
    simp only [Nat.add_mul, Nat.mul_add]
    omega
  omega

section
variable {fuel n : Nat} {type : LogOp} {s e1 e2 : Expr S} {p p1 p2 : List Side}
  {join : Nat → LogOp → Expr S → Expr S → Option (Option (Expr S))}

omit [DecidableEq S]

theorem exprEliminateDups1_first (h1 : s.get p1 = some e1) (h2 : s.get p2 = some e2)
    (ht1 : e1.hasType type = true) : exprEliminateDups1 T join (fuel + 1) type s p1 p2 n =
      (exprEliminateDups1 T join fuel type s (p1 ++ [.left]) p2 n).bind fun r =>
        exprEliminateDups1 T join fuel type r.1 (p1 ++ [.right]) p2 r.2 := by
  rw [exprEliminateDups1]
  simp only [h1, h2, ht1, bind_eq_bind, bind_some, if_true]

theorem exprEliminateDups1_second (h1 : s.get p1 = some e1) (h2 : s.get p2 = some e2)
    (ht1 : e1.hasType type = false) (ht2 : e2.hasType type = true) :
    exprEliminateDups1 T join (fuel + 1) type s p1 p2 n =
      (exprEliminateDups1 T join fuel type s p1 (p2 ++ [.left]) n).bind fun r =>
        exprEliminateDups1 T join fuel type r.1 p1 (p2 ++ [.right]) r.2 := by
  rw [exprEliminateDups1]
  simp only [h1, h2, ht1, ht2, bind_eq_bind, bind_some, if_true, if_neg Bool.false_ne_true]

theorem exprEliminateDups1_same (h : s.get p = some e1) (ht : e1.hasType type = false) :
    exprEliminateDups1 T join (fuel + 1) type s p p n = some (s, n) := by
  rw [exprEliminateDups1]
  simp only [h, ht, bind_eq_bind, bind_some, if_true, if_neg Bool.false_ne_true]

theorem exprEliminateDups1_leaves (h1 : s.get p1 = some e1) (h2 : s.get p2 = some e2)
    (ht1 : e1.hasType type = false) (ht2 : e2.hasType type = false) (hne : p1 ≠ p2) :
    exprEliminateDups1 T join (fuel + 1) type s p1 p2 n =
      (walkOperands (fun op => exprEliminateDups1 T join fuel op e1 [] [] n) e1 n).bind fun r =>
        (join fuel type r.1 e2).bind fun
          | some tmp =>
            some (((s.set p1 r.1).set p1 (.symbol (T.symbol type.neutral))).set p2 tmp, r.2 + 1)
          | none => some (s.set p1 r.1, r.2) := by
  rw [exprEliminateDups1]
  simp only [h1, h2, ht1, ht2, hne, bind_eq_bind, bind_some, if_false, if_neg Bool.false_ne_true]
  try rfl

end

/-- A walk `run` and the walk `apart` without the joins that confuse constants: unless the second
stops at such a join, they end alike, with the value of `s`. -/
def Walked (T : Symtab S) (type : LogOp) (s : Expr S) (n : Nat)
    (run apart : Option (Expr S × Nat)) : Prop :=
  ∃ s' n', run = some (s', n') ∧ s'.spine type = s.spine type ∧
    (apart = none ∨ apart = some (s', n')) ∧ Rewrites T (apart ≠ none) s n s' n'

/-- What `expr_eliminate_dups1` returns for the slots `p1` and `p2` of the level `s`. -/
def WalkSpec (T : Symtab S) (fuel : Nat) : Prop :=
  ∀ (type : LogOp) (s : Expr S) (p1 p2 : List Side) (n : Nat) (e1 e2 : Expr S),
    s.slot type p1 = some e1 → s.slot type p2 = some e2 →
    (e1.spine type).height + (e2.spine type).height + s.size * s.size < fuel →
    Walked T type s n (exprEliminateDups1 T (exprJoin T) fuel type s p1 p2 n)
      (exprEliminateDups1 T (joinApart T) fuel type s p1 p2 n)

variable {fuel : Nat}

theorem WalkSpec.seq (ih : WalkSpec T fuel) {type : LogOp} {s : Expr S}
    {p1 p2 q1 q2 : List Side} (n : Nat) {x1 x2 y1 y2 : Expr S}
    (hx1 : s.slot type p1 = some x1) (hx2 : s.slot type p2 = some x2)
    (hy1 : s.slot type q1 = some y1) (hy2 : s.slot type q2 = some y2)
    (hfx : (x1.spine type).height + (x2.spine type).height + s.size * s.size < fuel)
    (hfy : (y1.spine type).height + (y2.spine type).height + s.size * s.size < fuel) :
    Walked T type s n
      ((exprEliminateDups1 T (exprJoin T) fuel type s p1 p2 n).bind fun r =>
        exprEliminateDups1 T (exprJoin T) fuel type r.1 q1 q2 r.2)
      ((exprEliminateDups1 T (joinApart T) fuel type s p1 p2 n).bind fun r =>
        exprEliminateDups1 T (joinApart T) fuel type r.1 q1 q2 r.2) := by
  obtain ⟨s', n', hrun, hspine, hcut, hrw⟩ := ih type s p1 p2 n x1 x2 hx1 hx2 hfx
  obtain ⟨y1', hy1', hsp1⟩ := slot_of_spine_eq hspine hy1
  obtain ⟨y2', hy2', hsp2⟩ := slot_of_spine_eq hspine hy2
  have hsquare : s'.size * s'.size ≤ s.size * s.size := Nat.mul_le_mul hrw.size_le hrw.size_le
  obtain ⟨s'', n'', hrun', hspine', hcut', hrw'⟩ := ih type s' q1 q2 n' y1' y2' hy1' hy2' (by
    rw [hsp1, hsp2]
    omega)
  rw [hrun, bind_some]
  refine ⟨s'', n'', hrun', hspine'.trans hspine, ?_⟩
  rcases hcut with hnone | hsome
  · rw [hnone]
    exact ⟨.inl rfl, (hrw.imp (absurd rfl)).trans (hrw'.imp (absurd rfl))⟩
  · rw [hsome, bind_some]
    exact ⟨hcut', (hrw.imp fun _ => by simp [hsome]).trans hrw'⟩

/-- The first thing done with a leaf: a walk over it, if it is a level of the other operator. -/
theorem WalkSpec.nested (ih : WalkSpec T fuel) {type : LogOp}
    {e : Expr S} (n : Nat) (hleaf : e.hasType type = false)
    (hfuel : e.size * e.size + 2 * e.size ≤ fuel) :
    Walked T type e n
      (walkOperands (fun op => exprEliminateDups1 T (exprJoin T) fuel op e [] [] n) e n)
      (walkOperands (fun op => exprEliminateDups1 T (joinApart T) fuel op e [] [] n) e n) := by
  cases e with
  | symbol s | not e | comp rel a b => exact ⟨_, _, rfl, rfl, .inr rfl, .refl⟩
  | two op l r =>
    have hheight := spine_height_lt op (two op l r)
    obtain ⟨e', n', hrun, hspine, hcut⟩ := ih op (.two op l r) [] [] n (.two op l r) (.two op l r)
      (by simp [slot]) (by simp [slot]) (by omega)
    refine ⟨e', n', hrun, ?_, hcut⟩
    -- the root of the leaf is still the other operator
    rw [spine_leaf_iff.2 hleaf, spine_leaf_iff]
    cases e' with
    | two op' l' r' =>
      simp only [spine, if_true] at hspine
      split_ifs at hspine with hop
      rw [hop]
      exact hleaf
    | symbol s | not e | comp rel a b => rfl

/-- What a leaf `e1'` leaves that has been put in the slot `p1` and is joined with `e2`, or not. -/
theorem walked_join {type : LogOp} {s e1' : Expr S} {p1 p2 : List Side} {n : Nat}
    {o : Option (Expr S)} (h1 : s.slot type p1 = some e1) (h2 : s.slot type p2 = some e2)
    (hleaf1 : e1.hasType type = false) (hleaf2 : e2.hasType type = false) (hne : p1 ≠ p2)
    (hleaf1' : e1'.hasType type = false) (ho : ∀ t, o = some t → IsJoin T type e1' e2 t) :
    ∃ s' n', (match o with
        | some tmp =>
          some (((s.set p1 e1').set p1 (.symbol (T.symbol type.neutral))).set p2 tmp, n + 1)
        | none => some (s.set p1 e1', n)) = some (s', n') ∧
      s'.spine type = (s.set p1 e1').spine type ∧
      Rewrites T (confuses T type e1' e2 = false) (s.set p1 e1') n s' n' := by
  cases o with
  | none => exact ⟨_, _, rfl, rfl, .refl⟩
  | some t =>
    have ht := ho t rfl
    have hslot1 := slot_set h1 e1'
    have hslot2 := (slot_set_of_ne h1 h2 hleaf1 hleaf2 hne e1' e1').1
    have hunit : (symbol (T.symbol type.neutral)).spine type = e1'.spine type := by
      rw [spine_leaf_iff.2 hleaf1', spine_leaf_iff.2 rfl]
    have hspt : t.spine type = e2.spine type := by
      rw [spine_leaf_iff.2 (ht.leaf hleaf1'), spine_leaf_iff.2 hleaf2]
    have hslot2' := (slot_set_of_ne hslot1 hslot2 hleaf1' hleaf2 hne
      (.symbol (T.symbol type.neutral)) t).1
    refine ⟨_, _, rfl, ?_, Rewrites.join hslot1 hslot2 hleaf1' hleaf2 hne ht⟩
    rw [spine_set hslot2' hspt, spine_set hslot1 hunit]

theorem exprEliminateDups1_spec (fuel : Nat) : WalkSpec T fuel := by
  induction fuel with
  | zero =>
    intro type s p1 p2 n e1 e2 _ _ hfuel
    omega
  | succ fuel ih =>
    intro type s p1 p2 n e1 e2 h1 h2 hfuel
    have hnode : ∀ {e : Expr S}, e.hasType type = true → ∃ l r, e = .two type l r ∧
        (l.spine type).height < (e.spine type).height ∧
        (r.spine type).height < (e.spine type).height := by
      intro e he
      cases e with
      | two op l r =>
        obtain rfl : op = type := by simpa [hasType] using he
        refine ⟨l, r, rfl, ?_, ?_⟩ <;> simp only [spine, if_true, Spine.height] <;> omega
      | symbol s | not e | comp rel a b => simp [hasType] at he
    have hget1 := get_of_slot h1
    have hget2 := get_of_slot h2
    by_cases ht1 : e1.hasType type = true
    · rw [exprEliminateDups1_first hget1 hget2 ht1, exprEliminateDups1_first hget1 hget2 ht1]
      obtain ⟨l, r, rfl, hl, hr⟩ := hnode ht1
      obtain ⟨hsl, hsr⟩ := slot_append h1
      exact ih.seq n hsl h2 hsr h2 (by omega) (by omega)
    have hleaf1 : e1.hasType type = false := by simpa using ht1
    by_cases ht2 : e2.hasType type = true
    · rw [exprEliminateDups1_second hget1 hget2 hleaf1 ht2,
        exprEliminateDups1_second hget1 hget2 hleaf1 ht2]
      obtain ⟨l, r, rfl, hl, hr⟩ := hnode ht2
      obtain ⟨hsl, hsr⟩ := slot_append h2
      exact ih.seq n h1 hsl h1 hsr (by omega) (by omega)
    have hleaf2 : e2.hasType type = false := by simpa using ht2
    by_cases hne : p1 = p2
    · subst hne
      rw [exprEliminateDups1_same hget1 hleaf1, exprEliminateDups1_same hget1 hleaf1]
      exact ⟨s, n, rfl, rfl, .inr rfl, .refl⟩
    rw [exprEliminateDups1_leaves hget1 hget2 hleaf1 hleaf2 hne,
      exprEliminateDups1_leaves hget1 hget2 hleaf1 hleaf2 hne]
    have hsize1 : e1.size < s.size := by
      apply size_slot_lt h1
      intro hnil
      subst hnil
      obtain rfl : s = e1 := by simpa [slot] using h1
      exact hne (slot_leaf hleaf1 h2).symm
    have hsquare := square_step hsize1
    obtain ⟨e1', n', hnested, hsp1, hcut, hrw⟩ := ih.nested n hleaf1 (by omega)
    have hleaf1' : e1'.hasType type = false := by
      rw [← spine_leaf_iff, hsp1, spine_leaf_iff.2 hleaf1]
    have hset := Rewrites.set h1 hrw
    have hspine := spine_set h1 hsp1
    have hle := hrw.size_le
    obtain ⟨o, hjoin, ho⟩ := exprJoin_spec (T := T) e2 fuel type (show e1'.size < fuel by omega)
    rw [hnested, bind_some, hjoin]
    rcases hcut with hnone | hsome
    · rw [hnone] at hset ⊢
      obtain ⟨s', n'', hrun, hsp, hjoined⟩ := walked_join h1 h2 hleaf1 hleaf2 hne hleaf1' ho
      exact ⟨s', n'', hrun, hsp.trans hspine, .inl rfl,
        (hset.imp (absurd rfl)).trans (hjoined.imp (absurd rfl))⟩
    · rw [hsome] at hset ⊢
      obtain ⟨s', n'', hrun, hsp, hjoined⟩ := walked_join h1 h2 hleaf1 hleaf2 hne hleaf1' ho
      refine ⟨s', n'', hrun, hsp.trans hspine, ?_⟩
      rw [bind_some, joinApart, hjoin]
      cases hconf : confuses T type e1' e2 with
      | true => exact ⟨.inl rfl, (hset.imp fun _ => by simp).trans (hjoined.imp (absurd rfl))⟩
      | false =>
        exact ⟨.inr hrun, (hset.imp fun _ => by simp).trans (hjoined.imp fun _ => hconf)⟩

/-! ## The whole simplification -/

/-- `expr_eliminate_dups` returns, and if no join of its run confuses constants, what it returns has
the value of what it was given. -/
theorem exprEliminateDups_value :
    ∀ {e : Expr S}, e.size * e.size + 2 * e.size < fuel →
      ∃ e', exprEliminateDups T (exprJoin T) fuel e = some e' ∧
        (exprEliminateDups T (joinApart T) fuel e ≠ none →
          ∀ ρ : Valuation T, exprCalcValue ρ e' = exprCalcValue ρ e) := by
  induction fuel with
  | zero => omega
  | succ fuel ih =>
    intro e hfuel
    have hpass : ∃ type, Walked T type e 0
        (walkOperands (fun op => exprEliminateDups1 T (exprJoin T) fuel op e [] [] 0) e 0)
        (walkOperands (fun op => exprEliminateDups1 T (joinApart T) fuel op e [] [] 0) e 0) := by
      cases e with
      | two op l r =>
        have hheight := spine_height_lt op (two op l r)
        exact ⟨op, exprEliminateDups1_spec fuel op (.two op l r) [] [] 0
          (.two op l r) (.two op l r) (by simp [slot]) (by simp [slot]) (by omega)⟩
      | symbol s | not e | comp rel a b => exact ⟨.or, _, _, rfl, rfl, .inr rfl, .refl⟩
    obtain ⟨_, e1, n1, hrun, -, hcut, hrw⟩ := hpass
    unfold exprEliminateDups
    simp only [bind_eq_bind]
    rw [hrun, bind_some]
    have hvalue := hrw.value
    by_cases hn : n1 = 0
    · simp only [hn, if_true]
      refine ⟨e1, rfl, fun hap => hvalue fun h => hap ?_⟩
      rw [h, bind_none]
    simp only [hn, if_false]
    have hneutral : e1.HasNeutral T := by
      rcases hrw.changed with ⟨h, -⟩ | ⟨-, h⟩
      · exact absurd h hn
      · exact h
    have hlt := exprEliminateYn_size_lt hneutral
    have hle := hrw.size_le
    have hsquare := square_step (a := (exprEliminateYn T e1).size) (b := e.size) (by omega)
    obtain ⟨e', hrun', hval⟩ := ih (e := exprEliminateYn T e1) (by omega)
    refine ⟨e', hrun', fun hap ρ => ?_⟩
    rcases hcut with hnone | hsome
    · rw [hnone] at hap
      exact absurd rfl hap
    rw [hsome, bind_some, if_neg hn] at hap
    rw [hval hap ρ, exprEliminateYn_value, hvalue (by simp [hsome])]

/-- `a='b' && a!='c'` for a tristate `a` and different constants becomes `a='b'`. -/
theorem exprEliminateDups_equal_unequal {b c : S} (ha : T.type a = .tristate)
    (hb : T.const b = true) (hc : T.const c = true) (hbc : b ≠ c)
    (hvar : T.const a = false) (fuel : Nat) :
    exprEliminateDups T (exprJoin T) (fuel + 6)
      (.two .and (.comp .equal a b) (.comp .unequal a c)) =
      some (.comp .equal a b) := by
  have hjoin : ∀ n, exprJoin T (n + 1) .and (.comp .equal a b) (.comp .unequal a c) =
      some (some (.comp .equal a b)) := by
    simp [exprJoin, exprEq, joinSym, joinSym1, joinSym2, ha, joinAndRules, hb, hc, hbc]
  -- the comparison that is left does not join with the neutral operand
  have hrest : ∀ n, exprJoin T (n + 1) .and (.comp .equal a b) (.symbol (T.symbol .yes)) =
      some none := by
    have hay : a ≠ T.symbol .yes := fun h => by simp [h, T.const_symbol] at hvar
    simp [exprJoin, exprEq, joinSym, joinSym1, joinSym2, hay]
  let s : Expr S := .two .and (.comp .equal a b) (.comp .unequal a c)
  let s' : Expr S := .two .and (.symbol (T.symbol .yes)) (.comp .equal a b)
  have hfirst : exprEliminateDups1 T (exprJoin T) (fuel + 4) .and s [.left] [] 0 =
      some (s', 1) := by
    rw [exprEliminateDups1_second rfl rfl rfl rfl, List.nil_append,
      exprEliminateDups1_same rfl rfl, bind_some,
      exprEliminateDups1_leaves rfl rfl rfl rfl (by decide)]
    simp only [walkOperands, bind_some, hjoin]
    rfl
  have hsecond : exprEliminateDups1 T (exprJoin T) (fuel + 4) .and s' [.right] [] 1 =
      some (s', 1) := by
    rw [exprEliminateDups1_second rfl rfl rfl rfl,
      exprEliminateDups1_leaves rfl rfl rfl rfl (by decide)]
    simp only [walkOperands, bind_some, hrest]
    exact exprEliminateDups1_same rfl rfl
  have hwalk : exprEliminateDups1 T (exprJoin T) (fuel + 5) .and s [] [] 0 = some (s', 1) := by
    rw [exprEliminateDups1_first rfl rfl rfl, List.nil_append, hfirst]
    exact hsecond
  have hyn : exprEliminateYn T s' = .comp .equal a b := by
    simp [s', exprEliminateYn, absorbOperand, LogOp.neutral]
  have hlast : exprEliminateDups T (exprJoin T) (fuel + 5) (.comp .equal a b) =
      some (.comp .equal a b) := by
    simp [exprEliminateDups, walkOperands]
  rw [exprEliminateDups]
  simp only [walkOperands, s] at hwalk ⊢
  simp [hwalk, hyn, hlast]

/-- The valuation in which `a` is `u` and every other symbol but the constants `n` or its name. -/
def Symtab.valuationAt (T : Symtab S) (a : S) (u : Tristate) (ha : T.type a = .tristate)
    (hvar : T.const a = false) : Valuation T where
  tri s := if s = a then u else if s = T.symbol .yes then .yes
    else if s = T.symbol .mod then .mod else .no
  val := T.name
  tri_symbol v := by
    have hne : T.symbol v ≠ a := fun h => by simp [← h, T.const_symbol] at hvar
    have hinj := T.symbol_injective
    cases v with
    | no =>
      have h1 : T.symbol .no ≠ T.symbol .yes := fun h => by simpa using hinj _ _ h
      have h2 : T.symbol .no ≠ T.symbol .mod := fun h => by simpa using hinj _ _ h
      simp [hne, h1, h2]
    | mod =>
      have h1 : T.symbol .mod ≠ T.symbol .yes := fun h => by simpa using hinj _ _ h
      simp [hne, h1]
    | yes => simp [hne]
  tri_boolean s hs := by
    have hne : s ≠ T.symbol .mod := fun h => by simp [h, T.type_symbol] at hs
    have hne' : s ≠ a := fun h => by simp [h, ha] at hs
    simp only [hne, hne', if_false]
    split_ifs <;> simp
  tri_unknown s hs := by
    have h1 : s ≠ T.symbol .yes := fun h => by simp [h, T.type_symbol] at hs
    have h2 : s ≠ T.symbol .mod := fun h => by simp [h, T.type_symbol] at hs
    have hne' : s ≠ a := fun h => by simp [h, ha] at hs
    simp [hne', h1, h2]
  val_unknown s hs := rfl

/-- `expr_eliminate_dups` keeps the value of an expression if in no join of its run `a='b'` meets
`a!='c'` with different symbols `b` and `c` that `a` can be equal to at once; the two alone, for a
symbol `a` of the configuration, it always gives another value. -/
theorem exprEliminateDups_preserves (T : Symtab S) :
    (∀ (e : Expr S) (fuel : Nat), e.size * e.size + 2 * e.size < fuel →
      ∃ e', exprEliminateDups T (exprJoin T) fuel e = some e' ∧
        (exprEliminateDups T (joinApart T) fuel e ≠ none →
          ∀ ρ : Valuation T, exprCalcValue ρ e' = exprCalcValue ρ e)) ∧
    ∀ a b c : S, T.const a = false →
      confuses T .and (.comp .equal a b) (.comp .unequal a c) = true →
      ∀ fuel, ∃ (e' : Expr S) (ρ : Valuation T),
        exprEliminateDups T (exprJoin T) (fuel + 6)
            (.two .and (.comp .equal a b) (.comp .unequal a c)) = some e' ∧
          exprCalcValue ρ e' ≠
            exprCalcValue ρ (.two .and (.comp .equal a b) (.comp .unequal a c)) := by
  refine ⟨fun e fuel hfuel => exprEliminateDups_value hfuel, fun a b c hvar hconf fuel => ?_⟩
  simp only [confuses, true_and, decide_eq_true_eq, Symtab.alike] at hconf
  obtain ⟨ha, hb, hc, hbc, v, -, hrb, hrc, -⟩ := hconf
  refine ⟨_, T.valuationAt a v ha hvar,
    exprEliminateDups_equal_unequal ha hb hc hbc hvar fuel, ?_⟩
  have htri : (T.valuationAt a v ha hvar).tri a = v := if_pos rfl
  simp only [exprCalcValue.eq_4, calc_equal_const (.inr ha) hb, calc_unequal_const (.inr ha) hc,
    htri, hrb, hrc]
  simp [triOf, LogOp.eval, Tristate.and, Tristate.toNat]

/-- The constants `y`, `m`, `n` and `2`, and a tristate symbol `A`. -/
inductive ExampleSymbol
  | tri (v : Tristate)
  | two
  | a
  deriving DecidableEq, Repr

def exampleTab : Symtab ExampleSymbol where
  name
    | .tri v => v.toStr
    | .two => ['2']
    | .a => ['A']
  type
    | .two => .unknown
    | _ => .tristate
  const
    | .a => false
    | _ => true
  symbol := .tri
  symbol_injective := by simp
  name_symbol _ := rfl
  type_symbol _ := rfl
  const_symbol _ := rfl
  type_const s hs := by
    cases s with
    | tri v => exact Or.inl ⟨v, rfl⟩
    | two => exact Or.inr rfl
    | a => simp at hs

def exampleValuation : Valuation exampleTab where
  tri
    | .tri v => v
    | .two => .no
    | .a => .yes
  val := exampleTab.name
  tri_symbol _ := rfl
  tri_boolean s hs := by cases s <;> simp [exampleTab] at hs
  tri_unknown s hs := by cases s <;> simp [exampleTab] at hs ⊢
  val_unknown _ _ := rfl

/-- In `A="2" || A!=y` the same comparisons meet, and nothing is lost. -/
theorem exprEliminateDups_preserves_or :
    ∃ e', exprEliminateDups exampleTab (exprJoin exampleTab) 16
        (.two .or (.comp .equal .a .two) (.comp .unequal .a (.tri .yes))) = some e' ∧
      ∀ ρ : Valuation exampleTab, exprCalcValue ρ e' =
        exprCalcValue ρ (.two .or (.comp .equal .a .two) (.comp .unequal .a (.tri .yes))) := by
  obtain ⟨e', hrun, hval⟩ := (exprEliminateDups_preserves exampleTab).1
    (.two .or (.comp .equal .a .two) (.comp .unequal .a (.tri .yes))) 16 (by decide)
  exact ⟨e', hrun, hval (by decide)⟩

/-- `A="2" && A!=y` is `n` when `A` is `y`, and becomes `A="2"`, which is `y`. -/
theorem exprEliminateDups_equal_two :
    exprEliminateDups exampleTab (exprJoin exampleTab) 16
        (.two .and (.comp .equal .a .two) (.comp .unequal .a (.tri .yes))) =
      some (.comp .equal .a .two) ∧
    exprCalcValue exampleValuation
        (.two .and (.comp .equal .a .two) (.comp .unequal .a (.tri .yes))) = .no ∧
    exprCalcValue exampleValuation (.comp .equal .a .two) = .yes := by
  decide

end LinuxKernel.Kconfig
