import LinuxKernel.Kconfig.Simplify

/-!
# The rewriting rules of Kconfig expressions keep their value

`expr_eliminate_yn` keeps the value, `expr_eq` only accepts expressions of equal value and answers
for all expressions, and a join has the value of the two operands it replaces. The one join that
needs an assumption is `(a='b') && (a!='c') -> a='b'`: it takes two constants with different
symbols to be different values.
-/

namespace LinuxKernel.Kconfig

open Option List Kconfig.Expr

variable {S : Type} {T : Symtab S}

/-! ## Values of comparisons -/

/-- The types whose values `expr_parse_string` reads as `n`, `m` and `y`. -/
def SymbolType.isTri (t : SymbolType) : Prop := t = .boolean ∨ t = .tristate

theorem compareValues_toStr {t1 t2 : SymbolType} (h1 : t1.isTri) (h2 : t2.isTri) (u v : Tristate) :
    compareValues t1 u.toStr t2 v.toStr = signOf u.toNat v.toNat := by
  rcases h1 with rfl | rfl <;> rcases h2 with rfl | rfl <;> cases u <;> cases v <;> rfl

/-- Against a value that is neither bool nor tristate, the two types read alike. -/
theorem compareValues_isTri {t1 : SymbolType} (h1 : t1.isTri) (u : Tristate) (t2 : SymbolType)
    (str : List Char) :
    compareValues t1 u.toStr t2 str = compareValues .tristate u.toStr t2 str := by
  rcases h1 with rfl | rfl <;> rfl

variable {ρ : Valuation T}

theorem symGetStringValue_isTri {s : S} (h : (T.type s).isTri) :
    symGetStringValue ρ s = (ρ.tri s).toStr := by
  rcases h with h | h <;> simp [symGetStringValue, h]

variable {c : S}

theorem symGetStringValue_const (h : T.const c = true) : symGetStringValue ρ c = T.name c := by
  rcases T.type_const c h with ⟨v, rfl⟩ | hc
  · rw [symGetStringValue_isTri (.inr (T.type_symbol v)), ρ.tri_symbol, T.name_symbol]
  · simp only [symGetStringValue, hc]
    exact ρ.val_unknown c hc

/-- The constant `c`, compared with a tristate symbol of value `v`, is equal to it. -/
def Symtab.readsAs (T : Symtab S) (c : S) (v : Tristate) : Prop :=
  compareValues .tristate v.toStr (T.type c) (T.name c) = 0

instance (c : S) (v : Tristate) : Decidable (T.readsAs c v) :=
  inferInstanceAs (Decidable (_ = _))

theorem readsAs_symbol (u v : Tristate) : T.readsAs (T.symbol u) v ↔ v = u := by
  simp only [Symtab.readsAs, T.type_symbol, T.name_symbol,
    compareValues_toStr (.inr rfl) (.inr rfl)]
  cases u <;> cases v <;> decide

variable {a : S}

section
variable (ha : (T.type a).isTri)
include ha

theorem calc_equal_const (hc : T.const c = true) :
    exprCalcValue ρ (.comp .equal a c) = triOf (T.readsAs c (ρ.tri a)) := by
  simp only [exprCalcValue, Rel.holds, symGetStringValue_const hc, symGetStringValue_isTri ha,
    compareValues_isTri ha, Symtab.readsAs]
  rfl

theorem calc_unequal_const (hc : T.const c = true) :
    exprCalcValue ρ (.comp .unequal a c) = triOf (¬ T.readsAs c (ρ.tri a)) := by
  simp only [exprCalcValue, Rel.holds, symGetStringValue_const hc, symGetStringValue_isTri ha,
    compareValues_isTri ha, Symtab.readsAs, ne_eq]
  rfl

theorem calc_equal_symbol (v : Tristate) :
    exprCalcValue ρ (.comp .equal a (T.symbol v)) = triOf (ρ.tri a = v) := by
  rw [calc_equal_const ha (T.const_symbol v)]
  simp only [readsAs_symbol]

theorem calc_unequal_symbol (v : Tristate) :
    exprCalcValue ρ (.comp .unequal a (T.symbol v)) = triOf (ρ.tri a ≠ v) := by
  rw [calc_unequal_const ha (T.const_symbol v)]
  simp only [readsAs_symbol, ne_eq]

end

theorem calc_var (ρ : Valuation T) (s : S) : exprCalcValue ρ (.symbol s) = ρ.tri s := rfl

@[simp] theorem calc_symbol (ρ : Valuation T) (v : Tristate) :
    exprCalcValue ρ (.symbol (T.symbol v)) = v := ρ.tri_symbol v

/-! ## Joins -/

theorem boolean_not_or (ρ : Valuation T) (ha : T.type a = .boolean) :
    LogOp.or.eval (ρ.tri a).not (ρ.tri a) = .yes := by
  have hmod := ρ.tri_boolean a ha
  cases hv : ρ.tri a with
  | no => rfl
  | mod => exact absurd hv hmod
  | yes => rfl

variable [DecidableEq S] {e1 e2 : Expr S}

theorem joinSym_eq (h : joinSym T e1 e2 = some a) :
    joinSym1 e1 = some a ∧ joinSym2 e2 = some a ∧ (T.type a).isTri := by
  unfold joinSym at h
  simp only [bind_eq_bind, bind_eq_some_iff] at h
  obtain ⟨sym1, h1, sym2, h2, h⟩ := h
  split at h
  next hcond =>
    obtain ⟨rfl, htype⟩ := hcond
    obtain rfl : sym1 = a := by simpa using h
    exact ⟨h1, h2, htype⟩
  · simp at h

theorem isPair_iff {b : S} {u v : Tristate} : isPair T b c u v = true ↔
      (b = T.symbol u ∧ c = T.symbol v) ∨ (b = T.symbol v ∧ c = T.symbol u) := by
  simp [isPair]

theorem joinOrRules_value (ρ : Valuation T) {t : Expr S}
    (h : joinSym T e1 e2 = some a) (ht : joinOrRules T a e1 e2 = some t) :
    exprCalcValue ρ t = LogOp.or.eval (exprCalcValue ρ e1) (exprCalcValue ρ e2) := by
  obtain ⟨h1, h2, ha⟩ := joinSym_eq h
  unfold joinOrRules at ht
  split at ht
  case h_4 => simp at ht
  all_goals
    simp only [joinSym1, joinSym2, some.injEq] at h1 h2
    subst h1 h2
  case h_1 =>
    -- two equations of a tristate with two of its values leave out the third
    split_ifs at ht with _ hp hp hp
    all_goals
      cases ht
      rcases isPair_iff.1 hp with ⟨rfl, rfl⟩ | ⟨rfl, rfl⟩ <;>
        simp only [calc_equal_symbol ha, calc_unequal_symbol ha] <;>
        cases ρ.tri _ <;> rfl
  all_goals
    split_ifs at ht with hbool
    cases ht
    rw [calc_symbol]
  · exact (boolean_not_or ρ hbool).symm
  · rw [LogOp.eval_comm]
    exact (boolean_not_or ρ hbool).symm

/-- The constants `b` and `c` are two symbols, but `a` can have a value that is equal to both. -/
def Symtab.alike (T : Symtab S) (a b c : S) : Bool :=
  b ≠ c ∧ ∃ v ∈ [Tristate.no, .mod, .yes], T.readsAs b v ∧ T.readsAs c v ∧
    (T.const a = true → a = T.symbol v)

/-- An `a='b'` and an `a!='c'` meet in a join that takes constants of one value for different. -/
def confuses (T : Symtab S) (type : LogOp) (e1 e2 : Expr S) : Bool :=
  match type, e1, e2 with
  | .and, .comp .equal a b, .comp .unequal a' c | .and, .comp .unequal a' c, .comp .equal a b =>
    a = a' ∧ T.type a = .tristate ∧ T.const b ∧ T.const c ∧ T.alike a b c
  | _, _, _ => false

/-- The joins of the code, but not those that confuse constants. -/
def joinApart (T : Symtab S) (fuel : Nat) (type : LogOp) (e1 e2 : Expr S) :
    Option (Option (Expr S)) :=
  if confuses T type e1 e2 then none else exprJoin T fuel type e1 e2

/-- The join of `a='b'` and `a!='c'`, the place where the constants have to be apart. -/
theorem join_equal_unequal_value (ρ : Valuation T) {b : S} (ha : (T.type a).isTri)
    (hb : T.const b = true) (hc : T.const c = true) (hapart : T.alike a b c = false) :
    exprCalcValue ρ (if b ≠ c then .comp .equal a b else .symbol (T.symbol .no)) =
      LogOp.and.eval (exprCalcValue ρ (.comp .equal a b))
        (exprCalcValue ρ (.comp .unequal a c)) := by
  by_cases hbc : b = c
  · subst hbc
    simp only [ne_eq, not_true_eq_false, if_false, calc_symbol, calc_equal_const ha hb,
      calc_unequal_const ha hb]
    by_cases hr : T.readsAs b (ρ.tri a)
    · simp [hr, triOf]
      rfl
    · simp [hr, triOf]
      rfl
  · simp only [ne_eq, hbc, not_false_eq_true, if_true, calc_equal_const ha hb,
      calc_unequal_const ha hc]
    by_cases hr : T.readsAs b (ρ.tri a)
    · have hnr : ¬ T.readsAs c (ρ.tri a) := by
        simp only [Symtab.alike, decide_eq_false_iff_not] at hapart
        refine fun hrc => hapart
          ⟨hbc, ρ.tri a, by cases ρ.tri a <;> simp, hr, hrc, fun hconst => ?_⟩
        rcases T.type_const a hconst with ⟨v, rfl⟩ | hunknown
        · rw [ρ.tri_symbol]
        · rcases ha with h | h <;> simp [h] at hunknown
      simp [hr, hnr, triOf]
    · simp only [hr, triOf]
      cases decide (¬ T.readsAs c (ρ.tri a)) <;> rfl

theorem joinAndRules_value (ρ : Valuation T) {t : Expr S} (hapart : confuses T .and e1 e2 = false)
    (h : joinSym T e1 e2 = some a) (ht : joinAndRules T a e1 e2 = some t) :
    exprCalcValue ρ t = LogOp.and.eval (exprCalcValue ρ e1) (exprCalcValue ρ e2) := by
  obtain ⟨h1, h2, ha⟩ := joinSym_eq h
  unfold joinAndRules at ht
  split at ht
  case h_8 => simp at ht
  all_goals
    simp only [joinSym1, joinSym2, some.injEq] at h1 h2
    subst h1 h2
  case h_5 b _ c =>
    split at ht
    next hconst =>
      cases ht
      exact join_equal_unequal_value ρ ha hconst.2.2 hconst.2.1
        (by simpa [confuses, hconst] using hapart)
    · simp at ht
  case h_6 c _ b =>
    split at ht
    next hconst =>
      cases ht
      rw [LogOp.eval_comm]
      exact join_equal_unequal_value ρ ha hconst.2.2 hconst.2.1
        (by simpa [confuses, hconst] using hapart)
    · simp at ht
  case h_7 b _ c =>
    -- two excluded values of a tristate leave the third
    split_ifs at ht with _ hp hp hp
    all_goals
      cases ht
      rcases isPair_iff.1 hp with ⟨rfl, rfl⟩ | ⟨rfl, rfl⟩ <;>
        simp only [calc_equal_symbol ha, calc_unequal_symbol ha] <;>
        cases ρ.tri _ <;> rfl
  -- a symbol next to one of its comparisons
  all_goals
    split_ifs at ht
    all_goals
      subst_vars
      cases ht
      simp only [calc_equal_symbol ha, calc_unequal_symbol ha, calc_var]
      cases ρ.tri _ <;> rfl

/-! ## Constants under `&&` and `||` -/

def Expr.size : Expr S → Nat
  | .symbol _ => 1
  | .not e => e.size + 1
  | .comp _ _ _ => 1
  | .two _ l r => l.size + r.size + 1

omit [DecidableEq S] in
theorem Expr.size_pos (e : Expr S) : 0 < e.size := by
  cases e <;> simp [size]

variable (op : LogOp)

theorem LogOp.eval_absorbing_left (a : Tristate) : op.eval op.neutral.not a = op.neutral.not := by
  cases op <;> cases a <;> rfl

theorem LogOp.eval_absorbing_right (a : Tristate) : op.eval a op.neutral.not = op.neutral.not := by
  cases op <;> cases a <;> rfl

theorem absorbOperand_some {op : LogOp} {e other x : Expr S}
    (h : absorbOperand T op e other = some x) : (e = .symbol (T.symbol op.neutral) ∧ x = other) ∨
      (e = .symbol (T.symbol op.neutral.not) ∧ x = e) := by
  unfold absorbOperand at h
  split at h
  · split_ifs at h with h1 h2
    · exact .inl ⟨by rw [h1], (some.inj h).symm⟩
    · exact .inr ⟨by rw [h2], (some.inj h).symm⟩
  · simp at h

theorem absorbOperand_neutral (other : Expr S) :
    absorbOperand T op (.symbol (T.symbol op.neutral)) other = some other := by
  simp [absorbOperand]

theorem exprEliminateYn_two (l r : Expr S) : (exprEliminateYn T l = .symbol (T.symbol op.neutral) ∧
        exprEliminateYn T (.two op l r) = exprEliminateYn T r) ∨
    (exprEliminateYn T l = .symbol (T.symbol op.neutral.not) ∧
        exprEliminateYn T (.two op l r) = exprEliminateYn T l) ∨
    (exprEliminateYn T r = .symbol (T.symbol op.neutral) ∧
        exprEliminateYn T (.two op l r) = exprEliminateYn T l) ∨
    (exprEliminateYn T r = .symbol (T.symbol op.neutral.not) ∧
        exprEliminateYn T (.two op l r) = exprEliminateYn T r) ∨
    (exprEliminateYn T l ≠ .symbol (T.symbol op.neutral) ∧
        exprEliminateYn T r ≠ .symbol (T.symbol op.neutral) ∧
        exprEliminateYn T (.two op l r) = .two op (exprEliminateYn T l) (exprEliminateYn T r)) := by
  simp only [exprEliminateYn]
  cases hl : absorbOperand T op (exprEliminateYn T l) (exprEliminateYn T r) with
  | some x =>
    rcases absorbOperand_some hl with ⟨he, hx⟩ | ⟨he, hx⟩
    · exact .inl ⟨he, hx⟩
    · exact .inr (.inl ⟨he, hx⟩)
  | none =>
    cases hr : absorbOperand T op (exprEliminateYn T r) (exprEliminateYn T l) with
    | some x =>
      rcases absorbOperand_some hr with ⟨he, hx⟩ | ⟨he, hx⟩
      · exact .inr (.inr (.inl ⟨he, hx⟩))
      · exact .inr (.inr (.inr (.inl ⟨he, hx⟩)))
    | none =>
      refine .inr (.inr (.inr (.inr ⟨?_, ?_, rfl⟩)))
      · intro he
        simp [he, absorbOperand_neutral] at hl
      · intro he
        simp [he, absorbOperand_neutral] at hr

theorem exprEliminateYn_value (ρ : Valuation T) (e : Expr S) :
    exprCalcValue ρ (exprEliminateYn T e) = exprCalcValue ρ e := by
  induction e with
  | symbol s | not e ih | comp rel l r => rfl
  | two op l r ihl ihr =>
    have hval : exprCalcValue ρ (.two op l r) =
        op.eval (exprCalcValue ρ (exprEliminateYn T l))
        (exprCalcValue ρ (exprEliminateYn T r)) := by
      rw [ihl, ihr]
      rfl
    rw [hval]
    rcases exprEliminateYn_two op l r with ⟨h, heq⟩ | ⟨h, heq⟩ | ⟨h, heq⟩ | ⟨h, heq⟩ | ⟨_, _, heq⟩
    · rw [heq, h, calc_symbol, LogOp.eval_neutral_left]
    · rw [heq, h, calc_symbol, LogOp.eval_absorbing_left]
    · rw [heq, h, calc_symbol, LogOp.eval_neutral_right]
    · rw [heq, h, calc_symbol, LogOp.eval_absorbing_right]
    · rw [heq, exprCalcValue]

theorem exprEliminateYn_size_le (e : Expr S) : (exprEliminateYn T e).size ≤ e.size := by
  induction e with
  | symbol s | not e ih | comp rel l r => exact le_rfl
  | two op l r ihl ihr =>
    rcases exprEliminateYn_two op l r with ⟨_, heq⟩ | ⟨_, heq⟩ | ⟨_, heq⟩ | ⟨_, heq⟩ | ⟨_, _,
      heq⟩ <;>
      rw [heq] <;> simp only [size] <;> omega

variable {e : Expr S}

/-! ## Equality up to order -/

section
variable {eq : Expr S → Expr S → Option Bool} {type : LogOp} {e1 e2 e1' e2' : Expr S}
omit [DecidableEq S] in
@[elab_as_elim]
theorem Expr.level_induction (type : LogOp) {P : Expr S → Prop}
    (leaf : ∀ e : Expr S, e.hasType type = false → P e)
    (two : ∀ l r, P l → P r → P (.two type l r)) (e : Expr S) : P e := by
  induction e with
  | symbol s | not e ih | comp rel l r => exact leaf _ rfl
  | two op l r ihl ihr =>
    by_cases hop : op = type
    · exact hop ▸ two l r ihl ihr
    · exact leaf _ (decide_eq_false hop)

theorem eliminateEqSecond_leaf (h : e2.hasType type = false) (e1 : Expr S) :
    eliminateEqSecond T eq type e1 e2 = eliminateEqLeaves T eq type e1 e2 := by
  cases e2 <;> simp_all [eliminateEqSecond, hasType]

theorem eliminateEq_leaf (h : e1.hasType type = false) (e2 : Expr S) :
    eliminateEq T eq type e1 e2 = eliminateEqSecond T eq type e1 e2 := by
  cases e1 <;> simp_all [eliminateEq, hasType]

variable (T) in
/-- `e1'` and `e2'` are what is left of `e1` and `e2` after the same operands were taken out of
both. -/
structure SameRest (type : LogOp) (e1 e2 e1' e2' : Expr S) : Prop where
  value : ∀ ρ : Valuation T, ∃ d, exprCalcValue ρ e1 = type.eval (exprCalcValue ρ e1') d ∧
    exprCalcValue ρ e2 = type.eval (exprCalcValue ρ e2') d
  left : e1'.hasType type = e1.hasType type
  right : e2'.hasType type = e2.hasType type

omit [DecidableEq S] in
theorem SameRest.refl (e1 e2 : Expr S) : SameRest T type e1 e2 e1 e2 :=
  ⟨fun _ => ⟨type.neutral, by simp, by simp⟩, rfl, rfl⟩

omit [DecidableEq S] in
theorem SameRest.two_left {l r l' r' e2'' : Expr S}
    (hl : SameRest T type l e2 l' e2') (hr : SameRest T type r e2' r' e2'') :
    SameRest T type (.two type l r) e2 (.two type l' r') e2'' where
  value ρ := by
    obtain ⟨d1, hl1, hl2⟩ := hl.value ρ
    obtain ⟨d2, hr1, hr2⟩ := hr.value ρ
    refine ⟨type.eval d1 d2, ?_, ?_⟩
    · simp only [exprCalcValue, hl1, hr1, LogOp.eval_assoc]
      rw [type.eval_left_comm d1]
    · rw [hl2, hr2, LogOp.eval_assoc, type.eval_comm d2]
  left := rfl
  right := hr.right.trans hl.right

omit [DecidableEq S] in
theorem SameRest.symm (h : SameRest T type e1 e2 e1' e2') : SameRest T type e2 e1 e2' e1' :=
  ⟨fun ρ => (h.value ρ).imp fun _ => And.symm, h.right, h.left⟩

section

/- `eq` answers on expressions of a bounded size, and what it finds equal has one value. -/
variable {n : Nat} (heq : ∀ x y : Expr S, x.size ≤ n → ∃ b, eq x y = some b ∧
  (b = true → ∀ ρ : Valuation T, exprCalcValue ρ x = exprCalcValue ρ y))
include heq

theorem eliminateEqLeaves_spec (h1 : e1.hasType type = false) (h2 : e2.hasType type = false)
    (hsize : e1.size ≤ n) : ∃ e1' e2', eliminateEqLeaves T eq type e1 e2 = some (e1', e2') ∧
      SameRest T type e1 e2 e1' e2' ∧ e1'.size ≤ n := by
  unfold eliminateEqLeaves
  split
  · exact ⟨e1, e2, rfl, .refl e1 e2, hsize⟩
  obtain ⟨b, hb, hval⟩ := heq e1 e2 hsize
  rw [hb]
  cases b with
  | false => exact ⟨e1, e2, rfl, .refl e1 e2, hsize⟩
  | true =>
    -- both leaves become the neutral operand, their common value is what was taken out
    refine ⟨_, _, rfl, ⟨fun ρ => ?_, h1.symm, h2.symm⟩, e1.size_pos.trans_le hsize⟩
    exact ⟨exprCalcValue ρ e1, by simp, by simp [hval rfl ρ]⟩

theorem eliminateEqSecond_spec (e2 : Expr S) :
    ∀ {e1 : Expr S}, e1.hasType type = false → e1.size ≤ n →
      ∃ e1' e2', eliminateEqSecond T eq type e1 e2 = some (e1', e2') ∧
      SameRest T type e1 e2 e1' e2' ∧ e1'.size ≤ n := by
  induction e2 using level_induction type with
  | leaf e2 h2 =>
    intro e1 h1 hsize
    rw [eliminateEqSecond_leaf h2]
    exact eliminateEqLeaves_spec heq h1 h2 hsize
  | two l r ihl ihr =>
    intro e1 h1 hsize
    obtain ⟨x, l', hl, hrestl, hx⟩ := ihl h1 hsize
    obtain ⟨y, r', hr, hrestr, hy⟩ := ihr (hrestl.left.trans h1) hx
    exact ⟨y, .two type l' r', by simp [eliminateEqSecond, hl, hr],
      (hrestl.symm.two_left hrestr.symm).symm, hy⟩

variable (type) in
theorem eliminateEq_spec (e1 : Expr S) : e1.size ≤ n → ∀ e2 : Expr S,
    ∃ e1' e2', eliminateEq T eq type e1 e2 = some (e1', e2') ∧ SameRest T type e1 e2 e1' e2' := by
  induction e1 using level_induction type with
  | leaf e1 h1 =>
    intro hsize e2
    obtain ⟨e1', e2', h, hrest, -⟩ := eliminateEqSecond_spec heq e2 h1 hsize
    exact ⟨e1', e2', by rw [eliminateEq_leaf h1, h], hrest⟩
  | two l r ihl ihr =>
    intro hsize e2
    simp only [size] at hsize
    obtain ⟨l', x, hl, hrestl⟩ := ihl (by omega) e2
    obtain ⟨r', y, hr, hrestr⟩ := ihr (by omega) x
    exact ⟨.two type l' r', y, by simp [eliminateEq, hl, hr], hrestl.two_left hrestr⟩

end

/-- On two expressions of one type, `expr_eliminate_eq` stays at the level it starts with. -/
theorem exprEliminateEq_two {l r l' r' l2 r2 : Expr S}
    (hl : eliminateEq T eq type l (.two type l2 r2) = some (l', e1'))
    (hr : eliminateEq T eq type r e1' = some (r', e2'))
    (hright : e2'.hasType type = (two type l2 r2).hasType type) :
    exprEliminateEq T eq (.two type l r) (.two type l2 r2) =
      some (exprEliminateYn T (.two type l' r'), exprEliminateYn T e2') := by
  replace hright := hright.trans (decide_eq_true rfl)
  cases e2' with
  | two op l r =>
    obtain rfl : op = type := of_decide_eq_true hright
    simp [exprEliminateEq, eliminateEq, hl, hr, hasType]
  | symbol s | not e | comp rel a b => cases hright

end

variable {fuel : Nat}

/-- With fuel above the size of the first expression `expr_eq` answers, and expressions that it
finds equal have one value. -/
theorem exprEq_spec : ∀ (e1 e2 : Expr S), e1.size < fuel →
    ∃ b, exprEq T fuel e1 e2 = some b ∧
      (b = true → ∀ ρ : Valuation T, exprCalcValue ρ e1 = exprCalcValue ρ e2) := by
  induction fuel with
  | zero => omega
  | succ fuel ih =>
    intro e1 e2 hfuel
    unfold exprEq
    split
    · refine ⟨_, rfl, fun h ρ => ?_⟩
      obtain ⟨rfl, rfl, rfl⟩ := of_decide_eq_true h
      rfl
    · refine ⟨_, rfl, fun h ρ => ?_⟩
      rw [of_decide_eq_true h]
    next e1 e2 =>
      obtain ⟨b, hb, hval⟩ := ih e1 e2 (Nat.lt_of_succ_lt_succ hfuel)
      exact ⟨b, hb, fun h ρ => congrArg Tristate.not (hval h ρ)⟩
    next op l1 r1 op' l2 r2 =>
      split_ifs with hop
      · subst hop
        simp only [size] at hfuel
        have hstep : ∀ x y : Expr S, x.size ≤ fuel - 1 → ∃ b, exprEq T fuel x y = some b ∧
            (b = true → ∀ ρ : Valuation T, exprCalcValue ρ x = exprCalcValue ρ y) :=
          fun x y hx => ih x y (by omega)
        obtain ⟨l, x, hl, hrestl⟩ := eliminateEq_spec op hstep l1 (by omega) (.two op l2 r2)
        obtain ⟨r, y, hr, hrestr⟩ := eliminateEq_spec op hstep r1 (by omega) x
        have hrest := hrestl.two_left hrestr
        rw [exprEliminateEq_two hl hr hrest.right, bind_eq_bind, bind_some]
        split
        next s1 s2 hxy =>
          obtain ⟨h1, h2⟩ := Prod.mk.inj hxy
          refine ⟨_, rfl, fun h ρ => ?_⟩
          obtain ⟨d, hd1, hd2⟩ := hrest.value ρ
          rw [hd1, hd2, ← exprEliminateYn_value ρ y, ← exprEliminateYn_value, h1, h2,
            of_decide_eq_true h]
        next => exact ⟨false, rfl, nofun⟩
      · exact ⟨false, rfl, nofun⟩
    · exact ⟨false, rfl, nofun⟩

/-! ## `expr_eq` of an expression with itself -/

variable {cs rest : List (Expr S)}

section
variable {eq : Expr S → Expr S → Option Bool} {type : LogOp}

def Expr.operands (type : LogOp) : Expr S → List (Expr S)
  | .two op l r => if op = type then l.operands type ++ r.operands type else [.two op l r]
  | e => [e]

omit [DecidableEq S] in
@[simp]
theorem Expr.operands_two (l r : Expr S) :
    (two type l r).operands type = l.operands type ++ r.operands type := if_pos rfl

omit [DecidableEq S] in
theorem Expr.operands_leaf (h : e.hasType type = false) : e.operands type = [e] := by
  cases e <;> simp_all [operands, hasType]

variable (T) in
def Expr.IsYn (e : Expr S) : Prop := e = .symbol (T.symbol .yes) ∨ e = .symbol (T.symbol .no)

variable (T) in
/-- What an operand becomes that was found in both expressions. -/
def Expr.cancel (type : LogOp) (e : Expr S) : Expr S :=
  if e = .symbol (T.symbol .yes) ∨ e = .symbol (T.symbol .no) then e
  else .symbol (T.symbol type.neutral)

variable (type) in
theorem isYn_cancel (e : Expr S) : (e.cancel T type).IsYn T := by
  unfold cancel
  split
  next h => exact h
  next =>
    cases type
    · exact .inr rfl
    · exact .inl rfl

section
variable (heq : ∀ x y : Expr S, x ≠ y → x.IsYn T ∨ y.IsYn T → eq x y = some false)
include heq

theorem eliminateEqSecond_skip {a e : Expr S} (h : ∀ b ∈ e.operands type, a.IsYn T ∨ b.IsYn T) :
    eliminateEqSecond T eq type a e = some (a, e) := by
  induction e using level_induction type with
  | leaf b hleaf =>
    rw [operands_leaf hleaf] at h
    have hyn := h b mem_cons_self
    rw [eliminateEqSecond_leaf hleaf, eliminateEqLeaves]
    split
    next => rfl
    next hne =>
      have hab : a ≠ b := by
        rintro rfl
        exact hne ⟨rfl, hyn.elim id id⟩
      simp [heq a b hab hyn]
  | two l r ihl ihr =>
    rw [operands_two] at h
    have ⟨hl, hr⟩ := forall_mem_append.1 h
    simp [eliminateEqSecond, ihl hl, ihr hr]

theorem eliminateEqSecond_hit {a : Expr S} (hself : eq a a = some true)
    (hcs : ∀ c ∈ cs, c.IsYn T) (h : e.operands type = cs ++ a :: rest) :
    ∃ e', eliminateEqSecond T eq type a e = some (a.cancel T type, e') ∧
      e'.operands type = cs ++ a.cancel T type :: rest ∧ e'.hasType type = e.hasType type := by
  by_cases hyn : a.IsYn T
  · rw [show a.cancel T type = a from if_pos hyn]
    exact ⟨e, eliminateEqSecond_skip heq fun b _ => .inl hyn, h, rfl⟩
  induction e using level_induction type generalizing cs rest with
  | leaf b hleaf =>
    rw [operands_leaf hleaf] at h
    obtain ⟨rfl, rfl, rfl⟩ : cs = [] ∧ b = a ∧ rest = [] := by
      cases cs <;> simp_all
    rw [eliminateEqSecond_leaf hleaf, eliminateEqLeaves, if_neg fun h => hyn h.2, hself,
      show b.cancel T type = _ from if_neg hyn]
    exact ⟨_, rfl, rfl, hleaf.symm⟩
  | two l r ihl ihr =>
    rw [operands_two] at h
    -- the operand is in the right or in the left half
    obtain ⟨cs', rfl, hr⟩ | ⟨mid, hl, rfl⟩ : (∃ cs', cs = l.operands type ++ cs' ∧
        r.operands type = cs' ++ a :: rest) ∨
        ∃ mid, l.operands type = cs ++ a :: mid ∧ rest = mid ++ r.operands type := by
      rcases append_eq_append_iff.1 h with h | ⟨_ | ⟨b, mid⟩, hl, hrest⟩
      · exact .inl h
      · exact .inl ⟨[], by simp [hl], hrest.symm⟩
      · cases hrest
        exact .inr ⟨mid, hl, rfl⟩
    · have ⟨hcsl, hcs'⟩ := forall_mem_append.1 hcs
      have hskip := eliminateEqSecond_skip heq (a := a) fun b hb => .inr (hcsl b hb)
      obtain ⟨r', hr', hops, -⟩ := ihr hcs' hr
      exact ⟨.two type l r', by simp [eliminateEqSecond, hskip, hr'], by simp [hops], rfl⟩
    · have hskip : eliminateEqSecond T eq type (a.cancel T type) r = some (a.cancel T type, r) :=
        eliminateEqSecond_skip heq fun b _ => .inl (isYn_cancel type a)
      obtain ⟨l', hl', hops, -⟩ := ihl hcs hl
      exact ⟨.two type l' r, by simp [eliminateEqSecond, hskip, hl'], by simp [hops], rfl⟩

theorem eliminateEq_hit {e1 : Expr S} (hself : ∀ x ∈ e1.operands type, eq x x = some true)
    {e2 : Expr S} (hcs : ∀ c ∈ cs, c.IsYn T)
    (h : e2.operands type = cs ++ e1.operands type ++ rest) :
    ∃ e1' e2', eliminateEq T eq type e1 e2 = some (e1', e2') ∧
      e1'.operands type = (e1.operands type).map (cancel T type) ∧
      e2'.operands type = cs ++ (e1.operands type).map (cancel T type) ++ rest ∧
      e2'.hasType type = e2.hasType type := by
  induction e1 using level_induction type generalizing e2 cs rest with
  | leaf a hleaf =>
    rw [operands_leaf hleaf] at hself h ⊢
    obtain ⟨e2', helim, hops, htype⟩ :=
      eliminateEqSecond_hit heq (hself a mem_cons_self) hcs (by simpa using h)
    refine ⟨_, e2', (eliminateEq_leaf hleaf e2).trans helim, ?_, by simpa using hops, htype⟩
    rcases isYn_cancel (T := T) type a with hc | hc <;> simp [hc, operands]
  | two l r ihl ihr =>
    rw [operands_two] at hself h
    have ⟨hselfl, hselfr⟩ := forall_mem_append.1 hself
    rw [← append_assoc, append_assoc] at h
    obtain ⟨l', x, hl, hopsl, hx, hxtype⟩ := ihl hselfl hcs h
    have hcs' : ∀ c ∈ cs ++ (l.operands type).map (cancel T type), c.IsYn T :=
      forall_mem_append.2 ⟨hcs, by simp [isYn_cancel]⟩
    rw [← append_assoc] at hx
    obtain ⟨r', y, hr, hopsr, hy, hytype⟩ := ihr hselfr hcs' hx
    exact ⟨.two type l' r', y, by simp [eliminateEq, hl, hr], by simp [hopsl, hopsr],
      by simpa using hy, hytype.trans hxtype⟩

end

theorem exprEliminateYn_operands (h : ∀ x ∈ e.operands type, x.IsYn T) :
    exprEliminateYn T e = .symbol (T.symbol
      (if .symbol (T.symbol type.neutral.not) ∈ e.operands type then type.neutral.not
        else type.neutral)) := by
  have hinj : ∀ u v, T.symbol u = T.symbol v ↔ u = v := fun u v =>
    ⟨T.symbol_injective u v, congrArg T.symbol⟩
  induction e using level_induction type with
  | leaf e hleaf =>
    rw [operands_leaf hleaf] at h ⊢
    rcases h e mem_cons_self with rfl | rfl <;> cases type <;>
      simp [exprEliminateYn, LogOp.neutral, Tristate.not, hinj]
  | two l r ihl ihr =>
    rw [operands_two] at h ⊢
    have ⟨hl, hr⟩ := forall_mem_append.1 h
    have hne : type.neutral.not ≠ type.neutral := by cases type <;> decide
    by_cases hml : .symbol (T.symbol type.neutral.not) ∈ l.operands type <;>
      by_cases hmr : .symbol (T.symbol type.neutral.not) ∈ r.operands type <;>
      simp [exprEliminateYn, ihl hl, ihr hr, absorbOperand, hinj, hml, hmr, hne]

omit [DecidableEq S] in
theorem Expr.size_of_mem_operands {x e : Expr S} (h : x ∈ e.operands type) : x.size ≤ e.size := by
  induction e using level_induction type with
  | leaf e hleaf =>
    rw [operands_leaf hleaf] at h
    rw [mem_singleton.1 h]
  | two l r ihl ihr =>
    rw [operands_two, mem_append] at h
    simp only [size]
    rcases h with h | h
    · have := ihl h
      omega
    · have := ihr h
      omega

theorem exprEq_isYn {x y : Expr S} (hne : x ≠ y) (h : x.IsYn T ∨ y.IsYn T) :
    exprEq T (fuel + 1) x y = some false := by
  rcases h with (rfl | rfl) | (rfl | rfl)
  · cases y <;> simp_all [exprEq]
  · cases y <;> simp_all [exprEq]
  · cases x <;> simp_all [exprEq]
  · cases x <;> simp_all [exprEq]

theorem exprEq_refl : ∀ {e : Expr S}, e.size < fuel → exprEq T fuel e e = some true := by
  induction fuel with
  | zero => omega
  | succ fuel ih =>
    intro e hfuel
    cases e with
    | symbol s | comp rel l r => simp [exprEq]
    | not e => exact ih (Nat.lt_of_succ_lt_succ hfuel)
    | two op l r =>
      simp only [size] at hfuel
      have hself : ∀ x ∈ l.operands op ++ r.operands op, exprEq T fuel x x = some true := by
        refine forall_mem_append.2 ⟨fun x hx => ih ?_, fun x hx => ih ?_⟩ <;>
        · have := size_of_mem_operands hx
          omega
      have ⟨hselfl, hselfr⟩ := forall_mem_append.1 hself
      obtain ⟨fuel, rfl⟩ := Nat.exists_eq_add_one.2 (show 0 < fuel by omega)
      have heq : ∀ x y : Expr S, x ≠ y → x.IsYn T ∨ y.IsYn T →
          exprEq T (fuel + 1) x y = some false :=
        fun x y => exprEq_isYn
      have hwhole : (two op l r).operands op = [] ++ l.operands op ++ r.operands op :=
        operands_two l r
      obtain ⟨l', x, hlx, hopsl, hx, hxtype⟩ := eliminateEq_hit heq hselfl (by simp) hwhole
      rw [← append_nil (_ ++ _)] at hx
      obtain ⟨r', y, hry, hopsr, hy, hytype⟩ :=
        eliminateEq_hit heq hselfr (by simp [isYn_cancel]) hx
      have hops : (two op l' r').operands op = y.operands op := by simp [hopsl, hopsr, hy]
      have hyn : ∀ x ∈ y.operands op, x.IsYn T := by
        rw [← hops]
        simp [hopsl, hopsr, isYn_cancel, or_imp, forall_and]
      have hsame := exprEliminateYn_operands (hops ▸ hyn)
      rw [hops] at hsame
      unfold exprEq
      dsimp only
      rw [exprEliminateEq_two hlx hry (hytype.trans hxtype), hsame, exprEliminateYn_operands hyn]
      simp

/-- With any fuel above the size of the first expression `expr_eq` answers, expressions that it
finds equal have one value under every assignment, and it finds every expression equal to itself. -/
theorem exprEq_sound (T : Symtab S) (e1 e2 : Expr S) (k : Nat) :
    (∃ b, exprEq T (e1.size + 1 + k) e1 e2 = some b ∧
      (b = true → ∀ ρ : Valuation T, exprCalcValue ρ e1 = exprCalcValue ρ e2)) ∧
      exprEq T (e1.size + 1 + k) e1 e1 = some true :=
  have hfuel : e1.size < e1.size + 1 + k := by omega
  ⟨exprEq_spec e1 e2 hfuel, exprEq_refl hfuel⟩

end

end LinuxKernel.Kconfig
