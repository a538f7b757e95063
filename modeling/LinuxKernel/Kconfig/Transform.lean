import LinuxKernel.Kconfig.SimplifySound

/-!
# Kconfig: rewriting negations and comparisons

`expr_transform` and `expr_trans_compare` of `scripts/kconfig/expr.c`. `expr_transform` works on the
tree in place and calls itself again on what it made of a negation; `Expr.nnf` is what comes out, by
recursion over the expression alone.
-/

namespace LinuxKernel.Kconfig

open Kconfig.Expr

variable {S : Type}

/-! ## `expr_transform` -/

variable {e : Expr S}

section
variable [DecidableEq S] (T : Symtab S)

def Rel.negate : Rel → Rel
  | equal => unequal
  | unequal => equal
  | leq => gth
  | geq => lth
  | lth => geq
  | gth => leq

def LogOp.dual : LogOp → LogOp
  | or => and
  | and => or

def transformComp (rel : Rel) (l r : S) : Expr S :=
  if T.type l ≠ .boolean then .comp rel l r
  else match rel with
    | .equal =>
      if r = T.symbol .no then .not (.symbol l)
      else if r = T.symbol .mod then .symbol (T.symbol .no)
      else if r = T.symbol .yes then .symbol l
      else .comp rel l r
    | .unequal =>
      if r = T.symbol .no then .symbol l
      else if r = T.symbol .mod then .symbol (T.symbol .yes)
      else if r = T.symbol .yes then .not (.symbol l)
      else .comp rel l r
    | _ => .comp rel l r

def transformNotSymbol (s : S) : Expr S :=
  if s = T.symbol .yes then .symbol (T.symbol .no)
  else if s = T.symbol .mod then .symbol (T.symbol .mod)
  else if s = T.symbol .no then .symbol (T.symbol .yes)
  else .not (.symbol s)

/-- `expr_transform`; `none` stands for fuel that ran out. -/
def exprTransform : Nat → Expr S → Option (Expr S)
  | 0, _ => none
  | _ + 1, .symbol s => some (.symbol s)
  | _ + 1, .comp rel l r => some (transformComp T rel l r)
  | fuel + 1, .two op l r => do
    let l ← exprTransform fuel l
    let r ← exprTransform fuel r
    some (.two op l r)
  | fuel + 1, .not e => do
    match ← exprTransform fuel e with
    | .not e => exprTransform fuel e
    | .comp rel l r => some (.comp rel.negate l r)
    | .two op l r => exprTransform fuel (.two op.dual (.not l) (.not r))
    | .symbol s => some (transformNotSymbol T s)

def Expr.negate : Expr S → Expr S
  | .symbol s => transformNotSymbol T s
  | .not e => e
  | .comp rel l r => .comp rel.negate l r
  | .two op l r => .two op.dual (l.negate) (r.negate)

def Expr.nnf : Expr S → Expr S
  | .symbol s => .symbol s
  | .not e => e.nnf.negate T
  | .comp rel l r => transformComp T rel l r
  | .two op l r => .two op l.nnf r.nnf

/-- Negations stand in front of symbols other than `y`, `m` and `n` only, and no bool symbol is
compared with one of these. -/
def Expr.IsNnf : Expr S → Prop
  | .symbol _ => True
  | .not (.symbol s) => ∀ v, s ≠ T.symbol v
  | .not _ => False
  | .comp rel l r => T.type l = .boolean → rel = .equal ∨ rel = .unequal → ∀ v, r ≠ T.symbol v
  | .two _ l r => l.IsNnf ∧ r.IsNnf

def Expr.height : Expr S → Nat
  | .symbol _ => 1
  | .not e => e.height + 1
  | .comp _ _ _ => 2
  | .two _ l r => max l.height r.height + 1

variable {T}

theorem transformNotSymbol_of_ne {s : S} (hs : ∀ v, s ≠ T.symbol v) :
    transformNotSymbol T s = .not (.symbol s) := by
  simp [transformNotSymbol, hs]

theorem transformNotSymbol_cases (s : S) :
    (∃ v : Tristate, s = T.symbol v ∧ transformNotSymbol T s = .symbol (T.symbol v.not)) ∨
      (∀ v, s ≠ T.symbol v) ∧ transformNotSymbol T s = .not (.symbol s) := by
  by_cases hs : ∃ v, s = T.symbol v
  · obtain ⟨v, rfl⟩ := hs
    refine .inl ⟨v, rfl, ?_⟩
    have hinj := fun u => T.symbol_injective v u
    cases v <;> simp [transformNotSymbol, Tristate.not] <;> grind
  · have hs' : ∀ v, s ≠ T.symbol v := fun v heq => hs ⟨v, heq⟩
    exact .inr ⟨hs', transformNotSymbol_of_ne hs'⟩

theorem isNnf_transformNotSymbol (s : S) : (transformNotSymbol T s).IsNnf T := by
  rcases transformNotSymbol_cases s with ⟨v, -, heq⟩ | ⟨hs, heq⟩ <;> rw [heq]
  · trivial
  · exact hs

variable (ρ : Valuation T)

theorem calc_transformNotSymbol (s : S) :
    exprCalcValue ρ (transformNotSymbol T s) = (ρ.tri s).not := by
  rcases transformNotSymbol_cases (T := T) s with ⟨v, rfl, heq⟩ | ⟨-, heq⟩ <;> rw [heq]
  · rw [calc_symbol, ρ.tri_symbol]
  · rfl

theorem transformComp_of_isNnf {rel : Rel} {l r : S} (h : (comp rel l r).IsNnf T) :
    transformComp T rel l r = .comp rel l r := by
  by_cases hl : T.type l = .boolean
  · have hr := h hl
    cases rel <;> simp_all [transformComp]
  · exact if_pos hl

/-- A comparison of a bool symbol with `y`, `m` or `n` becomes a symbol or its negation; any other
stays as it is. -/
theorem transformComp_cases (rel : Rel) (l r : S) :
    ((comp rel l r).IsNnf T ∧ transformComp T rel l r = .comp rel l r) ∨
      ((∃ s, transformComp T rel l r = .symbol s) ∨
        T.type l = .boolean ∧ transformComp T rel l r = .not (.symbol l)) ∧ ∀ ρ : Valuation T,
        exprCalcValue ρ (transformComp T rel l r) = exprCalcValue ρ (.comp rel l r) := by
  by_cases h : (comp rel l r).IsNnf T
  · exact .inl ⟨h, transformComp_of_isNnf h⟩
  obtain ⟨hl, hrel, v, rfl⟩ :
      T.type l = .boolean ∧ (rel = .equal ∨ rel = .unequal) ∧ ∃ v, r = T.symbol v := by
    simpa [IsNnf] using h
  have hinj : ∀ u, T.symbol v = T.symbol u ↔ v = u :=
    fun u => ⟨T.symbol_injective v u, fun h => by rw [h]⟩
  refine .inr ⟨?_, fun ρ => ?_⟩
  · rcases hrel with rfl | rfl <;> cases v <;> simp [transformComp, hl, hinj]
  have hmod := ρ.tri_boolean l hl
  rcases hrel with rfl | rfl
  · rw [calc_equal_symbol (.inl hl)]
    cases v <;> cases hv : ρ.tri l <;>
      simp_all [transformComp, exprCalcValue, Tristate.not, triOf]
  · rw [calc_unequal_symbol (.inl hl)]
    cases v <;> cases hv : ρ.tri l <;>
      simp_all [transformComp, exprCalcValue, Tristate.not, triOf]

theorem holds_negate (rel : Rel) (res : Int) : rel.negate.holds res = !rel.holds res := by
  cases rel <;> simp [Rel.negate, Rel.holds] <;> grind

theorem eval_dual (op : LogOp) (a b : Tristate) : op.dual.eval a.not b.not = (op.eval a b).not := by
  cases op <;> cases a <;> cases b <;> rfl

theorem calc_negate (e : Expr S) : exprCalcValue ρ (e.negate T) = (exprCalcValue ρ e).not := by
  induction e with
  | symbol s => exact calc_transformNotSymbol ρ s
  | not e ih => cases h : exprCalcValue ρ e <;> simp [negate, exprCalcValue, h, Tristate.not]
  | comp rel l r =>
    simp only [negate, exprCalcValue, holds_negate]
    cases rel.holds _ <;> rfl
  | two op l r ihl ihr => simp only [negate, exprCalcValue, ihl, ihr, eval_dual]

theorem calc_nnf (e : Expr S) : exprCalcValue ρ (e.nnf T) = exprCalcValue ρ e := by
  induction e with
  | symbol s => rfl
  | not e ih => rw [nnf, calc_negate, ih, exprCalcValue]
  | comp rel l r =>
    rcases transformComp_cases rel l r with ⟨-, heq⟩ | ⟨-, hval⟩
    · rw [nnf, heq]
    · exact hval ρ
  | two op l r ihl ihr => rw [nnf, exprCalcValue, ihl, ihr, exprCalcValue]

theorem Expr.IsNnf.negate (h : e.IsNnf T) : (e.negate T).IsNnf T := by
  induction e with
  | symbol s => exact isNnf_transformNotSymbol s
  | not e ih =>
    cases e with
    | symbol s => trivial
    | _ => cases h
  | comp rel l r =>
    intro hl hrel
    apply h hl
    cases rel <;> simp_all [Rel.negate]
  | two op l r ihl ihr => exact ⟨ihl h.1, ihr h.2⟩

theorem isNnf_nnf (e : Expr S) : (e.nnf T).IsNnf T := by
  induction e with
  | symbol s => trivial
  | not e ih => exact ih.negate
  | comp rel l r =>
    rw [nnf]
    rcases transformComp_cases rel l r with ⟨h, heq⟩ | ⟨⟨s, heq⟩ | ⟨hl, heq⟩, -⟩ <;>
      rw [heq]
    · exact h
    · trivial
    · rintro v rfl
      rw [T.type_symbol] at hl
      cases hl
  | two op l r ihl ihr => exact ⟨ihl, ihr⟩

theorem height_negate (e : Expr S) : (e.negate T).height ≤ e.height + 1 := by
  induction e with
  | symbol s =>
    rcases transformNotSymbol_cases (T := T) s with ⟨v, -, heq⟩ | ⟨-, heq⟩ <;>
      simp [negate, heq, height]
  | not e ih => simp only [negate, height]; omega
  | comp rel l r => simp [negate, height]
  | two op l r ihl ihr => simp only [negate, height]; omega

theorem height_nnf (e : Expr S) : (e.nnf T).height ≤ e.height := by
  induction e with
  | symbol s => exact le_rfl
  | not e ih => exact (height_negate _).trans (Nat.succ_le_succ ih)
  | comp rel l r =>
    rw [nnf]
    rcases transformComp_cases (T := T) rel l r with ⟨-, heq⟩ | ⟨⟨s, heq⟩ | ⟨-, heq⟩, -⟩ <;>
      simp [heq, height]
  | two op l r ihl ihr => simp only [nnf, height]; omega

theorem exprTransform_of_isNnf (h : e.IsNnf T) :
    ∀ {fuel : Nat}, e.height ≤ fuel → exprTransform T fuel e = some e := by
  induction e with
  | symbol s => rintro (_ | fuel) hfuel <;> first | rfl | simp [height] at hfuel
  | not e ih =>
    cases e with
    | symbol s =>
      rintro (_ | _ | fuel) hfuel <;> simp [height] at hfuel
      simp [exprTransform, transformNotSymbol_of_ne h]
    | _ => cases h
  | comp rel l r =>
    rintro (_ | fuel) hfuel <;> simp [height] at hfuel
    simp [exprTransform, transformComp_of_isNnf h]
  | two op l r ihl ihr =>
    rintro (_ | fuel) hfuel <;> simp [height] at hfuel
    simp [exprTransform, ihl h.1 hfuel.1, ihr h.2 hfuel.2]

theorem exprTransform_not (h : e.IsNnf T) :
    ∀ {fuel : Nat}, 2 * e.height ≤ fuel → exprTransform T fuel (.not e) = some (e.negate T) := by
  induction e with
  | two op l r ihl ihr =>
    rintro (_ | _ | fuel) hfuel <;> simp only [height] at hfuel
    · omega
    · omega
    rw [exprTransform, exprTransform_of_isNnf h (by simp only [height]; omega)]
    simp only [Option.bind_eq_bind, Option.bind_some, exprTransform]
    rw [ihl h.1 (by omega), ihr h.2 (by omega)]
    rfl
  | not e ih =>
    rintro (_ | _ | fuel) hfuel <;> simp only [height] at hfuel
    · omega
    · omega
    rw [exprTransform, exprTransform_of_isNnf h (by simp only [height]; omega)]
    cases e with
    | symbol s => rfl
    | _ => cases h
  | _ =>
    rintro (_ | fuel) hfuel <;> simp only [height] at hfuel
    · omega
    rw [exprTransform, exprTransform_of_isNnf h (by simp only [height]; omega)]
    rfl

theorem exprTransform_eq_nnf (e : Expr S) :
    ∀ {fuel : Nat}, 2 * e.height ≤ fuel → exprTransform T fuel e = some (e.nnf T) := by
  induction e with
  | symbol s => rintro (_ | fuel) hfuel <;> first | rfl | simp [height] at hfuel
  | comp rel l r => rintro (_ | fuel) hfuel <;> first | rfl | simp [height] at hfuel
  | two op l r ihl ihr =>
    rintro (_ | fuel) hfuel <;> simp only [height] at hfuel
    · omega
    rw [exprTransform, ihl (by omega), ihr (by omega)]
    rfl
  | not e ih =>
    rintro (_ | fuel) hfuel <;> simp only [height] at hfuel
    · omega
    have hle := height_nnf (T := T) e
    -- what is done with the transformed operand is what a second pass would do with it
    have hnot : exprTransform T (fuel + 1) (.not (e.nnf T)) = _ :=
      exprTransform_not (isNnf_nnf e) (by omega)
    rw [exprTransform, exprTransform_of_isNnf (isNnf_nnf e) (by omega)] at hnot
    rw [exprTransform, ih (by omega)]
    exact hnot

/-- The rewriting ends, keeps the value, leaves negations in front of symbols other than `y`, `m`
and `n` only, and changes nothing when it is done again. -/
theorem exprTransform_nnf (T : Symtab S) (e : Expr S) :
    ∃ e' n, (∀ fuel, n ≤ fuel →
        exprTransform T fuel e = some e' ∧ exprTransform T fuel e' = some e') ∧
      e'.IsNnf T ∧ ∀ ρ : Valuation T, exprCalcValue ρ e' = exprCalcValue ρ e := by
  refine ⟨e.nnf T, 2 * e.height, fun fuel hfuel => ?_, isNnf_nnf e, fun ρ => calc_nnf ρ e⟩
  have hle := height_nnf (T := T) e
  exact ⟨exprTransform_eq_nnf e hfuel, exprTransform_of_isNnf (isNnf_nnf e) (by omega)⟩

def sampleSymtab : Symtab (Tristate ⊕ Bool) where
  name := Sum.elim Tristate.toStr fun quoted => if quoted then ['f', 'o', 'o'] else ['A']
  type := Sum.elim (fun _ => .tristate) fun quoted => if quoted then .unknown else .tristate
  const := Sum.elim (fun _ => true) id
  symbol := Sum.inl
  symbol_injective := fun _ _ => Sum.inl.inj
  name_symbol := fun _ => rfl
  type_symbol := fun _ => rfl
  const_symbol := fun _ => rfl
  type_const := by rintro (v | _ | _) <;> simp

/-- A quoted text is a constant symbol, and keeps the negation in front of it. -/
theorem exprTransform_not_quoted :
    sampleSymtab.const (.inr true) = true ∧ ∀ fuel, 2 ≤ fuel →
      exprTransform sampleSymtab fuel (.not (.symbol (.inr true))) =
        some (.not (.symbol (.inr true))) := by
  refine ⟨rfl, ?_⟩
  rintro (_ | _ | fuel) hfuel
  · omega
  · omega
  · rfl

end

/-! ## `expr_trans_compare` -/

variable {T : Symtab S}

/-- `expr_trans_compare` with `sym` one of `y`, `m` and `n`. -/
def exprTransCompare (T : Symtab S) (type : Rel) (v : Tristate) : Expr S → Expr S
  | .two op l r =>
    let e := match v with
      | .yes => .two op (exprTransCompare T .equal v l) (exprTransCompare T .equal v r)
      | .no => .two op.dual (exprTransCompare T .equal v l) (exprTransCompare T .equal v r)
      | .mod => .two op l r
    if type = .unequal then .not e else e
  | .not e => exprTransCompare T (if type = .equal then .unequal else .equal) v e
  | .comp rel l r =>
    match v with
    | .yes => if type = .equal then .comp rel l r else .not (.comp rel l r)
    | .mod => .symbol (T.symbol (if type = .equal then .no else .yes))
    | .no => if type = .equal then .not (.comp rel l r) else .comp rel l r
  | .symbol s => .comp type s (T.symbol v)

/-- The symbols that stand for themselves have one of the values `n`, `m` and `y`. -/
def Expr.TriLeaves (T : Symtab S) : Expr S → Prop
  | .symbol s => (T.type s).isTri
  | .not e => e.TriLeaves T
  | .comp _ _ _ => True
  | .two _ l r => l.TriLeaves T ∧ r.TriLeaves T

/-- The expression in two-valued logic, with the test `p` for its symbols. -/
def Expr.test (ρ : Valuation T) (p : Tristate → Bool) : Expr S → Bool
  | .symbol s => p (ρ.tri s)
  | .not e => !e.test ρ p
  | .comp rel l r => exprCalcValue ρ (.comp rel l r) = .yes
  | .two .or l r => l.test ρ p || r.test ρ p
  | .two .and l r => l.test ρ p && r.test ρ p

/-- No operand of a negation has the value `m`. -/
def Expr.NegatesYn (ρ : Valuation T) : Expr S → Prop
  | .not e => exprCalcValue ρ e ≠ .mod ∧ e.NegatesYn ρ
  | .two _ l r => l.NegatesYn ρ ∧ r.NegatesYn ρ
  | _ => True

@[simp] theorem triOf_eq_yes (b : Bool) : triOf b = .yes ↔ b = true := by
  cases b <;> decide

theorem not_triOf (b : Bool) : (triOf b).not = triOf !b := by
  cases b <;> rfl

theorem eval_triOf (op : LogOp) (a b : Bool) :
    op.eval (triOf a) (triOf b) = triOf (match op with | .or => a || b | .and => a && b) := by
  cases op <;> cases a <;> cases b <;> rfl

/-- Each comparison is made with the symbols, and the rest is two-valued logic. -/
theorem calc_transCompare (ρ : Valuation T) (he : e.TriLeaves T) (b : Bool) :
    exprCalcValue ρ (exprTransCompare T (if b then .equal else .unequal) .yes e) =
        triOf (e.test ρ (· = .yes) == b) ∧
      exprCalcValue ρ (exprTransCompare T (if b then .equal else .unequal) .no e) =
        triOf (e.test ρ (· ≠ .no) != b) := by
  induction e generalizing b with
  | symbol s =>
    cases b <;>
      simp [exprTransCompare, calc_equal_symbol he, calc_unequal_symbol he, test]
  | not e ih =>
    have hflip := ih he !b
    cases b <;> simp_all [exprTransCompare, test]
  | comp rel l r =>
    cases b <;> simp [exprTransCompare, test, exprCalcValue, not_triOf]
  | two op l r ihl ihr =>
    have hl := ihl he.1 true
    have hr := ihr he.2 true
    cases op <;> cases b <;>
      simp_all [exprTransCompare, exprCalcValue, test, LogOp.dual, eval_triOf, not_triOf]

theorem test_eq_of_negatesYn (ρ : Valuation T) (hneg : e.NegatesYn ρ) :
    (e.test ρ (· = .yes) = decide (exprCalcValue ρ e = .yes)) ∧
      e.test ρ (· ≠ .no) = decide (exprCalcValue ρ e ≠ .no) := by
  induction e with
  | symbol s => exact ⟨rfl, rfl⟩
  | not e ih =>
    have := ih hneg.2
    have := hneg.1
    cases h : exprCalcValue ρ e <;> simp_all [test, exprCalcValue, Tristate.not]
  | comp rel l r =>
    simp only [test, exprCalcValue, triOf]
    split <;> simp
  | two op l r ihl ihr =>
    have hl := ihl hneg.1
    have hr := ihr hneg.2
    cases op <;> cases hvl : exprCalcValue ρ l <;> cases hvr : exprCalcValue ρ r <;>
      simp_all [test, exprCalcValue, LogOp.eval, Tristate.or, Tristate.and, Tristate.toNat]

/-- The comparison asked for is made with each symbol and combined in two-valued logic; that is the
comparison of the whole expression where no operand of a negation has the value `m`. -/
theorem exprTransCompare_test (ρ : Valuation T) {e : Expr S} (he : e.TriLeaves T) :
    (exprCalcValue ρ (exprTransCompare T .unequal .no e) = triOf (e.test ρ (· ≠ .no)) ∧
      exprCalcValue ρ (exprTransCompare T .equal .yes e) = triOf (e.test ρ (· = .yes))) ∧
    (e.NegatesYn ρ →
      exprCalcValue ρ (exprTransCompare T .unequal .no e) = triOf (exprCalcValue ρ e ≠ .no) ∧
      exprCalcValue ρ (exprTransCompare T .equal .yes e) = triOf (exprCalcValue ρ e = .yes)) := by
  have hno := (calc_transCompare ρ he false).2
  have hyes := (calc_transCompare ρ he true).1
  simp only [Bool.bne_false, beq_true, Bool.false_eq_true, if_false, if_true] at hno hyes
  refine ⟨⟨hno, hyes⟩, fun hneg => ?_⟩
  have htest := test_eq_of_negatesYn ρ hneg
  rw [hno, hyes, htest.1, htest.2]
  exact ⟨rfl, rfl⟩

def sampleValuation : Valuation sampleSymtab where
  tri := Sum.elim id fun quoted => if quoted then .no else .mod
  val := Sum.elim Tristate.toStr fun _ => ['f', 'o', 'o']
  tri_symbol := fun _ => rfl
  tri_boolean := by rintro (v | _ | _) <;> simp [sampleSymtab]
  tri_unknown := by rintro (v | _ | _) <;> simp [sampleSymtab]
  val_unknown := by rintro (v | _ | _) <;> simp [sampleSymtab]

/-- `A && !(A=y)`, where `A` is `m`. -/
theorem exprTransCompare_test_sample :
    let e : Expr (Tristate ⊕ Bool) :=
      .two .and (.symbol (.inr false)) (.not (.comp .equal (.inr false) (.inl .yes)))
    exprCalcValue sampleValuation (exprTransCompare sampleSymtab .unequal .no e) = .yes ∧
      exprCalcValue sampleValuation (exprTransCompare sampleSymtab .equal .yes e) = .no := by
  intro e
  have htri : e.TriLeaves sampleSymtab := ⟨.inr rfl, trivial⟩
  exact (exprTransCompare_test sampleValuation htri).2 ⟨trivial, by decide, trivial⟩

/-- `!A` is not `n` where `A` is `m`, but it is compared as `A=n`. -/
theorem exprTransCompare_not_mod :
    exprCalcValue sampleValuation (.not (.symbol (.inr false))) ≠ .no ∧
      exprCalcValue sampleValuation
        (exprTransCompare sampleSymtab .unequal .no (.not (.symbol (.inr false)))) = .no := by
  decide

end LinuxKernel.Kconfig
