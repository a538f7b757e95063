import LinuxKernel.Kconfig.Expr

/-!
# Kconfig expression simplification

`expr_eliminate_yn`, `expr_eq` with `expr_eliminate_eq`, the join rules and `expr_eliminate_dups`
of `scripts/kconfig/expr.c`.

The C code rewrites the tree in place through `struct expr **` slots. `expr_eliminate_dups1` walks
one level of operands against itself, so both of its slots lie in the same tree: here the level is
passed as a whole and a slot is the path to it. Two slots hold the same node exactly if the paths
are equal. `none` stands for fuel that ran out.
-/

namespace LinuxKernel.Kconfig

variable {S : Type} [DecidableEq S] (T : Symtab S)

def Expr.hasType (type : LogOp) : Expr S → Bool
  | .two op _ _ => op = type
  | _ => false

/-! ## Constants under `&&` and `||` -/

/-- The two operand tests of `expr_eliminate_yn` for one operand `e` next to `other`: `none` if
`e` is neither `y` nor `n`. -/
def absorbOperand (op : LogOp) (e other : Expr S) : Option (Expr S) :=
  match e with
  | .symbol s =>
    if s = T.symbol op.neutral then some other
    else if s = T.symbol op.neutral.not then some (.symbol s)
    else none
  | _ => none

def exprEliminateYn : Expr S → Expr S
  | .two op l r =>
    let l := exprEliminateYn l
    let r := exprEliminateYn r
    match absorbOperand T op l r with
    | some e => e
    | none =>
      match absorbOperand T op r l with
      | some e => e
      | none => .two op l r
  | e => e

/-! ## Equality up to order -/

section
variable (eq : Expr S → Expr S → Option Bool) (type : LogOp)

def eliminateEqLeaves (e1 e2 : Expr S) : Option (Expr S × Expr S) :=
  if e1 = e2 ∧ (e1 = .symbol (T.symbol .yes) ∨ e1 = .symbol (T.symbol .no)) then some (e1, e2)
  else do
    if ← eq e1 e2 then
      some (.symbol (T.symbol type.neutral), .symbol (T.symbol type.neutral))
    else some (e1, e2)

def eliminateEqSecond : Expr S → Expr S → Option (Expr S × Expr S)
  | e1, .two op l r =>
    if op = type then do
      let (e1, l) ← eliminateEqSecond e1 l
      let (e1, r) ← eliminateEqSecond e1 r
      some (e1, .two op l r)
    else eliminateEqLeaves T eq type e1 (.two op l r)
  | e1, e2 => eliminateEqLeaves T eq type e1 e2

def eliminateEq : Expr S → Expr S → Option (Expr S × Expr S)
  | .two op l r, e2 =>
    if op = type then do
      let (l, e2) ← eliminateEq l e2
      let (r, e2) ← eliminateEq r e2
      some (.two op l r, e2)
    else eliminateEqSecond T eq type (.two op l r) e2
  | e1, e2 => eliminateEqSecond T eq type e1 e2

end

/-- `expr_eliminate_eq`; `eq` is the `expr_eq` it calls on leaves. -/
def exprEliminateEq (eq : Expr S → Expr S → Option Bool) (e1 e2 : Expr S) :
    Option (Expr S × Expr S) := do
  let first := match e1 with
    | .two op _ _ => eliminateEq T eq op e1 e2
    | _ => some (e1, e2)
  let (e1, e2) ← first
  let second := match e2 with
    | .two op _ _ => if e1.hasType op then some (e1, e2) else eliminateEq T eq op e1 e2
    | _ => some (e1, e2)
  let (e1, e2) ← second
  some (exprEliminateYn T e1, exprEliminateYn T e2)

def exprEq : Nat → Expr S → Expr S → Option Bool
  | 0, _, _ => none
  | fuel + 1, e1, e2 =>
    match e1, e2 with
    | .comp rel1 l1 r1, .comp rel2 l2 r2 => some (rel1 = rel2 ∧ l1 = l2 ∧ r1 = r2)
    | .symbol s1, .symbol s2 => some (s1 = s2)
    | .not e1, .not e2 => exprEq fuel e1 e2
    | .two op1 l1 r1, .two op2 l2 r2 =>
      if op1 = op2 then do
        match ← exprEliminateEq T (exprEq fuel) (.two op1 l1 r1) (.two op2 l2 r2) with
        | (.symbol s1, .symbol s2) => some (s1 = s2)
        | _ => some false
      else some false
    | _, _ => some false

/-! ## Joining two operands -/

/-- `sym1` of the join functions, `none` where they give up on the shape of `e1`. -/
def joinSym1 : Expr S → Option S
  | .comp .equal s _ | .comp .unequal s _ | .symbol s => some s
  | .not (.comp .equal s _) | .not (.comp .unequal s _) | .not (.symbol s) => some s
  | _ => none

/-- `sym2` of the join functions, `none` where they give up on the shape of `e2`. -/
def joinSym2 : Expr S → Option S
  | .comp .equal s _ | .comp .unequal s _ | .symbol s => some s
  | .not (.symbol s) => some s
  | _ => none

/-- The symbol both operands are about, if it is a bool or a tristate: the tests with which
`expr_join_or` and `expr_join_and` start. -/
def joinSym (e1 e2 : Expr S) : Option S := do
  let sym1 ← joinSym1 e1
  let sym2 ← joinSym2 e2
  if sym1 = sym2 ∧ (T.type sym1 = .boolean ∨ T.type sym1 = .tristate) then some sym1 else none

def isPair (b c : S) (u v : Tristate) : Bool :=
  (b = T.symbol u ∧ c = T.symbol v) ∨ (b = T.symbol v ∧ c = T.symbol u)

def joinOrRules (a : S) (e1 e2 : Expr S) : Option (Expr S) :=
  match e1, e2 with
  | .comp .equal _ b, .comp .equal _ c =>
    if T.type a = .tristate then
      -- (a='y') || (a='m') -> (a!='n')
      if isPair T b c .yes .mod then some (.comp .unequal a (T.symbol .no))
      -- (a='y') || (a='n') -> (a!='m')
      else if isPair T b c .yes .no then some (.comp .unequal a (T.symbol .mod))
      -- (a='m') || (a='n') -> (a!='y')
      else if isPair T b c .mod .no then some (.comp .unequal a (T.symbol .yes))
      else none
    else none
  | .not (.symbol _), .symbol _ | .symbol _, .not (.symbol _) =>
    if T.type a = .boolean then some (.symbol (T.symbol .yes)) else none
  | _, _ => none

def joinAndRules (a : S) (e1 e2 : Expr S) : Option (Expr S) :=
  match e1, e2 with
  | .symbol _, .comp .equal _ c | .comp .equal _ c, .symbol _ =>
    -- (a) && (a='y') -> (a='y')
    if c = T.symbol .yes then some (.comp .equal a (T.symbol .yes)) else none
  | .symbol _, .comp .unequal _ c | .comp .unequal _ c, .symbol _ =>
    -- (a) && (a!='n') -> (a)
    if c = T.symbol .no then some (.symbol a)
    -- (a) && (a!='m') -> (a='y')
    else if c = T.symbol .mod then some (.comp .equal a (T.symbol .yes))
    else none
  | .comp .equal _ b, .comp .unequal _ c | .comp .unequal _ c, .comp .equal _ b =>
    -- (a='b') && (a!='c') -> 'b'='c' ? 'n' : a='b'
    if T.type a = .tristate ∧ T.const c ∧ T.const b then
      some (if b ≠ c then .comp .equal a b else .symbol (T.symbol .no))
    else none
  | .comp .unequal _ b, .comp .unequal _ c =>
    if T.type a = .tristate then
      -- (a!='y') && (a!='n') -> (a='m')
      if isPair T b c .yes .no then some (.comp .equal a (T.symbol .mod))
      -- (a!='y') && (a!='m') -> (a='n')
      else if isPair T b c .yes .mod then some (.comp .equal a (T.symbol .no))
      -- (a!='m') && (a!='n') -> (a='y')
      else if isPair T b c .mod .no then some (.comp .equal a (T.symbol .yes))
      else none
    else none
  | _, _ => none

/-- `expr_join_or` and `expr_join_and`; the inner `none` is the `NULL` of no simplification. -/
def exprJoin (fuel : Nat) (type : LogOp) (e1 e2 : Expr S) : Option (Option (Expr S)) := do
  if ← exprEq T fuel e1 e2 then some (some e1)
  else
    match joinSym T e1 e2, type with
    | some a, .or => some (joinOrRules T a e1 e2)
    | some a, .and => some (joinAndRules T a e1 e2)
    | none, _ => some none

/-! ## Duplicate elimination -/

inductive Side
  | left
  | right
  deriving DecidableEq, Repr

def Expr.get : Expr S → List Side → Option (Expr S)
  | e, [] => some e
  | .two _ l _, .left :: p => l.get p
  | .two _ _ r, .right :: p => r.get p
  | _, _ :: _ => none

def Expr.set : Expr S → List Side → Expr S → Expr S
  | _, [], x => x
  | .two op l r, .left :: p, x => .two op (l.set p x) r
  | .two op l r, .right :: p, x => .two op l (r.set p x)
  | e, _ :: _, _ => e

/-- The `switch` in front of a walk: `walk` is for the operands of an `&&` or `||` node, any other
`e` stays as it is. -/
def walkOperands (walk : LogOp → Option (Expr S × Nat)) (e : Expr S) (transCount : Nat) :
    Option (Expr S × Nat) :=
  match e with
  | .two op _ _ => walk op
  | _ => some (e, transCount)

section
variable (join : Nat → LogOp → Expr S → Expr S → Option (Option (Expr S)))

/-- `expr_eliminate_dups1` on the two slots `p1` and `p2` of the level `s`, with the `trans_count`
before and after; `join` is the `expr_join_or` and `expr_join_and` it calls. -/
def exprEliminateDups1 : Nat → LogOp → Expr S → List Side → List Side → Nat → Option (Expr S × Nat)
  | 0, _, _, _, _, _ => none
  | fuel + 1, type, s, p1, p2, transCount => do
    let e1 ← s.get p1
    let e2 ← s.get p2
    if e1.hasType type then
      let (s, transCount) ← exprEliminateDups1 fuel type s (p1 ++ [.left]) p2 transCount
      exprEliminateDups1 fuel type s (p1 ++ [.right]) p2 transCount
    else if e2.hasType type then
      let (s, transCount) ← exprEliminateDups1 fuel type s p1 (p2 ++ [.left]) transCount
      exprEliminateDups1 fuel type s p1 (p2 ++ [.right]) transCount
    else if p1 = p2 then some (s, transCount)
    else
      -- a leaf of this level that is a level of its own is walked against itself first
      let (e1, transCount) ←
        walkOperands (fun op => exprEliminateDups1 fuel op e1 [] [] transCount) e1 transCount
      let s := s.set p1 e1
      match ← join fuel type e1 e2 with
      | some tmp =>
        some ((s.set p1 (.symbol (T.symbol type.neutral))).set p2 tmp, transCount + 1)
      | none => some (s, transCount)

def exprEliminateDups : Nat → Expr S → Option (Expr S)
  | 0, _ => none
  | fuel + 1, e => do
    let (e, transCount) ← walkOperands (fun op => exprEliminateDups1 T join fuel op e [] [] 0) e 0
    if transCount = 0 then some e else exprEliminateDups fuel (exprEliminateYn T e)

end

end LinuxKernel.Kconfig
