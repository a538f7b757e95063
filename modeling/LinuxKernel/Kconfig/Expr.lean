import Mathlib

/-!
# Kconfig symbols, expressions and their values

The expression trees of `scripts/kconfig/expr.h` without the list and range nodes, the symbols
they refer to, and `expr_calc_value`.

Symbols are an arbitrary type `S`; comparing two symbol pointers is comparing two elements of `S`.
A symbol table says what is fixed about the symbols, a valuation what `sym_calc_value` makes of
their current values.
-/

namespace LinuxKernel.Kconfig

/-! ## Tristate values -/

inductive Tristate
  | no
  | mod
  | yes
  deriving DecidableEq, Repr

namespace Tristate

def toNat : Tristate → Nat
  | no => 0
  | mod => 1
  | yes => 2

def or (a b : Tristate) : Tristate := if b.toNat < a.toNat then a else b

def and (a b : Tristate) : Tristate := if a.toNat < b.toNat then a else b

def not : Tristate → Tristate
  | no => yes
  | mod => mod
  | yes => no

def toStr : Tristate → List Char
  | no => ['n']
  | mod => ['m']
  | yes => ['y']

end Tristate

inductive LogOp
  | or
  | and
  deriving DecidableEq, Repr

variable (op : LogOp) (a : Tristate)

namespace LogOp

def eval : LogOp → Tristate → Tristate → Tristate
  | or => Tristate.or
  | and => Tristate.and

def neutral : LogOp → Tristate
  | or => .no
  | and => .yes

theorem eval_comm (a b : Tristate) : op.eval a b = op.eval b a := by
  cases op <;> cases a <;> cases b <;> rfl

theorem eval_assoc (a b c : Tristate) : op.eval (op.eval a b) c = op.eval a (op.eval b c) := by
  cases op <;> cases a <;> cases b <;> cases c <;> rfl

theorem eval_left_comm (a b c : Tristate) : op.eval a (op.eval b c) = op.eval b (op.eval a c) := by
  cases op <;> cases a <;> cases b <;> cases c <;> rfl

@[simp] theorem eval_neutral_left : op.eval op.neutral a = a := by
  cases op <;> cases a <;> rfl

@[simp] theorem eval_neutral_right : op.eval a op.neutral = a := by
  cases op <;> cases a <;> rfl

@[simp] theorem eval_self : op.eval a a = a := by
  cases op <;> cases a <;> rfl

end LogOp

/-! ## Symbols -/

inductive SymbolType
  | unknown
  | boolean
  | tristate
  | int
  | hex
  | string
  deriving DecidableEq, Repr

/-- What is fixed about the symbols of a configuration. `symbol .yes`, `symbol .mod` and
`symbol .no` are `symbol_yes`, `symbol_mod` and `symbol_no`. Any other constant was made by
`sym_lookup(.., SYMBOL_CONST)`, which leaves its type `S_UNKNOWN`. -/
structure Symtab (S : Type) where
  name : S → List Char
  type : S → SymbolType
  const : S → Bool
  symbol : Tristate → S
  symbol_injective : ∀ u v, symbol u = symbol v → u = v
  name_symbol : ∀ v, name (symbol v) = v.toStr
  type_symbol : ∀ v, type (symbol v) = .tristate
  const_symbol : ∀ v, const (symbol v) = true
  type_const : ∀ s, const s = true → (∃ v, s = symbol v) ∨ type s = .unknown

/-- An assignment of current values (`sym->curr.tri`, `sym->curr.val`) to the symbols. Bool symbols
are `n` or `y`, and a symbol without a type has its own name as value. -/
structure Valuation {S : Type} (T : Symtab S) where
  tri : S → Tristate
  val : S → List Char
  tri_symbol : ∀ v, tri (T.symbol v) = v
  tri_boolean : ∀ s, T.type s = .boolean → tri s ≠ .mod
  tri_unknown : ∀ s, T.type s = .unknown → tri s = .no
  val_unknown : ∀ s, T.type s = .unknown → val s = T.name s

variable {S : Type} {T : Symtab S}

def symGetStringValue (ρ : Valuation T) (s : S) : List Char :=
  match T.type s with
  | .boolean => (ρ.tri s).toStr
  | .tristate => (ρ.tri s).toStr
  | _ => ρ.val s

/-! ## Comparing two values -/

def isspace (c : Char) : Bool := c == ' ' || (9 ≤ c.toNat && c.toNat ≤ 13)

def digitValue (c : Char) : Nat :=
  if '0' ≤ c ∧ c ≤ '9' then c.toNat - '0'.toNat
  else if 'a' ≤ c ∧ c ≤ 'z' then c.toNat - 'a'.toNat + 10
  else if 'A' ≤ c ∧ c ≤ 'Z' then c.toNat - 'A'.toNat + 10
  else 36

def isxdigit (c : Char) : Bool := digitValue c < 16

/-- What `strtoll` and `strtoull` read: the sign, the absolute value before any range check, the
digits it was read from and the text after them (`*tail`). -/
structure Strto where
  negative : Bool
  magnitude : Nat
  digits : List Char
  tail : List Char

def strtoSign : List Char → Bool × List Char
  | '-' :: s => (true, s)
  | '+' :: s => (false, s)
  | s => (false, s)

def strtoBase (base : Nat) : List Char → Nat × List Char
  | '0' :: x :: d :: s =>
    if (base = 0 ∨ base = 16) ∧ (x = 'x' ∨ x = 'X') ∧ isxdigit d then (16, d :: s)
    else (if base = 0 then 8 else base, '0' :: x :: d :: s)
  | '0' :: s => (if base = 0 then 8 else base, '0' :: s)
  | s => (if base = 0 then 10 else base, s)

def strto (base : Nat) (str : List Char) : Strto :=
  let (negative, s) := strtoSign (str.dropWhile isspace)
  let (base, s) := strtoBase base s
  let digits := s.takeWhile (fun c => digitValue c < base)
  { negative := negative
    magnitude := digits.foldl (fun n c => n * base + digitValue c) 0
    digits := digits
    -- without any digit nothing is converted and `tail` stays at the start
    tail := if digits = [] then str else s.dropWhile (fun c => digitValue c < base) }

inductive StringValueKind
  | kString
  | kSigned
  | kUnsigned
  deriving DecidableEq, Repr

/-- The last test of `expr_parse_string`: no `errno`, all of the text read, and at least one digit
read, the last of them hexadecimal. -/
def parsedKind (r : Strto) (erange : Bool) (kind : StringValueKind) : StringValueKind :=
  if !erange && r.tail.isEmpty && r.digits.getLast?.any isxdigit then kind else .kString

/-- `expr_parse_string`; the `union string_value` is its 64 bits. -/
def exprParseString (str : List Char) : SymbolType → StringValueKind × BitVec 64
  | .boolean | .tristate =>
    (.kSigned, if str = ['n'] then 0 else if str = ['m'] then 1 else if str = ['y'] then 2 else -1)
  | .hex =>
    let r := strto 16 str
    let v := BitVec.ofNat 64 r.magnitude
    (parsedKind r (2 ^ 64 ≤ r.magnitude) .kUnsigned, if r.negative then -v else v)
  | type =>
    let r := strto (if type = .int then 10 else 0) str
    let v : Int := if r.negative then -r.magnitude else r.magnitude
    (parsedKind r (v < -2 ^ 63 ∨ 2 ^ 63 ≤ v) .kSigned, BitVec.ofInt 64 v)

def strcmp : List Char → List Char → Int
  | [], [] => 0
  | [], _ :: _ => -1
  | _ :: _, [] => 1
  | a :: s, b :: t => if a = b then strcmp s t else a.toNat - b.toNat

def signOf (a b : Int) : Int := (if a > b then 1 else 0) - (if a < b then 1 else 0)

def compareValues (t1 : SymbolType) (str1 : List Char) (t2 : SymbolType) (str2 : List Char) : Int :=
  let (k1, lval) := if t1 ≠ .string ∨ t2 ≠ .string then exprParseString str1 t1 else (.kString, 0)
  let (k2, rval) := if t1 ≠ .string ∨ t2 ≠ .string then exprParseString str2 t2 else (.kString, 0)
  if k1 = .kString ∨ k2 = .kString then strcmp str1 str2
  else if k1 = .kUnsigned ∨ k2 = .kUnsigned then signOf lval.toNat rval.toNat
  else signOf lval.toInt rval.toInt

/-! ## Expressions -/

inductive Rel
  | equal
  | geq
  | gth
  | leq
  | lth
  | unequal
  deriving DecidableEq, Repr

def Rel.holds (res : Int) : Rel → Bool
  | equal => res = 0
  | geq => 0 ≤ res
  | gth => 0 < res
  | leq => res ≤ 0
  | lth => res < 0
  | unequal => res ≠ 0

/-- `struct expr`: `E_SYMBOL`, `E_NOT`, the comparisons, and `E_OR` and `E_AND`. -/
inductive Expr (S : Type)
  | symbol (s : S)
  | not (e : Expr S)
  | comp (rel : Rel) (left right : S)
  | two (op : LogOp) (left right : Expr S)
  deriving DecidableEq, Repr

def triOf (b : Bool) : Tristate := if b then .yes else .no

def exprCalcValue (ρ : Valuation T) : Expr S → Tristate
  | .symbol s => ρ.tri s
  | .not e => (exprCalcValue ρ e).not
  | .comp rel l r =>
    triOf (rel.holds (compareValues (T.type l) (symGetStringValue ρ l)
      (T.type r) (symGetStringValue ρ r)))
  | .two op l r => op.eval (exprCalcValue ρ l) (exprCalcValue ρ r)

end LinuxKernel.Kconfig
