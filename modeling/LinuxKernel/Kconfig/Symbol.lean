import LinuxKernel.Kconfig.Expr

/-!
# Kconfig symbols and their properties

`struct symbol` and `struct property` of `scripts/kconfig/expr.h`, as far as the dependency check
and the calculation of values read them. A NULL expression is `none`.
-/

namespace LinuxKernel.Kconfig

inductive PropType
  | prompt
  | comment
  | menu
  | default
  | choice
  | select
  | imply
  | range
  | symbol
  deriving DecidableEq, Repr

/-- What `prop->expr` can be: nothing, an expression, an `E_RANGE` of two symbols, or the `E_LIST`
of the members of a choice. -/
inductive PropExpr (S : Type)
  | none
  | expr (e : Expr S)
  | range (left right : S)
  | list (syms : List S)
  deriving DecidableEq, Repr

structure Property (S : Type) where
  type : PropType
  visible : Option (Expr S)
  expr : PropExpr S
  deriving DecidableEq, Repr

/-- `struct symbol`, without the values and flags that change; `isChoice` and `isChoiceValue` are
`SYMBOL_CHOICE` and `SYMBOL_CHOICEVAL`. -/
structure Symbol (S : Type) where
  name : List Char
  type : SymbolType
  dirDep : Option (Expr S)
  revDep : Option (Expr S)
  implied : Option (Expr S)
  prop : List (Property S)
  isChoice : Bool
  isChoiceValue : Bool
  deriving DecidableEq, Repr

variable {S : Type}

def symGetChoiceProp (sym : Symbol S) : Option (Property S) :=
  sym.prop.find? fun p => decide (p.type = .choice)

def propGetSymbol (prop : Property S) : Option S :=
  match prop.expr with
  | .expr (.symbol s) => some s
  | _ => none

/-- `expr_list_for_each_sym` over the expression of a property. -/
def propSymbols (prop : Property S) : List S :=
  match prop.expr with
  | .list syms => syms
  | _ => []

def Expr.symbols : Expr S → List S
  | .symbol s => [s]
  | .not e => e.symbols
  | .comp _ left right => [left, right]
  | .two _ left right => left.symbols ++ right.symbols

end LinuxKernel.Kconfig
