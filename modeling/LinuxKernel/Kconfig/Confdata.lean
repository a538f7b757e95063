import LinuxKernel.Kconfig.Expr
import LinuxKernel.Kconfig.Preprocess

/-!
# Writing and reading `.config`

`print_symbol_for_dotconfig` and `conf_read_simple(name, S_DEF_USER)` of
`scripts/kconfig/confdata.c`.

A symbol table holds what is fixed about the symbols; a symbol pointer is a position in it. The
values `sym->curr`, `sym->def[S_DEF_USER]` and the flag `SYMBOL_DEF_USER` are functions of the
position. Texts are C strings and hold no NUL.
-/

namespace LinuxKernel.Kconfig

/-! ## Symbols -/

structure SymbolInfo where
  /-- `NULL` for a choice without a name -/
  name : Option Text
  type : SymbolType
  /-- `SYMBOL_CONST` -/
  isConst : Bool := false
  /-- `SYMBOL_CHOICE` -/
  isChoice : Bool := false
  /-- for a choice value, the symbol of its choice -/
  choice : Option Nat := none
  deriving DecidableEq, Repr

/-- A name as it stands in a configuration file: it holds no blank, no `=` and no line end, and is
none of the constants `y`, `m` and `n`. -/
def SymbolName (name : Text) : Prop :=
  ' ' ∉ name ∧ '=' ∉ name ∧ '\n' ∉ name ∧ name ≠ ['y'] ∧ name ≠ ['m'] ∧ name ≠ ['n']

/-- `symbol_hash`, as one list: at most one symbol that is no constant has a given name, and the
values of a choice refer to the symbol of a choice. -/
structure SymbolTable where
  infos : List SymbolInfo
  unique : ∀ (i j : Nat) (si sj : SymbolInfo), infos[i]? = some si → infos[j]? = some sj →
    si.isConst = false → sj.isConst = false → si.name ≠ none → si.name = sj.name → i = j
  choices : ∀ (i : Nat) (si : SymbolInfo) (cs : Nat), infos[i]? = some si → si.choice = some cs →
    ∃ sc, infos[cs]? = some sc ∧ sc.isChoice = true

structure CurrValue where
  val : Text := []
  tri : Tristate := .no
  deriving DecidableEq, Repr

/-- What `sym->def[S_DEF_USER].val` points to. -/
inductive DefVal
  | text (s : Text)
  | symbol (i : Nat)
  deriving DecidableEq, Repr

structure DefUser where
  val : Option DefVal := none
  tri : Tristate := .no
  flag : Bool := false
  deriving DecidableEq, Repr

def isXDigit (c : Char) : Bool :=
  c.isDigit || decide ('a' ≤ c ∧ c ≤ 'f') || decide ('A' ≤ c ∧ c ≤ 'F')

def symStringValid (type : SymbolType) (str : Text) : Bool :=
  match type with
  | .string => true
  | .int =>
    let digits := if str.head? = some '-' then str.tail else str
    match digits with
    | [] => false
    | ch :: rest => ch.isDigit && !(ch == '0' && !rest.isEmpty) && rest.all Char.isDigit
  | .hex =>
    let digits := if str.head? = some '0' ∧ (str.tail.head? = some 'x' ∨ str.tail.head? = some 'X')
      then str.tail.tail else str
    !digits.isEmpty && digits.all isXDigit
  | .boolean | .tristate =>
    match str with
    | [] => false
    | c :: _ => c == 'y' || c == 'Y' || c == 'm' || c == 'M' || c == 'n' || c == 'N'
  | .unknown => false

/-- A position, one of the constants `y`, `m` and `n` (`some none`), whose own user values
are not followed, or `NULL`. -/
def symFind (table : SymbolTable) (name : Text) : Option (Option Nat) :=
  if name = ['y'] ∨ name = ['m'] ∨ name = ['n'] then some none
  else (table.infos.findIdx? fun si => si.name = some name ∧ si.isConst = false).map some

/-! ## Writing -/

def configText : Text := "CONFIG_".toList

def escapeStringValue (str : Text) : Text :=
  '"' :: str.flatMap (fun c => if c = '"' ∨ c = '\\' then ['\\', c] else [c]) ++ ['"']

def CurrValue.toText (type : SymbolType) (curr : CurrValue) : Text := match type with
  | .boolean | .tristate => curr.tri.toStr
  | _ => curr.val

def printSymbolForDotconfig (type : SymbolType) (name : Text) (curr : CurrValue) : Text :=
  let val := curr.toText type
  if type = .unknown then []
  else if (type = .boolean ∨ type = .tristate) ∧ val.head? = some 'n' then
    "# ".toList ++ configText ++ name ++ " is not set\n".toList
  else
    configText ++ name ++ '=' :: (if type = .string then escapeStringValue val else val) ++ ['\n']

def printSymbols (table : SymbolTable) (curr : Nat → CurrValue) (written : List Nat) : Text :=
  written.flatMap fun i =>
    match table.infos[i]? with
    | some si => printSymbolForDotconfig si.type (si.name.getD []) (curr i)
    | none => []

/-! ## Reading -/

/-- What `conf_read_simple` changes: the user values, and the warnings, last one first. -/
structure ConfState where
  defs : Nat → DefUser
  warnings : List Text
  /-- `conf_set_changed(true)` was called -/
  changed : Bool

/-- The lines `compat_getline` returns, each with its line end; `cur` is the line read so far, last
character first. -/
def fileLines (cur : Text) : Text → List Text
  | [] => if cur = [] then [] else [cur.reverse]
  | c :: rest =>
    if c = '\n' then (c :: cur).reverse :: fileLines [] rest else fileLines (c :: cur) rest

def strchr (ch : Char) : Text → Option (Text × Text)
  | [] => none
  | c :: rest =>
    if c = ch then some ([], rest) else (strchr ch rest).map fun r => (c :: r.1, r.2)

def afterConfig (text : Text) : Option Text :=
  if configText.isPrefixOf text then some (text.drop configText.length) else none

def confWarning (message : Text) (s : ConfState) : ConfState :=
  { s with warnings := message :: s.warnings }

def setDef (i : Nat) (d : DefUser) (s : ConfState) : ConfState :=
  { s with defs := Function.update s.defs i d }

def setTri (i : Nat) (tri : Tristate) (s : ConfState) : ConfState :=
  setDef i { s.defs i with tri := tri, flag := true } s

/-- The loop that removes the escaping backslashes, up to the closing quote; `none` if there is
none. A backslash at the end of the line, after which the source reads on behind the line, counts
as a missing quote. -/
def unescape : Text → Option Text
  | [] => none
  | c :: rest =>
    if c = '"' then some []
    else if c = '\\' then
      match rest with
      | [] => none
      | c' :: rest' => (unescape rest').map (c' :: ·)
    else (unescape rest).map (c :: ·)

def confSetString (si : SymbolInfo) (i : Nat) (p : Text) (s : ConfState) : ConfState × Bool :=
  if symStringValid si.type p then
    (setDef i { s.defs i with val := some (.text p), flag := true } s, true)
  else
    (confWarning ("symbol value '".toList ++ p ++ "' invalid for ".toList ++ si.name.getD []) s,
      false)

/-- `conf_set_sym_val`; the second component is false if it returns 1. -/
def confSetSymVal (si : SymbolInfo) (i : Nat) (p : Text) (s : ConfState) : ConfState × Bool :=
  match si.type with
  | .boolean | .tristate =>
    if si.type = .tristate ∧ p.head? = some 'm' then (setTri i .mod s, true)
    else if p.head? = some 'y' then (setTri i .yes s, true)
    else if p.head? = some 'n' then (setTri i .no s, true)
    else
      (confWarning ("symbol value '".toList ++ p ++ "' invalid for ".toList ++ si.name.getD []) s,
        false)
  | .string =>
    if p.head? = some '"' then
      match unescape p.tail with
      | none => (confWarning "invalid string found".toList s, false)
      | some p => confSetString si i p s
    else (s, true)
  | .int | .hex => confSetString si i p s
  | .unknown => (s, true)

def confSetChoice (si : SymbolInfo) (i cs : Nat) (s : ConfState) : ConfState :=
  let name := si.name.getD []
  let s := match (s.defs i).tri with
    | .no => s
    | .mod =>
      if (s.defs cs).tri = .yes then
        confWarning (name ++ " creates inconsistent choice state".toList)
          (setDef cs { s.defs cs with flag := false } s)
      else s
    | .yes =>
      let s := if (s.defs cs).tri ≠ .no then
        confWarning ("override: ".toList ++ name ++ " changes choice state".toList) s else s
      setDef cs { s.defs cs with val := some (.symbol i) } s
  setDef cs { s.defs cs with tri := (s.defs cs).tri.or (s.defs i).tri } s

def confChoiceValue (si : SymbolInfo) (i : Nat) (s : ConfState) : ConfState :=
  match si.choice with
  | none => s
  | some cs => confSetChoice si i cs s

def warnReassign (si : SymbolInfo) (i : Nat) (s : ConfState) : ConfState :=
  if (s.defs i).flag then
    confWarning ("override: reassigning to symbol ".toList ++ si.name.getD []) s
  else s

def unknownSymbol (warnUnknown : Bool) (name : Text) (s : ConfState) : ConfState :=
  let s := if warnUnknown then confWarning ("unknown symbol: ".toList ++ name) s else s
  { s with changed := true }

def readComment (table : SymbolTable) (warnUnknown : Bool) (line : Text) (s : ConfState) :
    ConfState :=
  match afterConfig (line.drop 2) with
  | none => s
  | some text =>
    match strchr ' ' text with
    | none => s
    | some (name, p) =>
      if "is not set".toList.isPrefixOf p then
        match symFind table name with
        | none => unknownSymbol warnUnknown name s
        | some none => s
        | some (some i) =>
          match table.infos[i]? with
          | none => s
          | some si =>
            let s := warnReassign si i s
            let s := if si.type = .boolean ∨ si.type = .tristate then setTri i .no s else s
            confChoiceValue si i s
      else s

def stripLineEnd (p : Text) : Text :=
  match strchr '\n' p with
  | none => p
  | some (value, _) => if value.getLast? = some '\r' then value.dropLast else value

def readAssignment (table : SymbolTable) (warnUnknown : Bool) (text : Text) (s : ConfState) :
    ConfState :=
  match strchr '=' text with
  | none => s
  | some (name, p) =>
    match symFind table name with
    | none => unknownSymbol warnUnknown name s
    | some none => s
    | some (some i) =>
      match table.infos[i]? with
      | none => s
      | some si =>
        let r := confSetSymVal si i (stripLineEnd p) (warnReassign si i s)
        if r.2 then confChoiceValue si i r.1 else r.1

def readLine (table : SymbolTable) (warnUnknown : Bool) (s : ConfState) (line : Text) : ConfState :=
  if line.head? = some '#' then readComment table warnUnknown line s
  else
    match afterConfig line with
    | some text => readAssignment table warnUnknown text s
    | none =>
      if line.head? ≠ some '\r' ∧ line.head? ≠ some '\n' then
        confWarning ("unexpected data: ".toList ++ line.takeWhile (fun c => c ≠ '\r' ∧ c ≠ '\n')) s
      else s

def resetDefs (table : SymbolTable) (i : Nat) : DefUser :=
  { flag := match table.infos[i]? with
      | some si => si.isChoice
      | none => false }

/-- `conf_read_simple(name, S_DEF_USER)`, for the contents of the file; with `KCONFIG_WERROR` the
caller exits if there are warnings. -/
def confReadSimple (table : SymbolTable) (warnUnknown : Bool) (file : Text) : ConfState :=
  (fileLines [] file).foldl (readLine table warnUnknown)
    { defs := resetDefs table, warnings := [], changed := false }

end LinuxKernel.Kconfig
