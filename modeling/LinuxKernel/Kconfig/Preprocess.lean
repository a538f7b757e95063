import LinuxKernel.Foundation.WeakestPre

/-!
# Macro expansion in Kconfig files

`scripts/kconfig/preprocess.c`: references `$(name,arg,..)` to variables, user functions, built-in
functions and the environment.

Programs run in `PpM`: they return or fail, and leave the state in both cases. `pperror` ends the
process; `fuel` is a recursion that was cut off. The recursive call of `expand_string_with_args` is
a parameter of the functions below it, and the recursion is closed at the end.
-/

namespace LinuxKernel.Kconfig

open Foundation

abbrev Text := List Char

/-! ## State -/

inductive VariableFlavor
  | simple
  | recursive
  deriving DecidableEq, Repr

structure Variable where
  name : Text
  value : Text
  flavor : VariableFlavor
  expCount : Int
  deriving DecidableEq, Repr

/-- What expansion reads and changes: `variable_list`, `env_list`, and what `$(info)` and
`$(warning-if)` printed, the last line first. -/
structure Preprocessor where
  variableList : List Variable
  envList : List (Text × Text)
  printed : List Text
  deriving DecidableEq, Repr

inductive PpFailure
  | pperror (message : Text)
  | fuel
  deriving DecidableEq, Repr

abbrev PpM := EStateM PpFailure Preprocessor

/-- The surroundings of the preprocessor: the process environment, the current file and line, and
what `do_shell` returns for a command. -/
structure Host where
  getenv : Text → Option Text
  currentFile : Text
  yylineno : Nat
  shell : Text → Text

/-! ## Environment variables -/

def envExpand (host : Host) (name : Text) : PpM (Option Text) := do
  if name.isEmpty then pure none
  else do
    let s ← get
    match s.envList.find? (fun e => e.1 = name) with
    | some e => pure (some e.2)
    | none =>
      match host.getenv name with
      | none => pure none
      | some value => do
        set { s with envList := s.envList ++ [(name, value)] }
        pure (some value)

/-! ## Built-in functions -/

structure Function where
  name : Text
  minArgs : Nat
  maxArgs : Nat
  func : List Text → PpM Text

def printLine (line : Text) : PpM Unit := do
  let s ← get
  set { s with printed := line :: s.printed }

def doErrorIf (argv : List Text) : PpM Text :=
  if argv.getD 0 [] = ['y'] then throw (.pperror (argv.getD 1 [])) else pure []

def doInfo (argv : List Text) : PpM Text := do
  printLine (argv.getD 0 [])
  pure []

def doWarningIf (host : Host) (argv : List Text) : PpM Text := do
  onlyIf (argv.getD 0 [] = ['y'])
    (printLine (host.currentFile ++ ':' :: (toString host.yylineno).toList ++ ": ".toList ++
      argv.getD 1 []))
  pure []

def functionTable (host : Host) : List Function :=
  [⟨"error-if".toList, 2, 2, doErrorIf⟩, ⟨"filename".toList, 0, 0, fun _ => pure host.currentFile⟩,
    ⟨"info".toList, 1, 1, doInfo⟩,
    ⟨"lineno".toList, 0, 0, fun _ => pure (toString host.yylineno).toList⟩,
    ⟨"shell".toList, 1, 1, fun argv => pure (host.shell (argv.getD 0 []))⟩,
    ⟨"warning-if".toList, 2, 2, doWarningIf host⟩]

def functionExpand (host : Host) (name : Text) (argv : List Text) : PpM (Option Text) :=
  match (functionTable host).find? (fun f => f.name = name) with
  | none => pure none
  | some f =>
    if argv.length < f.minArgs then
      throw (.pperror ("too few function arguments passed to '".toList ++ name ++ "'".toList))
    else if f.maxArgs < argv.length then
      throw (.pperror ("too many function arguments passed to '".toList ++ name ++ "'".toList))
    else do
      let res ← f.func argv
      pure (some res)

/-! ## Variables and user-defined functions -/

def variableLookup (variableList : List Variable) (name : Text) : Option Nat :=
  variableList.findIdx? fun v => v.name = name

def addExpCount (variableList : List Variable) (i : Nat) (n : Int) : List Variable :=
  variableList.modify i fun v => { v with expCount := v.expCount + n }

def variableValue (expand : List Text → Text → PpM Text) (v : Variable) (argv : List Text) :
    PpM Text :=
  match v.flavor with
  | .recursive => expand argv v.value
  | .simple => pure v.value

/-- `variable_expand`; `expand` is `expand_string_with_args`. -/
def variableExpand (expand : List Text → Text → PpM Text) (name : Text) (argv : List Text) :
    PpM (Option Text) := do
  let s ← get
  match variableLookup s.variableList name with
  | none => pure none
  | some i =>
    match s.variableList[i]? with
    | none => pure none
    | some v =>
      if argv.length = 0 ∧ v.expCount ≠ 0 then
        throw (.pperror ("Recursive variable '".toList ++ name ++
          "' references itself (eventually)".toList))
      else if 1000 < v.expCount then throw (.pperror "Too deep recursive expansion".toList)
      else do
        set { s with variableList := addExpCount s.variableList i 1 }
        let res ← variableValue expand v argv
        let s ← get
        set { s with variableList := addExpCount s.variableList i (-1) }
        pure (some res)

/-! ## Clauses -/

def isSpace (c : Char) : Bool := c.toNat == 32 || decide (9 ≤ c.toNat ∧ c.toNat ≤ 13)

def strtoulDigits (n : Nat) : Text → Nat × Text
  | [] => (n, [])
  | c :: rest =>
    if c.isDigit then strtoulDigits (10 * n + (c.toNat - '0'.toNat)) rest else (n, c :: rest)

/-- `strtoul(s, &endptr, 10)` on LP64: the value and the text at `endptr`. -/
def strtoul (s : Text) : Nat × Text :=
  let p := s.dropWhile isSpace
  let negative := p.head? = some '-'
  let p := if p.head? = some '-' ∨ p.head? = some '+' then p.tail else p
  match p with
  | [] => (0, s)
  | c :: _ =>
    if c.isDigit then
      let (n, rest) := strtoulDigits 0 p
      if 2 ^ 64 ≤ n then (2 ^ 64 - 1, rest)
      else (if negative then (2 ^ 64 - n) % 2 ^ 64 else n, rest)
    else (0, s)

/-- The loop of `eval_clause` that splits a clause at the commas outside parentheses; `prev` is
the token read so far, last character first. -/
def splitClause (nest : Int) (prev : Text) : Text → List Text
  | [] => [prev.reverse]
  | c :: p =>
    if nest = 0 ∧ c = ',' then prev.reverse :: splitClause nest [] p
    else if c = '(' then splitClause (nest + 1) (c :: prev) p
    else if c = ')' then splitClause (nest - 1) (c :: prev) p
    else splitClause nest (c :: prev) p

def functionMaxArgs : Nat := 16

def expandTokens (expand : Text → PpM Text) : List Text → PpM (List Text)
  | [] => pure []
  | token :: rest => do
    let arg ← expand token
    let args ← expandTokens expand rest
    pure (arg :: args)

def lookupClause (host : Host) (expand : List Text → Text → PpM Text) (name : Text)
    (argv : List Text) : PpM Text := do
  match ← variableExpand expand name argv with
  | some res => pure res
  | none =>
    match ← functionExpand host name argv with
    | some res => pure res
    | none =>
      if argv.length = 0 then do
        let res ← envExpand host name
        pure (res.getD [])
      else pure []

/-- `eval_clause`; `argv` are the arguments of the function whose body is expanded. -/
def evalClause (host : Host) (expand : List Text → Text → PpM Text) (argv : List Text)
    (str : Text) : PpM Text :=
  let (n, endptr) := strtoul str
  if endptr = [] ∧ 0 < n ∧ n ≤ argv.length then pure (argv.getD (n - 1) [])
  else
    match splitClause 0 [] str with
    | [] => pure []
    | token :: rest =>
      if functionMaxArgs < rest.length + 1 then
        throw (.pperror "too many function arguments".toList)
      else do
        let name ← expand argv token
        let newArgv ← expandTokens (expand argv) rest
        lookupClause host expand name newArgv

/-! ## Strings -/

def closeParen (nest : Nat) : Text → Option (Text × Text)
  | [] => none
  | c :: q =>
    if c = '(' then (closeParen (nest + 1) q).map fun r => (c :: r.1, r.2) else if c = ')' then
      match nest with
      | 0 => some ([], q)
      | nest + 1 => (closeParen nest q).map fun r => (c :: r.1, r.2)
    else (closeParen nest q).map fun r => (c :: r.1, r.2)

/-- `expand_dollar_with_args`, for the text after the `$`; `clause` is `eval_clause`. Returns the
expansion and the rest of the text. -/
def expandDollar (clause : Text → PpM Text) : Text → PpM (Text × Text)
  | '(' :: p => match closeParen 0 p with
    | none =>
      throw (.pperror ("unterminated reference to '".toList ++ p ++ "': missing ')'".toList))
    | some (str, rest) => do
      let res ← clause str
      pure (res, rest)
  | p => pure (['$'], p)

/-- The loop of `__expand_string`: the expansion, and the text at the end character. -/
def expandLoop (clause : Text → PpM Text) (isEnd : Char → Bool) : Nat → Text → PpM (Text × Text)
  | 0, _ => throw .fuel
  | _ + 1, [] => pure ([], [])
  | fuel + 1, c :: p =>
    if c = '$' then do
      let (expansion, p) ← expandDollar clause p
      let (out, rest) ← expandLoop clause isEnd fuel p
      pure (expansion ++ out, rest)
    else if isEnd c then pure ([], c :: p)
    else do
      let (out, rest) ← expandLoop clause isEnd fuel p
      pure (c :: out, rest)

def expandStringWithArgs (host : Host) : Nat → List Text → Text → PpM Text
  | 0, _, _ => throw .fuel
  | fuel + 1, argv, str => do
    let (out, _) ← expandLoop (evalClause host (expandStringWithArgs host fuel) argv)
      (fun _ => false) fuel str
    pure out

def expandString (host : Host) (fuel : Nat) (str : Text) : PpM Text :=
  expandStringWithArgs host fuel [] str

end LinuxKernel.Kconfig
