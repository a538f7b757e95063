import LinuxKernel.Foundation.DepthFirst
import LinuxKernel.Kconfig.Symbol

/-!
# The check for recursive dependencies

`sym_check_deps` of `scripts/kconfig/symbol.c` searches depth-first through the expressions of the
symbols. `SYMBOL_CHECK` marks the symbols on the current path, `SYMBOL_CHECKED` those it has
entered. When it comes back to the path it prints the symbols of the cycle, for each of them with
the place of a property.
-/

namespace LinuxKernel.Kconfig

open Foundation.DepthFirst List Bool

variable {S : Type}

/-- The flags `SYMBOL_CHECK` and `SYMBOL_CHECKED`, and the symbols of the `dep_stack` from
`check_top` on. -/
structure CheckState (S : Type) where
  check : S → Bool
  checked : S → Bool
  stack : List S

/-- Why a call does not return: the depth of the recursion was bounded too low, or a NULL property
is dereferenced. -/
inductive CheckFault
  | depth
  | nullProp
  deriving DecidableEq, Repr

abbrev Check (S : Type) : Type := CheckState S → Except CheckFault (Option S × CheckState S)

section
variable [DecidableEq S]

/-- Of every symbol on the stack from `lastSym` on, a property is
printed. -/
def symCheckPrintRecursive (G : S → Symbol S) (lastSym : S) : Check S := fun st =>
  if lastSym ∈ st.stack ∧
      ((st.stack.takeWhile (· ≠ lastSym)) ++ [lastSym]).any fun s => (G s).prop.isEmpty then
    .error .nullProp
  else .ok (some lastSym, st)

def Check.orElse (first second : Check S) : Check S := fun st => do
  let (sym, st) ← first st
  match sym with
  | some sym => return (some sym, st)
  | none => second st

def Check.first : List (Check S) → Check S
  | [] => fun st => .ok (none, st)
  | c :: cs => c.orElse (Check.first cs)

section
variable (G : S → Symbol S) (symCheckDeps : S → Check S)

def symCheckExprDeps : Expr S → Check S
  | .two _ left right => (symCheckExprDeps left).orElse (symCheckExprDeps right)
  | .not e => symCheckExprDeps e
  | .comp _ left right => (symCheckDeps left).orElse (symCheckDeps right)
  | .symbol s => symCheckDeps s

def Property.checkedExprs (sym : Symbol S) (prop : Property S) : List (Expr S) :=
  if prop.type = .choice ∨ prop.type = .select ∨ prop.type = .imply then []
  else
    prop.visible.toList ++
      if prop.type ≠ .default ∨ sym.isChoice then []
      else
        match prop.expr with
        | .expr e => [e]
        | _ => []

def Symbol.checkedExprs (sym : Symbol S) : List (Expr S) :=
  sym.dirDep.toList ++ sym.revDep.toList ++ sym.implied.toList ++
    sym.prop.flatMap (Property.checkedExprs sym)

def symCheckSymDeps (s : S) : Check S := fun st => do
  let st := { st with stack := s :: st.stack }
  let (sym2, st) ← Check.first ((G s).checkedExprs.map (symCheckExprDeps symCheckDeps)) st
  return (sym2, { st with stack := st.stack.tail })

def setCheck (syms : List S) (b : Bool) (st : CheckState S) : CheckState S :=
  { st with check := fun s => if s ∈ syms then b else st.check s }

def setChecked (syms : List S) (st : CheckState S) : CheckState S :=
  { st with checked := fun s => s ∈ syms || st.checked s }

def choiceOf (s : S) : Option S := (symGetChoiceProp (G s)).bind propGetSymbol

def choiceMembers (s : S) : List S := ((symGetChoiceProp (G s)).map propSymbols).getD []

def symCheckChoiceDeps (choice : S) : Check S := fun st => do
  let members := choiceMembers G choice
  let st := { st with stack := choice :: st.stack }
  let st := setChecked members (setCheck members true st)
  let st := setChecked [choice] (setCheck [choice] true st)
  let (sym2, st) ← symCheckSymDeps G symCheckDeps choice st
  let st := setCheck [choice] false st
  let (sym2, st) ←
    match sym2 with
    | some sym2 => .ok (some sym2, st)
    | none => Check.first (members.map (symCheckSymDeps G symCheckDeps)) st
  let st := setCheck members false st
  let sym2 := sym2.map fun sym =>
    if (G sym).isChoiceValue ∧ choiceOf G sym = some choice then choice else sym
  return (sym2, { st with stack := st.stack.tail })

end

def symCheckDeps (G : S → Symbol S) : Nat → S → Check S
  | 0, _ => fun _ => .error .depth
  | depth + 1, s => fun st =>
    if st.check s then symCheckPrintRecursive G s st
    else if st.checked s then .ok (none, st)
    else if (G s).isChoiceValue then do
      let st := { st with stack := s :: st.stack }
      let (sym2, st) ←
        match choiceOf G s with
        | some choice => symCheckDeps G depth choice st
        | none => .error .nullProp
      return (sym2, { st with stack := st.stack.tail })
    else if (G s).isChoice then symCheckChoiceDeps G (symCheckDeps G depth) s st
    else do
      let st := setChecked [s] (setCheck [s] true st)
      let (sym2, st) ← symCheckSymDeps G (symCheckDeps G depth) s st
      return (sym2, setCheck [s] false st)

end

/-! ## What a call does -/

def Symbol.deps (sym : Symbol S) : List S := sym.checkedExprs.flatMap Expr.symbols

def DependsOn (G : S → Symbol S) (s t : S) : Prop := t ∈ (G s).deps

/-- What a call leaves as it was, and that it only adds `SYMBOL_CHECKED` flags. -/
structure After (st st' : CheckState S) : Prop where
  check : st'.check = st.check
  stack : st'.stack = st.stack
  checked : ∀ x, st.checked x = true → st'.checked x = true

theorem After.refl (st : CheckState S) : After st st := ⟨rfl, rfl, fun _ h => h⟩

theorem After.trans {st₁ st₂ st₃ : CheckState S} (h₁ : After st₁ st₂) (h₂ : After st₂ st₃) :
    After st₁ st₃ :=
  ⟨h₂.check.trans h₁.check, h₂.stack.trans h₁.stack, fun x hx => h₂.checked x (h₁.checked x hx)⟩

def finished (st : CheckState S) : Set S := {x | st.checked x = true ∧ st.check x = false}

variable {st : CheckState S}

theorem After.finished_subset {st' : CheckState S} (h : After st st') :
    finished st ⊆ finished st' := by
  rintro x ⟨hchecked, hcheck⟩
  exact ⟨h.checked x hchecked, by rw [h.check]; exact hcheck⟩

/-- A cycle through a symbol without properties, which cannot be printed. -/
def Unprintable (G : S → Symbol S) : Prop :=
  ∃ x, Relation.TransGen (DependsOn G) x x ∧ (G x).prop = []

/-- A call that returns leaves the path as it was, and a symbol it returns is on a cycle; if it
returns NULL, what is finished stays settled and the `targets` are finished. -/
def Returns (G : S → Symbol S) (c : Check S) (targets : List S) (st : CheckState S) : Prop :=
  (c st = .error .nullProp ∧ Unprintable G) ∨
  ∃ r st', c st = .ok (r, st') ∧ After st st' ∧
    (∀ x, r = some x → Relation.TransGen (DependsOn G) x x) ∧
    (r = none → Settled (DependsOn G) (finished st) →
      Settled (DependsOn G) (finished st') ∧ ∀ t ∈ targets, t ∈ finished st')

variable {G : S → Symbol S}

theorem Returns.orElse {c₁ c₂ : Check S} {ts₁ ts₂ : List S}
    (h₁ : Returns G c₁ ts₁ st) (h₂ : ∀ st', After st st' → Returns G c₂ ts₂ st') :
    Returns G (c₁.orElse c₂) (ts₁ ++ ts₂) st := by
  obtain ⟨herror, hx⟩ | ⟨r, st₁, hcall, hafter, hcycle, hsettled⟩ := h₁
  · refine .inl ⟨?_, hx⟩
    rw [Check.orElse, herror]
    rfl
  cases r with
  | some x =>
    refine .inr ⟨some x, st₁, ?_, hafter, hcycle, fun h => absurd h (by simp)⟩
    rw [Check.orElse, hcall]
    rfl
  | none =>
    have hthen : c₁.orElse c₂ st = c₂ st₁ := by
      rw [Check.orElse, hcall]
      rfl
    obtain ⟨herror, hx⟩ | ⟨r, st₂, hcall₂, hafter₂, hcycle₂, hsettled₂⟩ := h₂ st₁ hafter
    · exact .inl ⟨hthen.trans herror, hx⟩
    refine .inr ⟨r, st₂, hthen.trans hcall₂, hafter.trans hafter₂, hcycle₂, fun hr hst => ?_⟩
    obtain ⟨hst₁, hts₁⟩ := hsettled rfl hst
    obtain ⟨hst₂, hts₂⟩ := hsettled₂ hr hst₁
    exact ⟨hst₂, forall_mem_append.mpr ⟨fun t ht => hafter₂.finished_subset (hts₁ t ht), hts₂⟩⟩

theorem Returns.first {β : Type} {c : β → Check S} {targets : β → List S} {bs : List β}
    (h : ∀ b ∈ bs, ∀ st', After st st' → Returns G (c b) (targets b) st') :
    Returns G (Check.first (bs.map c)) (bs.flatMap targets) st := by
  induction bs generalizing st with
  | nil =>
    exact .inr ⟨none, st, rfl, After.refl st, fun _ hx => (Option.some_ne_none _ hx.symm).elim,
      fun _ hst => ⟨hst, by simp⟩⟩
  | cons b bs ih =>
    refine (h b mem_cons_self st (After.refl st)).orElse fun st' hafter => ?_
    exact ih fun b' hb' st'' hafter' => h b' (mem_cons_of_mem b hb') st'' (hafter.trans hafter')

section
variable {G : S → Symbol S}

/-- `SYMBOL_CHECK` marks the symbols on the stack, which is a path. -/
structure OnPath (G : S → Symbol S) (st : CheckState S) : Prop where
  path : IsPath (DependsOn G) st.stack
  check : ∀ x, st.check x = true ↔ x ∈ st.stack
  checked : ∀ x, st.check x = true → st.checked x = true

variable {st st' : CheckState S}

theorem OnPath.after (h : OnPath G st) (hafter : After st st') : OnPath G st' where
  path := hafter.stack ▸ h.path
  check := fun x => by rw [hafter.check, hafter.stack]; exact h.check x
  checked := fun x hx => hafter.checked x (h.checked x (hafter.check ▸ hx))

variable [DecidableEq S] {s : S}

def entered (s : S) (st : CheckState S) : CheckState S :=
  { setChecked [s] (setCheck [s] true st) with stack := s :: st.stack }

theorem OnPath.entered (h : OnPath G st)
    (hs : IsPath (DependsOn G) (s :: st.stack)) : OnPath G (entered s st) where
  path := hs
  check := fun x => by
    simp only [Kconfig.entered, setChecked, setCheck, mem_cons, ← h.check]
    split <;> simp_all
  checked := fun x hx => by
    simp only [Kconfig.entered, setChecked, setCheck, mem_singleton, or_eq_true,
      decide_eq_true_eq] at hx ⊢
    split at hx
    · exact .inl ‹_›
    · exact .inr (h.checked x hx)

def left (s : S) (st : CheckState S) : CheckState S :=
  setCheck [s] false { st with stack := st.stack.tail }

theorem After.left (hcheck : st.check s = false)
    (h : After (entered s st) st') : After st (left s st') where
  check := by
    ext x
    simp only [Kconfig.left, setCheck, h.check, entered, setChecked, mem_singleton]
    by_cases hx : x = s
    · simp [hx, hcheck]
    · simp [hx]
  stack := by
    simp only [Kconfig.left, setCheck, h.stack, entered]
    rfl
  checked := fun x hx => h.checked x (by simp [entered, setChecked, setCheck, hx])

variable {depth : Nat}

variable [Fintype S]

section
variable (hchoice : ∀ s, (G s).isChoice = false ∧ (G s).isChoiceValue = false)
include hchoice

end

def CheckState.init : CheckState S := ⟨fun _ => false, fun _ => false, []⟩

end

end LinuxKernel.Kconfig
