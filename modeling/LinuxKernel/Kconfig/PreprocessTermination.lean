import LinuxKernel.Foundation.Fuel
import LinuxKernel.Kconfig.Preprocess

/-!
# Macro expansion ends

Expansion goes down into the text of a reference, which is shorter than the text around it, or into
the value of a variable, whose `exp_count` then is one larger than before. No `exp_count` passes
1001. So the nesting is bounded by what is left of all counters together and by the longest value.

`Ends` says that a program started with given variables returns and leaves them as they were, or
stops with `pperror`.
-/

namespace LinuxKernel.Kconfig

open Foundation List
open CutOff hiding ite

/-- Started with the variables `vs`, the program returns a value with `P` and leaves the same
variables, or stops with `pperror`. -/
def Ends {α : Type} (vs : List Variable) (x : PpM α) (P : α → Prop) : Prop :=
  ∀ s, s.variableList = vs → wp x (fun a s' => s'.variableList = vs ∧ P a) (fun e _ => e ≠ .fuel) s

section
variable {α β : Type} {vs : List Variable} {P : α → Prop} {R : β → Prop}

theorem Ends.pure {a : α} (h : P a) : Ends vs (pure a) P := fun _ hs => ⟨hs, h⟩

theorem Ends.pperror {message : Text} : Ends vs (throw (.pperror message) : PpM α) P := by
  intro s _
  simp

theorem Ends.bind {x : PpM β} {f : β → PpM α} (hx : Ends vs x R)
    (hf : ∀ b, R b → Ends vs (f b) P) : Ends vs (x >>= f) P :=
  fun s hs => wp_seq (hx s hs) fun b s' h => hf b h.2 s' h.1

theorem Ends.ite {c : Prop} [Decidable c] {x y : PpM α} (hx : c → Ends vs x P)
    (hy : ¬c → Ends vs y P) : Ends vs (if c then x else y) P := by
  split
  · exact hx ‹_›
  · exact hy ‹_›

theorem Ends.get_bind {f : Preprocessor → PpM α} (h : ∀ s, s.variableList = vs →
      wp (f s) (fun a s' => s'.variableList = vs ∧ P a) (fun e _ => e ≠ .fuel) s) :
    Ends vs (get >>= f) P :=
  fun s hs => wp_get_bind (h s hs)

end

/-! ## Leaves -/

section
variable (host : Host) {vs : List Variable}

theorem ends_envExpand (name : Text) : Ends vs (envExpand host name) fun _ => True := by
  apply Ends.ite (fun _ => Ends.pure trivial)
  intro _
  apply Ends.get_bind
  intro s hs
  cases s.envList.find? (fun e => e.1 = name) with
  | some e => exact ⟨hs, trivial⟩
  | none =>
    cases host.getenv name with
    | none | some value => exact ⟨hs, trivial⟩

theorem ends_printLine (line : Text) : Ends vs (printLine line) fun _ => True :=
  Ends.get_bind fun _ hs => ⟨hs, trivial⟩

theorem ends_function {f : Function} (hf : f ∈ functionTable host) (argv : List Text) :
    Ends vs (f.func argv) fun _ => True := by
  simp only [functionTable, mem_cons, not_mem_nil, or_false] at hf
  rcases hf with rfl | rfl | rfl | rfl | rfl | rfl
  · exact Ends.ite (fun _ => Ends.pperror) fun _ => Ends.pure trivial
  · exact Ends.pure trivial
  · exact Ends.bind (ends_printLine _) fun _ _ => Ends.pure trivial
  · exact Ends.pure trivial
  · exact Ends.pure trivial
  · apply Ends.bind
    · intro s hs
      exact wp_onlyIf (fun _ => ends_printLine _ s hs) fun _ => ⟨hs, trivial⟩
    · exact fun _ _ => Ends.pure trivial

theorem ends_functionExpand (name : Text) (argv : List Text) :
    Ends vs (functionExpand host name argv) fun _ => True := by
  unfold functionExpand
  cases hfind : (functionTable host).find? (fun f => f.name = name) with
  | none => exact Ends.pure trivial
  | some f =>
    apply Ends.ite (fun _ => Ends.pperror)
    intro _
    apply Ends.ite (fun _ => Ends.pperror)
    intro _
    apply Ends.bind (ends_function host (mem_of_find?_eq_some hfind) argv)
    exact fun _ _ => Ends.pure trivial

end

/-! ## Texts get shorter -/

theorem length_closeParen {nest : Nat} {q str rest : Text}
    (h : closeParen nest q = some (str, rest)) : str.length + rest.length + 1 ≤ q.length := by
  have hcons : ∀ {nest : Nat} {c : Char} {q : Text},
      (∀ {str rest : Text}, closeParen nest q = some (str, rest) →
        str.length + rest.length + 1 ≤ q.length) →
      ∀ {str rest : Text}, (closeParen nest q).map (fun r => (c :: r.1, r.2)) = some (str, rest) →
        str.length + rest.length + 1 ≤ q.length + 1 := by
    intro nest c q ih str rest h
    obtain ⟨r, hr, heq⟩ := Option.map_eq_some_iff.mp h
    have hlen := ih hr
    simp only [Prod.mk.injEq] at heq
    rw [← heq.1, ← heq.2, length_cons]
    omega
  induction q generalizing nest str rest with
  | nil => simp [closeParen] at h
  | cons c q ih =>
    unfold closeParen at h
    split at h
    · exact hcons ih h
    split at h
    · cases nest with
      | zero =>
        simp only [Option.some.injEq, Prod.mk.injEq] at h
        simp [← h.1, ← h.2]
      | succ nest => exact hcons ih h
    · exact hcons ih h

theorem length_of_mem_splitClause {nest : Int} {prev p token : Text}
    (h : token ∈ splitClause nest prev p) : token.length ≤ prev.length + p.length := by
  induction p generalizing nest prev with
  | nil =>
    simp only [splitClause, mem_singleton] at h
    simp [h]
  | cons c p ih =>
    rw [length_cons]
    have hrest : ∀ {nest : Int}, token ∈ splitClause nest (c :: prev) p →
        token.length ≤ prev.length + (p.length + 1) := by
      intro nest h
      have hlen := ih h
      rw [length_cons] at hlen
      omega
    unfold splitClause at h
    split at h
    · rcases mem_cons.mp h with rfl | h
      · rw [length_reverse]
        omega
      · have hlen := ih h
        rw [length_nil] at hlen
        omega
    · split at h
      · exact hrest h
      · split at h
        · exact hrest h
        · exact hrest h

/-! ## What is left of the counters -/

/-- How often variables can still be entered. -/
def expBudget (vs : List Variable) : Nat := (vs.map fun v => (1001 - v.expCount).toNat).sum

def longestValue (vs : List Variable) : Nat := vs.foldr (fun v n => max v.value.length n) 0

variable {vs : List Variable} {v : Variable}

theorem length_le_longestValue (hv : v ∈ vs) : v.value.length ≤ longestValue vs := by
  induction vs with
  | nil => simp at hv
  | cons w vs ih =>
    rcases mem_cons.mp hv with rfl | hv
    · exact Nat.le_max_left _ _
    · exact (ih hv).trans (Nat.le_max_right _ _)

theorem longestValue_addExpCount (vs : List Variable) (i : Nat) (n : Int) :
    longestValue (addExpCount vs i n) = longestValue vs := by
  induction vs generalizing i with
  | nil => simp [addExpCount]
  | cons w vs ih =>
    cases i with
    | zero => rfl
    | succ i => exact congrArg (max w.value.length) (ih i)

theorem expBudget_addExpCount {i : Nat} (hv : vs[i]? = some v)
    (hcount : v.expCount ≤ 1000) : expBudget (addExpCount vs i 1) + 1 = expBudget vs := by
  induction vs generalizing i with
  | nil => simp at hv
  | cons w vs ih =>
    cases i with
    | zero =>
      obtain rfl : w = v := by simpa using hv
      simp only [expBudget, addExpCount, modify_zero_cons, map_cons, sum_cons]
      omega
    | succ i =>
      have hrest := ih (by simpa using hv)
      simp only [expBudget, addExpCount, modify_succ_cons, map_cons, sum_cons] at hrest ⊢
      omega

theorem addExpCount_cancel (vs : List Variable) (i : Nat) :
    addExpCount (addExpCount vs i 1) i (-1) = vs := by
  unfold addExpCount
  rw [modify_modify_eq]
  have hid : (fun v : Variable => { v with expCount := v.expCount + -1 }) ∘
      (fun v : Variable => { v with expCount := v.expCount + 1 }) = id := by
    funext v
    simp
  rw [hid, modify_id]

/-! ## Expansion -/

section
variable (host : Host) {vs : List Variable} {expand : List Text → Text → PpM Text}

section
variable (name : Text) (argv : List Text)
    (hexpand : ∀ i v, vs[i]? = some v → v.expCount ≤ 1000 →
    Ends (addExpCount vs i 1) (expand argv v.value) fun _ => True)
include name argv hexpand

theorem ends_variableExpand : Ends vs (variableExpand expand name argv) fun _ => True := by
  apply Ends.get_bind
  intro s hs
  rw [hs]
  cases variableLookup vs name with
  | none => exact ⟨hs, trivial⟩
  | some i =>
    dsimp only
    cases hv : vs[i]? with
    | none => exact ⟨hs, trivial⟩
    | some v =>
      dsimp only
      split
      · simp
      split
      · simp
      next hcount =>
        have hvalue : Ends (addExpCount vs i 1) (variableValue expand v argv) fun _ => True := by
          unfold variableValue
          cases v.flavor with
          | recursive => exact hexpand i v hv (by omega)
          | simple => exact Ends.pure trivial
        apply wp_set_bind
        apply wp_seq (hvalue _ rfl)
        intro res s' hs'
        apply wp_get_bind
        apply wp_set_bind
        refine ⟨?_, trivial⟩
        dsimp only
        rw [hs'.1, addExpCount_cancel]

theorem ends_lookupClause : Ends vs (lookupClause host expand name argv) fun _ => True := by
  apply Ends.bind (ends_variableExpand name argv hexpand)
  intro res _
  cases res with
  | some res => exact Ends.pure trivial
  | none =>
    apply Ends.bind (ends_functionExpand host name argv)
    intro res _
    cases res with
    | some res => exact Ends.pure trivial
    | none =>
      apply Ends.ite _ fun _ => Ends.pure trivial
      exact fun _ => Ends.bind (ends_envExpand host name) fun _ _ => Ends.pure trivial

end

theorem ends_expandTokens {f : Text → PpM Text} (tokens : List Text)
    (hf : ∀ token ∈ tokens, Ends vs (f token) fun _ => True) :
    Ends vs (expandTokens f tokens) fun _ => True := by
  induction tokens with
  | nil => exact Ends.pure trivial
  | cons token rest ih =>
    apply Ends.bind (hf token mem_cons_self)
    intro arg _
    apply Ends.bind (ih fun t ht => hf t (mem_cons_of_mem _ ht))
    exact fun args _ => Ends.pure trivial

theorem ends_evalClause (argv : List Text) (str : Text)
    (htoken : ∀ token : Text, token.length ≤ str.length → Ends vs (expand argv token) fun _ => True)
    (hexpand : ∀ i v, vs[i]? = some v → v.expCount ≤ 1000 → ∀ argv,
      Ends (addExpCount vs i 1) (expand argv v.value) fun _ => True) :
    Ends vs (evalClause host expand argv str) fun _ => True := by
  have hlen : ∀ token ∈ splitClause 0 [] str, token.length ≤ str.length := by
    intro token ht
    simpa using length_of_mem_splitClause ht
  apply Ends.ite (fun _ => Ends.pure trivial)
  intro _
  cases hsplit : splitClause 0 [] str with
  | nil => exact Ends.pure trivial
  | cons token rest =>
    rw [hsplit] at hlen
    apply Ends.ite (fun _ => Ends.pperror)
    intro _
    apply Ends.bind (htoken token (hlen token mem_cons_self))
    intro name _
    apply Ends.bind (ends_expandTokens rest fun t ht => htoken t (hlen t (mem_cons_of_mem _ ht)))
    intro newArgv _
    exact ends_lookupClause host name newArgv fun i v hv hcount => hexpand i v hv hcount newArgv

variable {clause : Text → PpM Text}

theorem ends_expandDollar (p : Text)
    (hclause : ∀ str : Text, str.length + 2 ≤ p.length → Ends vs (clause str) fun _ => True) :
    Ends vs (expandDollar clause p) fun r => r.2.length ≤ p.length := by
  unfold expandDollar
  split
  next p =>
    cases hclose : closeParen 0 p with
    | none => exact Ends.pperror
    | some r =>
      have hlen := length_closeParen hclose
      rw [length_cons] at hclause ⊢
      apply Ends.bind (hclause r.1 (by omega))
      exact fun res _ => Ends.pure (by dsimp only; omega)
  · exact Ends.pure le_rfl

variable {fuel : Nat}

theorem ends_expandLoop (isEnd : Char → Bool) {p : Text} (hfuel : p.length + 1 ≤ fuel)
    (hclause : ∀ str : Text, str.length + 2 ≤ p.length → Ends vs (clause str) fun _ => True) :
    Ends vs (expandLoop clause isEnd fuel p) fun _ => True := by
  induction fuel generalizing p with
  | zero => omega
  | succ fuel ih =>
    cases p with
    | nil => exact Ends.pure trivial
    | cons c p =>
      rw [length_cons] at hfuel hclause
      apply Ends.ite
      · intro _
        apply Ends.bind (ends_expandDollar p fun str hstr => hclause str (by omega))
        intro r hr
        apply Ends.bind (ih (by omega) fun str hstr => hclause str (by omega))
        exact fun _ _ => Ends.pure trivial
      · intro _
        apply Ends.ite (fun _ => Ends.pure trivial)
        intro _
        apply Ends.bind (ih (by omega) fun str hstr => hclause str (by omega))
        exact fun _ _ => Ends.pure trivial

/-- How deep the expansion of a text can go. -/
def expandDepth (vs : List Variable) (str : Text) : Nat :=
  expBudget vs * (longestValue vs + 2) + str.length + 2

/-- The induction on the depth: a token of a reference is shorter than the text, and a value starts
over with one entry of the budget gone. -/
theorem ends_expandStringWithArgs (argv : List Text) (str : Text)
    (hfuel : expandDepth vs str ≤ fuel) :
    Ends vs (expandStringWithArgs host fuel argv str) fun _ => True := by
  induction fuel generalizing vs argv str with
  | zero => simp [expandDepth] at hfuel
  | succ fuel ih =>
    unfold expandDepth at hfuel ih
    have hloop : Ends vs (expandLoop (evalClause host (expandStringWithArgs host fuel) argv)
        (fun _ => false) fuel str) fun _ => True := by
      apply ends_expandLoop _ (by omega)
      intro clause hclause
      apply ends_evalClause
      · intro token htoken
        exact ih argv token (by omega)
      intro i v hv hcount argv
      have hbudget := expBudget_addExpCount hv hcount
      have hlen := length_le_longestValue (mem_of_getElem? hv)
      apply ih argv v.value
      rw [longestValue_addExpCount]
      calc expBudget (addExpCount vs i 1) * (longestValue vs + 2) + v.value.length + 2
          ≤ (expBudget (addExpCount vs i 1) + 1) * (longestValue vs + 2) := by
            rw [Nat.add_mul]
            omega
        _ = expBudget vs * (longestValue vs + 2) := by rw [hbudget]
        _ ≤ fuel := by omega
    exact Ends.bind hloop fun _ _ => Ends.pure trivial

end

/-! ## More fuel changes nothing -/

section
variable (host : Host) {expand expand' : List Text → Text → PpM Text}
  {clause clause' : Text → PpM Text}

theorem cutOff_variableExpand (h : ∀ argv str, CutOff .fuel (expand argv str) (expand' argv str))
    (name : Text) (argv : List Text) :
    CutOff .fuel (variableExpand expand name argv) (variableExpand expand' name argv) := by
  apply bind (CutOff.refl _)
  intro s
  cases variableLookup s.variableList name with
  | none => exact CutOff.refl _
  | some i =>
    dsimp only
    cases s.variableList[i]? with
    | none => exact CutOff.refl _
    | some v =>
      apply CutOff.ite (CutOff.refl _)
      apply CutOff.ite (CutOff.refl _)
      apply bind (CutOff.refl _)
      intro _
      have hvalue : CutOff .fuel (variableValue expand v argv) (variableValue expand' v argv) := by
        unfold variableValue
        cases v.flavor with
        | recursive => exact h argv v.value
        | simple => exact CutOff.refl _
      exact bind hvalue fun _ => CutOff.refl _

theorem cutOff_expandTokens {f g : Text → PpM Text} (h : ∀ str, CutOff .fuel (f str) (g str))
    (tokens : List Text) : CutOff .fuel (expandTokens f tokens) (expandTokens g tokens) := by
  induction tokens with
  | nil => exact CutOff.refl _
  | cons token rest ih =>
    apply bind (h token)
    intro arg
    exact bind ih fun _ => CutOff.refl _

theorem cutOff_evalClause (h : ∀ argv str, CutOff .fuel (expand argv str) (expand' argv str))
    (argv : List Text) (str : Text) :
    CutOff .fuel (evalClause host expand argv str) (evalClause host expand' argv str) := by
  apply CutOff.ite (CutOff.refl _)
  cases splitClause 0 [] str with
  | nil => exact CutOff.refl _
  | cons token rest =>
    apply CutOff.ite (CutOff.refl _)
    apply bind (h argv token)
    intro name
    apply bind (cutOff_expandTokens (h argv) rest)
    intro newArgv
    exact bind (cutOff_variableExpand h name newArgv) fun _ => CutOff.refl _

theorem cutOff_expandLoop (h : ∀ str, CutOff .fuel (clause str) (clause' str))
    (isEnd : Char → Bool) {fuel fuel' : Nat} (hle : fuel ≤ fuel') (p : Text) :
    CutOff .fuel (expandLoop clause isEnd fuel p) (expandLoop clause' isEnd fuel' p) := by
  induction fuel generalizing fuel' p with
  | zero => exact throw _
  | succ fuel ih =>
    obtain ⟨fuel', rfl⟩ : ∃ n, fuel' = n + 1 := ⟨fuel' - 1, by omega⟩
    have hrest : ∀ p, CutOff .fuel (expandLoop clause isEnd fuel p)
        (expandLoop clause' isEnd fuel' p) := ih (by omega)
    cases p with
    | nil => exact CutOff.refl _
    | cons c p =>
      apply CutOff.ite
      · have hdollar : CutOff .fuel (expandDollar clause p) (expandDollar clause' p) := by
          unfold expandDollar
          split
          · cases closeParen 0 _ with
            | none => exact CutOff.refl _
            | some r => exact bind (h r.1) fun _ => CutOff.refl _
          · exact CutOff.refl _
        apply bind hdollar
        intro r
        exact bind (hrest r.2) fun _ => CutOff.refl _
      · apply CutOff.ite (CutOff.refl _)
        exact bind (hrest p) fun _ => CutOff.refl _

theorem cutOff_expandStringWithArgs (fuel : Nat) (argv : List Text) (str : Text) :
    CutOff .fuel (expandStringWithArgs host fuel argv str)
      (expandStringWithArgs host (fuel + 1) argv str) := by
  induction fuel generalizing argv str with
  | zero => exact throw _
  | succ fuel ih =>
    apply bind _ fun _ => CutOff.refl _
    exact cutOff_expandLoop (cutOff_evalClause host ih argv) _ (Nat.le_succ fuel) str

end

/-- Expansion always ends: it has one outcome from some depth on, which is a result, with every
variable and its `exp_count` as before, or a `pperror`. -/
theorem expandString_ends (host : Host) (str : Text) (s : Preprocessor) :
    ∃ outcome, (∃ depth, ∀ fuel, depth ≤ fuel → expandString host fuel str s = outcome) ∧
      match outcome with
      | .ok _ s' => s'.variableList = s.variableList
      | .error e _ => ∃ message, e = .pperror message := by
  have hends := ends_expandStringWithArgs host [] str (Nat.le_refl (expandDepth s.variableList str))
    s rfl
  refine ⟨expandString host (expandDepth s.variableList str) str s,
    ⟨expandDepth s.variableList str, fun fuel hfuel => ?_⟩, ?_⟩
  · apply CutOff.eq_of_le (fun n => cutOff_expandStringWithArgs host n [] str) hfuel
    intro s' hout
    exact wp_error hends hout rfl
  unfold wp at hends
  unfold expandString
  generalize expandStringWithArgs host (expandDepth s.variableList str) [] str s = outcome at hends
  cases outcome with
  | ok out s' => exact hends.1
  | error e s' =>
    cases e with
    | pperror message => exact ⟨message, rfl⟩
    | fuel => exact absurd rfl hends

end LinuxKernel.Kconfig
