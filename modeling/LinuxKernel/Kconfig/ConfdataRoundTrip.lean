import LinuxKernel.Kconfig.Confdata

/-!
# A configuration is read as it was written

Each symbol is written on a line of its own. The line is found again by `compat_getline`, cut at
the places where it was put together, and its value undergoes the inverse of what was done to it
when it was written.
-/

namespace LinuxKernel.Kconfig

open List

/-! ## Cutting a line -/

theorem strchr_append {ch : Char} {before rest : Text} (h : ch ∉ before) :
    strchr ch (before ++ ch :: rest) = some (before, rest) := by
  induction before with
  | nil => simp [strchr]
  | cons c before ih =>
    have hc : c ≠ ch := fun heq => h (by simp [heq])
    have hbefore : ch ∉ before := fun hmem => h (mem_cons_of_mem _ hmem)
    simp [strchr, hc, ih hbefore]

theorem afterConfig_append (text : Text) : afterConfig (configText ++ text) = some text := by
  unfold afterConfig
  rw [if_pos (by simp), drop_left]

theorem head?_config (text : Text) : (configText ++ text).head? = some 'C' := rfl

theorem newline_not_mem_configText : '\n' ∉ configText := by
  decide

theorem fileLines_append {cur body rest : Text} (h : '\n' ∉ body) :
    fileLines cur (body ++ '\n' :: rest) =
      (cur.reverse ++ (body ++ ['\n'])) :: fileLines [] rest := by
  induction body generalizing cur with
  | nil => simp [fileLines]
  | cons c body ih =>
    have hc : c ≠ '\n' := fun heq => h (by simp [heq])
    have hbody : '\n' ∉ body := fun hmem => h (mem_cons_of_mem _ hmem)
    rw [cons_append, fileLines, if_neg hc, ih hbody]
    simp

theorem stripLineEnd_append {val : Text} (hline : '\n' ∉ val) (hcr : val.getLast? ≠ some '\r') :
    stripLineEnd (val ++ ['\n']) = val := by
  unfold stripLineEnd
  rw [strchr_append hline]
  simp [hcr]

/-! ## Values -/

theorem unescape_quote (rest : Text) : unescape ('"' :: rest) = some [] := by
  unfold unescape
  simp

theorem unescape_backslash (c : Char) (rest : Text) :
    unescape ('\\' :: c :: rest) = (unescape rest).map (c :: ·) := by
  rw [unescape]
  simp

theorem unescape_other {c : Char} (hquote : c ≠ '"') (hslash : c ≠ '\\') (rest : Text) :
    unescape (c :: rest) = (unescape rest).map (c :: ·) := by
  rw [unescape.eq_def]
  simp [hquote, hslash]

theorem unescape_escape (str rest : Text) :
    unescape (str.flatMap (fun c => if c = '"' ∨ c = '\\' then ['\\', c] else [c]) ++
      '"' :: rest) = some str := by
  induction str with
  | nil => exact unescape_quote rest
  | cons c str ih =>
    rw [flatMap_cons]
    by_cases hc : c = '"' ∨ c = '\\'
    · rw [if_pos hc, append_assoc, cons_append, cons_append, nil_append, unescape_backslash, ih]
      rfl
    · rw [if_neg hc, append_assoc, cons_append, nil_append,
        unescape_other (fun h => hc (Or.inl h)) (fun h => hc (Or.inr h)), ih]
      rfl

variable {str : Text}

theorem newline_not_mem_escape (h : '\n' ∉ str) : '\n' ∉ escapeStringValue str := by
  simp only [escapeStringValue, cons_append, mem_cons, mem_append,
    mem_flatMap, not_mem_nil, or_false, not_or, not_exists, not_and]
  refine ⟨by decide, fun c hc => ?_, by decide⟩
  have hne : '\n' ≠ c := fun heq => h (heq ▸ hc)
  split
  · simp [hne]
  · simp [hne]

theorem getLast?_escape (str : Text) : (escapeStringValue str).getLast? = some '"' := by
  rw [escapeStringValue, getLast?_concat]

theorem isXDigit_of_valid {type : SymbolType} (htype : type = .int ∨ type = .hex)
    (hvalid : symStringValid type str = true) :
    ∀ c ∈ str, c = '-' ∨ c = 'x' ∨ c = 'X' ∨ isXDigit c = true := by
  have hdigit : ∀ c : Char, c.isDigit = true → isXDigit c = true := by
    intro c hc
    simp [isXDigit, hc]
  rcases htype with rfl | rfl
  · -- an optional sign, then digits
    simp only [symStringValid] at hvalid
    have hdigits : ∀ c ∈ (if str.head? = some '-' then str.tail else str), isXDigit c = true := by
      generalize (if str.head? = some '-' then str.tail else str) = digits at hvalid
      cases digits with
      | nil => simp
      | cons ch rest =>
        simp only [Bool.and_eq_true, all_eq_true] at hvalid
        exact forall_mem_cons.mpr ⟨hdigit ch hvalid.1.1, fun c hc => hdigit c (hvalid.2 c hc)⟩
    intro c hc
    cases str with
    | nil => simp at hc
    | cons ch rest =>
      by_cases hsign : ch = '-'
      · rcases mem_cons.mp hc with rfl | hc
        · exact .inl hsign
        · exact .inr (.inr (.inr (hdigits c (by simpa [hsign] using hc))))
      · exact .inr (.inr (.inr (hdigits c (by simpa [hsign] using hc))))
  · -- an optional leading `0x`, then digits
    simp only [symStringValid, Bool.and_eq_true, all_eq_true] at hvalid
    intro c hc
    by_cases hpre : str.head? = some '0' ∧ (str.tail.head? = some 'x' ∨ str.tail.head? = some 'X')
    · rw [if_pos hpre] at hvalid
      match str, hpre, hvalid, hc with
      | ch :: ch' :: rest, hpre, hvalid, hc =>
        simp only [head?_cons, tail_cons, Option.some.injEq] at hpre hvalid
        simp only [mem_cons] at hc
        rcases hc with rfl | rfl | hc
        · rw [hpre.1]
          decide
        · rcases hpre.2 with rfl | rfl <;> simp
        · exact .inr (.inr (.inr (hvalid.2 c hc)))
    · rw [if_neg hpre] at hvalid
      exact .inr (.inr (.inr (hvalid.2 c hc)))

theorem plain_of_valid {type : SymbolType} (htype : type = .int ∨ type = .hex)
    (hvalid : symStringValid type str = true) : '\n' ∉ str ∧ str.getLast? ≠ some '\r' := by
  have hchars := isXDigit_of_valid htype hvalid
  constructor
  · intro hmem
    exact absurd (hchars _ hmem) (by decide)
  · intro hlast
    exact absurd (hchars _ (mem_of_getLast? hlast)) (by decide)

/-! ## Symbols that are written -/

def ValidValue (type : SymbolType) (curr : CurrValue) : Prop :=
  match type with
  | .unknown => False
  | .boolean => curr.tri ≠ .mod
  | .tristate => True
  | .int | .hex => symStringValid type curr.val = true
  | .string => '\n' ∉ curr.val

structure Saved (table : SymbolTable) (curr : Nat → CurrValue) (i : Nat) (si : SymbolInfo)
    (name : Text) : Prop where
  info : table.infos[i]? = some si
  named : si.name = some name
  word : SymbolName name
  not_const : si.isConst = false
  not_choice : si.isChoice = false
  valid : ValidValue si.type (curr i)

def ReadBack (type : SymbolType) (curr : CurrValue) (d : DefUser) : Prop :=
  d.flag = true ∧
    match type with
    | .boolean | .tristate => d.tri = curr.tri
    | _ => d.val = some (.text curr.val)

def Touches (table : SymbolTable) (i : Nat) (s s' : ConfState) : Prop :=
  ∀ j, j ≠ i → (∀ sj, table.infos[j]? = some sj → sj.isChoice = false) → s'.defs j = s.defs j

variable (warnUnknown : Bool)

section
variable {table : SymbolTable} {curr : Nat → CurrValue} {i : Nat} {si : SymbolInfo} {name : Text}

theorem Saved.symFind (h : Saved table curr i si name) :
    Kconfig.symFind table name = some (some i) := by
  obtain ⟨-, -, -, hy, hm, hn⟩ := h.word
  unfold Kconfig.symFind
  rw [if_neg (by simp [hy, hm, hn])]
  cases hfind : table.infos.findIdx? fun si => si.name = some name ∧ si.isConst = false with
  | none =>
    rw [findIdx?_eq_none_iff] at hfind
    have := hfind si (mem_of_getElem? h.info)
    simp [h.named, h.not_const] at this
  | some j =>
    obtain ⟨hj, hmatch, -⟩ := findIdx?_eq_some_iff_getElem.mp hfind
    simp only [decide_eq_true_eq] at hmatch
    have hij : i = j := table.unique i j si _ h.info (getElem?_eq_getElem hj) h.not_const
      hmatch.2 (by simp [h.named]) (h.named.trans hmatch.1.symm)
    rw [hij]
    rfl

@[simp] theorem setDef_defs_self (d : DefUser) (s : ConfState) : (setDef i d s).defs i = d := by
  simp [setDef]

theorem setDef_defs_of_ne {j : Nat} (hj : j ≠ i) (d : DefUser) (s : ConfState) :
    (setDef i d s).defs j = s.defs j := by
  simp [setDef, hj]

@[simp] theorem confWarning_defs (message : Text) (s : ConfState) :
    (confWarning message s).defs = s.defs := rfl

@[simp] theorem warnReassign_defs (si : SymbolInfo) (s : ConfState) :
    (warnReassign si i s).defs = s.defs := by
  unfold warnReassign
  split <;> rfl

theorem confSetChoice_defs {cs j : Nat} (hj : j ≠ cs) (s : ConfState) :
    (confSetChoice si i cs s).defs j = s.defs j := by
  unfold confSetChoice
  rw [setDef_defs_of_ne hj]
  cases (s.defs i).tri with
  | no => rfl
  | mod =>
    dsimp only
    split
    · rw [confWarning_defs, setDef_defs_of_ne hj]
    · rfl
  | yes =>
    rw [setDef_defs_of_ne hj]
    split <;> rfl

theorem Saved.confChoiceValue (h : Saved table curr i si name) (s : ConfState) {j : Nat}
    (hj : ∀ sj, table.infos[j]? = some sj → sj.isChoice = false) :
    (Kconfig.confChoiceValue si i s).defs j = s.defs j := by
  unfold Kconfig.confChoiceValue
  cases hchoice : si.choice with
  | none => rfl
  | some cs =>
    obtain ⟨sc, hsc, hsc'⟩ := table.choices i si cs h.info hchoice
    apply confSetChoice_defs
    intro heq
    rw [heq] at hj
    exact absurd (hj sc hsc) (by simp [hsc'])

theorem Saved.not_choice_of_info (h : Saved table curr i si name) :
    ∀ sj, table.infos[i]? = some sj → sj.isChoice = false := by
  intro sj hsj
  obtain rfl : si = sj := Option.some.inj (h.info.symm.trans hsj)
  exact h.not_choice

/-! ## Reading one line -/

/-- The symbol of a line gets its value, and no other symbol that is no choice changes. -/
def Restores (table : SymbolTable) (i : Nat) (type : SymbolType) (curr : CurrValue)
    (s s' : ConfState) : Prop :=
  ReadBack type curr (s'.defs i) ∧ Touches table i s s'

section
variable (h : Saved table curr i si name)
include h

theorem Saved.restores {d : DefUser} (s : ConfState) (hd : ReadBack si.type (curr i) d) :
    Restores table i si.type (curr i) s
      (Kconfig.confChoiceValue si i (setDef i d (warnReassign si i s))) := by
  constructor
  · rw [h.confChoiceValue _ h.not_choice_of_info, setDef_defs_self]
    exact hd
  · intro j hj hchoice
    rw [h.confChoiceValue _ hchoice, setDef_defs_of_ne hj, warnReassign_defs]

theorem Saved.readLine_assignment {val : Text} (hline : '\n' ∉ val) (hcr : val.getLast? ≠ some '\r')
    (hset : ∀ s, ∃ d, confSetSymVal si i val s = (setDef i d s, true) ∧ ReadBack si.type (curr i) d)
    (s : ConfState) : Restores table i si.type (curr i) s
      (readLine table warnUnknown s (configText ++ (name ++ '=' :: (val ++ ['\n'])))) := by
  obtain ⟨d, hset, hd⟩ := hset (warnReassign si i s)
  have hread : readLine table warnUnknown s (configText ++ (name ++ '=' :: (val ++ ['\n']))) =
      Kconfig.confChoiceValue si i (setDef i d (warnReassign si i s)) := by
    have hhead : (configText ++ (name ++ '=' :: (val ++ ['\n']))).head? ≠ some '#' := by
      rw [head?_config]
      decide
    rw [readLine, if_neg hhead, afterConfig_append]
    dsimp only
    rw [readAssignment, strchr_append h.word.2.1]
    dsimp only
    rw [h.symFind]
    dsimp only
    rw [h.info]
    dsimp only
    rw [stripLineEnd_append hline hcr, hset, if_pos rfl]
  rw [hread]
  exact h.restores s hd

theorem Saved.readLine_comment
    (htype : si.type = .boolean ∨ si.type = .tristate) (hno : (curr i).tri = .no) (s : ConfState) :
    Restores table i si.type (curr i) s (readLine table warnUnknown s
      ("# ".toList ++ (configText ++ (name ++ ' ' :: "is not set\n".toList)))) := by
  have hread : readLine table warnUnknown s
      ("# ".toList ++ (configText ++ (name ++ ' ' :: "is not set\n".toList))) =
      Kconfig.confChoiceValue si i (setTri i .no (warnReassign si i s)) := by
    unfold readLine
    rw [if_pos (by rfl)]
    have hdrop : ("# ".toList ++ (configText ++ (name ++ ' ' :: "is not set\n".toList))).drop 2 =
        configText ++ (name ++ ' ' :: "is not set\n".toList) := rfl
    have hset : "is not set".toList.isPrefixOf "is not set\n".toList = true := by decide
    simp only [readComment, hdrop, afterConfig_append, strchr_append h.word.1, hset, if_true,
      h.symFind, h.info, htype]
  rw [hread]
  apply h.restores s
  rcases htype with htype | htype <;> simp [ReadBack, htype, hno]

/-- What `conf_set_sym_val` makes of a value as it stands on its line. -/
theorem Saved.confSetSymVal_eq
    (hset : si.type = .boolean ∨ si.type = .tristate → (curr i).tri ≠ .no) (s : ConfState) :
    ∃ d, confSetSymVal si i (if si.type = .string then escapeStringValue ((curr i).toText si.type)
        else (curr i).toText si.type) s = (setDef i d s, true) ∧
      ReadBack si.type (curr i) d := by
  have hvalid := h.valid
  cases htype : si.type with
  | unknown => simp [ValidValue, htype] at hvalid
  | boolean | tristate =>
    have hno := hset (by simp [htype])
    refine ⟨{ s.defs i with tri := (curr i).tri, flag := true }, ?_, rfl, rfl⟩
    cases htri : (curr i).tri <;>
      simp_all [confSetSymVal, CurrValue.toText, Tristate.toStr, setTri, ValidValue]
  | int | hex =>
    simp only [ValidValue, htype] at hvalid
    refine ⟨{ s.defs i with val := some (.text (curr i).val), flag := true }, ?_, rfl, rfl⟩
    simp [confSetSymVal, confSetString, CurrValue.toText, htype, hvalid]
  | string =>
    refine ⟨{ s.defs i with val := some (.text (curr i).val), flag := true }, ?_, rfl, rfl⟩
    have hescape := unescape_escape (curr i).val []
    simp [confSetSymVal, confSetString, CurrValue.toText, escapeStringValue, symStringValid,
      htype, hescape]

theorem Saved.plain :
    let val := if si.type = .string then escapeStringValue ((curr i).toText si.type)
      else (curr i).toText si.type
    '\n' ∉ val ∧ val.getLast? ≠ some '\r' := by
  have hvalid := h.valid
  have htri : ∀ t : Tristate, '\n' ∉ t.toStr ∧ t.toStr.getLast? ≠ some '\r' := by
    intro t
    cases t <;> decide
  cases htype : si.type with
  | unknown => simp [ValidValue, htype] at hvalid
  | boolean | tristate => exact htri _
  | int =>
    simp only [ValidValue, htype] at hvalid
    exact plain_of_valid (.inl rfl) hvalid
  | hex =>
    simp only [ValidValue, htype] at hvalid
    exact plain_of_valid (.inr rfl) hvalid
  | string =>
    simp only [ValidValue, htype] at hvalid
    refine ⟨newline_not_mem_escape hvalid, ?_⟩
    rw [if_pos rfl, getLast?_escape]
    decide

/-- The line of a symbol: it ends with its only line end, and reading it restores the value. -/
theorem Saved.print_spec :
    ∃ body, printSymbolForDotconfig si.type name (curr i) = body ++ ['\n'] ∧ '\n' ∉ body ∧
      ∀ s, Restores table i si.type (curr i) s (readLine table warnUnknown s (body ++ ['\n'])) := by
  have hname : '\n' ∉ name := h.word.2.2.1
  have hknown : si.type ≠ .unknown := by
    intro htype
    have hvalid := h.valid
    simp [ValidValue, htype] at hvalid
  unfold printSymbolForDotconfig
  rw [if_neg hknown]
  by_cases hunset : (si.type = .boolean ∨ si.type = .tristate) ∧
      ((curr i).toText si.type).head? = some 'n'
  · have hno : (curr i).tri = .no := by
      obtain ⟨htype, hhead⟩ := hunset
      have htext : (curr i).toText si.type = (curr i).tri.toStr := by
        rcases htype with htype | htype <;> rw [htype] <;> rfl
      rw [htext] at hhead
      cases htri : (curr i).tri with
      | no => rfl
      | mod | yes => simp [htri, Tristate.toStr] at hhead
    rw [if_pos hunset]
    refine ⟨"# ".toList ++ (configText ++ (name ++ ' ' :: "is not set".toList)), ?_, ?_, ?_⟩
    · simp only [append_assoc, cons_append]
      rfl
    · simp [newline_not_mem_configText, hname]
    intro s
    have hline : "# ".toList ++ (configText ++ (name ++ ' ' :: "is not set".toList)) ++ ['\n'] =
        "# ".toList ++ (configText ++ (name ++ ' ' :: "is not set\n".toList)) := by
      simp only [append_assoc, cons_append]
      rfl
    rw [hline]
    exact h.readLine_comment warnUnknown hunset.1 hno s
  · have hset : si.type = .boolean ∨ si.type = .tristate → (curr i).tri ≠ .no := by
      intro htype hno
      apply hunset
      refine ⟨htype, ?_⟩
      rcases htype with htype | htype <;> simp [CurrValue.toText, Tristate.toStr, htype, hno]
    have hplain := h.plain
    have hval := fun s => h.confSetSymVal_eq hset s
    dsimp only at hplain
    rw [if_neg hunset]
    generalize (if si.type = .string then escapeStringValue ((curr i).toText si.type)
      else (curr i).toText si.type) = val at hplain hval ⊢
    refine ⟨configText ++ (name ++ '=' :: val), by simp, ?_, fun s => ?_⟩
    · simp [newline_not_mem_configText, hname, hplain.1]
    have hline : configText ++ (name ++ '=' :: val) ++ ['\n'] =
        configText ++ (name ++ '=' :: (val ++ ['\n'])) := by
      simp
    rw [hline]
    exact h.readLine_assignment warnUnknown hplain.1 hplain.2 hval s

end

/-! ## Reading the file -/

/-- Reading the lines of some symbols: values read stay, and every symbol of the lines has its
value. -/
theorem foldl_readLine_printSymbols {written : List Nat}
    (hsaved : ∀ i ∈ written, ∃ si name, Saved table curr i si name) (s : ConfState) {j : Nat}
    {sj : SymbolInfo} {namej : Text} (hj : Saved table curr j sj namej)
    (hread : j ∈ written ∨ ReadBack sj.type (curr j) (s.defs j)) :
    ReadBack sj.type (curr j) (((fileLines [] (printSymbols table curr written)).foldl
      (readLine table warnUnknown) s).defs j) := by
  induction written generalizing s with
  | nil =>
    rcases hread with hmem | hread
    · simp at hmem
    · simpa [printSymbols, fileLines] using hread
  | cons i written ih =>
    obtain ⟨si, name, hi⟩ := hsaved i mem_cons_self
    obtain ⟨body, hprint, hbody, hrestore⟩ := hi.print_spec warnUnknown
    have hfile : printSymbols table curr (i :: written) =
        body ++ '\n' :: printSymbols table curr written := by
      simp [printSymbols, hi.info, hi.named, hprint]
    rw [hfile, fileLines_append hbody, reverse_nil, nil_append]
    apply ih fun i' hi' => hsaved i' (mem_cons_of_mem _ hi')
    obtain ⟨hvalue, htouch⟩ := hrestore s
    by_cases hij : j = i
    · subst hij
      obtain rfl : si = sj := Option.some.inj (hi.info.symm.trans hj.info)
      exact .inr hvalue
    · rcases hread with hmem | hread
      · exact .inl ((mem_cons.mp hmem).resolve_left hij)
      · rw [htouch j hij hj.not_choice_of_info]
        exact .inr hread

theorem confReadSimple_printSymbols (table : SymbolTable) (curr : Nat → CurrValue)
    (warnUnknown : Bool) (written : List Nat)
    (hsaved : ∀ i ∈ written, ∃ si name, Saved table curr i si name) :
    ∀ i ∈ written, ∃ si, table.infos[i]? = some si ∧ ReadBack si.type (curr i)
      ((confReadSimple table warnUnknown (printSymbols table curr written)).defs i) := by
  intro i hi
  obtain ⟨si, name, h⟩ := hsaved i hi
  exact ⟨si, h.info, foldl_readLine_printSymbols warnUnknown hsaved _ h (.inl hi)⟩

def sampleTable : SymbolTable where
  infos := [{ name := some "FOO".toList, type := .boolean },
    { name := some "BAR".toList, type := .string }]
  unique := by
    intro i j si sj hi hj _ _ _ hname
    match i, j with
    | 0, 0 => rfl
    | 1, 1 => rfl
    | 0, 1 | 1, 0 =>
      obtain ⟨rfl, rfl⟩ : _ = si ∧ _ = sj := ⟨by simpa using hi, by simpa using hj⟩
      simp at hname
    | _ + 2, _ => simp at hi
    | 0, _ + 2 | 1, _ + 2 => simp at hj
  choices := by
    intro i si cs hi hchoice
    match i with
    | 0 | 1 =>
      obtain rfl : _ = si := by simpa using hi
      simp at hchoice
    | _ + 2 => simp at hi

def sampleCurr (i : Nat) : CurrValue :=
  if i = 1 then { val := ['a', '"', '\\', 'b'] } else {}

theorem confReadSimple_printSymbols_sample :
    ReadBack .string (sampleCurr 1)
      ((confReadSimple sampleTable false (printSymbols sampleTable sampleCurr [0, 1])).defs 1) := by
  obtain ⟨si, hsi, hread⟩ := confReadSimple_printSymbols sampleTable sampleCurr false [0, 1] (by
      intro i hi
      rcases mem_cons.mp hi with rfl | hi
      · exact ⟨_, "FOO".toList, rfl, rfl, by unfold SymbolName; decide, rfl, rfl,
          by simp [ValidValue, sampleCurr]⟩
      · obtain rfl : i = 1 := by simpa using hi
        exact ⟨_, "BAR".toList, rfl, rfl, by unfold SymbolName; decide, rfl, rfl,
          by simp [ValidValue, sampleCurr]⟩) 1 (by simp)
  obtain rfl : _ = si := by simpa [sampleTable] using hsi
  exact hread

end

end LinuxKernel.Kconfig
