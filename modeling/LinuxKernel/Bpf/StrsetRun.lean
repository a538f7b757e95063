import LinuxKernel.Bpf.Strset

/-!
# Runs of a string set

`strset__find_str` and `strset__add_str` are steps of the table that the set shows, or are refused
memory and leave it as it is. What the offsets stand for is then read off the table, which only
grows.
-/

namespace LinuxKernel.Bpf

open Foundation List StringTable Nat Option Except

def INT_MAX : Nat := 0x7fffffff

def offsetRet : Option Nat → Int
  | some off => toCInt off
  | none => -ENOENT

theorem toCInt_of_le {n : Nat} (h : n ≤ INT_MAX) : toCInt n = n := by
  unfold INT_MAX at h
  rw [toCInt, BitVec.toInt_eq_toNat_of_lt, BitVec.toNat_ofNat, mod_eq_of_lt (by omega)]
  rw [BitVec.toNat_ofNat]
  omega

/-! ## One call -/

section
variable {set : Strset} {t : StringTable}

theorem limit_lt_of_strsetProbe {s : CStr} (h : strsetProbe true set s = none) :
    set.strsDataMaxLen < set.strsDataLen + s.stored.length := by
  rw [strsetProbe, libbpfAddMem] at h
  split_ifs at h with hfit hfull
  · cases h
  · exact hfull
  · cases h
  · contradiction

theorem Strset.Shows.strsetFindStr (h : set.Shows t) (a : StrsetAlloc) (s : CStr) :
    let r := strsetFindStr a set s
    r.2.Shows t ∧ r.2.strsDataLen = set.strsDataLen ∧ r.2.strsDataMaxLen = set.strsDataMaxLen ∧
      (r.1 = -ENOMEM ∧ (a = {} → set.strsDataMaxLen < set.strsDataLen + s.stored.length) ∨
        set.strsDataLen + s.stored.length ≤ set.strsDataMaxLen ∧
          r.1 = offsetRet (t.offsetOf s.bytes)) := by
  simp only [Bpf.strsetFindStr]
  cases hprobe : strsetProbe a.mem set s with
  | none =>
    refine ⟨h, rfl, rfl, .inl ⟨rfl, ?_⟩⟩
    rintro rfl
    exact limit_lt_of_strsetProbe hprobe
  | some data =>
    have hp := h.probed hprobe
    have hlimit : set.strsDataLen + s.stored.length ≤ set.strsDataMaxLen :=
      hp.room.trans hp.limit
    have hshows := h.of_probed hp hp.index
    simp only [hp.index.hashmapFind_eq, hp.probe]
    cases t.offsetOf s.bytes with
    | none | some off => exact ⟨hshows, rfl, rfl, .inr ⟨hlimit, rfl⟩⟩

theorem Strset.Shows.strsetAddStr (h : set.Shows t) (a : StrsetAlloc) (s : CStr) :
    let r := strsetAddStr a set s
    r.2.strsDataMaxLen = set.strsDataMaxLen ∧
      (r.1 = -ENOMEM ∧ r.2.Shows t ∧
          (a = {} → set.strsDataLen + s.stored.length ≤ set.strsDataMaxLen →
            2 ^ 32 < set.strsHash.sz) ∨
        set.strsDataLen + s.stored.length ≤ set.strsDataMaxLen ∧
          r.1 = toCInt (t.add s).1 ∧ r.2.Shows (t.add s).2) := by
  simp only [Bpf.strsetAddStr]
  cases hprobe : strsetProbe a.mem set s with
  | none =>
    refine ⟨rfl, .inl ⟨rfl, h, ?_⟩⟩
    rintro rfl hfits
    exact absurd (limit_lt_of_strsetProbe hprobe) (not_lt.2 hfits)
  | some data =>
    have hp := h.probed hprobe
    have hlimit : set.strsDataLen + s.stored.length ≤ set.strsDataMaxLen :=
      hp.room.trans hp.limit
    have hpos : 0 < s.stored.length := by simp
    have hcases := hp.index.hashmapInsert a.hash
      (show set.strsDataLen ≤ set.strsDataLen + s.stored.length by omega)
      (show set.strsDataLen < set.strsDataLen + s.stored.length by omega)
    simp only [hp.probe] at hcases
    dsimp only
    rcases hcases with ⟨old, hold, hmap, hret, hkey⟩ | ⟨hnone, ⟨hret, hindex⟩ | ⟨hret, hindex⟩⟩
    · -- the string is there: the buffer keeps the probe, the index is unchanged
      rw [if_pos hret, hmap, hkey]
      refine ⟨rfl, .inr ⟨hlimit, ?_, ?_⟩⟩
      · simp only [add, hold, getD_some]
      · simp only [add, hold]
        exact h.of_probed hp hp.index
    · rw [if_neg (by rw [hret]; decide), if_neg (by rw [hret]; decide)]
      refine ⟨rfl, .inr ⟨hlimit, ?_, ?_⟩⟩
      · simp only [add, hnone, h.length_text]
      simp only [add, hnone, h.length_text]
      exact
        { len_le := hp.room
          text := hp.appended
          terminated := terminated_append_stored _ _
          cap := .inl hp.limit
          index := hindex }
    · rw [hret]
      refine ⟨rfl, .inl ⟨rfl, h.of_probed hp hindex, ?_⟩⟩
      rintro rfl -
      by_contra hsz
      exact hashmapInsert_add_granted hp.index.wf (not_lt.1 hsz) _ _ hret

end

/-! ## A new set -/

variable {off : Nat}

theorem strsetIndex_indexes {a : Nat → Alloc} {data : List Byte} {rounds : Nat}
    {hash hash' : Hashmap Nat Nat} {offsetOf : List Byte → Option Nat}
    (h : Indexes data hash data.length offsetOf)
    (hrun : strsetIndex a data rounds off hash = .ok hash') :
    Indexes data hash' data.length (textIndex data rounds off offsetOf) := by
  induction rounds generalizing off hash offsetOf with
  | zero =>
    obtain rfl := ok.inj hrun
    exact h
  | succ rounds ih =>
    simp only [strsetIndex] at hrun
    simp only [textIndex]
    split_ifs at hrun with hoff hret
    · rw [if_pos hoff]
      rcases h.hashmapInsert (a off) le_rfl hoff with
        ⟨old, hold, hmap, -, -⟩ | ⟨hnone, ⟨-, hindex⟩ | ⟨hnomem, -⟩⟩
      · rw [hmap] at hrun
        rw [hold]
        exact ih h hrun
      · rw [hnone]
        exact ih hindex hrun
      · rw [hnomem] at hret
        exact absurd hret (by decide)
    · rw [if_neg hoff]
      obtain rfl := ok.inj hrun
      exact h

variable {set : Strset}

theorem strsetNew_shows {a : StrsetNewAlloc} {maxDataSz : Nat} {initData : Option (List Byte)}
    (hterm : ∀ data, initData = some data → Terminated data)
    (hnew : strsetNew a maxDataSz initData = .ok set) :
    set.Shows (.ofText (initData.getD [])) ∧ set.strsDataMaxLen = maxDataSz := by
  cases initData with
  | none =>
    simp only [strsetNew] at hnew
    split_ifs at hnew
    obtain rfl := ok.inj hnew
    exact ⟨⟨le_rfl, rfl, .inl rfl, .inr rfl, Indexes.init _⟩, rfl⟩
  | some data =>
    simp only [strsetNew] at hnew
    split_ifs at hnew
    cases hidx : strsetIndex a.entry data data.length 0 hashmapInit with
    | error err => simp [hidx] at hnew
    | ok hash =>
      rw [hidx] at hnew
      obtain rfl := ok.inj hnew
      have hinit : Indexes data hashmapInit data.length fun _ => none :=
        (Indexes.init data).congr (zero_le _) fun off hoff => by omega
      exact ⟨⟨le_rfl, take_length, hterm data rfl, .inr rfl, strsetIndex_indexes hinit hidx⟩, rfl⟩

/-! ## Runs -/

inductive StrsetCall
  | find (s : CStr)
  | add (s : CStr)
  deriving DecidableEq

def StrsetCall.str : StrsetCall → CStr
  | find s => s
  | add s => s

def StrsetCall.exec (a : StrsetAlloc) (set : Strset) : StrsetCall → Int × Strset
  | find s => strsetFindStr a set s
  | add s => strsetAddStr a set s

def strsetRun (set : Strset) : List (StrsetAlloc × StrsetCall) → List Int × Strset
  | [] => ([], set)
  | (a, c) :: calls =>
    let r := c.exec a set
    let rest := strsetRun r.2 calls
    (r.1 :: rest.1, rest.2)

def Strset.after (set : Strset) (calls : List (StrsetAlloc × StrsetCall)) : Strset :=
  (strsetRun set calls).2

/-- The bytes that the strings of the set take. -/
def Strset.inUse (set : Strset) : List Byte := set.strsData.take set.strsDataLen

theorem after_append (set : Strset) (calls calls' : List (StrsetAlloc × StrsetCall)) :
    set.after (calls ++ calls') = (set.after calls).after calls' := by
  induction calls generalizing set with
  | nil => rfl
  | cons call calls ih => exact ih _

def StringTable.exec (t : StringTable) : StrsetCall → Option Nat × StringTable
  | .find s => (t.offsetOf s.bytes, t)
  | .add s => (some (t.add s).1, (t.add s).2)

/-- A later table has the strings of an earlier one, at their offsets. -/
def StringTable.Extends (t' t : StringTable) : Prop :=
  ∀ s off, t.offsetOf s = some off → t'.offsetOf s = some off

theorem StringTable.exec_extends (t : StringTable) (c : StrsetCall) : (t.exec c).2.Extends t := by
  intro s off hs
  cases c with
  | find s' => exact hs
  | add s' =>
    simp only [exec, add]
    cases hs' : t.offsetOf s'.bytes with
    | some off' => exact hs
    | none =>
      have hne : s ≠ s'.bytes := by
        rintro rfl
        rw [hs] at hs'
        cases hs'
      simp only [Function.update_of_ne hne, hs]

/-- The answer of a call is the offset of its string from then on. -/
theorem offsetOf_of_exec (t : StringTable) (c : StrsetCall) :
    (t.exec c).2.offsetOf c.str.bytes = (t.exec c).1 := by
  cases c with
  | find s => rfl
  | add s =>
    simp only [exec, add, StrsetCall.str]
    cases hs : t.offsetOf s.bytes with
    | some off => exact hs
    | none => simp

theorem exec_of_offsetOf (t : StringTable) {c : StrsetCall}
    (hs : t.offsetOf c.str.bytes = some off) : (t.exec c).1 = some off := by
  cases c with
  | find s => exact hs
  | add s =>
    have hs' : t.offsetOf s.bytes = some off := hs
    simp only [exec, add, hs']

/-! ## The set follows the table -/

section
variable {set : Strset} {t : StringTable} (h : set.Shows t)
include h

theorem Strset.Shows.exec_le {c : StrsetCall} (hoff : (t.exec c).1 = some off) :
    off ≤ set.strsDataLen := by
  rw [← h.length_text]
  cases c with
  | find s => exact (h.cstrAt_offsetOf hoff).1.le
  | add s =>
    simp only [StringTable.exec, StringTable.add] at hoff
    cases hs : t.offsetOf s.bytes with
    | some off' =>
      simp only [hs, some.injEq] at hoff
      exact hoff ▸ (h.cstrAt_offsetOf hs).1.le
    | none =>
      simp only [hs, some.injEq] at hoff
      omega

variable (hmax : set.strsDataMaxLen ≤ INT_MAX)
include hmax

/-- A call is refused and leaves the table, or it is a step of the table. With granted memory it
is refused for the limit only. -/
theorem Strset.Shows.exec (a : StrsetAlloc) (c : StrsetCall) :
    let r := c.exec a set
    r.2.strsDataMaxLen = set.strsDataMaxLen ∧
      (r.1 = -ENOMEM ∧ r.2.Shows t ∧
          (a = {} → set.strsDataMaxLen < set.strsDataLen + c.str.stored.length) ∨
        set.strsDataLen + c.str.stored.length ≤ set.strsDataMaxLen ∧
          r.1 = offsetRet (t.exec c).1 ∧ r.2.Shows (t.exec c).2) := by
  cases c with
  | find s =>
    obtain ⟨hshows, -, hkeep, ⟨hnomem, hfull⟩ | ⟨hlimit, hret⟩⟩ := h.strsetFindStr a s
    · exact ⟨hkeep, .inl ⟨hnomem, hshows, hfull⟩⟩
    · exact ⟨hkeep, .inr ⟨hlimit, hret, hshows⟩⟩
  | add s =>
    obtain ⟨hkeep, ⟨hnomem, hshows, hfull⟩ | hadded⟩ := h.strsetAddStr a s
    · refine ⟨hkeep, .inl ⟨hnomem, hshows, fun hgranted => ?_⟩⟩
      -- the hash map has at most as many strings as the data has bytes
      by_contra hlimit
      have hlt := hfull hgranted (not_lt.1 hlimit)
      have hsz := h.index.sz_le
      simp only [INT_MAX] at hmax
      simp only [StrsetCall.str] at hlimit
      omega
    · exact ⟨hkeep, .inr hadded⟩

theorem Strset.Shows.run (calls : List (StrsetAlloc × StrsetCall)) :
    ∃ t', (set.after calls).Shows t' ∧ t'.Extends t ∧
      (set.after calls).strsDataMaxLen = set.strsDataMaxLen := by
  induction calls generalizing set t with
  | nil => exact ⟨t, h, fun _ _ hs => hs, rfl⟩
  | cons call calls ih =>
    obtain ⟨hkeep, hcase⟩ := h.exec hmax call.1 call.2
    obtain ⟨t₁, hshows, hext⟩ : ∃ t₁, (call.2.exec call.1 set).2.Shows t₁ ∧ t₁.Extends t := by
      rcases hcase with ⟨-, hshows, -⟩ | ⟨-, -, hshows⟩
      · exact ⟨t, hshows, fun _ _ hs => hs⟩
      · exact ⟨_, hshows, t.exec_extends _⟩
    obtain ⟨t', hshows', hext', hkeep'⟩ := ih hshows (hkeep.trans_le hmax)
    exact ⟨t', hshows', fun s off hs => hext' s off (hext s off hs), hkeep'.trans hkeep⟩

variable {a : StrsetAlloc} {c : StrsetCall}

/-- The offset of a call is that of its string in the table. -/
theorem Strset.Shows.offsetOf_of_answer (hoff : (c.exec a set).1 = (off : Int)) :
    ∃ t', (c.exec a set).2.Shows t' ∧ t'.Extends t ∧ t'.offsetOf c.str.bytes = some off := by
  obtain ⟨-, ⟨hnomem, -⟩ | ⟨hlimit, hret, hshows⟩⟩ := h.exec hmax a c
  · rw [hoff] at hnomem
    unfold ENOMEM at hnomem
    omega
  · refine ⟨_, hshows, t.exec_extends c, ?_⟩
    rw [offsetOf_of_exec]
    rw [hoff] at hret
    cases hexec : (t.exec c).1 with
    | none =>
      rw [hexec] at hret
      simp only [offsetRet, ENOENT] at hret
      omega
    | some off' =>
      have hle := h.exec_le hexec
      rw [hexec, offsetRet, toCInt_of_le (show off' ≤ INT_MAX by omega)] at hret
      rw [Nat.cast_inj.1 hret]

/-- A later call for the string of an offset returns it or is refused, and no other one does. -/
theorem Strset.Shows.answer_again {s : List Byte} (hs : t.offsetOf s = some off) :
    (c.str.bytes = s → (c.exec a set).1 = (off : Int) ∨ (c.exec a set).1 = -ENOMEM) ∧
    (c.str.bytes ≠ s → (c.exec a set).1 ≠ (off : Int)) := by
  constructor
  · rintro rfl
    obtain ⟨-, ⟨hnomem, -⟩ | ⟨hlimit, hret, -⟩⟩ := h.exec hmax a c
    · exact .inr hnomem
    · have hexec := exec_of_offsetOf t hs
      have hle := h.exec_le hexec
      left
      rw [hret, hexec, offsetRet, toCInt_of_le (by omega)]
  · intro hne hoff
    obtain ⟨t', hshows, hext, hs'⟩ := h.offsetOf_of_answer hmax hoff
    exact hne ((hshows.cstrAt_offsetOf hs').2.symm.trans
      (hshows.cstrAt_offsetOf (hext s off hs)).2)

/-- With granted memory the answers depend on the table and the limit only. -/
theorem Strset.Shows.answers_eq {set' : Strset} (h' : set'.Shows t)
    (hkeep : set'.strsDataMaxLen = set.strsDataMaxLen) (calls : List StrsetCall) :
    (strsetRun set' (calls.map ({}, ·))).1 = (strsetRun set (calls.map ({}, ·))).1 := by
  induction calls generalizing set set' t with
  | nil => rfl
  | cons c calls ih =>
    have hlen : set'.strsDataLen = set.strsDataLen := h'.length_text.symm.trans h.length_text
    obtain ⟨hmax₁, hcase⟩ := h.exec hmax {} c
    obtain ⟨hmax₁', hcase'⟩ := h'.exec (hkeep.trans_le hmax) {} c
    rw [hlen, hkeep] at hcase'
    have hkeep₁ := hmax₁'.trans (hkeep.trans hmax₁.symm)
    simp only [map_cons, strsetRun]
    rcases hcase with ⟨hret, hshows, hfull⟩ | ⟨hlimit, hret, hshows⟩ <;>
      rcases hcase' with ⟨hret', hshows', hfull'⟩ | ⟨hlimit', hret', hshows'⟩
    · rw [hret, hret', ih hshows (hmax₁.trans_le hmax) hshows' hkeep₁]
    · exact absurd (hfull rfl) (not_lt.2 hlimit')
    · exact absurd (hfull' rfl) (not_lt.2 hlimit)
    · rw [hret, hret', ih hshows (hmax₁.trans_le hmax) hshows' hkeep₁]

end

def Strset.answer (set : Strset) (earlier : List (StrsetAlloc × StrsetCall)) (a : StrsetAlloc)
    (c : StrsetCall) : Int :=
  (c.exec a (set.after earlier)).1

/-- In every run of a set with a limit that `int` can hold:
* a call is refused and changes no string, which with granted memory happens for the limit only, or
  an added string has an offset, and a string that is searched for has one or is not there;
* the string of a call is stored at its offset from then on, a later call for it returns the offset
  or is refused, and a call for another string returns another one;
* a search does not change the length of the data, nor the answers of later calls if these are
  granted memory. -/
theorem strset_offsets {maxDataSz : Nat} (hmax : maxDataSz ≤ INT_MAX)
    {initData : Option (List Byte)} (hterm : ∀ data, initData = some data → Terminated data)
    {a₀ : StrsetNewAlloc} {set : Strset} (hnew : strsetNew a₀ maxDataSz initData = .ok set) :
    (∀ earlier a c,
      set.answer earlier a c = -ENOMEM ∧
          (set.after (earlier ++ [(a, c)])).inUse = (set.after earlier).inUse ∧
          (a = {} → maxDataSz < (set.after earlier).strsDataLen + c.str.stored.length) ∨
        0 ≤ set.answer earlier a c ∨ set.answer earlier a c = -ENOENT ∧ c = .find c.str) ∧
    (∀ earlier a c later (off : Nat), set.answer earlier a c = off →
      let calls := earlier ++ (a, c) :: later
      (off < (set.after calls).strsDataLen ∧
        cstrAt (set.after calls).strsData off = c.str.bytes) ∧
      ∀ a' c', (c'.str = c.str → set.answer calls a' c' = off ∨
          set.answer calls a' c' = -ENOMEM) ∧
        (c'.str ≠ c.str → set.answer calls a' c' ≠ off)) ∧
    ∀ earlier a s,
      (set.after (earlier ++ [(a, .find s)])).strsDataLen = (set.after earlier).strsDataLen ∧
      ∀ later : List StrsetCall,
        (strsetRun (set.after (earlier ++ [(a, .find s)])) (later.map ({}, ·))).1 =
          (strsetRun (set.after earlier) (later.map ({}, ·))).1 := by
  obtain ⟨hstart, hlimit⟩ := strsetNew_shows hterm hnew
  have hrun := fun earlier => hstart.run (hlimit.trans_le hmax) earlier
  refine ⟨fun earlier a c => ?_, fun earlier a c later off hoff => ?_, fun earlier a s => ?_⟩
  · obtain ⟨t, hshows, -, hkeep⟩ := hrun earlier
    have hle := (hkeep.trans hlimit).trans_le hmax
    rw [after_append]
    obtain ⟨-, ⟨hnomem, hsame, hfull⟩ | ⟨hfits, hret, -⟩⟩ := hshows.exec hle a c
    · refine .inl ⟨hnomem, hsame.text.trans hshows.text.symm, fun hgranted => ?_⟩
      exact (hkeep.trans hlimit) ▸ hfull hgranted
    · right
      cases hexec : (t.exec c).1 with
      | some off =>
        have hoff := hshows.exec_le hexec
        left
        rw [Strset.answer, hret, hexec, offsetRet, toCInt_of_le (by omega)]
        exact Int.natCast_nonneg off
      | none =>
        cases c with
        | find s => exact .inr ⟨hret.trans (congrArg offsetRet hexec), rfl⟩
        | add s => cases hexec
  · obtain ⟨t, hshows, -, hkeep⟩ := hrun earlier
    have hle := (hkeep.trans hlimit).trans_le hmax
    obtain ⟨t₁, hshows₁, -, hof⟩ := hshows.offsetOf_of_answer hle hoff
    have hle₁ := (hshows.exec hle a c).1.trans_le hle
    obtain ⟨t', hshows', hext, hkeep'⟩ := hshows₁.run hle₁ later
    have hof' := hext _ _ hof
    have hafter : set.after (earlier ++ (a, c) :: later) =
        ((c.exec a (set.after earlier)).2).after later := after_append _ _ _
    obtain ⟨hlt, hstr⟩ := hshows'.cstrAt_offsetOf hof'
    rw [hshows'.length_text] at hlt
    simp only [Strset.answer, hafter]
    refine ⟨⟨hlt, (hshows'.cstrAt_text hlt).trans hstr⟩, fun a' c' => ?_⟩
    have hagain := hshows'.answer_again (a := a') (c := c') (hkeep'.trans_le hle₁) hof'
    exact ⟨fun heq => hagain.1 (congrArg CStr.bytes heq),
      fun hne => hagain.2 fun heq => hne (CStr.bytes_injective heq)⟩
  · obtain ⟨t, hshows, -, hkeep⟩ := hrun earlier
    obtain ⟨hfound, hlen, hkeep', -⟩ := hshows.strsetFindStr a s
    rw [after_append]
    exact ⟨hlen, hshows.answers_eq ((hkeep.trans hlimit).trans_le hmax) hfound hkeep'⟩

def sampleStr : CStr := ⟨[97], by decide⟩

def sampleStrset : Strset :=
  (strsetNew {} INT_MAX (some [0, 97, 0])).toOption.getD ⟨[], 0, 0, hashmapInit⟩

theorem strset_offsets_sample :
    strsetNew {} INT_MAX (some [0, 97, 0]) = .ok sampleStrset ∧
      sampleStrset.answer [] {} (.add sampleStr) = 1 ∧
      (sampleStrset.answer [({}, .add sampleStr)] {} (.find sampleStr) = 1 ∨
        sampleStrset.answer [({}, .add sampleStr)] {} (.find sampleStr) = -ENOMEM) := by
  have hterm : ∀ data : List Byte, some [0, 97, 0] = some data → Terminated data := by
    intro data hdata
    cases hdata
    decide
  have hnew : strsetNew {} INT_MAX (some [0, 97, 0]) = .ok sampleStrset := by decide +kernel
  have hfirst : sampleStrset.answer [] {} (.add sampleStr) = 1 := by decide +kernel
  obtain ⟨-, hagain, -⟩ := strset_offsets (le_refl INT_MAX) hterm hnew
  exact ⟨hnew, hfirst, ((hagain [] {} _ [] 1 hfirst).2 {} (.find sampleStr)).1 rfl⟩

def longStr (n : Nat) : CStr where
  bytes := List.replicate n 1
  nul_notMem := by
    rw [List.mem_replicate]
    rintro ⟨-, h⟩
    exact absurd h (by decide)

theorem length_stored_longStr (n : Nat) : (longStr n).stored.length = n + 1 := by
  rw [CStr.length_stored, longStr, length_replicate]

/-- A string of a gigabyte is not found again, though it was added and no memory is refused: there
is no room for the probe below the limit. -/
theorem strset_offsets_refused : ∃ (set : Strset) (s : CStr), strsetNew {} INT_MAX none = .ok set ∧
    set.answer [] {} (.add s) = 0 ∧ set.answer [({}, .add s)] {} (.find s) = -ENOMEM ∧
    set.answer [({}, .add s)] {} (.add s) = -ENOMEM := by
  obtain ⟨s, hlength⟩ : ∃ s : CStr, s.stored.length = 2 ^ 30 :=
    ⟨longStr (2 ^ 30 - 1), length_stored_longStr _⟩
  have hempty : (⟨[], 0, INT_MAX, hashmapInit⟩ : Strset).Shows ⟨[], fun _ => none⟩ :=
    ⟨zero_le _, rfl, .inl rfl, .inr rfl, Indexes.init _⟩
  obtain ⟨hkeep, ⟨-, -, hfull⟩ | ⟨-, hret, hshows⟩⟩ := hempty.exec le_rfl {} (.add s)
  · have hlt := hfull rfl
    simp only [StrsetCall.str, hlength] at hlt
    exact absurd hlt (by decide)
  refine ⟨_, s, rfl, hret, ?_⟩
  generalize hset : (StrsetCall.exec {} ⟨[], 0, INT_MAX, hashmapInit⟩ (.add s)).2 = set at *
  -- the probe would end behind the limit
  have hrefused : ∀ c : StrsetCall, c.str = s → (c.exec {} set).1 = -ENOMEM := by
    rintro c rfl
    obtain ⟨-, ⟨hnomem, -⟩ | ⟨hlimit, -⟩⟩ := hshows.exec hkeep.le {} c
    · exact hnomem
    · have hlen : set.strsDataLen = 2 ^ 30 := hshows.length_text.symm.trans hlength
      rw [hkeep, hlen, hlength] at hlimit
      exact absurd hlimit (by decide)
  show (StrsetCall.exec {} (StrsetCall.exec {} _ (.add s)).2 _).1 = _ ∧
    (StrsetCall.exec {} (StrsetCall.exec {} _ (.add s)).2 _).1 = _
  rw [hset]
  exact ⟨hrefused (.find s) rfl, hrefused (.add s) rfl⟩

end LinuxKernel.Bpf
