import LinuxKernel.Bpf.BtfAdd
import LinuxKernel.Bpf.StrsetRun

/-!
# The strings of a chain of objects

A search for a string makes the objects it looks into modifiable and moves their buffers, but what
they answer afterwards is the same. A `StrView` is what the answers of an object depend on;
`btf__find_str` and `btf__add_str` are described by the views of the object and its bases, for any
answers of the allocator and for one that grants everything.
-/

namespace LinuxKernel.Bpf

open Foundation StringTable

/-! ## Granted memory -/

section
variable {set : Strset} {t : StringTable} {s : CStr}

theorem toCInt_nonneg {n : Nat} (h : n ≤ INT_MAX) : 0 ≤ toCInt n := by
  rw [toCInt_of_le h]
  exact Int.natCast_nonneg n

theorem Strset.Shows.add_le (h : set.Shows t)
    (hfits : set.strsDataLen + s.stored.length ≤ BTF_MAX_STR_OFFSET) : (t.add s).1 ≤ INT_MAX := by
  have hlen := h.length_text
  unfold add
  unfold BTF_MAX_STR_OFFSET at hfits
  cases hs : t.offsetOf s.bytes with
  | some off =>
    have hlt := (h.cstrAt_offsetOf hs).1
    show off ≤ INT_MAX
    unfold INT_MAX
    omega
  | none =>
    show t.text.length ≤ INT_MAX
    unfold INT_MAX
    omega

theorem strsetIndex_granted {data : List Byte} (hlen : data.length ≤ 2 ^ 32) {rounds off : Nat}
    {hash : Hashmap Nat Nat} {offsetOf : List Byte → Option Nat}
    (h : Indexes data hash data.length offsetOf) :
    ∃ hash', strsetIndex (fun _ => {}) data rounds off hash = .ok hash' := by
  induction rounds generalizing off hash offsetOf with
  | zero => exact ⟨hash, rfl⟩
  | succ rounds ih =>
    simp only [strsetIndex]
    split
    next hoff =>
      have hgranted := hashmapInsert_add_granted h.wf (h.sz_le.trans hlen) off off
      rcases h.hashmapInsert {} le_rfl hoff with
        ⟨old, -, hmap, hexist, -⟩ | ⟨-, ⟨hzero, hindex⟩ | ⟨hnomem, -⟩⟩
      · rw [if_pos (.inl hexist), hmap]
        exact ih h
      · rw [if_pos (.inr hzero)]
        exact ih hindex
      · exact absurd hnomem hgranted
    next => exact ⟨hash, rfl⟩

theorem strsetNew_granted {data : List Byte} (hlen : data.length ≤ 2 ^ 32) (maxDataSz : Nat) :
    ∃ set, strsetNew {} maxDataSz (some data) = .ok set := by
  have hinit : Indexes data hashmapInit data.length fun _ => none :=
    (Indexes.init data).congr (Nat.zero_le _) fun off hoff => by omega
  obtain ⟨hash, hidx⟩ := @strsetIndex_granted data hlen data.length 0 _ _ hinit
  simp only [strsetNew, hidx]
  exact ⟨_, rfl⟩

end

/-! ## Views -/

/-- What the answers of an object about strings depend on. -/
structure StrView where
  table : StringTable
  startStrOff : U32
  ready : Bool

/-- The object is modifiable or can be made so. -/
def Btf.ready (btf : Btf) : Bool := btf.isModifiable || btfHeaderSize ≤ btf.hdr.hdrLen.toNat

/-- The storage of the object holds the strings of a table. The length in the header is that of the
storage, unless an earlier `btf__add_btf` failed and has put it back. -/
structure Btf.Shows (btf : Btf) (v : StrView) : Prop where
  startStrOff : btf.startStrOff = v.startStrOff
  ready : btf.ready = v.ready
  strs : match btf.strs with
    | .data strs => Terminated strs ∧ v.table = .ofText strs
    | .set set => set.Shows v.table ∧ set.strsDataMaxLen = BTF_MAX_STR_OFFSET
  strLen : btf.hdr.strLen.toNat ≤ v.table.text.length
  limit : v.table.text.length ≤ BTF_MAX_STR_OFFSET + 1

/-- What functions for strings leave alone. -/
structure Frame (btf btf' : Btf) : Prop where
  hdr : btf'.hdr = btf.hdr
  types : btf'.types = btf.types
  startId : btf'.startId = btf.startId
  modifiable : btf.isModifiable = true → btf'.isModifiable = true

theorem Frame.refl (btf : Btf) : Frame btf btf := ⟨rfl, rfl, rfl, id⟩

theorem Frame.trans {btf₁ btf₂ btf₃ : Btf} (h : Frame btf₁ btf₂) (h' : Frame btf₂ btf₃) :
    Frame btf₁ btf₃ :=
  ⟨h'.hdr.trans h.hdr, h'.types.trans h.types, h'.startId.trans h.startId,
    h'.modifiable ∘ h.modifiable⟩

def StrView.own (v : StrView) (s : CStr) : Int :=
  if v.table.text.length + s.stored.length ≤ BTF_MAX_STR_OFFSET then
    offsetRet (v.table.offsetOf s.bytes)
  else -ENOMEM

def StrView.find (v : StrView) (s : CStr) : Int :=
  if v.own s < 0 then v.own s else (v.startStrOff + BitVec.ofInt 32 (v.own s)).toInt

def findView (s : CStr) : List StrView → Except BtfStop Int
  | [] => .ok (-ENOENT)
  | v :: vs =>
    match findView s vs with
    | .error e => .error e
    | .ok off =>
      if off ≠ -ENOENT then .ok off
      else if v.ready then .ok (v.find s) else .error .fault

def granted : Nat → StrAlloc := fun _ => {}

variable (a : Nat → StrAlloc)

section
variable {btf : Btf} {v : StrView} {chain : List Btf} {vs : List StrView} {s : CStr}

theorem Btf.Shows.ensure (h : btf.Shows v) (a : EnsureAlloc) :
    (∃ btf' set, btfEnsureModifiable a btf = .ok btf' ∧ btf'.strs = .set set ∧ btf'.Shows v ∧
        Frame btf btf' ∧ v.ready = true) ∨
      (v.ready = false ∧ btfEnsureModifiable a btf = .error .fault) ∨
      ∃ e, btfEnsureModifiable a btf = .error (.err e) ∧ a ≠ {} := by
  have hready := h.ready
  have hstrs := h.strs
  unfold btfEnsureModifiable
  unfold Btf.ready Btf.isModifiable at hready
  cases hs : btf.strs with
  | set set =>
    simp only [hs, Bool.true_or] at hready hstrs ⊢
    exact .inl ⟨_, set, rfl, rfl, ⟨h.startStrOff, hready, hstrs, h.strLen, h.limit⟩,
      ⟨rfl, rfl, rfl, fun _ => rfl⟩, hready.symm⟩
  | data strs =>
    simp only [hs, Bool.false_or] at hready hstrs ⊢
    obtain ⟨hterm, htable⟩ := hstrs
    have hlen : strs.length ≤ 2 ^ 32 := by
      have hlimit := h.limit
      rw [htable] at hlimit
      exact hlimit.trans (by decide)
    cases hnew : strsetNew a.strs BTF_MAX_STR_OFFSET (some strs) with
    | error e =>
      have hne : a ≠ {} := by
        rintro rfl
        obtain ⟨set, hset⟩ := strsetNew_granted hlen BTF_MAX_STR_OFFSET
        rw [hset] at hnew
        cases hnew
      refine .inr (.inr ?_)
      split
      · exact ⟨_, rfl, hne⟩
      · exact ⟨_, rfl, hne⟩
    | ok set =>
      obtain ⟨hshows, hmax⟩ := strsetNew_shows (by rintro _ ⟨⟩; exact hterm) hnew
      split_ifs with halloc hshort
      · refine .inr (.inr ⟨_, rfl, ?_⟩)
        rintro rfl
        exact absurd halloc (by decide)
      · refine .inr (.inl ⟨?_, rfl⟩)
        rw [← hready]
        exact decide_eq_false (Nat.not_le.2 hshort)
      have hv : v.ready = true := by
        rw [← hready]
        exact decide_eq_true (Nat.not_lt.1 hshort)
      refine .inl ⟨_, set, rfl, rfl, ⟨h.startStrOff, ?_, ?_, h.strLen, h.limit⟩,
        ⟨rfl, rfl, rfl, fun _ => rfl⟩, hv⟩
      · rw [hv]
        rfl
      · rw [htable]
        exact ⟨hshows, hmax⟩

theorem Btf.Shows.findStr (h : btf.Shows v) {set : Strset} (hset : btf.strs = .set set)
    (a : StrsetAlloc) (s : CStr) :
    ({ btf with strs := .set (strsetFindStr a set s).2 } : Btf).Shows v ∧
      ((strsetFindStr a set s).1 = v.own s ∨ (strsetFindStr a set s).1 = -ENOMEM ∧ a ≠ {}) := by
  have hstrs := h.strs
  have hready := h.ready
  rw [Btf.ready, Btf.isModifiable] at hready
  simp only [hset] at hstrs hready
  obtain ⟨hshows, hmax⟩ := hstrs
  obtain ⟨hshows', -, hmax', hcases⟩ := hshows.strsetFindStr a s
  refine ⟨⟨h.startStrOff, hready, ⟨hshows', hmax'.trans hmax⟩, h.strLen, h.limit⟩, ?_⟩
  unfold StrView.own
  rw [hshows.length_text]
  split_ifs with hfits
  · rcases hcases with ⟨hnomem, hfull⟩ | ⟨-, hret⟩
    · refine .inr ⟨hnomem, fun ha => ?_⟩
      have hlt := hfull ha
      omega
    · exact .inl hret
  · rcases hcases with ⟨hnomem, -⟩ | ⟨hfits', -⟩
    · exact .inl hnomem
    · rw [hmax] at hfits'
      exact absurd hfits' hfits

theorem findView_cons {off : Int} (h : findView s vs = .ok off) :
    findView s (v :: vs) = if off ≠ -ENOENT then .ok off
      else if v.ready then .ok (v.find s) else .error .fault := by
  simp only [findView, h]

theorem btfFindStr_cases (s : Option CStr) (h : List.Forall₂ Btf.Shows chain vs) :
    (∃ off chain', btfFindStr a s chain = .ok (off, chain') ∧ List.Forall₂ Btf.Shows chain' vs ∧
        List.Forall₂ Frame chain chain' ∧
        (∀ str, s = some str → findView str vs = .ok off ∨ off = -ENOMEM ∧ a ≠ granted) ∧
        (s = none → off < 0)) ∨ (btfFindStr a s chain = .error .fault ∧
        ∀ str, s = some str → findView str vs = .error .fault) := by
  induction h generalizing a with
  | nil => exact .inl ⟨_, [], rfl, .nil, .nil, fun _ _ => .inl rfl, fun _ => by decide⟩
  | @cons btf v chain vs hbtf _ ih =>
    unfold btfFindStr
    rcases ih (fun i => a (i + 1)) with ⟨off, chain', hfind, hshows, hframe, hview, hnone⟩ |
      ⟨hfault, hview⟩
    · simp only [hfind]
      by_cases hoff : off = -ENOENT
      · subst hoff
        have hview' : ∀ str, s = some str → findView str vs = .ok (-ENOENT) := by
          intro str hstr
          rcases hview str hstr with hok | ⟨hnomem, -⟩
          · exact hok
          · exact absurd hnomem (by decide)
        rw [if_neg (by simp)]
        rcases hbtf.ensure (a 0).ensure with ⟨btf', set, hens, hset, hshows', hframe', hready⟩ |
          ⟨hready, hens⟩ | ⟨e, hens, hne⟩
        · simp only [hens, hset]
          cases s with
          | none => exact .inr ⟨rfl, by simp⟩
          | some str =>
            obtain ⟨hshows'', hret⟩ := hshows'.findStr hset (a 0).str str
            have hframe'' : Frame btf
                { btf' with strs := .set (strsetFindStr (a 0).str set str).2 } :=
              hframe'.trans ⟨rfl, rfl, rfl, fun _ => rfl⟩
            dsimp only
            rw [← apply_ite (fun off => Except.ok (off, _))]
            refine .inl ⟨_, _, rfl, .cons hshows'' hshows, .cons hframe'' hframe, ?_, nofun⟩
            rintro _ ⟨⟩
            rcases hret with hown | ⟨hnomem, hne⟩
            · left
              rw [findView_cons (hview' str rfl), if_neg (by simp), if_pos hready,
                StrView.find, ← hown,
                ← hshows'.startStrOff]
            · rw [hnomem]
              exact .inr ⟨rfl, fun heq => hne (heq ▸ rfl)⟩
        · simp only [hens]
          refine .inr ⟨trivial, fun str hstr => ?_⟩
          rw [findView_cons (hview' str hstr), if_neg (by simp), if_neg (by simp [hready])]
        · simp only [hens]
          exact .inl ⟨_, _, rfl, .cons hbtf hshows, .cons (.refl btf) hframe, fun _ _ =>
            .inr ⟨rfl, fun heq => hne (heq ▸ rfl)⟩, fun _ => by decide⟩
      · rw [if_pos hoff]
        refine .inl ⟨off, _, rfl, .cons hbtf hshows, .cons (.refl btf) hframe, ?_, hnone⟩
        intro str hstr
        rcases hview str hstr with hok | ⟨hnomem, hne⟩
        · left
          rw [findView_cons hok, if_pos hoff]
        · exact .inr ⟨hnomem, fun heq => hne (by rw [heq]; rfl)⟩
    · simp only [hfault]
      refine .inr ⟨trivial, fun str hstr => ?_⟩
      simp only [findView, hview str hstr]

end

/-! ## Adding a string -/

def BtfState.chain (st : BtfState) : List Btf := st.btf :: st.base

/-- What `btf__add_str` does: it returns the offset that a base has for the string, or that of the
own table with the string. -/
inductive StrOutcome
  | fault
  | refused
  | found (off : Int)
  | entered (ret : Int) (table : StringTable)

def addView (s : CStr) (v : StrView) (vs : List StrView) : StrOutcome :=
  match findView s vs with
  | .error _ => .fault
  | .ok off =>
    if off ≠ -ENOENT then
      if off < 0 then .refused else .found off
    else if !v.ready then .fault
    else if v.table.text.length + s.stored.length ≤ BTF_MAX_STR_OFFSET then
      .entered (v.startStrOff + BitVec.ofInt 32 (toCInt (v.table.add s).1)).toInt (v.table.add s).2
    else .refused

/-- The objects answer as before. -/
structure Kept (vs : List StrView) (st st' : BtfState) : Prop where
  shows : List.Forall₂ Btf.Shows st'.chain vs
  frame : List.Forall₂ Frame st.chain st'.chain
  nullWrites : st'.nullWrites = st.nullWrites

/-- The string storage of the object now shows `table`, and its header says so. -/
structure Entered (table : StringTable) (v : StrView) (vs : List StrView) (st st' : BtfState) :
    Prop where
  shows : List.Forall₂ Btf.Shows st'.chain ({ v with table := table } :: vs)
  base : List.Forall₂ Frame st.base st'.base
  frame : Frame { st.btf with
    hdr := { st.btf.hdr with strLen := BitVec.ofNat 32 table.text.length } } st'.btf
  modifiable : st'.btf.isModifiable = true
  nullWrites : st'.nullWrites = st.nullWrites

def StrOutcome.Holds (v : StrView) (vs : List StrView) (st : BtfState)
    (r : EStateM.Result BtfStop BtfState Int) : StrOutcome → Prop
  | fault => ∃ st', r = .error .fault st'
  | refused => ∃ e st', r = .error (.err e) st' ∧ Kept (v :: vs) st st'
  | found off => ∃ st', r = .ok off st' ∧ Kept (v :: vs) st st'
  | entered ret table => ∃ st', r = (if ret < 0 then .error (.err ret) st' else .ok ret st') ∧
      Entered table v vs st st'

variable {st₁ st₂ st₃ : BtfState} {table : StringTable}

section
variable {st : BtfState} {v : StrView} {vs : List StrView}

theorem forall₂_frame_refl (chain : List Btf) : List.Forall₂ Frame chain chain :=
  List.forall₂_same.2 fun btf _ => .refl btf

theorem forall₂_frame_trans {chain₁ chain₂ chain₃ : List Btf} (h : List.Forall₂ Frame chain₁ chain₂)
    (h' : List.Forall₂ Frame chain₂ chain₃) : List.Forall₂ Frame chain₁ chain₃ := by
  induction h generalizing chain₃ with
  | nil => exact h'
  | cons hframe _ ih =>
    cases h' with
    | cons hframe' hrest => exact .cons (hframe.trans hframe') (ih hrest)

theorem Kept.trans (h : Kept vs st₁ st₂) (h' : Kept vs st₂ st₃) : Kept vs st₁ st₃ :=
  ⟨h'.shows, forall₂_frame_trans h.frame h'.frame, h'.nullWrites.trans h.nullWrites⟩

theorem Kept.entered (h : Kept (v :: vs) st₁ st₂)
    (h' : Entered table v vs st₂ st₃) : Entered table v vs st₁ st₃ := by
  obtain ⟨hbtf, hbase⟩ := List.forall₂_cons.1 h.frame
  refine ⟨h'.shows, forall₂_frame_trans hbase h'.base, ⟨?_, ?_, ?_, fun _ => h'.modifiable⟩,
    h'.modifiable, h'.nullWrites.trans h.nullWrites⟩
  · rw [h'.frame.hdr, hbtf.hdr]
  · exact h'.frame.types.trans hbtf.types
  · exact h'.frame.startId.trans hbtf.startId

theorem run_retInt (ret : Int) :
    retInt ret st = if ret < 0 then .error (.err ret) st else .ok ret st := by
  unfold retInt
  split <;> rfl

theorem addStrToSet_cases (h : List.Forall₂ Btf.Shows st.chain (v :: vs)) {set : Strset}
    (hset : st.btf.strs = .set set) (hready : v.ready = true) (a : StrsetAlloc) (s : CStr) :
    (v.table.text.length + s.stored.length ≤ BTF_MAX_STR_OFFSET ∧
        (StrOutcome.entered (v.startStrOff + BitVec.ofInt 32 (toCInt (v.table.add s).1)).toInt
          (v.table.add s).2).Holds v vs st (addStrToSet a (some s) st)) ∨
      (∃ e st', addStrToSet a (some s) st = .error (.err e) st' ∧ Kept (v :: vs) st st') ∧
        (a ≠ {} ∨ ¬v.table.text.length + s.stored.length ≤ BTF_MAX_STR_OFFSET) := by
  obtain ⟨hbtf, hbase⟩ := List.forall₂_cons.1 h
  have hstrs := hbtf.strs
  simp only [hset] at hstrs
  obtain ⟨hshows, hmax⟩ := hstrs
  obtain ⟨hmax', hcases⟩ := hshows.strsetAddStr a s
  have hrun : addStrToSet a (some s) st = if (strsetAddStr a set s).1 < 0 then
        .error (.err (strsetAddStr a set s).1)
          { st with btf := { st.btf with strs := .set (strsetAddStr a set s).2 } }
      else retInt (st.btf.startStrOff + BitVec.ofInt 32 (strsetAddStr a set s).1).toInt
        { st with btf := { st.btf with
          strs := .set (strsetAddStr a set s).2
          hdr := { st.btf.hdr with
            strLen := BitVec.ofNat 32 (strsetAddStr a set s).2.strsDataLen } } } := by
    unfold addStrToSet
    simp only [bind, EStateM.bind, get, getThe, MonadStateOf.get, EStateM.get, hset]
    split <;> rfl
  rw [hrun]
  rcases hcases with ⟨hnomem, hkept, hfull⟩ | ⟨hfits, hret, hshows'⟩
  · right
    rw [hnomem]
    refine ⟨⟨_, _, rfl, ⟨.cons ?_ hbase, .cons ⟨rfl, rfl, rfl, fun _ => rfl⟩ (forall₂_frame_refl _),
      rfl⟩⟩, ?_⟩
    · exact ⟨hbtf.startStrOff, hready.symm, ⟨hkept, hmax'.trans hmax⟩, hbtf.strLen, hbtf.limit⟩
    by_contra hboth
    obtain ⟨rfl, hfits⟩ : a = {} ∧ v.table.text.length + s.stored.length ≤ BTF_MAX_STR_OFFSET :=
      by simpa only [not_or, not_not] using hboth
    rw [hshows.length_text] at hfits
    have hlt := hfull rfl (hmax ▸ hfits)
    have hsz := hshows.index.sz_le
    unfold BTF_MAX_STR_OFFSET at hfits
    omega
  · left
    rw [hmax] at hfits
    have hlen := hshows'.length_text
    rw [if_neg (Int.not_lt.2 (hret ▸ toCInt_nonneg (hshows.add_le hfits))), run_retInt,
      hret, ← hlen,
      hbtf.startStrOff]
    rw [← hshows.length_text] at hfits
    refine ⟨hfits, _, rfl, ?_⟩
    refine ⟨.cons ⟨hbtf.startStrOff, hready.symm, ⟨hshows', hmax'.trans hmax⟩, ?_, ?_⟩ hbase,
      forall₂_frame_refl _, ⟨rfl, rfl, rfl, fun _ => rfl⟩, rfl, rfl⟩
    · exact Nat.mod_le _ _
    · unfold add
      cases v.table.offsetOf s.bytes with
      | some off => exact hbtf.limit
      | none =>
        rw [List.length_append]
        omega

theorem run_btfAddStr (s : Option CStr) : btfAddStr a s st =
      match btfFindStr (fun i => a (i + 1)) s st.base with
      | .error _ => .error .fault st
      | .ok (off, base) =>
        if off ≠ -ENOENT then retInt off { st with base := base }
        else
          match btfEnsureModifiable (a 0).ensure st.btf with
          | .error .fault => .error .fault { st with base := base }
          | .error (.err _) => .error (.err (-ENOMEM)) { st with base := base }
          | .ok btf => addStrToSet (a 0).str s { st with btf := btf, base := base } := by
  unfold btfAddStr
  simp only [bind, EStateM.bind, get, getThe, MonadStateOf.get, EStateM.get]
  cases btfFindStr (fun i => a (i + 1)) s st.base with
  | error e => rfl
  | ok r =>
    dsimp only
    split_ifs with hoff
    · rfl
    unfold ensureModifiable
    simp only [bind, EStateM.bind, set, MonadStateOf.set, EStateM.set, get, getThe,
      MonadStateOf.get, EStateM.get]
    cases btfEnsureModifiable (a 0).ensure st.btf with
    | error e => cases e <;> rfl
    | ok btf => rfl

theorem btfAddStr_cases (h : List.Forall₂ Btf.Shows st.chain (v :: vs)) (a : Nat → StrAlloc)
    (s : CStr) : (addView s v vs).Holds v vs st (btfAddStr a (some s) st) ∨ a ≠ granted ∧
      ∃ e st', btfAddStr a (some s) st = .error (.err e) st' ∧ Kept (v :: vs) st st' := by
  obtain ⟨hbtf, hbase⟩ := List.forall₂_cons.1 h
  rw [run_btfAddStr]
  rcases btfFindStr_cases (fun i => a (i + 1)) (some s) hbase with
    ⟨off, base', hfind, hshows, hframe, hview, -⟩ | ⟨hfault, hview⟩
  · have hkept : Kept (v :: vs) st { st with base := base' } :=
      ⟨.cons hbtf hshows, .cons (.refl _) hframe, rfl⟩
    simp only [hfind]
    rcases hview s rfl with hok | ⟨rfl, hne⟩
    · by_cases hoff : off = -ENOENT
      · subst hoff
        rcases hbtf.ensure (a 0).ensure with ⟨btf', set, hens, hset, hshows', hframe', hready⟩ |
          ⟨hready, hens⟩ | ⟨e, hens, hne⟩
        · simp only [hens]
          have hstart : List.Forall₂ Btf.Shows
              ({ st with btf := btf', base := base' } : BtfState).chain (v :: vs) :=
            .cons hshows' hshows
          have hens' : Kept (v :: vs) st { st with btf := btf', base := base' } :=
            ⟨hstart, .cons hframe' hframe, rfl⟩
          rcases addStrToSet_cases hstart hset hready (a 0).str s with ⟨hfits, hent⟩ |
            ⟨⟨e, st', hrun, hkept'⟩, hreason⟩
          · left
            have hview : addView s v vs = .entered (v.startStrOff +
                BitVec.ofInt 32 (toCInt (v.table.add s).1)).toInt (v.table.add s).2 := by
              simp only [addView, hok, hready, if_pos hfits]
              rfl
            rw [hview]
            obtain ⟨st', hrun, hent'⟩ := hent
            exact ⟨st', hrun, hens'.entered hent'⟩
          · by_cases ha : a = granted
            · left
              have hview : addView s v vs = .refused := by
                subst ha
                have hfull := hreason.resolve_left (not_not.2 rfl)
                simp only [addView, hok, hready, if_neg hfull]
                rfl
              rw [hview]
              exact ⟨e, st', hrun, hens'.trans hkept'⟩
            · exact .inr ⟨ha, e, st', hrun, hens'.trans hkept'⟩
        · left
          have hview : addView s v vs = .fault := by
            simp only [addView, hok, hready]
            rfl
          rw [hview]
          simp only [hens]
          exact ⟨_, rfl⟩
        · right
          simp only [hens]
          exact ⟨fun heq => hne (heq ▸ rfl), _, _, rfl, hkept⟩
      · left
        rw [run_retInt]
        simp only [addView, hok, if_pos hoff]
        split
        · exact ⟨_, _, rfl, hkept⟩
        · exact ⟨_, rfl, hkept⟩
    · right
      exact ⟨fun heq => hne (by rw [heq]; rfl), _, _, rfl, hkept⟩
  · left
    simp only [hfault, addView, hview s rfl]
    exact ⟨_, rfl⟩

theorem btfAddStr_none (h : List.Forall₂ Btf.Shows st.chain (v :: vs)) (a : Nat → StrAlloc) :
    wp (btfAddStr a none) (fun _ _ => False)
      (fun e st' => e = .fault ∨ Kept (v :: vs) st st') st := by
  obtain ⟨hbtf, hbase⟩ := List.forall₂_cons.1 h
  unfold wp
  rw [run_btfAddStr]
  rcases btfFindStr_cases (fun i => a (i + 1)) none hbase with
    ⟨off, base', hfind, hshows, hframe, -, hnone⟩ | ⟨hfault, -⟩
  · have hkept : Kept (v :: vs) st { st with base := base' } :=
      ⟨.cons hbtf hshows, .cons (.refl _) hframe, rfl⟩
    simp only [hfind]
    split_ifs with hoff
    · rw [run_retInt, if_pos (hnone rfl)]
      exact .inr hkept
    rcases hbtf.ensure (a 0).ensure with ⟨btf', set, hens, hset, -⟩ | ⟨-, hens⟩ | ⟨e, hens, -⟩
    · simp only [hens]
      unfold addStrToSet
      simp only [bind, EStateM.bind, get, getThe, MonadStateOf.get, EStateM.get, hset]
      exact .inl rfl
    · simp only [hens]
      exact .inl trivial
    · simp only [hens]
      exact .inr hkept
  · simp only [hfault]
    exact .inl trivial

/-! ## Strings that are there -/

/-- `btf__add_str`, given memory, returns an offset without changing the length of the strings. -/
def Held (st : BtfState) (s : CStr) : Prop :=
  ∃ off st', btfAddStr granted (some s) st = .ok off st' ∧ st'.btf.hdr.strLen = st.btf.hdr.strLen

/-- `btf__add_str`, given memory, changes the length of the strings. -/
def Grows (st : BtfState) (s : CStr) : Prop :=
  match btfAddStr granted (some s) st with
  | .ok _ st' | .error (.err _) st' => st'.btf.hdr.strLen ≠ st.btf.hdr.strLen
  | .error .fault _ => False

theorem Kept.strLen {st' : BtfState} (h : Kept (v :: vs) st st') :
    st'.btf.hdr.strLen = st.btf.hdr.strLen := by
  rw [(List.forall₂_cons.1 h.frame).1.hdr]

theorem btfAddStr_granted (h : List.Forall₂ Btf.Shows st.chain (v :: vs)) (s : CStr) :
    (addView s v vs).Holds v vs st (btfAddStr granted (some s) st) :=
  (btfAddStr_cases h granted s).resolve_right fun hne => hne.1 rfl

theorem addView_entered {s : CStr} {ret : Int} (hbtf : st.btf.Shows v)
    (h : addView s v vs = .entered ret table)
    (hlen : BitVec.ofNat 32 table.text.length = st.btf.hdr.strLen) : table = v.table := by
  have hstrLen := hbtf.strLen
  unfold addView at h
  split at h
  · cases h
  split_ifs at h with _ _ _ hfits
  cases h
  revert hlen
  unfold add
  cases v.table.offsetOf s.bytes with
  | some off => exact fun _ => rfl
  | none =>
    intro hlen
    have hnat := congrArg BitVec.toNat hlen
    rw [BitVec.toNat_ofNat, List.length_append] at hnat
    have hpos : 0 < s.stored.length := by simp
    unfold BTF_MAX_STR_OFFSET at hfits
    omega

variable (h : List.Forall₂ Btf.Shows st.chain (v :: vs))
include h

theorem grows_iff (s : CStr) : Grows st s ↔ ∃ ret table, addView s v vs = .entered ret table ∧
      BitVec.ofNat 32 table.text.length ≠ st.btf.hdr.strLen := by
  have hholds := btfAddStr_granted h s
  unfold Grows
  generalize hview : addView s v vs = o at hholds ⊢
  cases o with
  | fault =>
    obtain ⟨st', hrun⟩ := hholds
    simp [hrun]
  | refused =>
    obtain ⟨e, st', hrun, hkept⟩ := hholds
    simp [hrun, hkept.strLen]
  | found off =>
    obtain ⟨st', hrun, hkept⟩ := hholds
    simp [hrun, hkept.strLen]
  | entered ret table =>
    obtain ⟨st', hrun, hent⟩ := hholds
    have hlen : st'.btf.hdr.strLen = BitVec.ofNat 32 table.text.length := by rw [hent.frame.hdr]
    rw [hrun]
    by_cases hret : ret < 0
    · rw [if_pos hret]
      simp [hlen]
    · rw [if_neg hret]
      simp [hlen]

theorem held_iff (s : CStr) : Held st s ↔ (∃ off, addView s v vs = .found off) ∨ ∃ ret, 0 ≤ ret ∧
      addView s v vs = .entered ret v.table ∧
      BitVec.ofNat 32 v.table.text.length = st.btf.hdr.strLen := by
  have hholds := btfAddStr_granted h s
  unfold Held
  generalize hview : addView s v vs = o at hholds ⊢
  cases o with
  | fault =>
    obtain ⟨st', hrun⟩ := hholds
    simp [hrun]
  | refused =>
    obtain ⟨e, st', hrun, -⟩ := hholds
    simp [hrun]
  | found off =>
    obtain ⟨st', hrun, hkept⟩ := hholds
    exact iff_of_true ⟨off, st', hrun, hkept.strLen⟩ (.inl ⟨off, rfl⟩)
  | entered ret table =>
    obtain ⟨st', hrun, hent⟩ := hholds
    have hlen : st'.btf.hdr.strLen = BitVec.ofNat 32 table.text.length := by rw [hent.frame.hdr]
    constructor
    · rintro ⟨off, st'', hrun', hsame⟩
      rw [hrun] at hrun'
      split_ifs at hrun' with hret
      cases hrun'
      rw [hlen] at hsame
      obtain rfl := addView_entered (List.forall₂_cons.1 h).1 hview hsame
      exact .inr ⟨ret, Int.not_lt.1 hret, rfl, hsame⟩
    · rintro (⟨off, hfound⟩ | ⟨ret', hret, hent', hsame⟩)
      · cases hfound
      · cases hent'
        refine ⟨ret, st', ?_, hlen.trans hsame⟩
        rw [hrun, if_neg (Int.not_lt.2 hret)]

end

end LinuxKernel.Bpf
