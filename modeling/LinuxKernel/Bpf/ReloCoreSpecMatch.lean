import LinuxKernel.Bpf.ReloCoreConsistency

/-!
# CO-RE relocations: matching a spec

The accessors of the local spec are matched one after the other. The target spec is consistent if
each named accessor meets a compatible field first; and if it does not, some choice of the offsets
of the target's members makes the target spec inconsistent.
-/

namespace LinuxKernel.Bpf

open List Option Except Prod

/-! ## One accessor -/

def BpfCoreSpec.addElement (spec : BpfCoreSpec) (id : Nat) (idx : U32) (sz : Nat) :
    BpfCoreSpec where
  spec := spec.spec ++ [⟨id, idx, none⟩]
  rawSpec := spec.rawSpec ++ [idx]
  bitOffset := spec.bitOffset + idx * BitVec.ofNat 32 sz * 8

section
variable {localBtf targ : BtfView} {first : Bool} {acc : BpfCoreAccessor}
    {accs : List BpfCoreAccessor}
  {id : Nat} {spec out : BpfCoreSpec}

theorem matchAccessors_named_iff (hname : acc.name.isSome = true) :
    matchAccessors localBtf targ first (acc :: accs) id spec = .ok (some out) ↔
      ∃ targId t next spec', skipModsAndTypedefs targ id = .ok (targId, t) ∧
        bpfCoreMatchMember localBtf acc targ (BPF_CORE_SPEC_MAX_LEN + 1) targId spec =
          .ok (some next, spec') ∧
        matchAccessors localBtf targ false accs next spec' = .ok (some out) := by
  simp only [matchAccessors, bind, Except.bind, hname, if_true]
  cases hskip : skipModsAndTypedefs targ id with
  | error e => simp
  | ok r =>
    obtain ⟨targId, t⟩ := r
    cases hmatch : bpfCoreMatchMember localBtf acc targ (BPF_CORE_SPEC_MAX_LEN + 1) targId spec with
    | error e => simp [hmatch]
    | ok r =>
      obtain ⟨next, spec'⟩ := r
      cases next with
      | none => simp [hmatch, pure, Except.pure]
      | some next => simp [hmatch]

theorem matchAccessors_element_iff (hname : acc.name.isSome = false) :
    matchAccessors localBtf targ first (acc :: accs) id spec = .ok (some out) ↔
      ∃ targId t elemId sz, skipModsAndTypedefs targ id = .ok (targId, t) ∧
        targElement targ first targId t spec acc.idx = .ok (some elemId) ∧
        spec.rawSpec.length ≠ BPF_CORE_SPEC_MAX_LEN ∧ btfResolveSize targ elemId = .ok sz ∧
        sz < 2 ^ 31 ∧
        matchAccessors localBtf targ false accs elemId (spec.addElement elemId acc.idx sz) =
          .ok (some out) := by
  simp only [matchAccessors, bind, Except.bind, hname, Bool.false_eq_true, if_false]
  cases hskip : skipModsAndTypedefs targ id with
  | error e => simp
  | ok r =>
    obtain ⟨targId, t⟩ := r
    simp only [Except.ok.injEq, mk.injEq]
    cases helem : targElement targ first targId t spec acc.idx with
    | error e => simp [helem]
    | ok r =>
      cases r with
      | none => simp [helem, pure, Except.pure]
      | some elemId =>
        by_cases hroom : spec.rawSpec.length = BPF_CORE_SPEC_MAX_LEN
        · simp [hroom, throw, throwThe, MonadExceptOf.throw]
        cases hsize : btfResolveSize targ elemId with
        | error e => simp [helem, hroom, hsize]
        | ok sz =>
          rcases Nat.lt_or_ge sz 2147483648 with hlt | hge
          · have hnot : ¬ 2147483648 ≤ sz := Nat.not_le.2 hlt
            simp [helem, hroom, hsize, hlt, hnot, BpfCoreSpec.addElement]
          · have hnot : ¬ sz < 2147483648 := Nat.not_lt.2 hge
            simp [helem, hroom, hsize, hge, hnot, throw, throwThe, MonadExceptOf.throw]

variable {targId elemId : Nat} {t : BtfType} {idx : U32}

theorem targElement_eq_some_iff : targElement targ false targId t spec idx = .ok (some elemId) ↔
      t.isArray = true ∧
        (spec.spec.getLast?.any (isFlexArr targ · t.array) = true ∨ idx < t.array.nelems) ∧
        ∃ elem, skipModsAndTypedefs targ t.array.type.toNat = .ok (elemId, elem) := by
  have hindex : (!spec.spec.getLast?.any (isFlexArr targ · t.array) &&
    decide (t.array.nelems ≤ idx)) =
      false ↔ spec.spec.getLast?.any (isFlexArr targ · t.array) = true ∨ idx < t.array.nelems := by
    rw [Bool.and_eq_false_iff, Bool.not_eq_false', decide_eq_false_iff_not, BitVec.not_le]
  rw [← hindex, targElement]
  cases t.isArray with
  | false => simp
  | true =>
    cases !spec.spec.getLast?.any (isFlexArr targ · t.array) && decide (t.array.nelems ≤ idx) with
    | true => simp
    | false =>
      cases hskip : skipModsAndTypedefs targ t.array.type.toNat with
      | error e => simp
      | ok r => simp [Prod.ext_iff]

theorem BtfView.SameShape.targElement {targ' : BtfView} (h : targ.SameShape targ')
    {t' : BtfType} (hshape : t.SameShape t') (b : U32)
    (helem : Bpf.targElement targ first targId t spec idx = .ok (some elemId)) :
    Bpf.targElement targ' first targId t' { spec with bitOffset := b } idx = .ok (some elemId) := by
  cases first with
  | true => exact helem
  | false =>
    obtain ⟨harray, hindex, elem, hskip⟩ := targElement_eq_some_iff.1 helem
    have harr := hshape.array (BtfType.not_isComposite_of_isArray harray)
    rw [targElement_eq_some_iff, hshape.isArray, harr]
    refine ⟨harray, ?_, ?_⟩
    · simpa only [h.isFlexArr] using hindex
    · obtain ⟨elem', hskip', -⟩ := h.skip_ok hskip
      exact ⟨elem', hskip'⟩

theorem exists_localMember {depth next : Nat} {spec' : BpfCoreSpec}
    (h : bpfCoreMatchMember localBtf acc targ depth id spec = .ok (some next, spec')) :
    ∃ field name, localMember localBtf acc = some (field, name) := by
  cases hlocal : localMember localBtf acc with
  | some r => exact ⟨r.1, r.2, rfl⟩
  | none =>
    cases depth with
    | zero => simp [bpfCoreMatchMember] at h
    | succ depth =>
      rw [bpfCoreMatchMember] at h
      cases hskip : skipModsAndTypedefs targ id with
      | error e => simp [hskip] at h
      | ok r =>
        simp only [hskip, hlocal] at h
        split at h <;> simp at h

end

/-! ## All accessors -/

section
variable (localBtf targ : BtfView)

/-- For each named accessor the first field of its name, in the order of the search, is compatible
with the field of the local type. -/
def Unambiguous : Bool → List BpfCoreAccessor → Nat → Prop
  | _, [], _ => True
  | first, acc :: accs, id =>
    ∀ targId t, skipModsAndTypedefs targ id = .ok (targId, t) →
      if acc.name.isSome then
        ∀ field name path m, localMember localBtf acc = some (field, name) →
          FirstNamed targ name (.type targId) (some (path, m)) →
          bpfCoreFieldsAreCompat localBtf field.type.toNat targ m.type.toNat = .ok true ∧
            Unambiguous false accs m.type.toNat
      else if first then Unambiguous false accs targId
      else
        ∀ elemId elem, skipModsAndTypedefs targ t.array.type.toNat = .ok (elemId, elem) →
          Unambiguous false accs elemId

end

section
variable {localBtf targ : BtfView}
  {acc : BpfCoreAccessor} {accs : List BpfCoreAccessor} {id targId : Nat} {t : BtfType}
  {field : BtfMember} {name : List (BitVec 8)}

theorem unambiguous_named {first : Bool} {m : BtfMember}
    {path : List (Nat × Nat)} (hname : acc.name.isSome = true)
    (hskip : skipModsAndTypedefs targ id = .ok (targId, t))
    (hlocal : localMember localBtf acc = some (field, name))
    (hfirst : FirstNamed targ name (.type targId) (some (path, m))) :
    Unambiguous localBtf targ first (acc :: accs) id ↔
      bpfCoreFieldsAreCompat localBtf field.type.toNat targ m.type.toNat = .ok true ∧
        Unambiguous localBtf targ false accs m.type.toNat := by
  rw [Unambiguous]
  simp only [hskip, hname, if_true, hlocal, ok.injEq, mk.injEq, some.injEq]
  constructor
  · intro h
    exact h targId t ⟨rfl, rfl⟩ field name path m ⟨rfl, rfl⟩ hfirst
  · rintro h _ _ ⟨rfl, rfl⟩ _ _ path' m' ⟨rfl, rfl⟩ hfirst'
    cases hfirst.unique hfirst'
    exact h

variable {elemId : Nat} {elem : BtfType}

theorem unambiguous_element (hname : acc.name.isSome = false)
    (hskip : skipModsAndTypedefs targ id = .ok (targId, t))
    (helem : skipModsAndTypedefs targ t.array.type.toNat = .ok (elemId, elem)) :
    Unambiguous localBtf targ false (acc :: accs) id ↔
      Unambiguous localBtf targ false accs elemId := by
  rw [Unambiguous]
  simp only [hskip, hname, Bool.false_eq_true, if_false, ok.injEq, mk.injEq]
  constructor
  · intro h
    exact h targId t ⟨rfl, rfl⟩ elemId elem helem
  · rintro h _ _ ⟨rfl, rfl⟩ elemId' elem' helem'
    cases helem.symm.trans helem'
    exact h

theorem unambiguous_first (hname : acc.name.isSome = false)
    (hskip : skipModsAndTypedefs targ id = .ok (targId, t)) :
    Unambiguous localBtf targ true (acc :: accs) id ↔
      Unambiguous localBtf targ false accs targId := by
  rw [Unambiguous]
  simp only [hskip, hname, Bool.false_eq_true, if_false, if_true, ok.injEq, mk.injEq]
  constructor
  · intro h
    exact h targId t ⟨rfl, rfl⟩
  · rintro h _ _ ⟨rfl, rfl⟩
    exact h

/-- An array that the last accessor makes flexible is an empty array behind the last member. -/
def FlexOk (targ : BtfView) (spec : BpfCoreSpec) (lastMember : Bool) : Prop :=
  ∀ arr, spec.spec.getLast?.any (isFlexArr targ · arr) = true → arr.nelems = 0 ∧ lastMember = true

theorem flexOk_element (targ : BtfView) (spec : BpfCoreSpec) (id : Nat) (idx : U32) (sz : Nat) :
    FlexOk targ (spec.addElement id idx sz) false := by
  intro arr harr
  simp [BpfCoreSpec.addElement, isFlexArr] at harr

variable {spec : BpfCoreSpec}

theorem flexOk_named {targ : BtfView} {k i : Nat}
    {name : Option (List (BitVec 8))} (hm : (targ.memberAt k i).isSome = true)
    (hspec : spec.spec = accs ++ [⟨k, BitVec.ofNat 32 i, name⟩]) :
    FlexOk targ spec (targ.isLastMember k i) := by
  intro arr harr
  obtain ⟨m, hm⟩ := isSome_iff_exists.1 hm
  obtain ⟨t, htype, -, -, hi, hvlen⟩ := targ.memberAt_eq_some hm
  rw [hspec, getLast?_concat, any_some, isFlexArr] at harr
  split at harr
  · simp at harr
  next hempty =>
    simp only [htype, decide_eq_true_eq] at harr
    have hlast : i + 1 = t.vlen := by
      have hone : (1 : U32).toNat = 1 := rfl
      have hidx := congrArg BitVec.toNat harr
      simp only [BitVec.toNat_sub, BitVec.toNat_ofNat, hone] at hidx
      omega
    have hnelems : arr.nelems = 0 := by
      simp only [Bool.or_eq_true, decide_eq_true_eq, not_or] at hempty
      simpa using hempty.2
    exact ⟨hnelems, by simp [BtfView.isLastMember, htype, hlast]⟩

/-- What matching a list of accessors adds to the target spec. -/
structure AccessorsRun (localBtf targ : BtfView) (accs : List BpfCoreAccessor) (id : Nat)
    (spec out : BpfCoreSpec) (raw : List U32) (steps : List WalkStep) : Prop where
  runs : ∀ targ', targ.SameShape targ' → ∀ b,
    matchAccessors localBtf targ' false accs id { spec with bitOffset := b } =
      .ok (some ⟨out.spec, spec.rawSpec ++ raw, b + offsetSum targ' steps⟩)
  walks : ∀ lastMember, FlexOk targ spec lastMember → Unambiguous localBtf targ false accs id →
    walkFrom targ lastMember id raw = some steps
  rank_le : ∀ rank, targ.Ranked rank → ∀ k j, .member k j ∈ steps → rank k ≤ rank id
  astray : ∀ rank, targ.Ranked rank →
    Unambiguous localBtf targ false accs id ∨ ∃ k j, LeadsAstray targ rank id raw steps k j

variable {out : BpfCoreSpec} {raw : List U32} {steps : List WalkStep}

theorem accessorsRun_named {found : FoundField} {raw' : List U32} {steps' : List WalkStep}
    (hname : acc.name.isSome = true) (hskip : skipModsAndTypedefs targ id = .ok (targId, t))
    (hlocal : localMember localBtf acc = some (field, name))
    (hsearch : Searched localBtf targ field name (.type targId) raw steps (some found))
    (hruns : Runs targ
      (fun targ => bpfCoreMatchMember localBtf acc targ (BPF_CORE_SPEC_MAX_LEN + 1) targId) spec
        raw steps
      (some found))
    (hrest : AccessorsRun localBtf targ accs found.next
      ⟨spec.spec ++ [found.acc], spec.rawSpec ++ raw, spec.bitOffset + offsetSum targ steps⟩
        out raw'
      steps') :
    AccessorsRun localBtf targ (acc :: accs) id spec out (raw ++ raw') (steps ++ steps') := by
  constructor
  case runs =>
    intro targ' hshape b
    obtain ⟨t', hskip', -⟩ := hshape.skip_ok hskip
    rw [matchAccessors_named_iff hname]
    refine ⟨targId, t', found.next, _, hskip', hruns targ' hshape b, ?_⟩
    have hnext := hrest.runs targ' hshape (b + offsetSum targ' steps)
    rw [offsetSum_append, ← add_assoc, ← append_assoc]
    exact hnext
  case walks =>
    intro lastMember _ hclear
    rcases hsearch.firstNamed with ⟨-, -, -, hnone⟩ | ⟨path, m, hfirst, hcases⟩
    · cases hnone
    obtain ⟨hcompat, hclear'⟩ := (unambiguous_named hname hskip hlocal hfirst).1 hclear
    rcases hcases with ⟨-, rfl, rfl, p, hlast, hfound⟩ | ⟨hincompat, -⟩
    · cases hfound
      have hends : endsStruct targ path = targ.isLastMember p.1 p.2 := by
        rw [endsStruct, hlast, any_some]
      have hwalk := hfirst.walkFrom raw' lastMember
      have hrestWalk := hrest.walks (targ.isLastMember p.1 p.2)
        (flexOk_named (hfirst.memberAt p (mem_of_getLast? hlast)) rfl) hclear'
      rw [Place.id, hends, hrestWalk] at hwalk
      rw [walkFrom_skip hskip, hwalk]
      rfl
    · cases hcompat.symm.trans hincompat
  case rank_le =>
    intro rank hrank k j hmem
    have hle := rank_skip_le hrank hskip
    obtain ⟨hsteps, hnext⟩ := hsearch.rank_le hrank
    have hnext := hnext found rfl
    rw [Place.id] at hnext
    rcases mem_append.1 hmem with hmem | hmem
    · obtain ⟨k', j', heq, hk⟩ := hsteps _ hmem
      cases heq
      exact hk.trans hle
    · have := hrest.rank_le rank hrank k j hmem
      omega
  case astray =>
    intro rank hrank
    rcases hsearch.found_cases hrank rfl with ⟨path, m, hfirst, hcompat⟩ | ⟨k, j, hastray, hlt⟩
    · -- the search has found the first field of the name
      rcases hsearch.firstNamed with ⟨-, -, -, hnone⟩ | ⟨path', m', hfirst', hcases⟩
      · cases hnone
      cases hfirst.unique hfirst'
      rcases hcases with ⟨-, rfl, rfl, p, -, hfound⟩ | ⟨hincompat, -⟩
      · cases hfound
        rw [unambiguous_named hname hskip hlocal hfirst]
        rcases hrest.astray rank hrank with hclear | ⟨k, j, hastray⟩
        · exact .inl ⟨hcompat, hclear⟩
        · exact .inr ⟨k, j, (hastray.path hrank hfirst).skip hrank hskip⟩
      · cases hcompat.symm.trans hincompat
    · refine .inr ⟨k, j, (hastray.append fun k' j' hmem => ?_).skip hrank hskip⟩
      exact (hrest.rank_le rank hrank k' j' hmem).trans_lt hlt

variable {sz : Nat}

theorem walkFrom_element {lastMember : Bool} {idx : U32}
    (hskip : skipModsAndTypedefs targ id = .ok (targId, t)) (harray : t.isArray = true)
    (helem : skipModsAndTypedefs targ t.array.type.toNat = .ok (elemId, elem))
    (hsize : btfResolveSize targ elemId = .ok sz) (rest : List U32) :
    walkFrom targ lastMember id (idx :: rest) =
      if indexOk lastMember t.array idx then
        (walkFrom targ false elemId rest).map (.element elemId idx :: ·)
      else none := by
  rw [walkFrom, hskip]
  simp only [BtfType.not_isComposite_of_isArray harray, harray, Bool.true_and, helem, hsize,
    Bool.false_eq_true, if_false]
  cases indexOk lastMember t.array idx <;> rfl

theorem accessorsRun_element (hname : acc.name.isSome = false)
    (hskip : skipModsAndTypedefs targ id = .ok (targId, t))
    (helement : targElement targ false targId t spec acc.idx = .ok (some elemId))
    (hroom : spec.rawSpec.length ≠ BPF_CORE_SPEC_MAX_LEN)
    (hsize : btfResolveSize targ elemId = .ok sz) (hsmall : sz < 2 ^ 31)
    (hrest : AccessorsRun localBtf targ accs elemId (spec.addElement elemId acc.idx sz)
      out raw steps) :
    AccessorsRun localBtf targ (acc :: accs) id spec out (acc.idx :: raw)
      (.element elemId acc.idx :: steps) := by
  obtain ⟨harray, hindex, elem, helem⟩ := targElement_eq_some_iff.1 helement
  have htype := (skipModsAndTypedefs_eq_ok hskip).1
  constructor
  case runs =>
    intro targ' hshape b
    obtain ⟨t', hskip', hts⟩ := hshape.skip_ok hskip
    have hsize' := (hshape.resolveSize elemId).trans hsize
    rw [matchAccessors_element_iff hname]
    refine ⟨targId, t', elemId, sz, hskip', hshape.targElement hts b helement, hroom, hsize',
      hsmall, ?_⟩
    have hnext := hrest.runs targ' hshape (b + acc.idx * BitVec.ofNat 32 sz * 8)
    have hoffset : stepOffset targ' (.element elemId acc.idx) =
        acc.idx * BitVec.ofNat 32 sz * 8 := by
      rw [stepOffset, hsize']
    rw [offsetSum_cons, hoffset, ← add_assoc, ← singleton_append, ← append_assoc]
    exact hnext
  case walks =>
    intro lastMember hflex hclear
    have hok : indexOk lastMember t.array acc.idx = true := by
      rw [indexOk, Bool.or_eq_true]
      rcases hindex with hflexible | hlt
      · obtain ⟨hzero, hlast⟩ := hflex t.array hflexible
        exact .inr (by simp [hzero, hlast])
      · exact .inl (decide_eq_true hlt)
    rw [walkFrom_element hskip harray helem hsize, if_pos hok,
      hrest.walks false (flexOk_element targ spec elemId acc.idx sz)
        ((unambiguous_element hname hskip helem).1 hclear)]
    rfl
  case rank_le =>
    intro rank hrank k j hmem
    have hle := rank_skip_le hrank hskip
    have hlt := rank_element_lt hrank htype harray helem
    have := hrest.rank_le rank hrank k j (by simpa using hmem)
    omega
  case astray =>
    intro rank hrank
    have hle := rank_skip_le hrank hskip
    have hlt := rank_element_lt hrank htype harray helem
    rw [unambiguous_element hname hskip helem]
    rcases hrest.astray rank hrank with hclear | ⟨k, j, hastray⟩
    · exact .inl hclear
    refine .inr ⟨k, j, hastray.member, ?_, by simpa using hastray.not_mem, ?_⟩
    · have := hastray.rank_le
      omega
    intro lastMember rest walked hwalk
    rw [cons_append, walkFrom_element hskip harray helem hsize] at hwalk
    split at hwalk
    · obtain ⟨walked', hwalk', rfl⟩ := map_eq_some_iff.1 hwalk
      exact hastray.count false rest walked' hwalk'
    · simp at hwalk

theorem exists_accessorsRun (h : matchAccessors localBtf targ false accs id spec = .ok (some out)) :
    ∃ raw steps, AccessorsRun localBtf targ accs id spec out raw steps := by
  induction accs generalizing id spec with
  | nil =>
    cases h
    refine ⟨[], [], fun targ' _ b => ?_, fun _ _ _ => rfl, fun _ _ k j hmem => ?_,
      fun _ _ => .inl trivial⟩
    · simp [matchAccessors, offsetSum]
    · simp at hmem
  | cons acc accs ih =>
    cases hname : acc.name.isSome with
    | true =>
      obtain ⟨targId, t, next, spec', hskip, hmatch, hrest⟩ := (matchAccessors_named_iff hname).1 h
      obtain ⟨field, name, hlocal⟩ := exists_localMember hmatch
      obtain ⟨raw, steps, found, hsearch, hruns⟩ := bpfCoreMatchMember_runs hlocal hmatch
      cases found with
      | none => cases hmatch.symm.trans hruns.eq
      | some found =>
        cases hmatch.symm.trans hruns.eq
        obtain ⟨raw', steps', hrun⟩ := ih hrest
        exact ⟨_, _, accessorsRun_named hname hskip hlocal hsearch hruns hrun⟩
    | false =>
      obtain ⟨targId, t, elemId, sz, hskip, helement, hroom, hsize, hsmall, hrest⟩ :=
        (matchAccessors_element_iff hname).1 h
      obtain ⟨raw, steps, hrun⟩ := ih hrest
      exact ⟨_, _, accessorsRun_element hname hskip helement hroom hsize hsmall hrun⟩

end

/-! ## Other layouts -/

def BtfType.setOffsets (t : BtfType) (offset : Nat → U32) : BtfType where
  nameOff := t.nameOff
  info := t.info
  size := t.size
  extra := t.extra.mapIdx fun w x => if t.isComposite ∧ w % 3 = 2 then offset (w / 3) else x
  length_extra := by rw [List.length_mapIdx, t.length_extra]

theorem BtfType.sameShape_setOffsets (t : BtfType) (offset : Nat → U32) :
    t.SameShape (t.setOffsets offset) := by
  refine ⟨rfl, rfl, rfl, fun i hi => ?_⟩
  have hcond : ¬ (t.isComposite = true ∧ i % 3 = 2) := fun h => hi h.1 h.2
  simp [setOffsets, getElem?_mapIdx, hcond]

theorem BtfType.members_setOffsets {t : BtfType} (hcomposite : t.isComposite = true)
    (offset : Nat → U32) (i : Nat) :
    (t.setOffsets offset).members[i]? = t.members[i]?.map fun m =>
    { m with offset := offset i } := by
  have hlen := length_extra_of_isComposite hcomposite
  have hlen' : (t.setOffsets offset).extra.length = 3 * t.vlen := by
    rw [setOffsets, length_mapIdx, hlen]
  rw [members, members, toMembers_eq _ _ hlen, toMembers_eq _ _ hlen']
  simp only [getElem?_map, Option.map_map]
  by_cases hi : i < t.vlen
  · have hword : ∀ w, w < 3 * t.vlen → (t.setOffsets offset).extra.getD w 0 =
        if w % 3 = 2 then offset (w / 3) else t.extra.getD w 0 := by
      intro w hw
      obtain ⟨x, hx⟩ : ∃ x, t.extra[w]? = some x :=
        ⟨_, getElem?_eq_getElem (show w < t.extra.length by omega)⟩
      simp only [setOffsets, getD_eq_getElem?_getD, getElem?_mapIdx, hx, hcomposite,
        true_and, map_some, getD_some]
    rw [getElem?_range hi]
    simp only [Option.map_some, Function.comp, hword (3 * i) (by omega),
      hword (3 * i + 1) (by omega),
      hword (3 * i + 2) (by omega)]
    rw [if_neg (by omega), if_neg (by omega), if_pos (by omega)]
    congr
    omega
  · simp [hi]

def BtfView.setOffsets (btf : BtfView) (offset : Nat → Nat → U32) : BtfView :=
  { btf with types := btf.types.mapIdx fun i t => t.setOffsets (offset (i + 1)) }

theorem BtfView.sameShape_setOffsets (btf : BtfView) (offset : Nat → Nat → U32) :
    btf.SameShape (btf.setOffsets offset) := by
  refine ⟨by simp [setOffsets], fun id => ?_, rfl, rfl⟩
  unfold typeById
  split
  · exact .some (.refl _)
  · simp only [setOffsets, getElem?_mapIdx]
    cases btf.types[id - 1]? with
    | none => exact .none
    | some t => exact .some (t.sameShape_setOffsets _)

theorem BtfView.memberAt_setOffsets (btf : BtfView) (offset : Nat → Nat → U32) (id i : Nat) :
    (btf.setOffsets offset).memberAt id i =
      (btf.memberAt id i).map fun m => { m with offset := offset id i } := by
  by_cases hzero : id = 0
  · subst hzero
    rfl
  have htype : (btf.setOffsets offset).typeById id =
      (btf.typeById id).map fun t => t.setOffsets (offset id) := by
    simp only [typeById, hzero, if_false, setOffsets, getElem?_mapIdx]
    rw [Nat.sub_add_cancel (Nat.one_le_iff_ne_zero.2 hzero)]
  rw [memberAt, memberAt, htype]
  cases btf.typeById id with
  | none => rfl
  | some t =>
    have hshape := t.sameShape_setOffsets (offset id)
    simp only [map_some, bind_some, hshape.isComposite]
    split
    next hcomposite => exact t.members_setOffsets hcomposite (offset id) i
    · rfl

variable {btf : BtfView} {id : Nat}

theorem stepOffset_setOffsets {offset : Nat → Nat → U32} {i : Nat}
    (hsmall : offset id i &&& 0xffffff#32 = offset id i) :
    stepOffset (btf.setOffsets offset) (.member id i) =
      if (btf.memberAt id i).isSome then offset id i else 0 := by
  rw [stepOffset, btf.memberAt_setOffsets]
  cases hm : btf.memberAt id i with
  | none => simp
  | some m =>
    obtain ⟨t, htype, -⟩ := btf.memberAt_eq_some hm
    have htypes := (btf.sameShape_setOffsets offset).types id
    rw [htype] at htypes
    cases htype' : (btf.setOffsets offset).typeById id with
    | none => simp [htype'] at htypes
    | some t' => simp [BtfType.memberBitOffset, hsmall]

/-- All offsets are 0 but that of one member, which is 1. -/
def unitOffset (k j id i : Nat) : U32 := if id = k ∧ i = j then 1 else 0

theorem offsetSum_unitOffset {k j : Nat} (hm : (btf.memberAt k j).isSome = true)
    (steps : List WalkStep) : offsetSum (btf.setOffsets (unitOffset k j)) steps =
      offsetSum (btf.setOffsets fun _ _ => 0) steps + BitVec.ofNat 32
        (steps.count (.member k j)) := by
  induction steps with
  | nil => simp [offsetSum]
  | cons step steps ih =>
    have hstep : stepOffset (btf.setOffsets (unitOffset k j)) step =
        stepOffset (btf.setOffsets fun _ _ => 0) step + if step = .member k j then 1 else 0 := by
      cases step with
      | element id idx =>
        simp only [stepOffset, (btf.sameShape_setOffsets _).resolveSize]
        simp
      | member id i =>
        rw [stepOffset_setOffsets (by unfold unitOffset; split_ifs <;> rfl),
          stepOffset_setOffsets rfl, unitOffset]
        by_cases hsame : id = k ∧ i = j
        · obtain ⟨rfl, rfl⟩ := hsame
          simp [hm]
        · simp [hsame]
    rw [offsetSum_cons, offsetSum_cons, hstep, ih, count_cons]
    by_cases hsame : step = .member k j
    · have hone : (1#32 : U32) = 1 := rfl
      simp only [hsame, if_true, beq_self_eq_true, BitVec.ofNat_add, hone]
      ring
    · simp only [hsame, if_false, beq_iff_eq, Nat.add_zero]
      ring

/-! ## Consistency -/

variable {id' : Nat} {spec spec' : BpfCoreSpec} {idx : U32}

theorem parseAccesses_prefix {accesses : List U32} {out : BpfCoreSpec}
    (h : parseAccesses btf id spec accesses = .ok out) : spec.spec <+: out.spec := by
  induction accesses generalizing id spec with
  | nil =>
    cases h
    exact prefix_rfl
  | cons idx accesses ih =>
    rw [parseAccesses] at h
    split at h
    · cases h
    next id' spec' hnext =>
      refine IsPrefix.trans ?_ (ih h)
      unfold parseAccess at hnext
      split at hnext
      · cases hnext
      · split_ifs at hnext
        · unfold parseMember at hnext
          repeat' split at hnext
          all_goals cases hnext
          · exact prefix_rfl
          · exact prefix_append _ _
        · unfold parseElement at hnext
          repeat' split at hnext
          all_goals cases hnext
          exact prefix_append _ _

theorem bpfCoreParseSpec_spec {typeId : Nat} {rawSpec : List U32}
    (h : bpfCoreParseSpec btf typeId rawSpec = .ok spec) :
    ∃ acc accs, spec.spec = acc :: accs ∧ acc.name.isSome = false := by
  unfold bpfCoreParseSpec at h
  repeat' split at h
  iterate 4 cases h
  obtain ⟨accs, hspec⟩ := parseAccesses_prefix h
  exact ⟨_, accs, hspec.symm, rfl⟩

/-- A match of a parsed spec begins with an element of the root type; in every BTF of the same shape
the target spec is consistent if the walk along the rest of its entries has the offset of the
steps. -/
theorem exists_specRun {localBtf targ : BtfView} {localSpec targSpec : BpfCoreSpec}
    {acc : BpfCoreAccessor} {accs : List BpfCoreAccessor} {rootId : Nat}
    (hspec : localSpec.spec = acc :: accs) (hname : acc.name.isSome = false)
    (h : bpfCoreSpecMatch localBtf localSpec targ rootId = .ok (some targSpec)) :
    ∃ targId t sz raw steps, skipModsAndTypedefs targ rootId = .ok (targId, t) ∧
      AccessorsRun localBtf targ accs targId
        (BpfCoreSpec.addElement ⟨[], [], 0⟩ targId acc.idx sz) targSpec raw steps ∧
      ∀ targ', targ.SameShape targ' → ∃ out,
        bpfCoreSpecMatch localBtf localSpec targ' rootId = .ok (some out) ∧
        (out.ConsistentMod targ' rootId ↔ ∃ walked, walkFrom targ false targId raw = some walked ∧
            offsetSum targ' walked = offsetSum targ' steps) := by
  rw [bpfCoreSpecMatch, hspec] at h
  obtain ⟨targId, t, elemId, sz, hskip, helement, hroom, hsize, hsmall, hrest⟩ :=
    (matchAccessors_element_iff hname).1 h
  cases helement
  obtain ⟨raw, steps, hrun⟩ := exists_accessorsRun hrest
  refine ⟨targId, t, sz, raw, steps, hskip, hrun, fun targ' hshape => ?_⟩
  obtain ⟨t', hskip', -⟩ := hshape.skip_ok hskip
  have hsize' := (hshape.resolveSize targId).trans hsize
  refine ⟨⟨targSpec.spec, [acc.idx] ++ raw,
    0 + acc.idx * BitVec.ofNat 32 sz * 8 + offsetSum targ' steps⟩, ?_, ?_⟩
  · rw [bpfCoreSpecMatch, hspec]
    exact (matchAccessors_element_iff hname).2 ⟨targId, t', targId, sz, hskip',
      rfl, hroom, hsize', hsmall, hrun.runs targ' hshape _⟩
  have hoffset : stepOffset targ' (.element targId acc.idx) = acc.idx * BitVec.ofNat 32 sz * 8 := by
    rw [stepOffset, hsize']
  have hwalk : walk targ' rootId (acc.idx :: raw) =
      (walkFrom targ false targId raw).map (.element targId acc.idx :: ·) := by
    rw [hshape.walk, walk, hskip]
    simp only [hsize]
    rfl
  rw [BpfCoreSpec.ConsistentMod]
  simp only [singleton_append, hwalk, map_eq_some_iff, exists_exists_and_eq_and,
    offsetSum_cons, hoffset, zero_add, add_right_inj]

/-- If each named accessor meets a compatible field first and the sum fits in 32 bits, the target
spec is consistent. In a BTF whose types do not contain themselves the converse holds too, if the
target spec is consistent modulo 2^32 for all offsets of the members. -/
theorem bpfCoreSpecMatch_consistent_iff (localBtf : BtfView) (typeId : Nat) (rawSpec : List U32)
    (localSpec : BpfCoreSpec) (hparse : bpfCoreParseSpec localBtf typeId rawSpec = .ok localSpec)
    (targ : BtfView) (rootId : Nat) (targSpec : BpfCoreSpec)
    (hmatch : bpfCoreSpecMatch localBtf localSpec targ rootId = .ok (some targSpec)) :
    (Unambiguous localBtf targ true localSpec.spec rootId →
      (∀ steps, walk targ rootId targSpec.rawSpec = some steps → bitSum targ steps < 2 ^ 32) →
      targSpec.Consistent targ rootId) ∧
    (targ.Acyclic →
      (∀ targ' targSpec', targ.SameShape targ' →
        bpfCoreSpecMatch localBtf localSpec targ' rootId = .ok (some targSpec') →
        targSpec'.ConsistentMod targ' rootId) →
      Unambiguous localBtf targ true localSpec.spec rootId) := by
  obtain ⟨acc, accs, hspec, hname⟩ := bpfCoreParseSpec_spec hparse
  obtain ⟨targId, t, sz, raw, steps, hskip, hrun, hconsistent⟩ := exists_specRun hspec hname hmatch
  rw [hspec, unambiguous_first hname hskip]
  constructor
  · intro hclear hfits
    obtain ⟨out, hout, hiff⟩ := hconsistent targ (.refl targ)
    cases hmatch.symm.trans hout
    obtain ⟨walked, hwalk, hsum⟩ := hiff.2
      ⟨steps, hrun.walks false (flexOk_element targ _ targId acc.idx sz) hclear, rfl⟩
    refine ⟨walked, hwalk, ?_⟩
    rw [← hsum, ← ofNat_bitSum, BitVec.toNat_ofNat, Nat.mod_eq_of_lt (hfits walked hwalk)]
  · rintro ⟨rank, hrank⟩ hall
    rcases hrun.astray rank hrank with hclear | ⟨k, j, hastray⟩
    · exact hclear
    -- count the steps to the member in the walk and among the offsets
    have hlayout : ∀ offset : Nat → Nat → U32, ∃ walked,
      walkFrom targ false targId raw = some walked ∧
        offsetSum (targ.setOffsets offset) walked = offsetSum (targ.setOffsets offset) steps := by
      intro offset
      obtain ⟨out, hout, hiff⟩ := hconsistent _ (targ.sameShape_setOffsets offset)
      exact hiff.1 (hall _ out (targ.sameShape_setOffsets offset) hout)
    obtain ⟨walked, hwalk, hzero⟩ := hlayout fun _ _ => 0
    obtain ⟨walked', hwalk', hunit⟩ := hlayout (unitOffset k j)
    cases hwalk.symm.trans hwalk'
    have hcount := hastray.count false [] walked (by simpa using hwalk)
    rw [offsetSum_unitOffset hastray.member, offsetSum_unitOffset hastray.member, hzero, hcount,
      List.count_eq_zero_of_not_mem hastray.not_mem] at hunit
    simp at hunit

instance (btf : BtfView) (rootId : Nat) (spec : BpfCoreSpec) : Decidable
    (spec.Consistent btf rootId) :=
  decidable_of_iff ((walk btf rootId spec.rawSpec).any fun steps =>
    bitSum btf steps = spec.bitOffset.toNat)
    (by rw [BpfCoreSpec.Consistent, Option.any_eq_true]; simp)

def sampleLocalSpec : BpfCoreSpec := ⟨[⟨2, 0, none⟩, ⟨2, 0, some [0x78]⟩], [0, 0], 0⟩

def sampleTargSpec : BpfCoreSpec := ⟨[⟨4, 0, none⟩, ⟨3, 1, some [0x78]⟩], [0, 0, 1], 64⟩

theorem firstNamed_sampleTarg :
    FirstNamed (sampleTarg 1) [0x78] (.type 4) (some ([(4, 0), (3, 1)], ⟨1, 1, 64⟩)) := by
  have hinner : skipModsAndTypedefs (sampleTarg 1) 3 =
      .ok (3, ⟨0, 0x04000002#32, 16, [3, 1, 0, 1, 1, 64], rfl⟩) := by decide +kernel
  have houter : skipModsAndTypedefs (sampleTarg 1) 4 =
      .ok (4, ⟨0, 0x04000002#32, 24, [0, 3, 0, 1, 1, 128], rfl⟩) := by decide +kernel
  have hx : FirstNamed (sampleTarg 1) [0x78] (.members 3 1) (some ([(3, 1)], ⟨1, 1, 64⟩)) :=
    .here (by decide +kernel) (by decide +kernel)
  have hy : (sampleTarg 1).memberName ⟨3, 1, 0⟩ = some [0x79] := by decide +kernel
  have hstruct : FirstNamed (sampleTarg 1) [0x78] (.type 3) (some ([(3, 1)], ⟨1, 1, 64⟩)) :=
    .composite hinner rfl (.other (by decide +kernel) hy (by decide) hx)
  have hanonymous : (sampleTarg 1).memberAt 4 0 = some ⟨0, 3, 0⟩ := by decide +kernel
  exact .composite houter rfl (.inside hanonymous (by decide +kernel) hstruct)

theorem bpfCoreSpecMatch_consistent_sample : sampleTargSpec.Consistent (sampleTarg 1) 4 := by
  apply (bpfCoreSpecMatch_consistent_iff sampleLocal 2 [0, 0] sampleLocalSpec (by decide +kernel)
    (sampleTarg 1) 4 sampleTargSpec (by decide +kernel)).1
  have hskip : skipModsAndTypedefs (sampleTarg 1) 4 =
      .ok (4, ⟨0, 0x04000002#32, 24, [0, 3, 0, 1, 1, 128], rfl⟩) := by decide +kernel
  have hlocal : localMember sampleLocal ⟨2, 0, some [0x78]⟩ = some (⟨1, 1, 0⟩, [0x78]) := by
    decide +kernel
  · rw [sampleLocalSpec, unambiguous_first rfl hskip,
      unambiguous_named rfl hskip hlocal firstNamed_sampleTarg]
    exact ⟨by decide +kernel, trivial⟩
  · intro steps hsteps
    have hwalk : walk (sampleTarg 1) 4 [0, 0, 1] =
        some [.element 4 0, .member 4 0, .member 3 1] := by decide +kernel
    cases hwalk.symm.trans hsteps
    decide +kernel

/-- The search leaves the index and the offset of the pointer behind. -/
theorem bpfCoreSpecMatch_inconsistent :
    bpfCoreParseSpec sampleLocal 2 [0, 0] = .ok sampleLocalSpec ∧
    bpfCoreSpecMatch sampleLocal sampleLocalSpec (sampleTarg 2) 4 =
      .ok (some ⟨[⟨4, 0, none⟩, ⟨4, 1, some [0x78]⟩], [0, 0, 1], 192⟩) ∧
    ¬ BpfCoreSpec.Consistent (sampleTarg 2) 4
      ⟨[⟨4, 0, none⟩, ⟨4, 1, some [0x78]⟩], [0, 0, 1], 192⟩ := by
  decide +kernel

end LinuxKernel.Bpf
