import LinuxKernel.Bpf.ReloCoreWalk

/-!
# CO-RE relocations: what the search does to the target spec

A search adds entries to the raw spec and offsets to the bit offset. When it finds the field at once
these are the entries and the offsets of the path to the field. A field of the right name but of an
incompatible type in an anonymous member leaves its entry and its offset behind when the search goes
on: the callers pop one entry each, but their own offsets.
-/

namespace LinuxKernel.Bpf

open List BpfCoreSpec

/-! ## The effect of a search -/

inductive Place
  | type (id : Nat)
  | members (id i : Nat)

structure FoundField where
  next : Nat
  acc : BpfCoreAccessor

section
variable (localBtf targ : BtfView) (field : BtfMember) (name : List (BitVec 8))

/-- The entries a search leaves in the raw spec, the steps whose offsets it leaves in the bit
offset, and the field it finds. -/
inductive Searched : Place → List U32 → List WalkStep → Option FoundField → Prop
  | notComposite {id targId : Nat} {t : BtfType}
    (hskip : skipModsAndTypedefs targ id = .ok (targId, t))
      (hplain : t.isComposite = false) : Searched (.type id) [] [] none
  | composite {id targId : Nat} {t : BtfType} {raw : List U32} {steps : List WalkStep}
      {found : Option FoundField} (hskip : skipModsAndTypedefs targ id = .ok (targId, t))
      (hcomposite : t.isComposite = true) (hsearch : Searched (.members targId 0) raw steps found) :
      Searched (.type id) raw steps found
  | nil {id i : Nat} (hend : targ.memberAt id i = none) : Searched (.members id i) [] [] none
  | other {id i : Nat} {m : BtfMember} {targName : List (BitVec 8)} {raw : List U32}
      {steps : List WalkStep} {found : Option FoundField} (hm : targ.memberAt id i = some m)
      (hname : targ.memberName m = some targName) (hne : name ≠ targName)
      (hrest : Searched (.members id (i + 1)) raw steps found) :
      Searched (.members id i) raw steps found
  | inside {id i : Nat} {m : BtfMember} {raw : List U32} {steps : List WalkStep}
    {found : FoundField}
      (hm : targ.memberAt id i = some m) (hname : targ.memberName m = none)
      (hinner : Searched (.type m.type.toNat) raw steps (some found)) :
      Searched (.members id i) (BitVec.ofNat 32 i :: raw) (.member id i :: steps) (some found)
  | notInside {id i : Nat} {m : BtfMember} {raw raw' : List U32} {steps steps' : List WalkStep}
      {found : Option FoundField} (hm : targ.memberAt id i = some m)
      (hname : targ.memberName m = none) (hinner : Searched (.type m.type.toNat) raw steps none)
      (hrest : Searched (.members id (i + 1)) raw' steps' found) :
      Searched (.members id i) ((BitVec.ofNat 32 i :: raw).dropLast ++ raw') (steps ++ steps') found
  | compatible {id i : Nat} {m : BtfMember} (hm : targ.memberAt id i = some m)
      (hname : targ.memberName m = some name)
      (hcompat : bpfCoreFieldsAreCompat localBtf field.type.toNat targ m.type.toNat = .ok true) :
      Searched (.members id i) [BitVec.ofNat 32 i] [.member id i]
        (some ⟨m.type.toNat, ⟨id, BitVec.ofNat 32 i, some name⟩⟩)
  | incompatible {id i : Nat} {m : BtfMember} (hm : targ.memberAt id i = some m)
      (hname : targ.memberName m = some name)
      (hcompat : bpfCoreFieldsAreCompat localBtf field.type.toNat targ m.type.toNat = .ok false) :
      Searched (.members id i) [BitVec.ofNat 32 i] [.member id i] none

end

/-- A run that adds these entries, these offsets and this accessor, in every BTF of the same
shape. -/
def Runs (targ : BtfView) (run : BtfView → BpfCoreSpec → MatchResult) (spec : BpfCoreSpec)
    (raw : List U32) (steps : List WalkStep) (found : Option FoundField) : Prop :=
  ∀ targ', targ.SameShape targ' → ∀ bitOffset,
    run targ' { spec with bitOffset := bitOffset } =
      .ok (found.map (·.next), ⟨spec.spec ++ (found.map (·.acc)).toList, spec.rawSpec ++ raw,
          bitOffset + offsetSum targ' steps⟩)

variable {targ : BtfView} {spec : BpfCoreSpec}
  {raw : List U32} {steps : List WalkStep} {found : Option FoundField}

theorem Runs.eq {run : BtfView → BpfCoreSpec → MatchResult}
    (h : Runs targ run spec raw steps found) : run targ spec = .ok (found.map (·.next),
      ⟨spec.spec ++ (found.map (·.acc)).toList, spec.rawSpec ++ raw,
        spec.bitOffset + offsetSum targ steps⟩) :=
  h targ (.refl targ) spec.bitOffset

theorem offsetSum_cons (btf : BtfView) (step : WalkStep) (steps : List WalkStep) :
    offsetSum btf (step :: steps) = stepOffset btf step + offsetSum btf steps := by
  simp [offsetSum]

theorem offsetSum_append (btf : BtfView) (steps steps' : List WalkStep) :
    offsetSum btf (steps ++ steps') = offsetSum btf steps + offsetSum btf steps' := by
  simp [offsetSum]

variable {btf : BtfView} {id : Nat} {t : BtfType} {m : BtfMember} {i : Nat}

theorem memberAt_of_drop {ms : List BtfMember} (htype : btf.typeById id = some t)
    (hcomposite : t.isComposite = true) (hdrop : t.members.drop i = m :: ms) :
    btf.memberAt id i = some m ∧ t.members.drop (i + 1) = ms := by
  have hget : t.members[i]? = some m := by
    rw [← head?_drop, hdrop]
    rfl
  have hnext : t.members.drop (i + 1) = ms := by
    rw [← tail_drop, hdrop]
    rfl
  exact ⟨by simp [BtfView.memberAt, htype, hcomposite, hget], hnext⟩

variable {btf' : BtfView} {m' : BtfMember}

theorem BtfView.SameShape.memberName (h : btf.SameShape btf')
    (hname : m'.nameOff = m.nameOff) : btf'.memberName m' = btf.memberName m := by
  rw [BtfView.memberName, h.nameByOffset, hname, BtfView.memberName]

variable {localBtf : BtfView} {name : List (BitVec 8)} {field : BtfMember}

theorem BtfView.SameShape.drop_members (h : btf.SameShape btf')
    (htype : btf.typeById id = some t) (hcomposite : t.isComposite = true) (i : Nat) :
    ∃ t', btf'.typeById id = some t' ∧ t'.isComposite = true ∧
      Forall₂ (fun m m' : BtfMember => m'.nameOff = m.nameOff ∧ m'.type = m.type)
        (t.members.drop i) (t'.members.drop i) := by
  have htypes := h.types id
  rw [htype] at htypes
  generalize btf'.typeById id = o at htypes
  cases htypes with
  | some ht' =>
    exact ⟨_, rfl, ht'.isComposite.trans hcomposite, forall₂_drop i (ht'.members hcomposite)⟩

def membersRun (localBtf : BtfView) (field : BtfMember) (name : List (BitVec 8)) (targId : Nat)
    (deeper : BtfView → Nat → BpfCoreSpec → MatchResult) (i : Nat)
    (targ : BtfView) (spec : BpfCoreSpec) : MatchResult :=
  match targ.typeById targId with
  | none => .error .fault
  | some t =>
    matchMembers localBtf field name targ targId t (deeper targ) i (t.members.drop i) spec

section
variable {localBtf targ : BtfView} {field : BtfMember} {name : List (BitVec 8)} {targId : Nat}
  {t : BtfType} {deeper : BtfView → Nat → BpfCoreSpec → MatchResult}

section
variable (htype : targ.typeById targId = some t) (hcomposite : t.isComposite = true) {i : Nat}
include htype hcomposite

theorem membersRun_nil {targ' : BtfView} (hshape : targ.SameShape targ')
    (hms : t.members.drop i = []) (spec : BpfCoreSpec) :
    membersRun localBtf field name targId deeper i targ' spec = .ok (none, spec) := by
  obtain ⟨t', htype', -, hdrop⟩ := hshape.drop_members htype hcomposite i
  rw [hms, forall₂_nil_left_iff] at hdrop
  rw [membersRun, htype']
  simp only [hdrop]
  rfl

theorem membersRun_cons {targ' : BtfView} (hshape : targ.SameShape targ') {m : BtfMember}
    {ms : List BtfMember} (hms : t.members.drop i = m :: ms) (spec : BpfCoreSpec) :
    membersRun localBtf field name targId deeper i targ' spec =
      matchRound localBtf field name targ targId (stepOffset targ' (.member targId i))
        (deeper targ')
        (membersRun localBtf field name targId deeper (i + 1) targ') i m spec := by
  obtain ⟨t', htype', hcomposite', hdrop⟩ := hshape.drop_members htype hcomposite i
  rw [hms, forall₂_cons_left_iff] at hdrop
  obtain ⟨m', ms', ⟨hnameOff, hmtype⟩, -, hms'⟩ := hdrop
  obtain ⟨hm', hnext'⟩ := memberAt_of_drop htype' hcomposite' hms'
  have hround : membersRun localBtf field name targId deeper (i + 1) targ' =
      matchMembers localBtf field name targ' targId t' (deeper targ') (i + 1) ms' := by
    funext spec
    rw [membersRun, htype']
    simp only [hnext']
  rw [hround, membersRun, htype', stepOffset, htype', hm']
  simp only [hms', matchMembers]
  rw [matchRound, matchRound, hshape.memberName hnameOff, hmtype, hshape.fieldsAreCompat]

theorem membersRun_runs (hdeeper : ∀ id spec r out, deeper targ id spec = .ok (r, out) →
      ∃ raw steps found, Searched localBtf targ field name (.type id) raw steps found ∧
        Runs targ (fun targ => deeper targ id) spec raw steps found)
    {ms : List BtfMember} (hms : t.members.drop i = ms) {spec out : BpfCoreSpec}
    {r : Option Nat}
    (h : membersRun localBtf field name targId deeper i targ spec = .ok (r, out)) :
    ∃ raw steps found, Searched localBtf targ field name (.members targId i) raw steps found ∧
      Runs targ (membersRun localBtf field name targId deeper i) spec raw steps found := by
  induction ms generalizing i spec with
  | nil =>
    refine ⟨[], [], none, .nil ?_, ?_⟩
    · rw [BtfView.memberAt, htype]
      simpa [hcomposite] using hms
    · intro targ' hshape b
      rw [membersRun_nil htype hcomposite hshape hms]
      simp [offsetSum]
  | cons m ms ih =>
    obtain ⟨hm, hnext⟩ := memberAt_of_drop htype hcomposite hms
    have hcons {targ'} (hshape : targ.SameShape targ') :=
      @membersRun_cons localBtf targ field name targId t deeper htype hcomposite i targ' hshape
      m ms hms
    rw [hcons (.refl targ), matchRound] at h
    simp only at h
    split at h
    · cases h
    rename_i hroom
    cases hname : targ.memberName m with
    | none =>
      rw [hname] at h
      cases hinner : deeper targ m.type.toNat (spec.push
        (stepOffset targ (.member targId i)) i) with
      | error e => simp [hinner] at h
      | ok result =>
        obtain ⟨raw, steps, found, hsearch, hruns⟩ := hdeeper _ _ _ _ hinner
        cases found with
        | some found =>
          refine ⟨_, _, _, .inside hm hname hsearch, ?_⟩
          intro targ' hshape b
          rw [hcons hshape, matchRound, hname]
          have hrun := hruns targ' hshape (b + stepOffset targ' (.member targId i))
          simp only [push] at hrun ⊢
          rw [if_neg hroom, hrun]
          simp [offsetSum_cons, add_assoc]
        | none =>
          cases hinner.symm.trans hruns.eq
          rw [hinner] at h
          obtain ⟨raw', steps', found', hsearch', hruns'⟩ := ih hnext h
          refine ⟨_, _, _, .notInside hm hname hsearch hsearch', ?_⟩
          intro targ' hshape b
          have hrun := hruns targ' hshape (b + stepOffset targ' (.member targId i))
          have hrun' := hruns' targ' hshape (b + offsetSum targ' steps)
          rw [hcons hshape, matchRound, hname]
          simp only [push, pop, Option.map_none, Option.toList_none, append_nil] at hrun hrun' ⊢
          rw [if_neg hroom, hrun]
          -- the caller takes back its own offset, but the last entry of the inner search
          have hback : b + stepOffset targ' (.member targId i) + offsetSum targ' steps -
              stepOffset targ' (.member targId i) = b + offsetSum targ' steps := by
            rw [add_right_comm, add_sub_cancel_right]
          have hentries : (spec.rawSpec ++ [BitVec.ofNat 32 i] ++ raw).dropLast =
              spec.rawSpec ++ (BitVec.ofNat 32 i :: raw).dropLast := by
            rw [append_assoc, singleton_append, dropLast_append_of_ne_nil (cons_ne_nil _ _)]
          simp only [hback, hentries] at hrun' ⊢
          rw [hrun', offsetSum_append, add_assoc, append_assoc]
    | some targName =>
      rw [hname] at h
      by_cases hsame : name = targName
      · subst hsame
        cases hcompat : bpfCoreFieldsAreCompat localBtf field.type.toNat targ m.type.toNat with
        | error e => simp [hcompat] at h
        | ok compat =>
          have hstop (targ') (hshape : targ.SameShape targ') (b) :=
            hcons hshape { spec with bitOffset := b }
          simp only [matchRound, hname, if_true, if_neg hroom, hcompat, push] at hstop
          cases compat with
          | true =>
            exact ⟨_, _, _, .compatible hm hname hcompat, by simpa [Runs, offsetSum] using hstop⟩
          | false =>
            exact ⟨_, _, _, .incompatible hm hname hcompat, by simpa [Runs, offsetSum] using hstop⟩
      · simp only [if_neg hsame] at h
        obtain ⟨raw, steps, found, hsearch, hruns⟩ := ih hnext h
        refine ⟨_, _, _, .other hm hname hsame hsearch, ?_⟩
        intro targ' hshape b
        have hrun := hruns targ' hshape b
        rw [hcons hshape, matchRound, hname]
        simp only [push, pop] at hrun ⊢
        rw [if_neg hroom, if_neg hsame]
        simpa using hrun

end

variable {acc : BpfCoreAccessor} {id : Nat}

variable (hlocal : localMember localBtf acc = some (field, name))
include hlocal

theorem bpfCoreMatchMember_succ
    (hskip : skipModsAndTypedefs targ id = .ok (targId, t)) (depth : Nat) (spec : BpfCoreSpec) :
    bpfCoreMatchMember localBtf acc targ (depth + 1) id spec =
      if t.isComposite then
        membersRun localBtf field name targId
          (fun targ => bpfCoreMatchMember localBtf acc targ depth) 0 targ spec
      else .ok (none, spec) := by
  rw [bpfCoreMatchMember, hskip]
  simp only [hlocal, membersRun, (skipModsAndTypedefs_eq_ok hskip).1, drop_zero]
  cases t.isComposite <;> rfl

theorem bpfCoreMatchMember_runs {depth : Nat} {spec out : BpfCoreSpec}
    {r : Option Nat} (h : bpfCoreMatchMember localBtf acc targ depth id spec = .ok (r, out)) :
    ∃ raw steps found, Searched localBtf targ field name (.type id) raw steps found ∧
      Runs targ (fun targ => bpfCoreMatchMember localBtf acc targ depth id) spec raw steps
        found := by
  induction depth generalizing id spec r out with
  | zero => simp [bpfCoreMatchMember] at h
  | succ depth ih =>
    cases hskip : skipModsAndTypedefs targ id with
    | error e => simp [bpfCoreMatchMember, hskip] at h
    | ok result =>
      obtain ⟨targId, t⟩ := result
      have htype := (skipModsAndTypedefs_eq_ok hskip).1
      rw [bpfCoreMatchMember_succ hlocal hskip] at h
      cases hcomposite : t.isComposite with
      | false =>
        refine ⟨[], [], none, .notComposite hskip hcomposite, fun targ' hshape b => ?_⟩
        obtain ⟨t', hskip', ht'⟩ := hshape.skip_ok hskip
        simp only
        rw [bpfCoreMatchMember_succ hlocal hskip', ht'.isComposite, hcomposite]
        simp [offsetSum]
      | true =>
        rw [hcomposite, if_pos rfl] at h
        obtain ⟨raw, steps, found, hsearch, hruns⟩ :=
          membersRun_runs htype hcomposite (fun _ _ _ _ => ih) (drop_zero) h
        refine ⟨raw, steps, found, .composite hskip hcomposite hsearch, fun targ' hshape b => ?_⟩
        obtain ⟨t', hskip', ht'⟩ := hshape.skip_ok hskip
        simp only
        rw [bpfCoreMatchMember_succ hlocal hskip', ht'.isComposite, hcomposite]
        exact hruns targ' hshape b

end

/-! ## The depth of the recursion -/

section
variable {localBtf targ : BtfView} {field : BtfMember} {name : List (BitVec 8)} {targId : Nat}
  {t : BtfType} {deeper deeper' : Nat → BpfCoreSpec → MatchResult}

@[simp]
theorem length_push (spec : BpfCoreSpec) (bitOffset : U32) (i : Nat) :
    (spec.push bitOffset i).rawSpec.length = spec.rawSpec.length + 1 := by
  simp [push]

@[simp]
theorem length_pop (spec : BpfCoreSpec) (bitOffset : U32) :
    (spec.pop bitOffset).rawSpec.length = spec.rawSpec.length - 1 := by
  simp [pop]

/-- Both runs give the same, and the raw spec does not get shorter and stays within its array. -/
def SameWithin (run' run : BpfCoreSpec → MatchResult) (spec : BpfCoreSpec) : Prop :=
  run' spec = run spec ∧ ∀ r out, run spec = .ok (r, out) →
    spec.rawSpec.length ≤ out.rawSpec.length ∧ out.rawSpec.length ≤ BPF_CORE_SPEC_MAX_LEN

theorem matchMembers_depth {bound : Nat} (hdeeper : ∀ id spec, bound < spec.rawSpec.length →
      spec.rawSpec.length ≤ BPF_CORE_SPEC_MAX_LEN → SameWithin (deeper' id) (deeper id) spec)
    {i : Nat} {ms : List BtfMember} {spec : BpfCoreSpec} (hbound : bound ≤ spec.rawSpec.length)
    (hspec : spec.rawSpec.length ≤ BPF_CORE_SPEC_MAX_LEN) :
    SameWithin (matchMembers localBtf field name targ targId t deeper' i ms)
      (matchMembers localBtf field name targ targId t deeper i ms) spec := by
  induction ms generalizing i spec with
  | nil =>
    refine ⟨rfl, fun r out h => ?_⟩
    cases h
    exact ⟨le_rfl, hspec⟩
  | cons m ms ih =>
    rw [SameWithin, matchMembers, matchMembers, matchRound, matchRound]
    simp only
    split_ifs with hroom
    · simp
    obtain ⟨hsame, hlen⟩ :=
      hdeeper m.type.toNat (spec.push (t.memberBitOffset m) i) (by simp; omega) (by simp; omega)
    obtain ⟨hnext, hkept⟩ := @ih (i + 1)
      ((spec.push (t.memberBitOffset m) i).pop (t.memberBitOffset m)) (by simpa using hbound)
      (by simpa using hspec)
    rw [hsame, hnext]
    rw [length_push] at hlen
    rw [length_pop, length_push] at hkept
    cases targ.memberName m with
    | some targName =>
      refine ⟨rfl, fun r out h => ?_⟩
      dsimp only at h
      split at h
      · split at h <;> cases h
        all_goals
          simp only [length_push]
          omega
      · exact hkept r out h
    | none =>
      cases hinner : deeper m.type.toNat (spec.push (t.memberBitOffset m) i) with
      | error e => simp
      | ok r =>
        obtain ⟨r, inner⟩ := r
        have hlen := hlen r inner hinner
        cases r with
        | some found =>
          refine ⟨rfl, fun r out h => ?_⟩
          cases h
          omega
        | none =>
          obtain ⟨hrest, hout⟩ := @ih (i + 1) (inner.pop (t.memberBitOffset m)) (by simp; omega)
            (by simp; omega)
          rw [length_pop] at hout
          refine ⟨hrest, fun r out h => ?_⟩
          have := hout r out h
          omega

end

/-- The bound on the depth is not reached: each call adds an entry to the raw spec. -/
theorem bpfCoreMatchMember_depth {acc : BpfCoreAccessor} {depth depth' : Nat}
    (hspec : spec.rawSpec.length ≤ BPF_CORE_SPEC_MAX_LEN)
    (hdepth : BPF_CORE_SPEC_MAX_LEN < spec.rawSpec.length + depth) (hle : depth ≤ depth') :
    SameWithin (bpfCoreMatchMember localBtf acc targ depth' id)
      (bpfCoreMatchMember localBtf acc targ depth id) spec := by
  induction depth generalizing depth' id spec with
  | zero => omega
  | succ depth ih =>
    obtain ⟨depth', rfl⟩ : ∃ d, depth' = d + 1 := ⟨depth' - 1, by omega⟩
    rw [SameWithin, bpfCoreMatchMember, bpfCoreMatchMember]
    split
    · simp
    split
    · refine ⟨rfl, fun r out h => ?_⟩
      cases h
      exact ⟨le_rfl, hspec⟩
    · split
      · simp
      · exact matchMembers_depth (fun id spec' hlt hle' => ih hle' (by omega) (by omega))
          le_rfl hspec

/-- The names "x" at offset 1 and "y" at offset 3. -/
def sampleStrs : List (BitVec 8) := [0, 0x78, 0, 0x79, 0]

/-- `struct { int x; }` with id 2. -/
def sampleLocal : BtfView :=
  ⟨[intType, ⟨0, 0x04000001#32, 4, [1, 1, 0], rfl⟩], sampleStrs, 8⟩

/-- `struct { struct { int y; T x; }; int x; }` with id 4, where `T` is `int` for 1 and a pointer
for 2. -/
def sampleTarg (xType : U32) : BtfView :=
  ⟨[intType, ⟨0, 0x02000000#32, 1, [], List.length_nil⟩,
    ⟨0, 0x04000002#32, 16, [3, 1, 0, 1, xType, 64], rfl⟩,
    ⟨0, 0x04000002#32, 24, [0, 3, 0, 1, 1, 128], rfl⟩], sampleStrs, 8⟩

/-- The field is found in the anonymous struct, one call deeper. -/
theorem bpfCoreMatchMember_depth_anonymous :
    let run := bpfCoreMatchMember sampleLocal ⟨2, 0, some [0x78]⟩ (sampleTarg 1)
    run 65 4 ⟨[], [0], 0⟩ = .ok (some 1, ⟨[⟨3, 1, some [0x78]⟩], [0, 0, 1], 64⟩) ∧
      SameWithin (run 99 4) (run 65 4) ⟨[], [0], 0⟩ :=
  ⟨by decide +kernel, bpfCoreMatchMember_depth (by decide) (by decide) (by decide)⟩

/-! ## The first field of a name -/

/-- The first field of a name in the order of the search, with the path to it: the types and the
indices of the members; or `none` if there is no such field. -/
inductive FirstNamed (btf : BtfView) (name : List (BitVec 8)) :
    Place → Option (List (Nat × Nat) × BtfMember) → Prop
  | notComposite {id targId : Nat} {t : BtfType}
    (hskip : skipModsAndTypedefs btf id = .ok (targId, t))
      (hplain : t.isComposite = false) : FirstNamed btf name (.type id) none
  | composite {id targId : Nat} {t : BtfType} {first : Option (List (Nat × Nat) × BtfMember)}
      (hskip : skipModsAndTypedefs btf id = .ok (targId, t)) (hcomposite : t.isComposite = true)
      (hfirst : FirstNamed btf name (.members targId 0) first) :
      FirstNamed btf name (.type id) first
  | nil {id i : Nat} (hend : btf.memberAt id i = none) : FirstNamed btf name (.members id i) none
  | here {id i : Nat} {m : BtfMember} (hm : btf.memberAt id i = some m)
      (hname : btf.memberName m = some name) :
      FirstNamed btf name (.members id i) (some ([(id, i)], m))
  | other {id i : Nat} {m : BtfMember} {name' : List (BitVec 8)}
      {first : Option (List (Nat × Nat) × BtfMember)} (hm : btf.memberAt id i = some m)
      (hname : btf.memberName m = some name') (hne : name ≠ name')
      (hrest : FirstNamed btf name (.members id (i + 1)) first) :
      FirstNamed btf name (.members id i) first
  | inside {id i : Nat} {m field : BtfMember} {path : List (Nat × Nat)}
      (hm : btf.memberAt id i = some m) (hname : btf.memberName m = none)
      (hinner : FirstNamed btf name (.type m.type.toNat) (some (path, field))) :
      FirstNamed btf name (.members id i) (some ((id, i) :: path, field))
  | notInside {id i : Nat} {m : BtfMember} {first : Option (List (Nat × Nat) × BtfMember)}
      (hm : btf.memberAt id i = some m) (hname : btf.memberName m = none)
      (hinner : FirstNamed btf name (.type m.type.toNat) none)
      (hrest : FirstNamed btf name (.members id (i + 1)) first) :
      FirstNamed btf name (.members id i) first

variable {place : Place}

theorem FirstNamed.unique
    {first first' : Option (List (Nat × Nat) × BtfMember)} (h : FirstNamed btf name place first)
    (h' : FirstNamed btf name place first') : first = first' := by
  induction h generalizing first' with
  | notComposite hskip hplain => cases h' <;> simp_all
  | composite hskip hcomposite hfirst ih =>
    cases h' with
    | notComposite hskip' hplain' => simp_all
    | composite hskip' _ hfirst' =>
      cases hskip.symm.trans hskip'
      exact ih hfirst'
  | nil hend | here hm hname => cases h' <;> simp_all
  | other hm hname hne hrest ih =>
    cases h' with
    | other _ _ _ hrest' => exact ih hrest'
    | _ => simp_all
  | inside hm hname hinner ih =>
    cases h' with
    | inside hm' hname' hinner' | notInside hm' hname' hinner' _ =>
      cases hm.symm.trans hm'
      simpa using ih hinner'
    | _ => simp_all
  | notInside hm hname hinner hrest ih ih' =>
    cases h' with
    | inside hm' hname' hinner' =>
      cases hm.symm.trans hm'
      simpa using ih hinner'
    | notInside _ _ _ hrest' => exact ih' hrest'
    | _ => simp_all

def pathRaw (path : List (Nat × Nat)) : List U32 := path.map fun p => BitVec.ofNat 32 p.2

def pathSteps (path : List (Nat × Nat)) : List WalkStep := path.map fun p => .member p.1 p.2

/-- A search that meets no field of the name leaves nothing. If the first field of the name is
compatible, the search finds it and leaves the path to it; otherwise it leaves some entry. -/
theorem Searched.firstNamed (h : Searched localBtf targ field name place raw steps found) :
    (FirstNamed targ name place none ∧ raw = [] ∧ steps = [] ∧ found = none) ∨
      ∃ path m, FirstNamed targ name place (some (path, m)) ∧
        ((bpfCoreFieldsAreCompat localBtf field.type.toNat targ m.type.toNat = .ok true ∧
            raw = pathRaw path ∧ steps = pathSteps path ∧ ∃ p, path.getLast? = some p ∧
              found = some ⟨m.type.toNat, ⟨p.1, BitVec.ofNat 32 p.2, some name⟩⟩) ∨
          (bpfCoreFieldsAreCompat localBtf field.type.toNat targ m.type.toNat = .ok false ∧
            raw ≠ [])) := by
  induction h with
  | notComposite hskip hplain => exact .inl ⟨.notComposite hskip hplain, rfl, rfl, rfl⟩
  | composite hskip hcomposite _ ih =>
    rcases ih with ⟨hnone, hrest⟩ | ⟨path, m, hfirst, hrest⟩
    · exact .inl ⟨.composite hskip hcomposite hnone, hrest⟩
    · exact .inr ⟨path, m, .composite hskip hcomposite hfirst, hrest⟩
  | nil hend => exact .inl ⟨.nil hend, rfl, rfl, rfl⟩
  | other hm hname hne _ ih =>
    rcases ih with ⟨hnone, hrest⟩ | ⟨path, m, hfirst, hrest⟩
    · exact .inl ⟨.other hm hname hne hnone, hrest⟩
    · exact .inr ⟨path, m, .other hm hname hne hfirst, hrest⟩
  | inside hm hname _ ih =>
    rcases ih with ⟨-, -, -, hfound⟩ | ⟨path, m, hfirst, hrest⟩
    · simp at hfound
    refine .inr ⟨_, m, .inside hm hname hfirst, ?_⟩
    rcases hrest with ⟨hcompat, hraw, hsteps, p, hlast, hfound⟩ | ⟨hcompat, -⟩
    · refine .inl ⟨hcompat, by simp [hraw, pathRaw], by simp [hsteps, pathSteps], p, ?_, hfound⟩
      simp [getLast?_cons, hlast]
    · exact .inr ⟨hcompat, by simp⟩
  | @notInside id i m raw raw' steps steps' found hm hname _ _ ih ih' =>
    rcases ih with ⟨hnone, rfl, rfl, -⟩ | ⟨path, m, hfirst, hrest⟩
    · rcases ih' with ⟨hnone', hrest⟩ | ⟨path, m, hfirst, hrest⟩
      · exact .inl ⟨.notInside hm hname hnone hnone', hrest⟩
      · exact .inr ⟨path, m, .notInside hm hname hnone hfirst, hrest⟩
    rcases hrest with ⟨-, -, -, p, -, hfound⟩ | ⟨hcompat, hraw⟩
    · simp at hfound
    · refine .inr ⟨_, m, .inside hm hname hfirst, .inr ⟨hcompat, ?_⟩⟩
      obtain ⟨entry, rest, rfl⟩ := exists_cons_of_ne_nil hraw
      simp
  | @compatible id i m hm hname hcompat =>
    exact .inr ⟨[(id, i)], m, .here hm hname, .inl ⟨hcompat, rfl, rfl, (id, i), rfl, rfl⟩⟩
  | @incompatible id i m hm hname hcompat =>
    exact .inr ⟨[(id, i)], m, .here hm hname, .inr ⟨hcompat, by simp⟩⟩

end LinuxKernel.Bpf
