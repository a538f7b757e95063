import LinuxKernel.Bpf.ReloCoreMatch

/-!
# CO-RE relocations: consistent specs

The raw spec that `bpf_core_spec_match` computes leads to the bit offset it computes if, for each
named accessor, the first field of that name in the order of the search is compatible. Otherwise the
entry of the first anonymous member with a leftover is an index of the wrong member: the walk goes
through this member, but its offset is not in the bit offset.
-/

namespace LinuxKernel.Bpf

open Nat Option BtfType

open List hiding getElem?_eq_some_iff

/-! ## Types that contain others -/

def BtfType.parts (t : BtfType) : List Nat :=
  if t.isMod || t.isTypedef then [t.type]
  else if t.isComposite then t.members.map (·.type.toNat)
  else if t.isArray then [t.array.type.toNat]
  else []

def BtfView.Ranked (btf : BtfView) (rank : Nat → Nat) : Prop :=
  ∀ id t, btf.typeById id = some t → ∀ part ∈ t.parts, rank part < rank id

def BtfView.Acyclic (btf : BtfView) : Prop := ∃ rank, btf.Ranked rank

variable {t : BtfType}

theorem BtfType.isPlain_of_isComposite (h : t.isComposite = true) :
    (t.isMod || t.isTypedef) = false := by
  rcases isComposite_iff.1 h with hkind | hkind <;>
    simp [isMod, isTypedef, hkind]

theorem BtfType.not_isComposite_of_isArray (h : t.isArray = true) : t.isComposite = false := by
  simp only [isArray, decide_eq_true_eq] at h
  simp [isComposite, h]

variable {btf : BtfView} {m : BtfMember}

theorem BtfView.memberAt_eq_some {id i : Nat} (h : btf.memberAt id i = some m) :
    ∃ t, btf.typeById id = some t ∧ t.isComposite = true ∧ t.members[i]? = some m ∧ i < t.vlen ∧
      t.vlen < 2 ^ 16 := by
  unfold memberAt at h
  cases htype : btf.typeById id with
  | none => simp [htype] at h
  | some t =>
    rw [htype, bind_some] at h
    split at h
    next hcomposite =>
      have hlt := (List.getElem?_eq_some_iff.1 h).1
      rw [members, toMembers_eq _ _ (length_extra_of_isComposite hcomposite),
        length_map, length_range] at hlt
      have hvlen : t.vlen < 2 ^ 16 := by exact lt_of_le_of_lt and_le_right (by decide)
      exact ⟨t, rfl, hcomposite, h, hlt, hvlen⟩
    · simp at h

theorem walkFrom_skip {id id' : Nat}
    (h : skipModsAndTypedefs btf id = .ok (id', t)) (lastMember : Bool) (raw : List U32) :
    walkFrom btf lastMember id raw = walkFrom btf lastMember id' raw := by
  cases raw with
  | nil => rfl
  | cons idx rest => rw [walkFrom, walkFrom, h, (skipModsAndTypedefs_eq_ok h).2]

def BtfView.isLastMember (btf : BtfView) (id i : Nat) : Bool :=
  (btf.typeById id).any fun t => i + 1 = t.vlen

theorem walkFrom_member {id i : Nat}
    (hm : btf.memberAt id i = some m) (lastMember : Bool) (rest : List U32) :
    walkFrom btf lastMember id (BitVec.ofNat 32 i :: rest) =
      (walkFrom btf (btf.isLastMember id i) m.type.toNat rest).map (.member id i :: ·) := by
  obtain ⟨t, htype, hcomposite, hget, hlt, hvlen⟩ := btf.memberAt_eq_some hm
  have hi : (BitVec.ofNat 32 i).toNat = i := by
    rw [BitVec.toNat_ofNat]
    omega
  rw [walkFrom, skipModsAndTypedefs_of_plain htype (isPlain_of_isComposite hcomposite)]
  simp [hcomposite, hi, hget, BtfView.isLastMember, htype]

section
variable {btf : BtfView} {rank : Nat → Nat} (hrank : btf.Ranked rank)
include hrank

theorem rank_skip_le {id id' : Nat} {t : BtfType} (h : skipModsAndTypedefs btf id = .ok (id', t)) :
    rank id' ≤ rank id := by
  have hloop : ∀ fuel id, Foundation.loop (skipStep btf) fuel id = some (.ok (id', t)) →
      rank id' ≤ rank id := by
    intro fuel
    induction fuel with
    | zero => simp [Foundation.loop]
    | succ fuel ih =>
      intro id hrun
      rw [Foundation.loop, skipStep] at hrun
      cases htype : btf.typeById id with
      | none => simp [htype] at hrun
      | some s =>
        rw [htype] at hrun
        cases hmod : s.isMod || s.isTypedef with
        | true =>
          have hlt : rank s.type < rank id := hrank id s htype s.type (by simp [parts, hmod])
          simp only [hmod, if_true] at hrun
          exact (ih s.type hrun).trans hlt.le
        | false =>
          simp only [hmod, Bool.false_eq_true, if_false] at hrun
          cases hrun
          exact le_rfl
  exact hloop _ id (skipModsAndTypedefs_eq_ok_iff.1 h)

theorem rank_member_lt {id i : Nat} {m : BtfMember} (h : btf.memberAt id i = some m) :
    rank m.type.toNat < rank id := by
  obtain ⟨t, htype, hcomposite, hget, -⟩ := btf.memberAt_eq_some h
  apply hrank id t htype
  have hmem : m ∈ t.members := mem_of_getElem? hget
  simp only [parts, isPlain_of_isComposite hcomposite, hcomposite, if_true,
    Bool.false_eq_true, if_false]
  exact mem_map_of_mem hmem

theorem rank_element_lt {id elemId : Nat} {t elem : BtfType} (htype : btf.typeById id = some t)
    (harray : t.isArray = true)
    (hskip : skipModsAndTypedefs btf t.array.type.toNat = .ok (elemId, elem)) :
    rank elemId < rank id := by
  have hkind : t.kind = .array := by simpa [isArray] using harray
  have hlt : rank t.array.type.toNat < rank id := by
    apply hrank id t htype
    simp [parts, isMod, isTypedef, isComposite, isArray, hkind]
  exact (rank_skip_le hrank hskip).trans_lt hlt

/-- A walk only meets members of types that the first type contains. -/
theorem rank_le_of_walkFrom {lastMember : Bool} {id : Nat} {raw : List U32} {steps : List WalkStep}
    (h : walkFrom btf lastMember id raw = some steps) {k j : Nat} (hmem : .member k j ∈ steps) :
    rank k ≤ rank id := by
  induction raw generalizing lastMember id steps with
  | nil =>
    cases h
    cases hmem
  | cons idx rest ih =>
    rw [walkFrom] at h
    cases hskip : skipModsAndTypedefs btf id with
    | error e => simp [hskip] at h
    | ok r =>
      obtain ⟨id', t⟩ := r
      have htype := (skipModsAndTypedefs_eq_ok hskip).1
      have hle := rank_skip_le hrank hskip
      rw [hskip] at h
      simp only at h
      split at h
      next hcomposite =>
        split at h
        · simp at h
        rename_i m hget
        obtain ⟨steps', hsteps', rfl⟩ := map_eq_some_iff.1 h
        have hm : btf.memberAt id' idx.toNat = some m := by
          simp [BtfView.memberAt, htype, hcomposite, hget]
        have hlt := rank_member_lt hrank hm
        rcases mem_cons.1 hmem with heq | hmem
        · cases heq
          exact hle
        · have := ih hsteps' hmem
          omega
      · split at h
        next harray =>
          split at h
          · simp at h
          rename_i elemId elem helem
          split at h
          · obtain ⟨steps', hsteps', rfl⟩ := map_eq_some_iff.1 h
            have hlt := rank_element_lt hrank htype (Bool.and_eq_true_iff.1 harray).1 helem
            rcases mem_cons.1 hmem with heq | hmem
            · simp at heq
            · have := ih hsteps' hmem
              omega
          · simp at h
        · simp at h

end

/-! ## Walking along the path to a field -/

def Place.id : Place → Nat
  | .type id => id
  | .members id _ => id

/-- Whether a path ends at the last member of a struct. -/
def endsStruct (btf : BtfView) (path : List (Nat × Nat)) : Bool :=
  path.getLast?.any fun p => btf.isLastMember p.1 p.2

theorem endsStruct_cons (btf : BtfView) (p : Nat × Nat) {path : List (Nat × Nat)}
    (hne : path ≠ []) : endsStruct btf (p :: path) = endsStruct btf path := by
  rw [endsStruct, endsStruct, getLast?_cons]
  cases hlast : path.getLast? with
  | none => exact absurd (getLast?_eq_none_iff.1 hlast) hne
  | some q => rfl

section
variable {name : List (BitVec 8)} {place : Place} {path : List (Nat × Nat)}

@[elab_as_elim]
theorem FirstNamed.path_induction {motive : Place → List (Nat × Nat) → Prop}
    (composite : ∀ {id targId t path}, skipModsAndTypedefs btf id = .ok (targId, t) →
      motive (.members targId 0) path → motive (.type id) path)
    (here : ∀ {id i}, btf.memberAt id i = some m → motive (.members id i) [(id, i)])
    (later : ∀ {id i path}, motive (.members id (i + 1)) path → motive (.members id i) path)
    (inside : ∀ {id i m' path}, btf.memberAt id i = some m' → path ≠ [] →
      motive (.type m'.type.toNat) path → motive (.members id i) ((id, i) :: path))
    (h : FirstNamed btf name place (some (path, m))) : motive place path := by
  suffices path ≠ [] ∧ motive place path from this.2
  generalize hfirst : some (path, m) = first at h
  induction h generalizing path with
  | composite hskip _ _ ih => exact (ih hfirst).imp_right (composite hskip)
  | other _ _ _ _ ih | notInside _ _ _ _ _ ih => exact (ih hfirst).imp_right later
  | here hm _ =>
    cases hfirst
    exact ⟨cons_ne_nil _ _, here hm⟩
  | inside hm _ _ ih =>
    cases hfirst
    exact ⟨cons_ne_nil _ _, inside hm (ih rfl).1 (ih rfl).2⟩
  | _ => cases hfirst

variable (h : FirstNamed btf name place (some (path, m)))
include h

theorem FirstNamed.memberAt : ∀ p ∈ path, (btf.memberAt p.1 p.2).isSome = true := by
  refine path_induction (fun _ ih => ih) (fun hm => ?_) (fun ih => ih) (fun hm _ ih => ?_) h
  · simp [hm]
  · simpa [hm] using ih

theorem FirstNamed.walkFrom (rest : List U32) :
    ∀ lastMember, Bpf.walkFrom btf lastMember place.id (pathRaw path ++ rest) =
      (Bpf.walkFrom btf (endsStruct btf path) m.type.toNat rest).map (pathSteps path ++ ·) := by
  refine path_induction (fun hskip ih lastMember => ?_) (fun hm lastMember => ?_) (fun ih => ih)
    (fun {id i m' path} hm hne ih lastMember => ?_) h
  · rw [Place.id, walkFrom_skip hskip, ← ih lastMember, Place.id]
  · exact walkFrom_member hm lastMember rest
  have hstep := walkFrom_member hm lastMember (pathRaw path ++ rest)
  have hinside := ih (btf.isLastMember id i)
  rw [Place.id] at hinside
  rw [hinside] at hstep
  rw [endsStruct_cons btf (id, i) hne]
  simpa [pathRaw, pathSteps, Place.id, Function.comp_def] using hstep

end

variable {found : Option FoundField} {steps' : List WalkStep}

section
variable {localBtf targ : BtfView} {rank : Nat → Nat}

/-- The walk along the entries takes a member whose offset is not among those of the steps. -/
structure LeadsAstray (targ : BtfView) (rank : Nat → Nat) (id : Nat) (raw : List U32)
    (steps : List WalkStep) (k j : Nat) : Prop where
  member : (targ.memberAt k j).isSome = true
  rank_le : rank k ≤ rank id
  not_mem : .member k j ∉ steps
  count : ∀ lastMember rest walked, Bpf.walkFrom targ lastMember id (raw ++ rest) = some walked →
    walked.count (.member k j) = 1

variable (hrank : targ.Ranked rank)
include hrank

variable {name : List (BitVec 8)} {place : Place} {m : BtfMember}

/-- The members of the path to a field belong to types that contain the field. -/
theorem FirstNamed.rank_lt {path : List (Nat × Nat)}
    (h : FirstNamed targ name place (some (path, m))) :
    rank m.type.toNat < rank place.id ∧ ∀ p ∈ path, rank m.type.toNat < rank p.1 := by
  refine path_induction (fun hskip ih => ?_) (fun hm => ?_) (fun ih => ih) (fun hm _ ih => ?_) h
  · exact ⟨ih.1.trans_le (rank_skip_le hrank hskip), ih.2⟩
  · have hlt := rank_member_lt hrank hm
    exact ⟨hlt, forall_mem_singleton.2 hlt⟩
  · have hlt := ih.1.trans (rank_member_lt hrank hm)
    exact ⟨hlt, forall_mem_cons.2 ⟨hlt, ih.2⟩⟩

variable {field : BtfMember} {raw : List U32} {steps : List WalkStep}

/-- The offsets of a search are those of members of types inside the one that is searched, or of the
members it has come to. -/
theorem Searched.rank_le (h : Searched localBtf targ field name place raw steps found) :
    (∀ step ∈ steps, ∃ k j, step = .member k j ∧
      match place with
      | .type id => rank k ≤ rank id
      | .members id i => (k = id ∧ i ≤ j) ∨ rank k < rank id) ∧
    ∀ f, found = some f → rank f.next < rank place.id := by
  induction h with
  | notComposite _ _ => simp
  | @composite id targId t raw steps found hskip _ _ ih =>
    have hle := rank_skip_le hrank hskip
    refine ⟨fun step hstep => ?_, fun f hf => (ih.2 f hf).trans_le hle⟩
    obtain ⟨k, j, rfl, hk⟩ := ih.1 step hstep
    refine ⟨k, j, rfl, ?_⟩
    rcases hk with ⟨rfl, -⟩ | hk
    · exact hle
    · exact (hk.le).trans hle
  | nil _ => simp
  | other _ _ _ _ ih =>
    refine ⟨fun step hstep => ?_, ih.2⟩
    obtain ⟨k, j, rfl, hk⟩ := ih.1 step hstep
    exact ⟨k, j, rfl, by omega⟩
  | @inside id i m raw steps found hm _ _ ih =>
    have hlt := rank_member_lt hrank hm
    refine ⟨fun step hstep => ?_, fun f hf => (ih.2 f hf).trans hlt⟩
    rcases mem_cons.1 hstep with rfl | hstep
    · exact ⟨id, i, rfl, .inl ⟨rfl, le_rfl⟩⟩
    · obtain ⟨k, j, rfl, hk⟩ := ih.1 step hstep
      exact ⟨k, j, rfl, .inr (hk.trans_lt hlt)⟩
  | @notInside id i m raw raw' steps steps' found hm _ _ _ ih ih' =>
    have hlt := rank_member_lt hrank hm
    refine ⟨fun step hstep => ?_, ih'.2⟩
    rcases mem_append.1 hstep with hstep | hstep
    · obtain ⟨k, j, rfl, hk⟩ := ih.1 step hstep
      exact ⟨k, j, rfl, .inr (hk.trans_lt hlt)⟩
    · obtain ⟨k, j, rfl, hk⟩ := ih'.1 step hstep
      exact ⟨k, j, rfl, by omega⟩
  | @compatible id i m hm _ _ =>
    refine ⟨fun step hstep => ⟨id, i, by simpa using hstep, .inl ⟨rfl, le_rfl⟩⟩, ?_⟩
    rintro f ⟨⟩
    exact rank_member_lt hrank hm
  | @incompatible id i m hm _ _ =>
    exact ⟨fun step hstep => ⟨id, i, by simpa using hstep, .inl ⟨rfl, le_rfl⟩⟩, by simp⟩

variable {k j : Nat}

theorem LeadsAstray.skip {id id' : Nat} {t : BtfType} (h : LeadsAstray targ rank id' raw steps k j)
    (hskip : skipModsAndTypedefs targ id = .ok (id', t)) :
    LeadsAstray targ rank id raw steps k j where
  member := h.member
  rank_le := h.rank_le.trans (rank_skip_le hrank hskip)
  not_mem := h.not_mem
  count := by
    intro lastMember rest walked hwalk
    rw [walkFrom_skip hskip] at hwalk
    exact h.count lastMember rest walked hwalk

omit hrank in
theorem LeadsAstray.append {id : Nat} {raw' : List U32} (h : LeadsAstray targ rank id raw steps k j)
    (hsteps' : ∀ k' j', .member k' j' ∈ steps' → rank k' < rank k) :
    LeadsAstray targ rank id (raw ++ raw') (steps ++ steps') k j where
  member := h.member
  rank_le := h.rank_le
  not_mem := by
    intro hmem
    rcases mem_append.1 hmem with hmem | hmem
    · exact h.not_mem hmem
    · exact absurd (hsteps' k j hmem) (lt_irrefl _)
  count := by
    intro lastMember rest walked hwalk
    rw [append_assoc] at hwalk
    exact h.count lastMember (raw' ++ rest) walked hwalk

theorem LeadsAstray.path {path : List (Nat × Nat)}
    (hfirst : FirstNamed targ name place (some (path, m)))
    (h : LeadsAstray targ rank m.type.toNat raw steps k j) :
    LeadsAstray targ rank place.id (pathRaw path ++ raw) (pathSteps path ++ steps) k j := by
  obtain ⟨hlt, hpath⟩ := hfirst.rank_lt hrank
  have hnot : WalkStep.member k j ∉ pathSteps path := by
    intro hmem
    obtain ⟨p, hp, heq⟩ := mem_map.1 hmem
    cases heq
    exact absurd (hpath p hp) (not_lt.2 h.rank_le)
  refine ⟨h.member, h.rank_le.trans hlt.le, ?_, fun lastMember rest walked hwalk => ?_⟩
  · rw [mem_append, not_or]
    exact ⟨hnot, h.not_mem⟩
  · rw [append_assoc, hfirst.walkFrom] at hwalk
    obtain ⟨walked', hwalk', rfl⟩ := map_eq_some_iff.1 hwalk
    rw [count_append, count_eq_zero_of_not_mem hnot, zero_add]
    exact h.count _ rest walked' hwalk'

/-- A leftover of the search of an anonymous member begins with the index of that member. -/
theorem leadsAstray_of_leftover {id i : Nat} {raw' : List U32}
    (hm : targ.memberAt id i = some m) (hraw : raw ≠ [])
    (hinner : Searched localBtf targ field name (.type m.type.toNat) raw steps none)
    (hrest : Searched localBtf targ field name (.members id (i + 1)) raw' steps' found) :
    LeadsAstray targ rank id ((BitVec.ofNat 32 i :: raw).dropLast ++ raw')
      (steps ++ steps') id i := by
  have hlt := rank_member_lt hrank hm
  obtain ⟨entry, raw, rfl⟩ := exists_cons_of_ne_nil hraw
  refine ⟨by simp [hm], le_rfl, ?_, fun lastMember rest walked hwalk => ?_⟩
  · intro hmem
    rcases mem_append.1 hmem with hmem | hmem
    · obtain ⟨k, j, heq, hk⟩ := (hinner.rank_le hrank).1 _ hmem
      cases heq
      exact absurd hlt (not_lt.2 hk)
    · obtain ⟨k, j, heq, hk⟩ := (hrest.rank_le hrank).1 _ hmem
      cases heq
      omega
  · rw [dropLast_cons_of_ne_nil (cons_ne_nil _ _), cons_append, cons_append,
      walkFrom_member hm] at hwalk
    obtain ⟨walked', hwalk', rfl⟩ := map_eq_some_iff.1 hwalk
    have hnot : WalkStep.member id i ∉ walked' := by
      intro hmem
      have hle := rank_le_of_walkFrom hrank hwalk' hmem
      omega
    rw [count_cons_self, count_eq_zero_of_not_mem hnot]

/-- A search that finds a field has met no other of the name, or it leaves a spec that leads
astray. -/
theorem Searched.found_cases {result : Option FoundField}
    (h : Searched localBtf targ field name place raw steps result) {found : FoundField}
    (hfound : result = some found) : (∃ path m, FirstNamed targ name place (some (path, m)) ∧
      bpfCoreFieldsAreCompat localBtf field.type.toNat targ m.type.toNat = .ok true) ∨
    ∃ k j, LeadsAstray targ rank place.id raw steps k j ∧ rank found.next < rank k := by
  induction h with
  | notComposite _ _ => simp at hfound
  | composite hskip hcomposite _ ih =>
    rcases ih hfound with ⟨path, m, hfirst, hcompat⟩ | ⟨k, j, hastray, hlt⟩
    · exact .inl ⟨path, m, .composite hskip hcomposite hfirst, hcompat⟩
    · exact .inr ⟨k, j, hastray.skip hrank hskip, hlt⟩
  | nil _ => simp at hfound
  | other hm hname hne _ ih =>
    rcases ih hfound with ⟨path, m, hfirst, hcompat⟩ | ⟨k, j, hastray, hlt⟩
    · exact .inl ⟨path, m, .other hm hname hne hfirst, hcompat⟩
    · exact .inr ⟨k, j, hastray, hlt⟩
  | @inside id i m raw steps found' hm hname _ ih =>
    rcases ih hfound with ⟨path, m', hfirst, hcompat⟩ | ⟨k, j, hastray, hlt⟩
    · exact .inl ⟨_, m', .inside hm hname hfirst, hcompat⟩
    have hmlt := rank_member_lt hrank hm
    have hne : WalkStep.member k j ≠ .member id i := by
      intro heq
      cases heq
      exact absurd hmlt (not_lt.2 hastray.rank_le)
    refine .inr ⟨k, j, ⟨hastray.member, hastray.rank_le.trans hmlt.le, ?_,
      fun lastMember rest walked hwalk => ?_⟩, hlt⟩
    · simp [hne, hastray.not_mem]
    · rw [Place.id, cons_append, walkFrom_member hm] at hwalk
      obtain ⟨walked', hwalk', rfl⟩ := map_eq_some_iff.1 hwalk
      rw [count_cons_of_ne hne.symm]
      exact hastray.count _ rest walked' hwalk'
  | @notInside id i m raw raw' steps steps' found' hm hname hinner hrest _ ih' =>
    rcases hinner.firstNamed with ⟨hnone, rfl, rfl, -⟩ | ⟨path, m', -, hrest'⟩
    · rcases ih' hfound with ⟨path, m', hfirst, hcompat⟩ | ⟨k, j, hastray, hlt⟩
      · exact .inl ⟨path, m', .notInside hm hname hnone hfirst, hcompat⟩
      · exact .inr ⟨k, j, hastray, hlt⟩
    · rcases hrest' with ⟨-, -, -, p, -, hnone⟩ | ⟨-, hraw⟩
      · simp at hnone
      · exact .inr ⟨id, i, leadsAstray_of_leftover hrank hm hraw hinner hrest,
          (hrest.rank_le hrank).2 found hfound⟩
  | compatible hm hname hcompat => exact .inl ⟨_, _, .here hm hname, hcompat⟩
  | incompatible _ _ _ => simp at hfound

end

end LinuxKernel.Bpf
