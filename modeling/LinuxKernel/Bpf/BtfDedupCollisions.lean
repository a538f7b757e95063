import LinuxKernel.Foundation.TwoRuns
import LinuxKernel.Bpf.HashmapMultimap
import LinuxKernel.Bpf.BtfDedup

/-!
# The hash function does not matter

`hashmap.c` returns the same for every hash function that respects `equal_fn`, because the lists of
entries it works on do not mention the hash. `btf__dedup` reads its table of candidates only
through `hashmap__append` and `hashmap__for_each_key_entry`. So a run with `force_collisions`,
where all candidates share one chain, and a run without it go through the same states apart from
the chains.
-/

namespace LinuxKernel.Bpf

open Foundation

theorem dedupFns_compatible (force : Bool) : (dedupFns force).Compatible := by
  intro a b h
  have hab : a = b := by simpa [dedupFns] using h
  rw [hab]

/-- `d'` is `d` with a table of candidates that shows the same lists under the other hash. -/
def SameCands (force force' : Bool) (d d' : Dedup) : Prop :=
  ∃ (table : Hashmap (BitVec 64) Nat) (m : Multimap (fun a b : BitVec 64 => a == b) Nat),
    d' = { d with dedupTable := table } ∧
      Shows (dedupFns force) d.dedupTable m ∧ Shows (dedupFns force') table m

/-- Two runs of a function that depends on `force_collisions` agree. -/
abbrev Alike {α : Type} (force force' : Bool) (x : Bool → DedupM α) : Prop :=
  Agree (SameCands force force') (x force) (x force')

variable {f g : Nat → Nat → DedupM Bool}

section
variable {force force' : Bool} {alloc : Nat → Alloc}

theorem SameCands.update {d d' : Dedup} (h : SameCands force force' d d') {u : Dedup → Dedup}
    (htable : ∀ d, (u d).dedupTable = d.dedupTable)
    (hrest : ∀ d table, u { d with dedupTable := table } = { u d with dedupTable := table }) :
    SameCands force force' (u d) (u d') := by
  obtain ⟨table, m, rfl, hm, hm'⟩ := h
  exact ⟨table, m, hrest d table, by rw [htable]; exact hm, hm'⟩

/-! ## Access to the state -/

theorem agree_read {α : Type} {f g : Dedup → DedupM α}
    (h : ∀ d table, Agree (SameCands force force') (f d) (g { d with dedupTable := table })) :
    Agree (SameCands force force') (get >>= f) (get >>= g) := by
  apply agree_get_bind
  rintro d _ ⟨table, m, rfl, hm⟩
  exact h d table _ _ ⟨table, m, rfl, hm⟩

variable (id : Nat)

theorem agree_typeById : Alike force force' fun _ => typeById id := by
  apply agree_read
  intro d table
  cases d.types[id]? with
  | none => exact agree_throw _
  | some x => exact agree_pure x

theorem agree_setType (t : BtfType) : Alike force force' fun _ => setType id t := by
  apply agree_get_bind
  intro d d' h
  exact sameOutcome_set (h.update (u := fun d => { d with types := d.types.set id t })
    (fun _ => rfl) fun _ _ => rfl)

theorem agree_mapAt : Alike force force' fun _ => mapAt id := by
  apply agree_read
  intro d table
  cases d.map[id]? with
  | none => exact agree_throw _
  | some x => exact agree_pure x

theorem agree_hypotAt : Alike force force' fun _ => hypotAt id := by
  apply agree_read
  intro d table
  cases d.hypotMap[id]? with
  | none => exact agree_throw _
  | some x => exact agree_pure x

theorem agree_setMap (site : WriteSite) (id : Nat) (value : MapEntry) :
    Alike force force' fun _ => setMap site id value := by
  apply agree_get_bind
  rintro d _ ⟨table, m, rfl, hm⟩
  split
  · exact sameOutcome_set ⟨table, m, rfl, hm⟩
  · exact .error _ ⟨table, m, rfl, hm⟩

theorem agree_nextAlloc : Alike force force' fun b => nextAlloc ⟨b, alloc⟩ := by
  apply agree_get_bind
  rintro d _ ⟨table, m, rfl, hm⟩
  exact .ok (alloc d.allocs) ⟨table, m, rfl, hm⟩

theorem agree_tableAdd (hash : BitVec 64) (typeId : Nat) :
    Alike force force' fun b => tableAdd ⟨b, alloc⟩ hash typeId := by
  apply agree_bind agree_nextAlloc
  intro a
  apply agree_get_bind
  rintro d _ ⟨table, m, rfl, hm, hm'⟩
  have hstep := hm.exec (dedupFns_compatible force) (.insert a hash typeId .append)
  have hstep' := hm'.exec (dedupFns_compatible force') (.insert a hash typeId .append)
  have hret := hstep.2.trans hstep'.2.symm
  simp only [Hashmap.exec, MultimapRet.inserted.injEq] at hstep hstep' hret
  apply sameOutcome_set_bind
  rw [hret.1]
  split
  · exact .ok () ⟨_, _, rfl, hstep.1, hstep'.1⟩
  · exact .error _ ⟨_, _, rfl, hstep.1, hstep'.1⟩

theorem agree_dedupCands (hash : BitVec 64) :
    Alike force force' fun b => dedupCands ⟨b, alloc⟩ hash := by
  apply agree_get_bind
  rintro d _ ⟨table, m, rfl, hm, hm'⟩
  have hcands : hashmapKeyEntries (dedupFns force) d.dedupTable hash =
      hashmapKeyEntries (dedupFns force') table hash :=
    (hm.hashmapKeyEntries (dedupFns_compatible force) hash).trans
      (hm'.hashmapKeyEntries (dedupFns_compatible force') hash).symm
  rw [hcands]
  exact .ok _ ⟨table, m, rfl, hm, hm'⟩

theorem agree_growHypotList : Alike force force' fun b => growHypotList ⟨b, alloc⟩ := by
  apply agree_get_bind
  intro d d' h
  apply sameOutcome_set_bind
  refine agree_bind agree_nextAlloc (fun a => ?_) _ _ ?_
  · exact agree_ite (agree_pure ()) (agree_throw _)
  · exact h.update (u := fun d => { d with hypotCap := d.hypotCap + max 16 (d.hypotCap / 2) })
      (fun _ => rfl) fun _ _ => rfl

theorem agree_hypotMapAdd (fromId toId : Nat) :
    Alike force force' fun b => hypotMapAdd ⟨b, alloc⟩ fromId toId := by
  apply agree_read
  intro d table
  apply agree_bind (agree_onlyIf _ agree_growHypotList)
  intro _
  apply agree_get_bind
  rintro d _ ⟨table, m, rfl, hm⟩
  split
  · exact sameOutcome_set ⟨table, m, rfl, hm⟩
  · exact .error _ ⟨table, m, rfl, hm⟩

theorem agree_clearHypotMap : Agree (SameCands force force') clearHypotMap clearHypotMap := by
  apply agree_get_bind
  rintro d _ ⟨table, m, rfl, hm⟩
  exact sameOutcome_set ⟨table, m, rfl, hm⟩

/-! ## Base BTF and primitive types -/

theorem agree_prepType (typeId : Nat) : Alike force force' fun b => prepType ⟨b, alloc⟩ typeId := by
  apply agree_bind (agree_typeById typeId)
  intro t
  apply agree_bind (agree_setMap _ _ _)
  intro _
  cases prepHash t with
  | error e => exact agree_throw e
  | ok hash =>
    cases hash with
    | none => exact agree_pure ()
    | some h => exact agree_tableAdd h typeId

theorem agree_btfDedupPrep : Alike force force' fun b => btfDedupPrep ⟨b, alloc⟩ :=
  agree_read fun _ _ => agree_forM agree_prepType _

theorem agree_forEachType {f g : Nat → DedupM Unit}
    (h : ∀ id, Agree (SameCands force force') (f id) (g id)) :
    Agree (SameCands force force') (forEachType f) (forEachType g) :=
  agree_read fun _ _ => agree_forM h _

theorem agree_findCand (eq : BtfType → BtfType → Bool) (t : BtfType) (typeId : Nat)
    (cands : List Nat) : Alike force force' fun _ => findCand eq t typeId cands := by
  induction cands with
  | nil => exact agree_pure typeId
  | cons candId rest ih =>
    apply agree_bind (agree_typeById candId)
    intro cand
    exact agree_ite (agree_pure candId) ih

theorem agree_findEnumCand (t : BtfType) (typeId : Nat) (cands : List Nat) :
    Alike force force' fun _ => findEnumCand t typeId cands := by
  induction cands with
  | nil => exact agree_pure typeId
  | cons candId rest ih =>
    apply agree_bind (agree_typeById candId)
    intro cand
    apply agree_ite (agree_pure candId)
    apply agree_ite _ ih
    apply agree_ite (agree_pure candId)
    exact agree_bind (agree_setMap _ _ _) fun _ => ih

theorem agree_setCanonical (site : WriteSite) (hash : BitVec 64) (typeId newId : Nat) :
    Alike force force' fun b => setCanonical ⟨b, alloc⟩ site hash typeId newId := by
  apply agree_bind (agree_setMap _ _ _)
  intro _
  exact agree_ite (agree_tableAdd hash typeId) (agree_pure ())

/-- The end of each pass: search the candidates of a hash and enter the result. -/
theorem agree_canonize {find : List Nat → DedupM Nat}
    (hfind : ∀ cands, Alike force force' fun _ => find cands)
    (site : WriteSite) (hash : BitVec 64) (typeId : Nat) : Agree (SameCands force force')
      (do
        let newId ← find (← dedupCands ⟨force, alloc⟩ hash)
        setCanonical ⟨force, alloc⟩ site hash typeId newId)
      (do
        let newId ← find (← dedupCands ⟨force', alloc⟩ hash)
        setCanonical ⟨force', alloc⟩ site hash typeId newId) := by
  apply agree_bind (agree_dedupCands hash)
  intro cands
  apply agree_bind (hfind cands)
  intro newId
  exact agree_setCanonical site hash typeId newId

theorem agree_btfDedupPrimType (typeId : Nat) :
    Alike force force' fun b => btfDedupPrimType ⟨b, alloc⟩ typeId := by
  apply agree_bind (agree_typeById typeId)
  intro t
  cases t.kind with
  | int => exact agree_canonize (agree_findCand btfEqualIntTag t typeId) _ _ _
  | enum | enum64 => exact agree_canonize (agree_findEnumCand t typeId) _ _ _
  | fwd | float => exact agree_canonize (agree_findCand btfEqualCommon t typeId) _ _ _
  | unkn | other _ => exact agree_throw _
  | _ => exact agree_pure ()

/-! ## Comparing type graphs -/

variable (fuel typeId : Nat)

theorem agree_resolveTypeId : Alike force force' fun _ => resolveTypeId fuel typeId := by
  induction fuel generalizing typeId with
  | zero => exact agree_throw _
  | succ fuel ih =>
    apply agree_bind (agree_mapAt typeId)
    intro e
    cases e with
    | mapped id => exact agree_ite (agree_pure typeId) (ih id)
    | _ => exact agree_pure typeId

theorem agree_resolveFwdId : Alike force force' fun _ => resolveFwdId fuel typeId := by
  apply agree_bind (agree_typeById typeId)
  intro t
  apply agree_ite _ (agree_pure typeId)
  apply agree_bind (agree_resolveTypeId fuel typeId)
  intro id
  apply agree_bind (agree_typeById id)
  intro r
  exact agree_ite (agree_pure typeId) (agree_pure id)

theorem agree_readOnly {α : Type} (x : Except Failure α) :
    Alike force force' fun _ => readOnly x := by
  cases x with
  | ok a => exact agree_pure a
  | error e => exact agree_throw e

theorem agree_compareHypot (fuel hypotId candId : Nat) :
    Alike force force' fun _ => compareHypot fuel hypotId candId := by
  apply agree_get_bind
  rintro d _ ⟨table, m, rfl, hm⟩
  cases identicalArrays d.types hypotId candId with
  | error e => exact .error e ⟨table, m, rfl, hm⟩
  | ok identical =>
    cases identical with
    | true => exact .ok true ⟨table, m, rfl, hm⟩
    | false => exact agree_readOnly _ _ _ ⟨table, m, rfl, hm⟩

theorem agree_allEquiv
    (h : ∀ i j, Agree (SameCands force force') (f i j) (g i j)) (pairs : List (U32 × U32)) :
    Agree (SameCands force force') (allEquiv f pairs) (allEquiv g pairs) := by
  induction pairs with
  | nil => exact agree_pure true
  | cons pair rest ih =>
    apply agree_bind (h _ _)
    intro equiv
    exact agree_ite ih (agree_pure false)

theorem agree_equivFwd (candType canonType : BtfType) (canonId : Nat) :
    Alike force force' fun _ => equivFwd candType canonType canonId := by
  apply agree_ite (agree_pure _)
  apply agree_get_bind
  rintro d _ ⟨table, m, rfl, hm⟩
  generalize decide (btfFwdKind canonType = candType.kind ∧ canonId < d.startId) = adjust
  cases adjust with
  | true | false => exact .ok _ ⟨table, m, rfl, hm⟩

theorem agree_equivTypes
    (h : ∀ i j, Agree (SameCands force force') (f i j) (g i j)) (candType canonType : BtfType)
    (canonId : Nat) : Agree (SameCands force force') (equivTypes f candType canonType canonId)
      (equivTypes g candType canonType canonId) := by
  apply agree_ite (agree_pure false)
  apply agree_ite (agree_equivFwd candType canonType canonId)
  apply agree_ite (agree_pure false)
  cases candType.kind with
  | int | enum | enum64 | fwd | float => exact agree_pure _
  | const | volatile | restrict | ptr | typedef | func | typeTag =>
    exact agree_ite (agree_pure false) (agree_allEquiv h _)
  | array | struct | union | funcProto => exact agree_ite (agree_allEquiv h _) (agree_pure false)
  | unkn | var | datasec | declTag | other _ => exact agree_throw _

theorem agree_isEquiv (fuel candId canonId : Nat) :
    Alike force force' fun b => isEquiv ⟨b, alloc⟩ fuel candId canonId := by
  induction fuel generalizing candId canonId with
  | zero => exact agree_throw _
  | succ fuel ih =>
    apply agree_bind (agree_resolveTypeId fuel candId)
    intro candRoot
    apply agree_bind (agree_resolveTypeId fuel canonId)
    intro canonRoot
    apply agree_ite (agree_pure true)
    apply agree_bind (agree_resolveFwdId fuel canonId)
    intro canonId
    apply agree_bind (agree_hypotAt canonId)
    intro hypot
    cases hypot with
    | some hypotId => exact agree_ite (agree_pure true) (agree_compareHypot fuel hypotId candId)
    | none =>
      apply agree_bind (agree_hypotMapAdd canonId candId)
      intro _
      apply agree_bind (agree_typeById candId)
      intro candType
      apply agree_bind (agree_typeById canonId)
      intro canonType
      exact agree_equivTypes ih candType canonType canonId

/-! ## Structs, unions and forward declarations -/

theorem agree_mergeEntry (fuel canonTypeId : Nat) :
    Alike force force' fun _ => mergeEntry fuel canonTypeId := by
  apply agree_bind (agree_hypotAt canonTypeId)
  intro hypot
  cases hypot with
  | none => exact agree_throw _
  | some targTypeId =>
    apply agree_bind (agree_resolveTypeId fuel targTypeId)
    intro tId
    apply agree_bind (agree_resolveTypeId fuel canonTypeId)
    intro cId
    apply agree_bind (agree_typeById tId)
    intro t
    apply agree_bind (agree_typeById cId)
    intro c
    apply agree_bind (agree_onlyIf _ (agree_setMap _ _ _))
    intro _
    apply agree_read
    intro d table
    apply agree_ite (agree_pure ())
    apply agree_bind (agree_onlyIf _ (agree_setMap _ _ _))
    intro _
    apply agree_bind (agree_mapAt cId)
    intro cEntry
    apply agree_bind (agree_mapAt tId)
    intro tEntry
    exact agree_onlyIf _ (agree_setMap _ _ _)

theorem agree_mergeHypotMap (fuel : Nat) : Alike force force' fun _ => mergeHypotMap fuel :=
  agree_read fun _ _ => agree_forM (agree_mergeEntry fuel) _

theorem agree_findStructCand (fuel : Nat) (t : BtfType) (typeId : Nat) (cands : List Nat) :
    Alike force force' fun b => findStructCand ⟨b, alloc⟩ fuel t typeId cands := by
  induction cands with
  | nil => exact agree_pure typeId
  | cons candId rest ih =>
    apply agree_bind (agree_typeById candId)
    intro candType
    apply agree_ite _ ih
    apply agree_bind agree_clearHypotMap
    intro _
    apply agree_bind (agree_isEquiv fuel typeId candId)
    intro equiv
    apply agree_ite _ ih
    apply agree_bind (agree_mergeHypotMap fuel)
    intro _
    exact agree_read fun _ _ => agree_ite ih (agree_pure candId)

theorem agree_btfDedupStructType :
    Alike force force' fun b => btfDedupStructType ⟨b, alloc⟩ fuel typeId := by
  apply agree_bind (agree_mapAt typeId)
  intro e
  apply agree_ite (agree_pure ())
  apply agree_bind (agree_typeById typeId)
  intro t
  apply agree_ite _ (agree_pure ())
  apply agree_bind (agree_dedupCands _)
  intro cands
  apply agree_bind (agree_findStructCand fuel t typeId cands)
  intro newId
  exact agree_setCanonical _ _ typeId newId

variable (names : Hashmap (BitVec 64) Nat)

theorem agree_fillName (typeId : Nat) :
    Alike force force' fun b => fillName ⟨b, alloc⟩ names typeId := by
  apply agree_bind (agree_typeById typeId)
  intro t
  apply agree_bind (agree_mapAt typeId)
  intro e
  apply agree_ite _ (agree_pure names)
  apply agree_bind agree_nextAlloc
  intro a
  apply agree_ite (agree_pure _)
  exact agree_ite (agree_pure _) (agree_throw _)

theorem agree_fillUniqueNamesMap : Alike force force' fun b => fillUniqueNamesMap ⟨b, alloc⟩ :=
  agree_read fun _ _ => agree_foldlM agree_fillName _ _

theorem agree_btfDedupResolveFwd (typeId : Nat) :
    Alike force force' fun _ => btfDedupResolveFwd names typeId := by
  apply agree_bind (agree_typeById typeId)
  intro t
  apply agree_bind (agree_mapAt typeId)
  intro e
  apply agree_ite _ (agree_pure ())
  cases hashmapFind namesFns names (t.nameOff.setWidth 64) with
  | none => exact agree_pure ()
  | some candId =>
    apply agree_ite (agree_pure ())
    apply agree_bind (agree_typeById candId)
    intro candT
    exact agree_ite (agree_pure ()) (agree_setMap _ _ _)

theorem agree_btfDedupResolveFwds : Alike force force' fun b => btfDedupResolveFwds ⟨b, alloc⟩ := by
  apply agree_bind agree_nextAlloc
  intro a
  apply agree_ite _ (agree_throw _)
  apply agree_bind agree_fillUniqueNamesMap
  intro names
  exact agree_forEachType (agree_btfDedupResolveFwd names)

/-! ## Reference types, compaction and renumbering -/

theorem agree_setTypeId (typeId : Nat) (slot : IdSlot) (refId : Nat) :
    Alike force force' fun _ => setTypeId typeId slot refId :=
  agree_bind (agree_typeById typeId) fun _ => agree_setType typeId _

theorem agree_refSlots {f g : Nat → DedupM Nat}
    (h : ∀ id, Agree (SameCands force force') (f id) (g id)) (typeId : Nat) (slots : List IdSlot) :
    Agree (SameCands force force') (refSlots f typeId slots) (refSlots g typeId slots) := by
  induction slots with
  | nil => exact agree_pure ()
  | cons slot rest ih =>
    apply agree_bind (agree_typeById typeId)
    intro t
    apply agree_bind (h _)
    intro refId
    exact agree_bind (agree_setTypeId typeId slot refId) fun _ => ih

theorem agree_btfDedupRefType :
    Alike force force' fun b => btfDedupRefType ⟨b, alloc⟩ fuel typeId := by
  induction fuel generalizing typeId with
  | zero => exact agree_throw _
  | succ fuel ih =>
    apply agree_bind (agree_mapAt typeId)
    intro e
    cases e with
    | inProgress => exact agree_throw _
    | mapped id => exact agree_resolveTypeId fuel typeId
    | unprocessed =>
      apply agree_bind (agree_typeById typeId)
      intro t
      apply agree_bind (agree_setMap _ _ _)
      intro _
      cases refScheme t with
      | none => exact agree_throw _
      | some scheme =>
        obtain ⟨slots, hash, eq⟩ := scheme
        apply agree_bind (agree_refSlots ih typeId slots)
        intro _
        apply agree_bind (agree_typeById typeId)
        intro t
        apply agree_bind (agree_dedupCands _)
        intro cands
        apply agree_bind (agree_findCand eq t typeId cands)
        intro newId
        exact agree_bind (agree_setCanonical _ _ typeId newId) fun _ => agree_pure newId

theorem agree_btfDedupCompactTypes :
    Alike force force' fun b => btfDedupCompactTypes ⟨b, alloc⟩ := by
  apply agree_get_bind
  rintro d _ ⟨table, m, rfl, hm⟩
  apply sameOutcome_set_bind
  refine agree_bind agree_nextAlloc (fun a => ?_) _ _ ⟨table, m, rfl, hm⟩
  exact agree_ite (agree_throw _) (agree_pure ())

theorem agree_remapTypeId : Alike force force' fun _ => remapTypeId fuel typeId := by
  apply agree_bind (agree_resolveTypeId fuel typeId)
  intro resolved
  apply agree_bind (agree_hypotAt resolved)
  intro hypot
  cases hypot with
  | some newId => exact agree_pure newId
  | none => exact agree_throw _

theorem agree_remapSlots (slots : List IdSlot) :
    Alike force force' fun _ => remapSlots fuel typeId slots := by
  induction slots with
  | nil => exact agree_pure ()
  | cons slot rest ih =>
    apply agree_bind (agree_typeById typeId)
    intro t
    apply agree_bind (agree_remapTypeId fuel _)
    intro newId
    exact agree_bind (agree_setTypeId typeId slot newId) fun _ => ih

theorem agree_remapType : Alike force force' fun _ => remapType fuel typeId := by
  apply agree_bind (agree_typeById typeId)
  intro t
  cases t.idSlots with
  | none => exact agree_throw _
  | some slots => exact agree_remapSlots fuel typeId slots

/-! ## All passes -/

theorem agree_btfDedupPasses (fuel : Nat) :
    Alike force force' fun b => btfDedupPasses ⟨b, alloc⟩ fuel := by
  apply agree_bind agree_btfDedupPrep
  intro _
  apply agree_bind (agree_forEachType agree_btfDedupPrimType)
  intro _
  apply agree_bind (agree_forEachType (agree_btfDedupStructType fuel))
  intro _
  apply agree_bind agree_btfDedupResolveFwds
  intro _
  exact agree_forEachType fun id => agree_bind (agree_btfDedupRefType fuel id) fun _ =>
    agree_pure ()

theorem agree_btfDedup (fuel : Nat) : Alike force force' fun b => btfDedup ⟨b, alloc⟩ fuel := by
  apply agree_bind (agree_btfDedupPasses fuel)
  intro _
  apply agree_bind agree_btfDedupCompactTypes
  intro _
  exact agree_forEachType (agree_remapType fuel)

end

/-- Two runs of the same operations return the same under any two hash functions that respect
`equal_fn`, and `btf__dedup` goes through the same writes of the canonical map and ends with the
same types whether it forces collisions or not. -/
theorem hashmap_hash_independent :
    (∀ (K V : Type) (equalFn : K → K → Bool) (hash₁ hash₂ : K → BitVec 64),
      HashFns.Compatible ⟨hash₁, equalFn⟩ → HashFns.Compatible ⟨hash₂, equalFn⟩ →
      ∀ ops : List (MultimapOp K V),
        (Hashmap.execAll ⟨hash₁, equalFn⟩ ops hashmapInit).2 =
          (Hashmap.execAll ⟨hash₂, equalFn⟩ ops hashmapInit).2) ∧
    ∀ (alloc : Nat → Alloc) (fuel : Nat) (types : List BtfType) (startId : Nat),
      SameOutcome (fun d d' => d' = { d with dedupTable := d'.dedupTable })
        (btfDedup ⟨true, alloc⟩ fuel (btfDedupNew types startId))
        (btfDedup ⟨false, alloc⟩ fuel (btfDedupNew types startId)) := by
  constructor
  · intro K V equalFn hash₁ hash₂ hf₁ hf₂ ops
    exact execAll_eq_of_shows hf₁ hf₂ ops (shows_init _) (shows_init _)
  intro alloc fuel types startId
  have hinit : SameCands true false (btfDedupNew types startId) (btfDedupNew types startId) :=
    ⟨hashmapInit, Multimap.init, rfl, shows_init _, shows_init _⟩
  apply (agree_btfDedup fuel _ _ hinit).mono
  rintro d _ ⟨table, m, rfl, -⟩
  rfl

/-- Two appends of one key, seen through the identity hash and through the constant one. -/
theorem hashmap_hash_independent_constant : let ops : List (MultimapOp (BitVec 64) Nat) :=
      [.insert {} 1 10 .append, .insert {} 1 11 .append, .insert {} 2 20 .append,
        .forEachKeyEntry 1]
    (Hashmap.execAll ⟨fun _ => 0, (· == ·)⟩ ops hashmapInit).2 =
        (Hashmap.execAll ⟨id, (· == ·)⟩ ops hashmapInit).2 ∧
      (Hashmap.execAll ⟨id, (· == ·)⟩ ops hashmapInit).2.getLast? =
        some (.visited [⟨1, 11⟩, ⟨1, 10⟩]) :=
  ⟨hashmap_hash_independent.1 _ _ (· == ·) (fun _ => 0) id (dedupFns_compatible true)
    (dedupFns_compatible false) _, by decide⟩

end LinuxKernel.Bpf
