import LinuxKernel.Bpf.Hashmap
import LinuxKernel.Bpf.BtfEqual
import LinuxKernel.Foundation.WeakestPre

/-!
# BTF deduplication

The passes of `btf__dedup` in `tools/lib/bpf/btf.c` that work on types, on a BTF whose strings are
deduplicated. `types` holds the records of base and split BTF under their ids, with `void` under 0.

Programs run in `DedupM`: they return or fail, and leave the state in both cases. `fault` is an
access outside an array, `fuel` a recursion or loop that was cut off. Next to the fields of
`struct btf_dedup` the state keeps the writes to `map` made so far.
-/

namespace LinuxKernel.Bpf

open Foundation

/-! ## State -/

inductive Failure
  | einval
  | enomem
  | eloop
  | fault
  | fuel
  deriving DecidableEq, Repr

/-- An entry of `map`: `BTF_UNPROCESSED_ID`, `BTF_IN_PROGRESS_ID`, or an id up to
`BTF_MAX_NR_TYPES`. -/
inductive MapEntry
  | unprocessed
  | inProgress
  | mapped (id : Nat)
  deriving DecidableEq, Repr

/-- `is_type_mapped`, for the entry of the type. -/
def MapEntry.isMapped : MapEntry → Bool
  | mapped _ => true
  | _ => false

inductive WriteSite
  | prep
  | prim
  | enumFwd
  | mergeCanonFwd
  | mergeTargFwd
  /-- `direct` says that the two types of the merged entry are aggregates themselves, and not
  forward declarations -/
  | mergeStruct (direct : Bool)
  | struct
  | resolveFwd
  | inProgress
  | ref
  deriving DecidableEq, Repr

structure MapWrite where
  site : WriteSite
  id : Nat
  value : MapEntry
  after : List MapEntry
  deriving DecidableEq, Repr

/-- `struct btf_dedup`, with the part of `struct btf` it works on. -/
structure Dedup where
  types : List BtfType
  startId : Nat
  dedupTable : Hashmap (BitVec 64) Nat
  map : List MapEntry
  hypotMap : List (Option Nat)
  /-- `hypot_list` up to `hypot_cnt` -/
  hypotList : List Nat
  hypotCap : Nat
  hypotAdjustCanon : Bool
  /-- how many times memory was asked for -/
  allocs : Nat
  /-- the writes to `map`, the last one first -/
  writes : List MapWrite
  deriving DecidableEq, Repr

/-- What a run depends on besides the BTF: `opts.force_collisions`, and what the allocator answers
when it is asked for the `n`-th time. -/
structure DedupEnv where
  forceCollisions : Bool
  alloc : Nat → Alloc

abbrev DedupM := EStateM Failure Dedup

/-- `btf_dedup_identity_hash_fn` or `btf_dedup_collision_hash_fn`, and `btf_dedup_equal_fn`. -/
def dedupFns (forceCollisions : Bool) : HashFns (BitVec 64) where
  hashFn := if forceCollisions then fun _ => 0 else id
  equalFn := (· == ·)

/-- The `map` that `btf_dedup_new` sets up: `void`, `VAR` and `DATASEC` are canonical. -/
def initialMap (types : List BtfType) : List MapEntry :=
  types.mapIdx fun i t =>
    if i = 0 ∨ t.kind = .var ∨ t.kind = .datasec then .mapped i else .unprocessed

def btfDedupNew (types : List BtfType) (startId : Nat) : Dedup where
  types := types
  startId := startId
  dedupTable := hashmapInit
  map := initialMap types
  hypotMap := List.replicate types.length none
  hypotList := []
  hypotCap := 0
  hypotAdjustCanon := false
  allocs := 0
  writes := []

section

def typeById (id : Nat) : DedupM BtfType := do
  match (← get).types[id]? with
  | some t => pure t
  | none => throw .fault

def setType (id : Nat) (t : BtfType) : DedupM Unit := do
  let d ← get
  set { d with types := d.types.set id t }

def mapAt (id : Nat) : DedupM MapEntry := do
  match (← get).map[id]? with
  | some e => pure e
  | none => throw .fault

def setMap (site : WriteSite) (id : Nat) (value : MapEntry) : DedupM Unit := do
  let d ← get
  if id < d.map.length then
    set { d with
      map := d.map.set id value
      writes := ⟨site, id, value, d.map.set id value⟩ :: d.writes }
  else throw .fault

/-- Reading `hypot_map`; `none` is `BTF_UNPROCESSED_ID`. -/
def hypotAt (id : Nat) : DedupM (Option Nat) := do
  match (← get).hypotMap[id]? with
  | some e => pure e
  | none => throw .fault

def nextAlloc (env : DedupEnv) : DedupM Alloc := do
  let d ← get
  set { d with allocs := d.allocs + 1 }
  pure (env.alloc d.allocs)

def tableAdd (env : DedupEnv) (hash : BitVec 64) (typeId : Nat) : DedupM Unit := do
  let a ← nextAlloc env
  let d ← get
  let r := hashmapInsert (dedupFns env.forceCollisions) a d.dedupTable hash typeId .append
  set { d with dedupTable := r.map }
  if r.ret = 0 then pure () else throw .enomem

def dedupCands (env : DedupEnv) (hash : BitVec 64) : DedupM (List Nat) := do
  let d ← get
  pure ((hashmapKeyEntries (dedupFns env.forceCollisions) d.dedupTable hash).map (·.value))

def growHypotList (env : DedupEnv) : DedupM Unit := do
  let d ← get
  set { d with hypotCap := d.hypotCap + max 16 (d.hypotCap / 2) }
  let a ← nextAlloc env
  if a.entry then pure () else throw .enomem

def hypotMapAdd (env : DedupEnv) (fromId toId : Nat) : DedupM Unit := do
  let d ← get
  onlyIf (d.hypotList.length = d.hypotCap) (growHypotList env)
  let d ← get
  if fromId < d.hypotMap.length then
    set { d with
      hypotList := d.hypotList ++ [fromId]
      hypotMap := d.hypotMap.set fromId (some toId) }
  else throw .fault

def clearHypotMap : DedupM Unit := do
  let d ← get
  set { d with
    hypotMap := d.hypotList.foldl (fun m i => m.set i none) d.hypotMap
    hypotList := []
    hypotAdjustCanon := false }

end

/-! ## Base BTF -/

/-- The hash under which `btf_dedup_prep` enters a base type; `none` for the kinds that are never
deduplicated. -/
def prepHash (t : BtfType) : Except Failure (Option (BitVec 64)) :=
  match t.kind with
  | .var | .datasec => .ok none
  | .const | .volatile | .restrict | .ptr | .fwd | .typedef | .func | .float | .typeTag =>
    .ok (some (btfHashCommon t))
  | .int | .declTag => .ok (some (btfHashIntDeclTag t))
  | .enum | .enum64 => .ok (some (btfHashEnum t))
  | .struct | .union => .ok (some (btfHashStruct t))
  | .array => .ok (some (btfHashArray t))
  | .funcProto => .ok (some (btfHashFnproto t))
  | .unkn | .other _ => .error .einval

def prepType (env : DedupEnv) (typeId : Nat) : DedupM Unit := do
  let t ← typeById typeId
  setMap .prep typeId (.mapped typeId)
  match prepHash t with
  | .error e => throw e
  | .ok none => pure ()
  | .ok (some h) => tableAdd env h typeId

/-- `btf_dedup_prep`; without base BTF `start_id` is 1. -/
def btfDedupPrep (env : DedupEnv) : DedupM Unit := do
  let d ← get
  (List.range' 1 (d.startId - 1)).forM (prepType env)

/-! ## Primitive types -/

def findCand (eq : BtfType → BtfType → Bool) (t : BtfType) (typeId : Nat) : List Nat → DedupM Nat
  | [] => pure typeId
  | candId :: rest => do
    let cand ← typeById candId
    if eq t cand then pure candId else findCand eq t typeId rest

/-- The search of a candidate for an enum, which redirects the forward declarations it passes. -/
def findEnumCand (t : BtfType) (typeId : Nat) : List Nat → DedupM Nat
  | [] => pure typeId
  | candId :: rest => do
    let cand ← typeById candId
    if btfEqualEnum t cand then pure candId
    else if btfCompatEnum t cand then
      if btfIsEnumFwd t then pure candId
      else do
        setMap .enumFwd candId (.mapped typeId)
        findEnumCand t typeId rest
    else findEnumCand t typeId rest

/-- The end of each pass over one type: record its canonical type, and make it a candidate if it is
its own. -/
def setCanonical (env : DedupEnv) (site : WriteSite) (hash : BitVec 64) (typeId newId : Nat) :
    DedupM Unit := do
  setMap site typeId (.mapped newId)
  if typeId = newId then tableAdd env hash typeId else pure ()

def btfDedupPrimType (env : DedupEnv) (typeId : Nat) : DedupM Unit := do
  let t ← typeById typeId
  match t.kind with
  | .const | .volatile | .restrict | .ptr | .typedef | .array | .struct | .union | .func
  | .funcProto | .var | .datasec | .declTag | .typeTag => pure ()
  | .int => do
    let h := btfHashIntDeclTag t
    let newId ← findCand btfEqualIntTag t typeId (← dedupCands env h)
    setCanonical env .prim h typeId newId
  | .enum | .enum64 => do
    let h := btfHashEnum t
    let newId ← findEnumCand t typeId (← dedupCands env h)
    setCanonical env .prim h typeId newId
  | .fwd | .float => do
    let h := btfHashCommon t
    let newId ← findCand btfEqualCommon t typeId (← dedupCands env h)
    setCanonical env .prim h typeId newId
  | .unkn | .other _ => throw .einval

def forEachType (f : Nat → DedupM Unit) : DedupM Unit := do
  let d ← get
  (List.range' d.startId (d.types.length - d.startId)).forM f

def btfDedupPrimTypes (env : DedupEnv) : DedupM Unit := forEachType (btfDedupPrimType env)

/-! ## Following the canonical map -/

def resolveTypeId : Nat → Nat → DedupM Nat
  | 0, _ => throw .fuel
  | fuel + 1, typeId => do
    match ← mapAt typeId with
    | .mapped id => if id = typeId then pure typeId else resolveTypeId fuel id
    | _ => pure typeId

def resolveFwdId (fuel typeId : Nat) : DedupM Nat := do
  let t ← typeById typeId
  if t.isFwd then
    let id ← resolveTypeId fuel typeId
    let r ← typeById id
    if r.isFwd then pure typeId else pure id
  else pure typeId

def btfFwdKind (t : BtfType) : BtfKind := if t.kflag then .union else .struct

/-! ## Comparing two type graphs -/

section
variable (types : List BtfType)

def typeAt (id : Nat) : Except Failure BtfType :=
  match types[id]? with
  | some t => .ok t
  | none => .error .fault

def identicalArrays (id1 id2 : Nat) : Except Failure Bool := do
  let t1 ← typeAt types id1
  let t2 ← typeAt types id2
  pure (t1.kind = .array && t2.kind = .array && btfEqualArray t1 t2)

/-- The loop of `btf_dedup_identical_structs` over the members; `identical` is the recursive
call. -/
def identicalMembers (identical : Nat → Nat → Except Failure Bool) :
    List (BtfMember × BtfMember) → Except Failure Bool
  | [] => pure true
  | (m1, m2) :: rest =>
    if m1.type = m2.type then identicalMembers identical rest
    else do
      if ← identicalArrays types m1.type.toNat m2.type.toNat then identicalMembers identical rest
      else if ← identical m1.type.toNat m2.type.toNat then identicalMembers identical rest
      else pure false

def identicalStructs : Nat → Nat → Nat → Except Failure Bool
  | 0, _, _ => throw .fuel
  | fuel + 1, id1, id2 => do
    let t1 ← typeAt types id1
    let t2 ← typeAt types id2
    if t1.isComposite && t1.kind = t2.kind && btfShallowEqualStruct t1 t2 then
      identicalMembers types (identicalStructs fuel) (t1.members.zip t2.members)
    else pure false

end

def readOnly {α : Type} (x : Except Failure α) : DedupM α :=
  match x with
  | .ok a => pure a
  | .error e => throw e

/-- The comparison with a type that the canonical one was mapped to before. -/
def compareHypot (fuel hypotId candId : Nat) : DedupM Bool := do
  let d ← get
  if ← readOnly (identicalArrays d.types hypotId candId) then pure true
  else readOnly (identicalStructs d.types fuel hypotId candId)

def allEquiv (isEquiv : Nat → Nat → DedupM Bool) : List (U32 × U32) → DedupM Bool
  | [] => pure true
  | (cand, canon) :: rest => do
    if ← isEquiv cand.toNat canon.toNat then allEquiv isEquiv rest else pure false

/-- `FWD <--> STRUCT/UNION` equivalence, for exactly one of the two a `FWD`. -/
def equivFwd (candType canonType : BtfType) (canonId : Nat) : DedupM Bool := do
  if candType.isFwd then pure (btfFwdKind candType = canonType.kind)
  else do
    let d ← get
    -- a FWD of the base BTF would have to be resolved
    onlyIf (btfFwdKind canonType = candType.kind ∧ canonId < d.startId)
      (set { d with hypotAdjustCanon := true })
    pure (btfFwdKind canonType = candType.kind)

/-- The part of `btf_dedup_is_equiv` after the pair was entered in the hypothetical map; `isEquiv`
is the recursive call. -/
def equivTypes (isEquiv : Nat → Nat → DedupM Bool) (candType canonType : BtfType) (canonId : Nat) :
    DedupM Bool :=
  if candType.nameOff ≠ canonType.nameOff then pure false
  else if (candType.isFwd || canonType.isFwd) && candType.kind ≠ canonType.kind then
    equivFwd candType canonType canonId
  else if candType.kind ≠ canonType.kind then pure false
  else
    match candType.kind with
    | .int => pure (btfEqualIntTag candType canonType)
    | .enum | .enum64 => pure (btfCompatEnum candType canonType)
    | .fwd | .float => pure (btfEqualCommon candType canonType)
    | .const | .volatile | .restrict | .ptr | .typedef | .func | .typeTag =>
      if candType.info ≠ canonType.info then pure false
      else allEquiv isEquiv [(candType.size, canonType.size)]
    | .array =>
      if btfCompatArray candType canonType then
        allEquiv isEquiv [(candType.array.indexType, canonType.array.indexType),
          (candType.array.type, canonType.array.type)]
      else pure false
    | .struct | .union =>
      if btfShallowEqualStruct candType canonType then
        allEquiv isEquiv ((candType.members.map (·.type)).zip (canonType.members.map (·.type)))
      else pure false
    | .funcProto =>
      if btfCompatFnproto candType canonType then
        allEquiv isEquiv ((candType.size, canonType.size) ::
          (candType.params.map (·.type)).zip (canonType.params.map (·.type)))
      else pure false
    | .unkn | .var | .datasec | .declTag | .other _ => throw .einval

/-- `btf_dedup_is_equiv`; a negative result is a failure. -/
def isEquiv (env : DedupEnv) : Nat → Nat → Nat → DedupM Bool
  | 0, _, _ => throw .fuel
  | fuel + 1, candId, canonId => do
    let candRoot ← resolveTypeId fuel candId
    let canonRoot ← resolveTypeId fuel canonId
    if candRoot = canonRoot then pure true
    else do
      let canonId ← resolveFwdId fuel canonId
      match ← hypotAt canonId with
      | some hypotId =>
        if hypotId = candId then pure true
        else compareHypot fuel hypotId candId
      | none => do
        hypotMapAdd env canonId candId
        let candType ← typeById candId
        let canonType ← typeById canonId
        equivTypes (isEquiv env fuel) candType canonType canonId

/-! ## Structs and unions -/

def mergeEntry (fuel canonTypeId : Nat) : DedupM Unit := do
  match ← hypotAt canonTypeId with
  | none => throw .fault
  | some targTypeId => do
    let tId ← resolveTypeId fuel targTypeId
    let cId ← resolveTypeId fuel canonTypeId
    let t ← typeById tId
    let c ← typeById cId
    onlyIf (!t.isFwd && c.isFwd) (setMap .mergeCanonFwd cId (.mapped tId))
    let d ← get
    if d.hypotAdjustCanon then pure ()
    else do
      onlyIf (t.isFwd && !c.isFwd) (setMap .mergeTargFwd tId (.mapped cId))
      let cEntry ← mapAt cId
      let tEntry ← mapAt tId
      let direct := [targTypeId, canonTypeId].all fun id => d.types[id]?.any (·.isComposite)
      onlyIf (t.isComposite && !c.isFwd && cEntry.isMapped && !tEntry.isMapped)
        (setMap (.mergeStruct direct) tId (.mapped cId))

def mergeHypotMap (fuel : Nat) : DedupM Unit := do
  let d ← get
  d.hypotList.forM (mergeEntry fuel)

def findStructCand (env : DedupEnv) (fuel : Nat) (t : BtfType) (typeId : Nat) :
    List Nat → DedupM Nat
  | [] => pure typeId
  | candId :: rest => do
    let candType ← typeById candId
    if btfShallowEqualStruct t candType then
      clearHypotMap
      if ← isEquiv env fuel typeId candId then
        mergeHypotMap fuel
        let d ← get
        -- not really equivalent
        if d.hypotAdjustCanon then findStructCand env fuel t typeId rest
        else pure candId
      else findStructCand env fuel t typeId rest
    else findStructCand env fuel t typeId rest

def btfDedupStructType (env : DedupEnv) (fuel typeId : Nat) : DedupM Unit := do
  let e ← mapAt typeId
  if e.isMapped then pure ()
  else do
    let t ← typeById typeId
    if t.isComposite then
      let h := btfHashStruct t
      let newId ← findStructCand env fuel t typeId (← dedupCands env h)
      setCanonical env .struct h typeId newId
    else pure ()

def btfDedupStructTypes (env : DedupEnv) (fuel : Nat) : DedupM Unit :=
  forEachType (btfDedupStructType env fuel)

/-! ## Forward declarations -/

/-- The callbacks of `names_map`, which is never made to collide. -/
def namesFns : HashFns (BitVec 64) := dedupFns false

def fillName (env : DedupEnv) (names : Hashmap (BitVec 64) Nat) (typeId : Nat) :
    DedupM (Hashmap (BitVec 64) Nat) := do
  let t ← typeById typeId
  let e ← mapAt typeId
  if t.isComposite && e = .mapped typeId then
    let a ← nextAlloc env
    let r := hashmapInsert namesFns a names (t.nameOff.setWidth 64) typeId .add
    if r.ret = -EEXIST then
      -- the name is not unique
      pure (hashmapInsert namesFns a r.map (t.nameOff.setWidth 64) 0 .set).map
    else if r.ret = 0 then pure r.map
    else throw .enomem
  else pure names

def fillUniqueNamesMap (env : DedupEnv) : DedupM (Hashmap (BitVec 64) Nat) := do
  let d ← get
  (List.range' 1 (d.types.length - 1)).foldlM (fillName env) hashmapInit

def btfDedupResolveFwd (names : Hashmap (BitVec 64) Nat) (typeId : Nat) : DedupM Unit := do
  let t ← typeById typeId
  let e ← mapAt typeId
  if t.isFwd && e = .mapped typeId then
    match hashmapFind namesFns names (t.nameOff.setWidth 64) with
    | none => pure ()
    | some candId =>
      -- zero says that the name is not unique
      if candId = 0 then pure ()
      else do
        let candT ← typeById candId
        if (candT.kind = .struct && t.kflag) || (candT.kind = .union && !t.kflag) then pure ()
        else setMap .resolveFwd typeId (.mapped candId)
  else pure ()

def btfDedupResolveFwds (env : DedupEnv) : DedupM Unit := do
  let a ← nextAlloc env
  if a.entry then
    let names ← fillUniqueNamesMap env
    forEachType (btfDedupResolveFwd names)
  else throw .enomem

/-! ## Reference types -/

def setTypeId (typeId : Nat) (slot : IdSlot) (refId : Nat) : DedupM Unit := do
  let t ← typeById typeId
  setType typeId (t.setId slot (BitVec.ofNat 32 refId))

/-- Deduplication of the types in some slots of a record, each written back before the next;
`refType` is the recursive call. -/
def refSlots (refType : Nat → DedupM Nat) (typeId : Nat) : List IdSlot → DedupM Unit
  | [] => pure ()
  | slot :: rest => do
    let t ← typeById typeId
    let refId ← refType (t.getId slot).toNat
    setTypeId typeId slot refId
    refSlots refType typeId rest

/-- How a reference type of a kind is deduplicated: the slots in the order in which the code goes
through them, the hash, and the equality. `none` is `-EINVAL`. -/
def refScheme (t : BtfType) :
    Option (List IdSlot × (BtfType → BitVec 64) × (BtfType → BtfType → Bool)) :=
  match t.kind with
  | .const | .volatile | .restrict | .ptr | .typedef | .func | .typeTag =>
    some ([.head], btfHashCommon, btfEqualCommon)
  | .declTag => some ([.head], btfHashIntDeclTag, btfEqualIntTag)
  | .array => some ([.word 0, .word 1], btfHashArray, btfEqualArray)
  | .funcProto =>
    some (.head :: (List.range t.vlen).map (fun i => .word (2 * i + 1)), btfHashFnproto,
      btfEqualFnproto)
  | _ => none

def btfDedupRefType (env : DedupEnv) : Nat → Nat → DedupM Nat
  | 0, _ => throw .fuel
  | fuel + 1, typeId => do
    match ← mapAt typeId with
    | .inProgress => throw .eloop
    | .mapped _ => resolveTypeId fuel typeId
    | .unprocessed => do
      let t ← typeById typeId
      setMap .inProgress typeId .inProgress
      match refScheme t with
      | none => throw .einval
      | some (slots, hash, eq) => do
        refSlots (btfDedupRefType env fuel) typeId slots
        let t ← typeById typeId
        let newId ← findCand eq t typeId (← dedupCands env (hash t))
        setCanonical env .ref (hash t) typeId newId
        pure newId

def btfDedupRefTypes (env : DedupEnv) (fuel : Nat) : DedupM Unit :=
  forEachType fun typeId => do
    let _ ← btfDedupRefType env fuel typeId
    pure ()

/-! ## Compaction -/

/-- The loop of `btf_dedup_compact_types` over the types from `id` on: the records that are kept,
and the entries of `hypot_map`. The code moves the records inside `types_data` and rewrites
`type_offs`; here they are collected in a new list. -/
def compactFrom (map : List MapEntry) (nextTypeId : Nat) :
    Nat → List BtfType → List BtfType × List (Option Nat)
  | _, [] => ([], [])
  | id, t :: rest =>
    if map[id]? = some (.mapped id) then
      let (types, hypot) := compactFrom map (nextTypeId + 1) (id + 1) rest
      (t :: types, some nextTypeId :: hypot)
    else
      let (types, hypot) := compactFrom map nextTypeId (id + 1) rest
      (types, none :: hypot)

/-- `btf_dedup_compact_types`; base types are not renumbered. -/
def btfDedupCompactTypes (env : DedupEnv) : DedupM Unit := do
  let d ← get
  let (types, hypot) := compactFrom d.map d.startId d.startId (d.types.drop d.startId)
  set { d with
    types := d.types.take d.startId ++ types
    hypotMap := (List.range d.startId).map some ++ hypot }
  let a ← nextAlloc env
  if !types.isEmpty && !a.entry then throw .enomem else pure ()

def remapTypeId (fuel typeId : Nat) : DedupM Nat := do
  let resolved ← resolveTypeId fuel typeId
  match ← hypotAt resolved with
  | some newId => pure newId
  | none => throw .einval

def remapSlots (fuel typeId : Nat) : List IdSlot → DedupM Unit
  | [] => pure ()
  | slot :: rest => do
    let t ← typeById typeId
    let newId ← remapTypeId fuel (t.getId slot).toNat
    setTypeId typeId slot newId
    remapSlots fuel typeId rest

def remapType (fuel typeId : Nat) : DedupM Unit := do
  let t ← typeById typeId
  match t.idSlots with
  | none => throw .einval
  | some slots => remapSlots fuel typeId slots

/-- `btf_dedup_remap_types`, without `.BTF.ext`. -/
def btfDedupRemapTypes (fuel : Nat) : DedupM Unit := forEachType (remapType fuel)

/-! ## All passes -/

/-- The passes that establish the canonical map. -/
def btfDedupPasses (env : DedupEnv) (fuel : Nat) : DedupM Unit := do
  btfDedupPrep env
  btfDedupPrimTypes env
  btfDedupStructTypes env fuel
  btfDedupResolveFwds env
  btfDedupRefTypes env fuel

def btfDedup (env : DedupEnv) (fuel : Nat) : DedupM Unit := do
  btfDedupPasses env fuel
  btfDedupCompactTypes env
  btfDedupRemapTypes fuel

end LinuxKernel.Bpf
