import LinuxKernel.Bpf.Btf
import LinuxKernel.Foundation.Loop

/-!
# CO-RE relocations: matching a field

`tools/lib/bpf/relo_core.c` finds, for a field of a local type, the field of the same name in a
target type. `bpf_core_match_member` searches the members of a struct and of its anonymous structs;
while it searches, it keeps the path to the member it looks at in `raw_spec` and the offset of that
member in `bit_offset`.
-/

namespace LinuxKernel.Bpf

open Foundation (loop)

/-- A negative result. `size` is a size that is negative as an `int`; `fault` stands for a call that
reads out of bounds or through `NULL`, or does not return. -/
inductive CoreFailure
  | einval
  | e2big
  | size
  | fault
  deriving DecidableEq, Repr

/-- What `relo_core.c` reads of a `struct btf`: the types from id 1 on, the strings, and the result
of `btf_ptr_sz`. -/
structure BtfView where
  types : List BtfType
  strs : List (BitVec 8)
  ptrSz : Nat

namespace BtfView

def typeById (btf : BtfView) (id : Nat) : Option BtfType :=
  if id = 0 then some btfVoid else btf.types[id - 1]?

def nameByOffset (btf : BtfView) (offset : U32) : Option (List (BitVec 8)) :=
  if offset.toNat < btf.strs.length then some ((btf.strs.drop offset.toNat).takeWhile (· ≠ 0))
  else none

end BtfView

def BtfType.isMod (t : BtfType) : Bool :=
  t.kind = .volatile || t.kind = .const || t.kind = .restrict || t.kind = .typeTag

def BtfType.isTypedef (t : BtfType) : Bool := decide (t.kind = .typedef)

def BtfType.isArray (t : BtfType) : Bool := t.kind = .array

def BtfType.memberBitOffset (t : BtfType) (m : BtfMember) : U32 :=
  if t.kflag then m.offset &&& 0xffffff#32 else m.offset

def skipStep (btf : BtfView) (id : Nat) : Except CoreFailure (Nat × BtfType) ⊕ Nat :=
  match btf.typeById id with
  -- the kind of NULL is asked for
  | none => .inl (.error .fault)
  | some t => if t.isMod || t.isTypedef then .inr t.type else .inl (.ok (id, t))

def skipModsAndTypedefs (btf : BtfView) (id : Nat) : Except CoreFailure (Nat × BtfType) :=
  (loop (skipStep btf) (btf.types.length + 1) id).getD (.error .fault)

/-! ## Sizes and names -/

def MAX_RESOLVE_DEPTH : Nat := 32

def UINT32_MAX : Nat := 0xffffffff

def resolvedSize (nelems : Nat) (size : Nat) : Except CoreFailure Nat :=
  if nelems ≠ 0 ∧ UINT32_MAX / nelems < size then .error .e2big else .ok (nelems * size)

/-- The loop of `btf__resolve_size`; the first argument is the number of rounds left. -/
def resolveSizeFrom (btf : BtfView) : Nat → Nat → Nat → Except CoreFailure Nat
  | 0, _, _ => .error .einval
  | depth + 1, nelems, id =>
    match btf.typeById id with
    | none => .error .einval
    | some t =>
      match t.kind with
      | .int | .struct | .union | .enum | .enum64 | .datasec | .float =>
        resolvedSize nelems t.size.toNat
      | .ptr => resolvedSize nelems btf.ptrSz
      | .typedef | .volatile | .const | .restrict | .var | .declTag | .typeTag =>
        resolveSizeFrom btf depth nelems t.type
      | .array =>
        if nelems ≠ 0 ∧ UINT32_MAX / nelems < t.array.nelems.toNat then .error .e2big
        else resolveSizeFrom btf depth (nelems * t.array.nelems.toNat) t.array.type.toNat
      | _ => .error .einval

def btfResolveSize (btf : BtfView) (id : Nat) : Except CoreFailure Nat :=
  resolveSizeFrom btf MAX_RESOLVE_DEPTH 1 id

/-- `bpf_core_is_flavor_sep`: `X___Y` where `X` and `Y` are not underscores. -/
def bpfCoreIsFlavorSep : List (BitVec 8) → Bool
  | x :: u :: v :: w :: y :: _ => x ≠ 0x5f && u = 0x5f && v = 0x5f && w = 0x5f && y ≠ 0x5f
  | _ => false

/-- The length of the name before its last flavor separator. -/
def bpfCoreEssentialNameLen (name : List (BitVec 8)) : Nat :=
  match (List.range (name.length - 4)).reverse.find? fun i => bpfCoreIsFlavorSep (name.drop i) with
  | some i => i + 1
  | none => name.length

/-! ## Compatible fields -/

def btfKindCoreCompat (t1 t2 : BtfType) : Bool :=
  t1.kind = t2.kind || (t1.isAnyEnum && t2.isAnyEnum)

def btfIntOffset (t : BtfType) : U32 := (t.firstWord &&& 0x00ff0000#32) >>> 16

/-- One of the names is empty or both are the same without their flavors. -/
def essentialNamesMatch (localBtf targBtf : BtfView) (localType targType : BtfType) :
    Except CoreFailure Bool :=
  match localBtf.nameByOffset localType.nameOff, targBtf.nameByOffset targType.nameOff with
  | some localName, some targName =>
    let localLen := bpfCoreEssentialNameLen localName
    let targLen := bpfCoreEssentialNameLen targName
    .ok (localLen = 0 || targLen = 0 ||
      (localLen = targLen && localName.take localLen = targName.take localLen))
  | _, _ => .error .fault

/-- What `bpf_core_fields_are_compat` makes of two types without modifiers: a result, or the types
to go on with. -/
def compatTypes (localBtf targBtf : BtfView) (localType targType : BtfType) :
    Except CoreFailure Bool ⊕ (Nat × Nat) :=
  if localType.isComposite && targType.isComposite then .inl (.ok true)
  else if !btfKindCoreCompat localType targType then .inl (.ok false)
  else
    match localType.kind with
    | .ptr | .float => .inl (.ok true)
    | .fwd | .enum64 | .enum => .inl (essentialNamesMatch localBtf targBtf localType targType)
    | .int => .inl (.ok (btfIntOffset localType = 0 && btfIntOffset targType = 0))
    | .array => .inr (localType.array.type.toNat, targType.array.type.toNat)
    | _ => .inl (.ok false)

/-- From the label `recur` of `bpf_core_fields_are_compat` on. -/
def fieldsCompatStep (localBtf targBtf : BtfView) (ids : Nat × Nat) :
    Except CoreFailure Bool ⊕ (Nat × Nat) :=
  match skipModsAndTypedefs localBtf ids.1 with
  | .error e => .inl (.error e)
  | .ok (_, localType) =>
    match skipModsAndTypedefs targBtf ids.2 with
    | .error e => .inl (.error e)
    | .ok (_, targType) => compatTypes localBtf targBtf localType targType

def bpfCoreFieldsAreCompat (localBtf : BtfView) (localId : Nat) (targBtf : BtfView) (targId : Nat) :
    Except CoreFailure Bool :=
  (loop (fieldsCompatStep localBtf targBtf)
    ((localBtf.types.length + 1) * (targBtf.types.length + 1) + 1) (localId, targId)).getD
    (.error .fault)

/-! ## Specs -/

structure BpfCoreAccessor where
  typeId : Nat
  idx : U32
  name : Option (List (BitVec 8))
  deriving DecidableEq, Repr

/-- `struct bpf_core_spec`, the parts that matching fields reads and writes: the accessors, the raw
spec and the bit offset. -/
structure BpfCoreSpec where
  spec : List BpfCoreAccessor
  rawSpec : List U32
  bitOffset : U32
  deriving DecidableEq, Repr

def BPF_CORE_SPEC_MAX_LEN : Nat := 64

def isFlexArr (btf : BtfView) (acc : BpfCoreAccessor) (arr : BtfArray) : Bool :=
  -- not a flexible array, if not inside a struct or has non-zero size
  if acc.name.isNone || 0 < arr.nelems then false
  -- has to be the last member of enclosing struct
  else
    match btf.typeById acc.typeId with
    | none => false
    | some t => acc.idx = BitVec.ofNat 32 t.vlen - 1

def parseMember (btf : BtfView) (id : Nat) (t : BtfType) (spec : BpfCoreSpec) (accessIdx : U32) :
    Except CoreFailure (Nat × BpfCoreSpec) :=
  if (t.vlen : Int) ≤ accessIdx.toInt then .error .einval
  else
    match t.members[accessIdx.toNat]? with
    -- a negative index reads in front of the members
    | none => .error .fault
    | some m =>
      let spec := { spec with bitOffset := spec.bitOffset + t.memberBitOffset m }
      if m.nameOff = 0 then .ok (m.type.toNat, spec)
      else
        match btf.nameByOffset m.nameOff with
        | none | some [] => .error .einval
        | some name =>
          .ok (m.type.toNat, { spec with spec := spec.spec ++ [⟨id, accessIdx, some name⟩] })

def parseElement (btf : BtfView) (arr : BtfArray) (spec : BpfCoreSpec) (accessIdx : U32) :
    Except CoreFailure (Nat × BpfCoreSpec) :=
  match skipModsAndTypedefs btf arr.type.toNat with
  | .error e => .error e
  | .ok (elemId, _) =>
    if !spec.spec.getLast?.any (isFlexArr btf · arr) && arr.nelems ≤ accessIdx then .error .einval
    else
      match btfResolveSize btf elemId with
      | .error e => .error e
      | .ok sz =>
        .ok (elemId, { spec with
            spec := spec.spec ++ [⟨elemId, accessIdx, none⟩]
            bitOffset := spec.bitOffset + accessIdx * BitVec.ofNat 32 sz * 8 })

def parseAccess (btf : BtfView) (id : Nat) (spec : BpfCoreSpec) (accessIdx : U32) :
    Except CoreFailure (Nat × BpfCoreSpec) :=
  match skipModsAndTypedefs btf id with
  | .error e => .error e
  | .ok (id, t) =>
    if t.isComposite then parseMember btf id t spec accessIdx
    else if t.isArray then parseElement btf t.array spec accessIdx
    else .error .einval

def parseAccesses (btf : BtfView) : Nat → BpfCoreSpec → List U32 → Except CoreFailure BpfCoreSpec
  | _, spec, [] => .ok spec
  | id, spec, accessIdx :: accesses =>
    match parseAccess btf id spec accessIdx with
    | .error e => .error e
    | .ok (id, spec) => parseAccesses btf id spec accesses

/-- `bpf_core_parse_spec` for the relocations of fields, from the numbers of the access string
on. -/
def bpfCoreParseSpec (btf : BtfView) (typeId : Nat) (rawSpec : List U32) :
    Except CoreFailure BpfCoreSpec :=
  if BPF_CORE_SPEC_MAX_LEN < rawSpec.length then .error .e2big
  else
    match rawSpec with
    | [] => .error .einval
    | accessIdx :: accesses =>
      match skipModsAndTypedefs btf typeId with
      | .error e => .error e
      | .ok (id, _) =>
        match btfResolveSize btf id with
        | .error e => .error e
        | .ok sz =>
          parseAccesses btf id
            ⟨[⟨id, accessIdx, none⟩], rawSpec, accessIdx * BitVec.ofNat 32 sz * 8⟩ accesses

/-! ## Matching -/

def BtfView.memberName (btf : BtfView) (m : BtfMember) : Option (List (BitVec 8)) :=
  match btf.nameByOffset m.nameOff with
  | none | some [] => none
  | some name => some name

/-- Speculate that a member will be the good one. -/
def BpfCoreSpec.push (spec : BpfCoreSpec) (bitOffset : U32) (i : Nat) : BpfCoreSpec :=
  { spec with
    bitOffset := spec.bitOffset + bitOffset
    rawSpec := spec.rawSpec ++ [BitVec.ofNat 32 i] }

/-- The member turned out not to be what we looked for. -/
def BpfCoreSpec.pop (spec : BpfCoreSpec) (bitOffset : U32) : BpfCoreSpec :=
  { spec with
    bitOffset := spec.bitOffset - bitOffset
    rawSpec := spec.rawSpec.dropLast }

/-- The result of `bpf_core_match_member` unless it is negative: the type of the member that was
found, and the spec. -/
abbrev MatchResult := Except CoreFailure (Option Nat × BpfCoreSpec)

/-- One round of the loop of `bpf_core_match_member`. `deeper` is the recursive call and `next` goes
on with the other members. -/
def matchRound (localBtf : BtfView) (localMember : BtfMember) (localName : List (BitVec 8))
    (targBtf : BtfView) (targId : Nat) (bitOffset : U32) (deeper : Nat → BpfCoreSpec → MatchResult)
    (next : BpfCoreSpec → MatchResult) (i : Nat) (m : BtfMember) (spec : BpfCoreSpec) :
    MatchResult :=
  -- too deep struct/union/array nesting
  if spec.rawSpec.length = BPF_CORE_SPEC_MAX_LEN then .error .e2big
  else
    let spec := spec.push bitOffset i
    match targBtf.memberName m with
    | none =>
      -- embedded struct/union, we need to go deeper
      match deeper m.type.toNat spec with
      | .error e => .error e
      | .ok (some found, spec) => .ok (some found, spec)
      | .ok (none, spec) => next (spec.pop bitOffset)
    | some targName =>
      if localName = targName then
        -- matching named field
        match bpfCoreFieldsAreCompat localBtf localMember.type.toNat targBtf m.type.toNat with
        | .error e => .error e
        | .ok true =>
          .ok (some m.type.toNat,
            { spec with spec := spec.spec ++ [⟨targId, BitVec.ofNat 32 i, some targName⟩] })
        -- the accessor is popped
        | .ok false => .ok (none, spec)
      else next (spec.pop bitOffset)

def matchMembers (localBtf : BtfView) (localMember : BtfMember) (localName : List (BitVec 8))
    (targBtf : BtfView) (targId : Nat) (targType : BtfType)
    (deeper : Nat → BpfCoreSpec → MatchResult) :
    Nat → List BtfMember → BpfCoreSpec → MatchResult
  | _, [], spec => .ok (none, spec)
  | i, m :: ms, spec =>
    matchRound localBtf localMember localName targBtf targId (targType.memberBitOffset m) deeper
      (fun spec =>
        matchMembers localBtf localMember localName targBtf targId targType deeper (i + 1) ms spec)
      i m spec

def localMember (localBtf : BtfView) (localAcc : BpfCoreAccessor) :
    Option (BtfMember × List (BitVec 8)) := do
  let t ← localBtf.typeById localAcc.typeId
  let m ← t.members[localAcc.idx.toNat]?
  let name ← localBtf.nameByOffset m.nameOff
  return (m, name)

/-- `bpf_core_match_member`, with a bound on the depth of the recursion. -/
def bpfCoreMatchMember (localBtf : BtfView) (localAcc : BpfCoreAccessor) (targBtf : BtfView) :
    Nat → Nat → BpfCoreSpec → MatchResult
  | 0, _, _ => .error .fault
  | depth + 1, id, spec =>
    match skipModsAndTypedefs targBtf id with
    | .error e => .error e
    | .ok (targId, targType) =>
      if !targType.isComposite then .ok (none, spec)
      else
        match localMember localBtf localAcc with
        | none => .error .fault
        | some (m, localName) =>
          matchMembers localBtf m localName targBtf targId targType
            (bpfCoreMatchMember localBtf localAcc targBtf depth) 0 targType.members spec

/-- The type whose element an accessor without a name takes, or `none` for the result 0. For the
first accessor `targ_id` is already treated as the element type. -/
def targElement (targBtf : BtfView) (first : Bool) (targId : Nat) (targType : BtfType)
    (spec : BpfCoreSpec) (idx : U32) : Except CoreFailure (Option Nat) :=
  if first then .ok (some targId)
  else if !targType.isArray then .ok none
  else if !spec.spec.getLast?.any (isFlexArr targBtf · targType.array) &&
      targType.array.nelems ≤ idx then
    .ok none
  else
    match skipModsAndTypedefs targBtf targType.array.type.toNat with
    | .error e => .error e
    | .ok (id, _) => .ok (some id)

/-- The loop of `bpf_core_spec_match` over the accessors of the local spec; `none` is the result
0. -/
def matchAccessors (localBtf targBtf : BtfView) :
    Bool → List BpfCoreAccessor → Nat → BpfCoreSpec → Except CoreFailure (Option BpfCoreSpec)
  | _, [], _, targSpec => .ok (some targSpec)
  | first, localAcc :: accs, id, targSpec => do
      let (targId, targType) ← skipModsAndTypedefs targBtf id
      if localAcc.name.isSome then
        match ← bpfCoreMatchMember localBtf localAcc targBtf (BPF_CORE_SPEC_MAX_LEN + 1) targId
            targSpec with
        | (none, _) => return none
        | (some next, targSpec) => matchAccessors localBtf targBtf false accs next targSpec
      else
        match ← targElement targBtf first targId targType targSpec localAcc.idx with
        | none => return none
        | some targId =>
          -- too deep struct/union/array nesting
          if targSpec.rawSpec.length = BPF_CORE_SPEC_MAX_LEN then throw .e2big
          let sz ← btfResolveSize targBtf targId
          if 2 ^ 31 ≤ sz then throw .size
          matchAccessors localBtf targBtf false accs targId
            { spec := targSpec.spec ++ [⟨targId, localAcc.idx, none⟩]
              rawSpec := targSpec.rawSpec ++ [localAcc.idx]
              bitOffset := targSpec.bitOffset + localAcc.idx * BitVec.ofNat 32 sz * 8 }

/-- `bpf_core_spec_match` for the relocations of fields. -/
def bpfCoreSpecMatch (localBtf : BtfView) (localSpec : BpfCoreSpec) (targBtf : BtfView)
    (targId : Nat) : Except CoreFailure (Option BpfCoreSpec) :=
  matchAccessors localBtf targBtf true localSpec.spec targId ⟨[], [], 0⟩

end LinuxKernel.Bpf
