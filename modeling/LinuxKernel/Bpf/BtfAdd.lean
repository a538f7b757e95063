import LinuxKernel.Foundation.WeakestPre
import LinuxKernel.Bpf.BtfObject

/-!
# Adding to a BTF object

The `btf__add_*` functions of `tools/lib/bpf/btf.c`. A program of `BtfM` returns a value or stops,
and leaves the objects as they are then in both cases: a negative return value of the C code is
`BtfStop.err`.

What the allocator answers is an argument, with a field for every request a call can make. Regions
for types and type offsets are extended by `libbpf_add_mem`; how much of them is already allocated
is not modelled, a request that needs no new memory counts as granted.
-/

namespace LinuxKernel.Bpf

open Foundation

/-- A BTF object with its chain of bases. `nullWrites` are the ranges, as offset and length, that
were written through a pointer that is `NULL`. -/
structure BtfState where
  btf : Btf
  base : List Btf
  nullWrites : List (Nat × Nat) := []
  deriving DecidableEq

abbrev BtfM := EStateM BtfStop BtfState

/-! ## Allocator answers -/

structure EnsureAlloc where
  hdr : Bool := true
  types : Bool := true
  strs : StrsetNewAlloc := {}

/-- For `btf__find_str` and `btf__add_str` on one object. -/
structure StrAlloc where
  ensure : EnsureAlloc := {}
  str : StrsetAlloc := {}

/-- For a `btf__add_*` call with one name; the names in `str` are for the object and its bases. -/
structure AddAlloc where
  ensure : EnsureAlloc := {}
  typeMem : Bool := true
  str : Nat → StrAlloc := fun _ => {}
  offsMem : Bool := true

def memFits (ok : Bool) (curCnt maxCnt addCnt : Nat) : Bool :=
  addCnt = 0 || curCnt + addCnt ≤ maxCnt && ok

/-! ## Strings -/

def btfEnsureModifiable (a : EnsureAlloc) (btf : Btf) : Except BtfStop Btf :=
  match btf.strs with
  | .set _ => .ok { btf with rawData := none, rawDataSwapped := none }
  | .data strs =>
    if !a.hdr || !a.types then .error (.err (-ENOMEM))
    else
      match strsetNew a.strs BTF_MAX_STR_OFFSET (some strs) with
      | .error e => .error (.err e)
      | .ok set =>
        -- the copy has hdr_len bytes, and its fields are read
        if btf.hdr.hdrLen.toNat < btfHeaderSize then .error .fault
        else .ok { btf with rawData := none, rawDataSwapped := none, strs := .set set }

/-- `btf__find_str`, for an object followed by its chain of bases: the returned `int`, and the
objects that were made modifiable. Without a base the search starts as if the base had not found
the string. A string that is `NULL` is noticed when its length is asked for. -/
def btfFindStr (a : Nat → StrAlloc) (s : Option CStr) : List Btf → Except BtfStop (Int × List Btf)
  | [] => .ok (-ENOENT, [])
  | btf :: base =>
    match btfFindStr (fun i => a (i + 1)) s base with
    | .error e => .error e
    | .ok (off, base) =>
      if off ≠ -ENOENT then .ok (off, btf :: base)
      else
        match btfEnsureModifiable (a 0).ensure btf with
        | .error .fault => .error .fault
        | .error (.err _) => .ok (-ENOMEM, btf :: base)
        | .ok btf =>
          match btf.strs, s with
          | .data _, _ => .error .fault
          | .set _, none => .error .fault
          | .set set, some s =>
            let r := strsetFindStr (a 0).str set s
            let btf := { btf with strs := .set r.2 }
            if r.1 < 0 then .ok (r.1, btf :: base)
            else .ok ((btf.startStrOff + BitVec.ofInt 32 r.1).toInt, btf :: base)

def retInt (ret : Int) : BtfM Int := if ret < 0 then throw (.err ret) else pure ret

def ensureModifiable (a : EnsureAlloc) : BtfM Unit := do
  let st ← get
  match btfEnsureModifiable a st.btf with
  | .error .fault => throw .fault
  | .error (.err _) => throw (.err (-ENOMEM))
  | .ok btf => set { st with btf := btf }

/-- The part of `btf__add_str` that works on the string set of the object itself. -/
def addStrToSet (a : StrsetAlloc) (s : Option CStr) : BtfM Int := do
  let st ← get
  match st.btf.strs, s with
  | .data _, _ => throw .fault
  | .set _, none => throw .fault
  | .set strs, some s =>
    let r := strsetAddStr a strs s
    if r.1 < 0 then
      set { st with btf := { st.btf with strs := .set r.2 } }
      throw (.err r.1)
    else
      set { st with btf := { st.btf with
        strs := .set r.2
        hdr := { st.btf.hdr with strLen := BitVec.ofNat 32 r.2.strsDataLen } } }
      retInt (st.btf.startStrOff + BitVec.ofInt 32 r.1).toInt

def btfAddStr (a : Nat → StrAlloc) (s : Option CStr) : BtfM Int := do
  let st ← get
  match btfFindStr (fun i => a (i + 1)) s st.base with
  | .error _ => throw .fault
  | .ok (off, base) =>
    set { st with base := base }
    if off ≠ -ENOENT then retInt off
    else
      ensureModifiable (a 0).ensure
      addStrToSet (a 0).str s

def addName (a : Nat → StrAlloc) (name : Option CStr) : BtfM U32 :=
  match name with
  | none => pure 0
  | some s =>
    if s.bytes = [] then pure 0
    else do
      let off ← btfAddStr a (some s)
      pure (BitVec.ofInt 32 off)

/-! ## Records -/

def BtfKind.toNat : BtfKind → Nat
  | unkn => 0 | int => 1 | ptr => 2 | array => 3 | struct => 4 | union => 5 | enum => 6 | fwd => 7
  | typedef => 8 | volatile => 9 | const => 10 | restrict => 11 | func => 12 | funcProto => 13
  | var => 14 | datasec => 15 | float => 16 | declTag => 17 | typeTag => 18 | enum64 => 19
  | other n => n

def btfTypeInfo (kind : BtfKind) (vlen : Nat) (kflag : Bool) : U32 :=
  BitVec.ofNat 32 (kflag.toNat <<< 31 ||| kind.toNat <<< 24 ||| vlen)

def incVlen (info : U32) : U32 :=
  btfTypeInfo (infoKind info) (infoVlen info + 1) (infoKflag info)

def UINT_MAX : Nat := 0xffffffff

def btfAddTypeMem (ok : Bool) (addSz : Nat) : BtfM Unit := do
  let st ← get
  if memFits ok st.btf.hdr.typeLen.toNat UINT_MAX addSz then pure ()
  else throw (.err (-ENOMEM))

def BtfHeader.grow (h : BtfHeader) (sz : Nat) : BtfHeader :=
  { h with typeLen := h.typeLen + BitVec.ofNat 32 sz, strOff := h.strOff + BitVec.ofNat 32 sz }

def btfCommitType (ok : Bool) (record : List U32) : BtfM Int := do
  let st ← get
  if !memFits ok st.btf.nrTypes BTF_MAX_NR_TYPES 1 then throw (.err (-ENOMEM))
  else
    let btf := { st.btf with
      types := st.btf.types ++ [record]
      hdr := st.btf.hdr.grow (4 * record.length) }
    set { st with btf := btf }
    retInt (btf.startId + BitVec.ofNat 32 btf.nrTypes - 1).toInt

def appendType (a : AddAlloc) (name : Option CStr) (record : U32 → List U32) : BtfM Int := do
  ensureModifiable a.ensure
  btfAddTypeMem a.typeMem (4 * (record 0).length)
  let nameOff ← addName a.str name
  btfCommitType a.offsMem (record nameOff)

/-- The region of a type with new words at its end and a new `info`. -/
def extendRegion (newInfo : U32 → U32) (member : List U32) : List U32 → List U32
  | nameOff :: info :: rest => nameOff :: newInfo info :: (rest ++ member)
  | region => region ++ member

def appendMember (a : AddAlloc) (name : Option CStr) (member : U32 → List U32)
    (newInfo : U32 → U32) : BtfM Int := do
  ensureModifiable a.ensure
  btfAddTypeMem a.typeMem (4 * (member 0).length)
  let nameOff ← addName a.str name
  let st ← get
  set { st with btf := { st.btf with
    types := st.btf.types.modify (st.btf.nrTypes - 1) (extendRegion newInfo (member nameOff))
    hdr := st.btf.hdr.grow (4 * (member nameOff).length) } }
  pure 0

def Btf.lastInfo (btf : Btf) : Option U32 :=
  match btf.types.getLast? with
  | some (_ :: info :: _) => some info
  | _ => none

def setLastInfo (info : U32) : BtfM Unit := do
  let st ← get
  set { st with btf := { st.btf with
    types := st.btf.types.modify (st.btf.nrTypes - 1) (extendRegion (fun _ => info) []) } }

def noName (name : Option CStr) : Bool := name.all fun s => s.bytes = []

/-- `validate_type_id`, as a test. -/
def badTypeId (id : U32) : Bool := id.toInt < 0 || BTF_MAX_NR_TYPES < id.toNat

def einval {α : Type} : BtfM α := throw (.err (-EINVAL))

/-! ## Functions that append a type -/

def btfAddInt (a : AddAlloc) (name : Option CStr) (byteSz : BitVec 64) (encoding : U32) :
    BtfM Int :=
  if noName name then einval
  else if byteSz = 0 ∨ byteSz &&& (byteSz - 1) ≠ 0 ∨ 16#64 < byteSz then einval
  else if encoding &&& ~~~7#32 ≠ 0 then einval
  else appendType a name fun nameOff =>
    [nameOff, btfTypeInfo .int 0 false, byteSz.setWidth 32,
      (encoding <<< 24) ||| (byteSz * 8).setWidth 32]

def btfAddFloat (a : AddAlloc) (name : Option CStr) (byteSz : BitVec 64) : BtfM Int :=
  if noName name then einval
  else if byteSz ≠ 2 ∧ byteSz ≠ 4 ∧ byteSz ≠ 8 ∧ byteSz ≠ 12 ∧ byteSz ≠ 16 then einval
  else appendType a name fun nameOff => [nameOff, btfTypeInfo .float 0 false, byteSz.setWidth 32]

def btfAddRefKind (a : AddAlloc) (kind : BtfKind) (name : Option CStr) (refTypeId : U32) :
    BtfM Int :=
  if badTypeId refTypeId then einval
  else appendType a name fun nameOff => [nameOff, btfTypeInfo kind 0 false, refTypeId]

def btfAddPtr (a : AddAlloc) (refTypeId : U32) : BtfM Int := btfAddRefKind a .ptr none refTypeId

def btfAddArray (a : AddAlloc) (indexTypeId elemTypeId nrElems : U32) : BtfM Int :=
  if badTypeId indexTypeId || badTypeId elemTypeId then einval
  else appendType a none fun _ =>
    [0, btfTypeInfo .array 0 false, 0, elemTypeId, indexTypeId, nrElems]

def btfAddComposite (a : AddAlloc) (kind : BtfKind) (name : Option CStr) (bytesSz : U32) :
    BtfM Int :=
  appendType a name fun nameOff => [nameOff, btfTypeInfo kind 0 false, bytesSz]

def btfAddStruct (a : AddAlloc) (name : Option CStr) (byteSz : U32) : BtfM Int :=
  btfAddComposite a .struct name byteSz

def btfAddUnion (a : AddAlloc) (name : Option CStr) (byteSz : U32) : BtfM Int :=
  btfAddComposite a .union name byteSz

def btfAddEnumCommon (a : AddAlloc) (name : Option CStr) (byteSz : U32) (isSigned : Bool)
    (kind : BtfKind) : BtfM Int :=
  if byteSz = 0 ∨ byteSz &&& (byteSz - 1) ≠ 0 ∨ 8#32 < byteSz then einval
  else appendType a name fun nameOff => [nameOff, btfTypeInfo kind 0 isSigned, byteSz]

def btfAddEnum (a : AddAlloc) (name : Option CStr) (byteSz : U32) : BtfM Int :=
  btfAddEnumCommon a name byteSz false .enum

def btfAddEnum64 (a : AddAlloc) (name : Option CStr) (byteSz : U32) (isSigned : Bool) : BtfM Int :=
  btfAddEnumCommon a name byteSz isSigned .enum64

/-- `btf__add_fwd`; the kinds are `BTF_FWD_STRUCT`, `BTF_FWD_UNION` and `BTF_FWD_ENUM`. -/
def btfAddFwd (a : AddAlloc) (name : Option CStr) (fwdKind : Nat) : BtfM Int :=
  if noName name then einval
  else if fwdKind ≤ 1 then do
    let id ← btfAddRefKind a .fwd name 0
    onlyIf (0 < id) (setLastInfo (btfTypeInfo .fwd 0 (fwdKind = 1)))
    pure id
  else if fwdKind = 2 then btfAddEnum a name 4
  else einval

def btfAddTypedef (a : AddAlloc) (name : Option CStr) (refTypeId : U32) : BtfM Int :=
  if noName name then einval else btfAddRefKind a .typedef name refTypeId

def btfAddVolatile (a : AddAlloc) (refTypeId : U32) : BtfM Int :=
  btfAddRefKind a .volatile none refTypeId

def btfAddConst (a : AddAlloc) (refTypeId : U32) : BtfM Int := btfAddRefKind a .const none refTypeId

def btfAddRestrict (a : AddAlloc) (refTypeId : U32) : BtfM Int :=
  btfAddRefKind a .restrict none refTypeId

def btfAddTypeTag (a : AddAlloc) (value : Option CStr) (refTypeId : U32) : BtfM Int :=
  if noName value then einval else btfAddRefKind a .typeTag value refTypeId

/-- `btf__add_func`; the linkages are `BTF_FUNC_STATIC`, `BTF_FUNC_GLOBAL` and
`BTF_FUNC_EXTERN`. -/
def btfAddFunc (a : AddAlloc) (name : Option CStr) (linkage : Nat) (protoTypeId : U32) : BtfM Int :=
  if noName name then einval
  else if 2 < linkage then einval
  else do
    let id ← btfAddRefKind a .func name protoTypeId
    onlyIf (0 < id) (setLastInfo (btfTypeInfo .func linkage false))
    pure id

def btfAddFuncProto (a : AddAlloc) (retTypeId : U32) : BtfM Int :=
  if badTypeId retTypeId then einval
  else appendType a none fun _ => [0, btfTypeInfo .funcProto 0 false, retTypeId]

/-- `btf__add_var`; the linkages are `BTF_VAR_STATIC`, `BTF_VAR_GLOBAL_ALLOCATED` and
`BTF_VAR_GLOBAL_EXTERN`. -/
def btfAddVar (a : AddAlloc) (name : Option CStr) (linkage typeId : U32) : BtfM Int :=
  if noName name then einval
  else if linkage ≠ 0 ∧ linkage ≠ 1 ∧ linkage ≠ 2 then einval
  else if badTypeId typeId then einval
  else appendType a name fun nameOff => [nameOff, btfTypeInfo .var 0 false, typeId, linkage]

def btfAddDatasec (a : AddAlloc) (name : Option CStr) (byteSz : U32) : BtfM Int :=
  if noName name then einval
  else appendType a name fun nameOff => [nameOff, btfTypeInfo .datasec 0 false, byteSz]

def btfAddDeclTag (a : AddAlloc) (value : Option CStr) (refTypeId componentIdx : U32) : BtfM Int :=
  if noName value || componentIdx.toInt < -1 then einval
  else if badTypeId refTypeId then einval
  else appendType a value fun valueOff =>
    [valueOff, btfTypeInfo .declTag 0 false, refTypeId, componentIdx]

/-! ## Functions that append to the last type -/

def onLastType (kinds : List BtfKind) (f : U32 → BtfM Int) : BtfM Int := do
  let st ← get
  match st.btf.lastInfo with
  | none => einval
  | some info => if infoKind info ∈ kinds then f info else einval

def btfAddField (a : AddAlloc) (name : Option CStr) (typeId bitOffset bitSize : U32) : BtfM Int :=
  onLastType [.struct, .union] fun info =>
    let isBitfield := bitSize ≠ 0 || bitOffset.toNat % 8 ≠ 0
    if badTypeId typeId then einval
    else if isBitfield ∧ (bitSize = 0 ∨ 255#32 < bitSize ∨ 0xffffff#32 < bitOffset) then einval
    else if infoKind info = .union ∧ bitOffset ≠ 0 then einval
    else appendMember a name (fun nameOff => [nameOff, typeId, bitOffset ||| (bitSize <<< 24)])
      fun info => btfTypeInfo (infoKind info) (infoVlen info + 1) (isBitfield || infoKflag info)

def btfAddEnumValue (a : AddAlloc) (name : Option CStr) (value : BitVec 64) : BtfM Int :=
  onLastType [.enum] fun _ =>
    if noName name then einval
    else if value.toInt < -(2 ^ 31) ∨ (UINT_MAX : Int) < value.toInt then throw (.err (-E2BIG))
    else appendMember a name (fun nameOff => [nameOff, value.setWidth 32]) fun info =>
      if value.toInt < 0 then
        btfTypeInfo (infoKind (incVlen info)) (infoVlen (incVlen info)) true
      else incVlen info

def btfAddEnum64Value (a : AddAlloc) (name : Option CStr) (value : BitVec 64) : BtfM Int :=
  onLastType [.enum64] fun _ =>
    if noName name then einval
    else appendMember a name
      (fun nameOff => [nameOff, value.setWidth 32, (value >>> 32).setWidth 32]) incVlen

def btfAddFuncParam (a : AddAlloc) (name : Option CStr) (typeId : U32) : BtfM Int :=
  if badTypeId typeId then einval
  else onLastType [.funcProto] fun _ =>
    appendMember a name (fun nameOff => [nameOff, typeId]) incVlen

def btfAddDatasecVarInfo (a : AddAlloc) (varTypeId offset byteSz : U32) : BtfM Int :=
  onLastType [.datasec] fun _ =>
    if badTypeId varTypeId then einval
    else appendMember a none (fun _ => [varTypeId, offset, byteSz]) incVlen

/-! ## Copying types -/

inductive StrSlot
  | name
  | word (i : Nat)
  deriving DecidableEq, Repr

namespace BtfType

def getStr (t : BtfType) : StrSlot → U32
  | .name => t.nameOff
  | .word i => t.extra.getD i 0

theorem length_set_extra (t : BtfType) (i : Nat) (off : U32) :
    (t.extra.set i off).length = (btfExtraWords t.info).getD 0 := by
  rw [List.length_set, t.length_extra]

def setStr (t : BtfType) (slot : StrSlot) (off : U32) : BtfType :=
  match slot with
  | .name => { t with nameOff := off }
  | .word i => { t with extra := t.extra.set i off, length_extra := length_set_extra t i off }

def strSlots (t : BtfType) : List StrSlot :=
  .name :: match t.kind with
    | .struct | .union | .enum64 => (List.range t.vlen).map fun i => .word (3 * i)
    | .enum | .funcProto => (List.range t.vlen).map fun i => .word (2 * i)
    | _ => []

def rewriteTypeIds (delta : U32) (t : BtfType) : Option BtfType :=
  t.idSlots.map fun slots => slots.foldl (fun t slot =>
    if t.getId slot = 0 then t else t.setId slot (t.getId slot + delta)) t

end BtfType

structure SlotAlloc where
  str : Nat → StrAlloc := fun _ => {}
  append : Alloc := {}

/-- For `btf__add_type` and `btf__add_btf`; `slot i` is for the string offset that is visited after
`i` others. -/
structure CopyAlloc where
  ensure : EnsureAlloc := {}
  typeMem : Bool := true
  offsMem : Bool := true
  map : Bool := true
  slot : Nat → SlotAlloc := fun _ => {}

/-- `struct btf_pipe` without its two objects, and how many string offsets were visited. -/
structure Pipe where
  strOffMap : Option (Hashmap (BitVec 64) U32)
  visited : Nat
  deriving DecidableEq

def btfRewriteStr (a : Nat → SlotAlloc) (src : List Btf) (p : Pipe) (strOff : U32) :
    BtfM (U32 × Pipe) :=
  let next := { p with visited := p.visited + 1 }
  let key := strOff.setWidth 64
  if strOff = 0 then pure (0, next)
  else
    match p.strOffMap.bind fun map => hashmapFind identityFns map key with
    | some mappedOff => pure (mappedOff, next)
    | none => do
        let off ← btfAddStr (a p.visited).str (btfStrByOffset src strOff.toNat)
        let off := BitVec.ofInt 32 off
        match p.strOffMap with
        | none => pure (off, next)
        | some map =>
          let r := hashmapInsert identityFns (a p.visited).append map key off .append
          if r.ret ≠ 0 then throw (.err r.ret)
          else pure (off, { next with strOffMap := some r.map })

def visitStrOffs (a : Nat → SlotAlloc) (src : List Btf) (p : Pipe) (t : BtfType) :
    BtfM (BtfType × Pipe) :=
  t.strSlots.foldlM (fun (t, p) slot => do
    let (off, p) ← btfRewriteStr a src p (t.getStr slot)
    pure (t.setStr slot off, p)) (t, p)

def btfAddType (a : CopyAlloc) (src : List Btf) (srcType : BtfType) : BtfM Int :=
  match btfExtraWords srcType.info with
  | none => einval
  | some _ => do
      ensureModifiable a.ensure
      btfAddTypeMem a.typeMem (4 * srcType.words.length)
      let (t, _) ← visitStrOffs a.slot src ⟨none, 0⟩ srcType
      btfCommitType a.offsMem t.words

/-- The loop of `btf__add_btf` over the copied words: the regions of the new types, and the words
behind the last one. -/
def addTypes (a : Nat → SlotAlloc) (src : List Btf) (delta : U32) :
    Nat → Pipe → List U32 → BtfM (List (List U32) × List U32)
  | 0, _, ws => pure ([], ws)
  | cnt + 1, p, ws =>
    match recordOf ws with
    | none =>
      match ws with
      | _ :: info :: _ :: _ => if btfExtraWords info = none then einval else throw .fault
      | _ => throw .fault
    | some t => do
        let (t', p) ← visitStrOffs a src p t
        match t'.rewriteTypeIds delta with
        | none => einval
        | some t' => do
            let (regions, rest) ← addTypes a src delta cnt p (ws.drop t.words.length)
            pure (t'.words :: regions, rest)

/-- The label `err_out` of `btf__add_btf`. The memory behind the types is not looked at. -/
def addBtfRollback {α : Type} (oldStrsLen : U32) (e : Int) : BtfM α := do
  let st ← get
  let n := (st.btf.hdr.strLen - oldStrsLen).toNat
  let hdr := { st.btf.hdr with strLen := oldStrsLen }
  match st.btf.strs with
  | .data strs =>
    let strs := writeAt strs oldStrsLen.toNat (List.replicate n 0)
    set { st with btf := { st.btf with hdr := hdr, strs := .data strs } }
  | .set _ =>
    let writes := if n = 0 then [] else [(oldStrsLen.toNat, n)]
    set { st with btf := { st.btf with hdr := hdr }, nullWrites := st.nullWrites ++ writes }
  throw (.err e)

def onError {α : Type} (x : BtfM α) (handler : Int → BtfM α) : BtfM α := fun st =>
  match x st with
  | .error (.err e) st' => handler e st'
  | r => r

/-- `btf_add_type_mem` for a `data_sz` of type `int`: a negative one is a huge `size_t`, and the sum
with the size in use wraps. -/
def addTypeMemInt (ok : Bool) (dataSz : U32) : BtfM Unit := do
  let st ← get
  if 0 ≤ dataSz.toInt then btfAddTypeMem ok dataSz.toNat
  else if 2 ^ 32 - dataSz.toNat ≤ st.btf.hdr.typeLen.toNat then pure ()
  else throw (.err (-ENOMEM))

def commitTypes (dataSz : U32) (cnt : Nat) (regions : List (List U32)) (rest : List U32) :
    BtfM Int := do
  let st ← get
  let btf := { st.btf with
    types := st.btf.types ++ regions.modify (regions.length - 1) (· ++ rest)
    hdr := st.btf.hdr.grow dataSz.toNat }
  set { st with btf := btf }
  retInt (btf.startId + BitVec.ofNat 32 btf.nrTypes - BitVec.ofNat 32 cnt).toInt

/-- `btf_add_type_offs_mem`: asked for no elements before there are any, it returns the array
itself, which is `NULL` unless an earlier call that failed has left one. -/
def typeOffsFit (ok : Bool) (nrTypes cnt : Nat) : Bool :=
  if nrTypes + cnt = 0 then ok else memFits ok nrTypes BTF_MAX_NR_TYPES cnt

/-- `btf__add_btf` for another object `src`, followed by its chain of bases. -/
def btfAddBtf (a : CopyAlloc) (src : List Btf) : BtfM Int :=
  match src with
  | [] => throw .fault
  | _ :: _ :: _ => throw (.err (-ENOTSUP))
  | [srcBtf] => do
      ensureModifiable a.ensure
      let st ← get
      let dataSz := srcBtf.hdr.typeLen
      -- btf__type_cnt(src_btf) - 1: without a base start_id is 1
      let cnt := srcBtf.nrTypes
      let delta := st.btf.startId + BitVec.ofNat 32 st.btf.nrTypes - 1
      let words := srcBtf.types.flatten
      addTypeMemInt a.typeMem dataSz
      if !typeOffsFit a.offsMem st.btf.nrTypes cnt then throw (.err (-ENOMEM))
      else if !a.map then throw (.err (-ENOMEM))
      -- the source has type_len bytes of types; a negative data_sz is more than that
      else if dataSz.toInt < 0 ∨ 4 * words.length ≠ dataSz.toNat then throw .fault
      else
        let (regions, rest) ← onError (addTypes a.slot src delta cnt ⟨some hashmapInit, 0⟩ words)
          (addBtfRollback st.btf.hdr.strLen)
        commitTypes dataSz cnt regions rest

/-! ## Calls -/

/-- The `btf__add_*` calls, with what the allocator answers to them. -/
inductive AddCall
  | str (a : Nat → StrAlloc) (s : Option CStr)
  | type (a : CopyAlloc) (src : List Btf) (srcType : BtfType)
  | btf (a : CopyAlloc) (src : List Btf)
  | int (a : AddAlloc) (name : Option CStr) (byteSz : BitVec 64) (encoding : U32)
  | float (a : AddAlloc) (name : Option CStr) (byteSz : BitVec 64)
  | ptr (a : AddAlloc) (refTypeId : U32)
  | array (a : AddAlloc) (indexTypeId elemTypeId nrElems : U32)
  | struct (a : AddAlloc) (name : Option CStr) (byteSz : U32)
  | union (a : AddAlloc) (name : Option CStr) (byteSz : U32)
  | field (a : AddAlloc) (name : Option CStr) (typeId bitOffset bitSize : U32)
  | enum (a : AddAlloc) (name : Option CStr) (byteSz : U32)
  | enumValue (a : AddAlloc) (name : Option CStr) (value : BitVec 64)
  | enum64 (a : AddAlloc) (name : Option CStr) (byteSz : U32) (isSigned : Bool)
  | enum64Value (a : AddAlloc) (name : Option CStr) (value : BitVec 64)
  | fwd (a : AddAlloc) (name : Option CStr) (fwdKind : Nat)
  | typedef (a : AddAlloc) (name : Option CStr) (refTypeId : U32)
  | volatile (a : AddAlloc) (refTypeId : U32)
  | const (a : AddAlloc) (refTypeId : U32)
  | restrict (a : AddAlloc) (refTypeId : U32)
  | typeTag (a : AddAlloc) (value : Option CStr) (refTypeId : U32)
  | func (a : AddAlloc) (name : Option CStr) (linkage : Nat) (protoTypeId : U32)
  | funcProto (a : AddAlloc) (retTypeId : U32)
  | funcParam (a : AddAlloc) (name : Option CStr) (typeId : U32)
  | var (a : AddAlloc) (name : Option CStr) (linkage typeId : U32)
  | datasec (a : AddAlloc) (name : Option CStr) (byteSz : U32)
  | datasecVarInfo (a : AddAlloc) (varTypeId offset byteSz : U32)
  | declTag (a : AddAlloc) (value : Option CStr) (refTypeId componentIdx : U32)

def AddCall.exec : AddCall → BtfM Int
  | str a s => btfAddStr a s
  | type a src srcType => btfAddType a src srcType
  | btf a src => btfAddBtf a src
  | int a name byteSz encoding => btfAddInt a name byteSz encoding
  | float a name byteSz => btfAddFloat a name byteSz
  | ptr a refTypeId => btfAddPtr a refTypeId
  | array a indexTypeId elemTypeId nrElems => btfAddArray a indexTypeId elemTypeId nrElems
  | struct a name byteSz => btfAddStruct a name byteSz
  | union a name byteSz => btfAddUnion a name byteSz
  | field a name typeId bitOffset bitSize => btfAddField a name typeId bitOffset bitSize
  | enum a name byteSz => btfAddEnum a name byteSz
  | enumValue a name value => btfAddEnumValue a name value
  | enum64 a name byteSz isSigned => btfAddEnum64 a name byteSz isSigned
  | enum64Value a name value => btfAddEnum64Value a name value
  | fwd a name fwdKind => btfAddFwd a name fwdKind
  | typedef a name refTypeId => btfAddTypedef a name refTypeId
  | volatile a refTypeId => btfAddVolatile a refTypeId
  | const a refTypeId => btfAddConst a refTypeId
  | restrict a refTypeId => btfAddRestrict a refTypeId
  | typeTag a value refTypeId => btfAddTypeTag a value refTypeId
  | func a name linkage protoTypeId => btfAddFunc a name linkage protoTypeId
  | funcProto a retTypeId => btfAddFuncProto a retTypeId
  | funcParam a name typeId => btfAddFuncParam a name typeId
  | var a name linkage typeId => btfAddVar a name linkage typeId
  | datasec a name byteSz => btfAddDatasec a name byteSz
  | datasecVarInfo a varTypeId offset byteSz => btfAddDatasecVarInfo a varTypeId offset byteSz
  | declTag a value refTypeId componentIdx => btfAddDeclTag a value refTypeId componentIdx

/-- A sequence of successful calls; `none` if one of them fails. -/
def runAdds : List AddCall → BtfState → Option BtfState
  | [], st => some st
  | c :: calls, st =>
    match c.exec st with
    | .ok _ st' => runAdds calls st'
    | .error _ _ => none

end LinuxKernel.Bpf
