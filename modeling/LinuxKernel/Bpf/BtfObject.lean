import LinuxKernel.Foundation.WordBytes
import LinuxKernel.Bpf.Btf
import LinuxKernel.Bpf.Strset

/-!
# BTF objects

`struct btf` of `tools/lib/bpf/btf.c`, how `btf__new` makes one from bytes and how `btf__raw_data`
makes bytes from one, on a little-endian host.

`types_data` and `type_offs` are one list: entry `i` is the memory from `type_offs[i]` up to the
next offset, in words. `strs_data` and `strs_set` are one field, since exactly one of them is used.
A base BTF is not a field: functions that look into the base take the chain of objects. Left out
are `fd`, `ptr_sz` and `strs_deduped`, which none of these functions reads.
-/

namespace LinuxKernel.Bpf

open Foundation

/-- `EINVAL` and its neighbours as `int` values, in the names of the C library. -/
def EINVAL : Int := 22
def E2BIG : Int := 7
def ENOTSUP : Int := 95

/-- How a function stops early: with an error code, or by an access outside the memory it owns. -/
inductive BtfStop
  | err (e : Int)
  | fault
  deriving DecidableEq, Repr

/-! ## Header -/

def BTF_MAGIC : BitVec 16 := 0xeB9F

def BTF_MAX_NR_TYPES : Nat := 0x7fffffff

def BTF_MAX_STR_OFFSET : Nat := 0x7fffffff

structure BtfHeader where
  magic : BitVec 16
  version : Byte
  flags : Byte
  hdrLen : U32
  typeOff : U32
  typeLen : U32
  strOff : U32
  strLen : U32
  deriving DecidableEq, Repr

def btfHeaderSize : Nat := 24

def BtfHeader.bytes (h : BtfHeader) : List Byte :=
  halfBytes h.magic ++ h.version :: h.flags ::
    ofWords [h.hdrLen, h.typeOff, h.typeLen, h.strOff, h.strLen]

def BtfHeader.read : List Byte → Option BtfHeader
  | m₀ :: m₁ :: version :: flags :: rest =>
    match toWords (rest.take 20) with
    | [hdrLen, typeOff, typeLen, strOff, strLen] =>
      some ⟨bytesHalf m₀ m₁, version, flags, hdrLen, typeOff, typeLen, strOff, strLen⟩
    | _ => none
  | _ => none

def btfBswapHdr (h : BtfHeader) : BtfHeader where
  magic := bswap16 h.magic
  version := h.version
  flags := h.flags
  hdrLen := bswap32 h.hdrLen
  typeOff := bswap32 h.typeOff
  typeLen := bswap32 h.typeLen
  strOff := bswap32 h.strOff
  strLen := bswap32 h.strLen

/-! ## The object -/

/-- Where the strings are: in `strs_data`, which points into the raw data, or in `strs_set` once the
object is modifiable, with `strs_data` being `NULL`. -/
inductive BtfStrs
  | data (strs : List Byte)
  | set (strs : Strset)
  deriving DecidableEq

structure Btf where
  rawData : Option (List Byte)
  rawDataSwapped : Option (List Byte)
  rawSize : U32
  swappedEndian : Bool
  hdr : BtfHeader
  /-- the part of the header that `struct btf_header` does not know -/
  hdrRest : List Byte
  types : List (List U32)
  startId : U32
  startStrOff : U32
  strs : BtfStrs
  deriving DecidableEq

namespace Btf

def nrTypes (btf : Btf) : Nat := btf.types.length

def isModifiable (btf : Btf) : Bool :=
  match btf.strs with
  | .data _ => false
  | .set _ => true

def strsData (btf : Btf) : List Byte :=
  match btf.strs with
  | .data strs => strs
  | .set set => set.strsData

def typeCnt (btf : Btf) : Nat := btf.startId.toNat + btf.nrTypes

end Btf

def recordOf : List U32 → Option BtfType
  | nameOff :: info :: size :: rest =>
    let k := (btfExtraWords info).getD 0
    if hfit : (btfExtraWords info).isSome ∧ k ≤ rest.length then
      some ⟨nameOff, info, size, rest.take k, by simpa [k] using hfit.2⟩
    else none
  | _ => none

def BtfType.words (t : BtfType) : List U32 := t.nameOff :: t.info :: t.size :: t.extra

def btfTypeById : List Btf → Nat → Option BtfType
  | [], _ => none
  | btf :: base, id =>
    if btf.typeCnt ≤ id then none
    else if id = 0 then some btfVoid
    else if id < btf.startId.toNat then btfTypeById base id
    else btf.types[id - btf.startId.toNat]?.bind recordOf

def btfStrByOffset : List Btf → Nat → Option CStr
  | [], _ => none
  | btf :: base, offset =>
    if offset < btf.startStrOff.toNat then btfStrByOffset base offset
    else if offset - btf.startStrOff.toNat < btf.hdr.strLen.toNat then
      some (cstrOf btf.strsData (offset - btf.startStrOff.toNat))
    else none

/-! ## Parsing -/

def btfLayoutOk (rawSize : Nat) (hdr : BtfHeader) : Bool :=
  hdr.hdrLen.toNat ≤ rawSize &&
    hdr.strOff.toNat + hdr.strLen.toNat ≤ rawSize - hdr.hdrLen.toNat &&
    hdr.typeOff.toNat + hdr.typeLen.toNat ≤ hdr.strOff.toNat &&
    hdr.typeOff.toNat % 4 = 0

/-- The header in native byte order, and whether it was swapped. -/
def btfParseHdr (raw : List Byte) : Except BtfStop (BtfHeader × Bool) :=
  match BtfHeader.read raw with
  | none => .error (.err (-EINVAL))
  | some hdr =>
    if hdr.magic = bswap16 BTF_MAGIC then
      if (bswap32 hdr.hdrLen).toNat ≠ btfHeaderSize then .error (.err (-ENOTSUP))
      else if btfLayoutOk raw.length (btfBswapHdr hdr) then .ok (btfBswapHdr hdr, true)
      else .error (.err (-EINVAL))
    else if hdr.magic ≠ BTF_MAGIC then .error (.err (-EINVAL))
    else if btfLayoutOk raw.length hdr then .ok (hdr, false)
    else .error (.err (-EINVAL))

/-- `btf_parse_str_sec` without a base: neither missing nor too long, with a NUL at both ends. -/
def btfParseStrSec (strs : List Byte) : Bool :=
  strs.length ≠ 0 && strs.length - 1 ≤ BTF_MAX_STR_OFFSET && strs.getLast? = some 0 &&
    strs.head? = some 0

def nativeWord (swapped : Bool) (w : U32) : U32 := if swapped then bswap32 w else w

/-- `btf_parse_type_sec` with `btf_bswap_type_base` and `btf_bswap_type_rest`: every word of a
record is swapped, the first three before its size is known. The first argument bounds the number
of records. -/
def btfParseTypeSec (swapped : Bool) : Nat → List U32 → Except BtfStop (List (List U32))
  | _, [] => .ok []
  | n + 1, nameOff :: info :: size :: rest =>
    match btfExtraWords (nativeWord swapped info) with
    | none => .error (.err (-EINVAL))
    | some k =>
      if rest.length < k then .error (.err (-EINVAL))
      else
        match btfParseTypeSec swapped n (rest.drop k) with
        | .error e => .error e
        | .ok types =>
          .ok ((nameOff :: info :: size :: rest.take k).map (nativeWord swapped) :: types)
  | _, _ => .error (.err (-EINVAL))

def slice {α : Type} (l : List α) (off len : Nat) : List α := (l.drop off).take len

/-- The object that `btf_new` makes of a copy of the data, once all sections are parsed. -/
def parsedBtf (raw : List Byte) (size : U32) (hdr : BtfHeader) (swapped : Bool)
    (types : List (List U32)) : Btf where
  rawData := some
    (if swapped then writeAt (writeAt raw 0 hdr.bytes) (hdr.hdrLen.toNat + hdr.typeOff.toNat)
        (ofWords types.flatten) else raw)
  rawDataSwapped := none
  rawSize := size
  swappedEndian := swapped
  hdr := hdr
  hdrRest := slice raw btfHeaderSize (hdr.hdrLen.toNat - btfHeaderSize)
  types := types
  startId := 1
  startStrOff := 0
  strs := .data (slice raw (hdr.hdrLen.toNat + hdr.strOff.toNat) hdr.strLen.toNat)

/-- `btf__new`: `btf_new` without a base, with memory granted. -/
def btfNew (data : List Byte) (size : U32) : Except BtfStop Btf :=
  if data.length < size.toNat then .error .fault
  else
    let raw := data.take size.toNat
    match btfParseHdr raw with
    | .error e => .error e
    | .ok (hdr, swapped) =>
      let strs := slice raw (hdr.hdrLen.toNat + hdr.strOff.toNat) hdr.strLen.toNat
      let words := toWords (slice raw (hdr.hdrLen.toNat + hdr.typeOff.toNat) hdr.typeLen.toNat)
      if !btfParseStrSec strs then .error (.err (-EINVAL))
      -- records have whole words, so the last one does not end with the section
      else if hdr.typeLen.toNat % 4 ≠ 0 then .error (.err (-EINVAL))
      else
        match btfParseTypeSec swapped words.length words with
        | .error e => .error e
        | .ok types => .ok (parsedBtf raw size hdr swapped types)

/-! ## Raw data -/

def readBytes (n : Nat) (src : List Byte) : Except BtfStop (List Byte) :=
  if n ≤ src.length then .ok (src.take n) else .error .fault

def bswapRegion : List U32 → Except BtfStop (List U32)
  | nameOff :: info :: size :: rest =>
    match btfExtraWords info with
    | none => .error (.err (-ENOMEM))
    | some k =>
      if rest.length < k then .error .fault
      else .ok ((nameOff :: info :: size :: rest.take k).map bswap32 ++ rest.drop k)
  | _ => .error .fault

/-- The type section that `btf_get_raw_data` copies, in the order it asks for. -/
def typesToCopy (swapEndian : Bool) (types : List (List U32)) : Except BtfStop (List U32) :=
  if swapEndian then (types.mapM bswapRegion).map List.flatten else .ok types.flatten

/-- A pointer to the data, and `*size`. -/
def btfGetRawData (ok : Bool) (btf : Btf) (swapEndian : Bool) : Except BtfStop (List Byte × U32) :=
  match if swapEndian then btf.rawDataSwapped else btf.rawData with
  | some data => .ok (data, btf.rawSize)
  | none => do
      let hdr := btf.hdr
      let dataSz := hdr.hdrLen + hdr.typeLen + hdr.strLen
      if !ok then throw (.err (-ENOMEM))
      else if dataSz.toNat ≠ hdr.hdrLen.toNat + hdr.typeLen.toNat + hdr.strLen.toNat then
        -- the sum wrapped, and the copies below run past the end of the allocation
        throw .fault
      else
        let hdrBytes := (if swapEndian then btfBswapHdr hdr else hdr).bytes ++ btf.hdrRest
        let hdrPart ← readBytes hdr.hdrLen.toNat hdrBytes
        let words ← typesToCopy swapEndian btf.types
        let typesPart ← readBytes hdr.typeLen.toNat (ofWords words)
        let strsPart ← readBytes hdr.strLen.toNat btf.strsData
        pure (hdrPart ++ typesPart ++ strsPart, dataSz)

/-- `btf__raw_data`, with the object that caches the result. -/
def btfRawData (ok : Bool) (btf : Btf) : Except BtfStop ((List Byte × U32) × Btf) := do
  let (data, size) ← btfGetRawData ok btf btf.swappedEndian
  if btf.swappedEndian then
    pure ((data, size), { btf with rawSize := size, rawDataSwapped := some data })
  else
    pure ((data, size), { btf with rawSize := size, rawData := some data })

end LinuxKernel.Bpf
