import Mathlib

/-!
# BTF type records

The records of `include/uapi/linux/btf.h` as `tools/lib/bpf/btf.c` reads them. A record is a
`struct btf_type` followed by the 32-bit words that its kind and `vlen` call for; the accessors
read these words as members, parameters and so on.
-/

namespace LinuxKernel.Bpf

open List

abbrev U32 := BitVec 32

/-- `BTF_KIND_*`; `other` stands for the kinds 20 to 31 the format leaves undefined. -/
inductive BtfKind
  | unkn | int | ptr | array | struct | union | enum | fwd | typedef | volatile | const | restrict
  | func | funcProto | var | datasec | float | declTag | typeTag | enum64
  | other (n : Nat)
  deriving DecidableEq, Repr

def BtfKind.ofNat : Nat → BtfKind
  | 0 => .unkn
  | 1 => .int
  | 2 => .ptr
  | 3 => .array
  | 4 => .struct
  | 5 => .union
  | 6 => .enum
  | 7 => .fwd
  | 8 => .typedef
  | 9 => .volatile
  | 10 => .const
  | 11 => .restrict
  | 12 => .func
  | 13 => .funcProto
  | 14 => .var
  | 15 => .datasec
  | 16 => .float
  | 17 => .declTag
  | 18 => .typeTag
  | 19 => .enum64
  | n => .other n

def infoKind (info : U32) : BtfKind := .ofNat ((info >>> 24) &&& 0x1f#32).toNat

def infoVlen (info : U32) : Nat := (info &&& 0xffff#32).toNat

def infoKflag (info : U32) : Bool := (info >>> 31) = 1#32

/-- The number of words after the `struct btf_type`: `btf_type_size` without its first 12 bytes.
`none` is the `-EINVAL` of an unsupported kind. -/
def btfExtraWords (info : U32) : Option Nat :=
  match infoKind info with
  | .fwd | .const | .volatile | .restrict | .ptr | .typedef | .func | .float | .typeTag => some 0
  | .int => some 1
  | .enum => some (2 * infoVlen info)
  | .enum64 => some (3 * infoVlen info)
  | .array => some 3
  | .struct | .union => some (3 * infoVlen info)
  | .funcProto => some (2 * infoVlen info)
  | .var => some 1
  | .datasec => some (3 * infoVlen info)
  | .declTag => some 1
  | .unkn | .other _ => none

/-- A type record; `size` is the union of `size` and `type`. The record of `void` has kind
`unkn`, every other one has a kind that `btf_type_size` knows. -/
structure BtfType where
  nameOff : U32
  info : U32
  size : U32
  extra : List U32
  length_extra : extra.length = (btfExtraWords info).getD 0
  deriving DecidableEq, Repr

def btfVoid : BtfType where
  nameOff := 0
  info := 0
  size := 0
  extra := []
  length_extra := rfl

namespace BtfType

def kind (t : BtfType) : BtfKind := infoKind t.info

def vlen (t : BtfType) : Nat := infoVlen t.info

def kflag (t : BtfType) : Bool := infoKflag t.info

/-- The `type` reading of the union. -/
def type (t : BtfType) : Nat := t.size.toNat

def isComposite (t : BtfType) : Bool := t.kind = .struct || t.kind = .union

def isFwd (t : BtfType) : Bool := t.kind = .fwd

def isAnyEnum (t : BtfType) : Bool := t.kind = .enum || t.kind = .enum64

end BtfType

structure BtfMember where
  nameOff : U32
  type : U32
  offset : U32
  deriving DecidableEq, Repr

structure BtfParam where
  nameOff : U32
  type : U32
  deriving DecidableEq, Repr

structure BtfArray where
  type : U32
  indexType : U32
  nelems : U32
  deriving DecidableEq, Repr

def toMembers : List U32 → List BtfMember
  | n :: t :: o :: ws => ⟨n, t, o⟩ :: toMembers ws
  | _ => []

def toParams : List U32 → List BtfParam
  | n :: t :: ws => ⟨n, t⟩ :: toParams ws
  | _ => []

namespace BtfType

def members (t : BtfType) : List BtfMember := toMembers t.extra

def params (t : BtfType) : List BtfParam := toParams t.extra

def array (t : BtfType) : BtfArray := ⟨t.extra.getD 0 0, t.extra.getD 1 0, t.extra.getD 2 0⟩

/-- The word after the `struct btf_type`, where an `INT` has its encoding and a `DECL_TAG` its
component. -/
def firstWord (t : BtfType) : U32 := t.extra.getD 0 0

end BtfType

/-- A place in a record that holds a type id: the `type` of the `struct btf_type`, or a word after
it. -/
inductive IdSlot
  | head
  | word (i : Nat)
  deriving DecidableEq, Repr

namespace BtfType

def getId (t : BtfType) : IdSlot → U32
  | .head => t.size
  | .word i => t.extra.getD i 0

def setId (t : BtfType) (slot : IdSlot) (id : U32) : BtfType :=
  match slot with
  | .head => { t with size := id }
  | .word i => { t with extra := t.extra.set i id, length_extra := by simp [t.length_extra] }

/-- The places `btf_type_visit_type_ids` visits, in its order; `none` is the `-EINVAL` of an
unsupported kind. -/
def idSlots (t : BtfType) : Option (List IdSlot) :=
  match t.kind with
  | .int | .float | .enum | .enum64 => some []
  | .fwd | .const | .volatile | .restrict | .ptr | .typedef | .func | .var | .declTag
  | .typeTag => some [.head]
  | .array => some [.word 0, .word 1]
  | .struct | .union => some ((List.range t.vlen).map fun i => .word (3 * i + 1))
  | .funcProto => some (.head :: (List.range t.vlen).map fun i => .word (2 * i + 1))
  | .datasec => some ((List.range t.vlen).map fun i => .word (3 * i))
  | .unkn | .other _ => none

def typeIds (t : BtfType) : List U32 := (t.idSlots.getD []).map t.getId

end BtfType

theorem toMembers_eq : ∀ (ws : List U32) (n : Nat), ws.length = 3 * n →
    toMembers ws = (range n).map fun i =>
      ⟨ws.getD (3 * i) 0, ws.getD (3 * i + 1) 0, ws.getD (3 * i + 2) 0⟩
  | [], 0, _ => rfl
  | w0 :: w1 :: w2 :: ws, n + 1, h => by
    have hrest := toMembers_eq ws n (by simp only [length_cons] at h; omega)
    rw [toMembers, hrest, range_succ_eq_map, map_cons, map_map]
    simp only [Nat.mul_zero, Nat.zero_add, getD_cons_zero, getD_cons_succ, cons.injEq, true_and]
    apply map_congr_left
    intro i _
    rfl
  | [], n + 1, h => by simp at h
  | [_], n, h | [_, _], n, h => by
    simp only [length_cons, length_nil] at h
    omega
  | _ :: _ :: _ :: _, 0, h => by simp at h

theorem toParams_eq : ∀ (ws : List U32) (n : Nat), ws.length = 2 * n →
    toParams ws = (range n).map fun i => ⟨ws.getD (2 * i) 0, ws.getD (2 * i + 1) 0⟩
  | [], 0, _ => rfl
  | w0 :: w1 :: ws, n + 1, h => by
    have hrest := toParams_eq ws n (by simp only [length_cons] at h; omega)
    rw [toParams, hrest, range_succ_eq_map, map_cons, map_map]
    simp only [Nat.mul_zero, Nat.zero_add, getD_cons_zero, getD_cons_succ, cons.injEq, true_and]
    apply map_congr_left
    intro i _
    rfl
  | [], n + 1, h => by simp at h
  | [_], n, h => by
    simp only [length_cons, length_nil] at h
    omega
  | _ :: _ :: _, 0, h => by simp at h

namespace BtfType

variable {t : BtfType}

theorem isComposite_iff : t.isComposite = true ↔ t.kind = .struct ∨ t.kind = .union := by
  simp [isComposite]

theorem length_extra_of_isComposite (h : t.isComposite = true) : t.extra.length = 3 * t.vlen := by
  rw [t.length_extra]
  rcases isComposite_iff.1 h with h | h <;> simp only [kind] at h <;> simp [btfExtraWords, h, vlen]

theorem length_extra_of_funcProto (h : t.kind = .funcProto) : t.extra.length = 2 * t.vlen := by
  rw [t.length_extra]
  simp only [kind] at h
  simp [btfExtraWords, h, vlen]

theorem length_members (h : t.isComposite = true) : t.members.length = t.vlen := by
  rw [members, toMembers_eq _ _ (length_extra_of_isComposite h)]
  simp

theorem length_params (h : t.kind = .funcProto) : t.params.length = t.vlen := by
  rw [params, toParams_eq _ _ (length_extra_of_funcProto h)]
  simp

theorem typeIds_composite (h : t.isComposite = true) : t.typeIds = t.members.map (·.type) := by
  rw [members, toMembers_eq _ _ (length_extra_of_isComposite h), typeIds, idSlots]
  rcases isComposite_iff.1 h with h | h <;> simp [h, getId, Function.comp_def]

theorem typeIds_funcProto (h : t.kind = .funcProto) :
    t.typeIds = t.size :: t.params.map (·.type) := by
  rw [params, toParams_eq _ _ (length_extra_of_funcProto h), typeIds, idSlots]
  simp [h, getId, Function.comp_def]

theorem idSlots_congr {t1 t2 : BtfType} (h : t1.info = t2.info) : t1.idSlots = t2.idSlots := by
  have hkind : t1.kind = t2.kind := by simp only [kind, h]
  have hvlen : t1.vlen = t2.vlen := by simp only [vlen, h]
  simp only [idSlots, hkind, hvlen]

@[simp] theorem info_setId (t : BtfType) (slot : IdSlot) (id : U32) :
    (t.setId slot id).info = t.info := by
  cases slot <;> rfl

theorem getId_setId_of_ne (t : BtfType) {slot slot' : IdSlot} (h : slot ≠ slot') (id : U32) :
    (t.setId slot id).getId slot' = t.getId slot' := by
  cases slot <;> cases slot' <;> simp_all [setId, getId]

theorem getId_setId_self {slot : IdSlot} (h : slot ∈ t.idSlots.getD []) (id : U32) :
    (t.setId slot id).getId slot = id := by
  cases slot with
  | head => rfl
  | word i =>
    have hlt : i < t.extra.length := by
      rw [t.length_extra, btfExtraWords]
      unfold idSlots kind vlen at h
      split at h <;> rename_i hk <;> simp [hk] at h ⊢ <;> omega
    simp [setId, getId, hlt]

theorem mem_typeIds_setId {slot : IdSlot} {id id' : U32}
    (h : id' ∈ (t.setId slot id).typeIds) : id' = id ∨ id' ∈ t.typeIds := by
  unfold typeIds at h ⊢
  rw [idSlots_congr (info_setId t slot id)] at h
  obtain ⟨slot', hslot', rfl⟩ := mem_map.1 h
  by_cases heq : slot = slot'
  · subst heq
    exact .inl (getId_setId_self hslot' id)
  · rw [getId_setId_of_ne t heq]
    exact .inr (mem_map_of_mem hslot')

end BtfType

end LinuxKernel.Bpf
