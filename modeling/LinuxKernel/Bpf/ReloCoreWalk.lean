import LinuxKernel.Bpf.ReloCore

/-!
# CO-RE relocations: walking along a raw spec

A raw spec is a path from a root type: the first number is an index as into an array of the root
type, the others are indices of members and of array elements. The walk is described by its steps,
and the offset it leads to is the sum of the offsets of the steps.

Two BTFs have the same shape when they differ in the offsets of members only. Looking up types,
skipping modifiers, sizes, compatibility and walks do not depend on these offsets.
-/

namespace LinuxKernel.Bpf

open Foundation (loop loop_of_card_lt exists_of_loop)
open Finset BtfType

/-! ## Skipping modifiers -/

variable {btf : BtfView} {id : Nat} {t : BtfType}

theorem BtfView.typeById_lt (h : btf.typeById id = some t) : id < btf.types.length + 1 := by
  unfold typeById at h
  split at h
  · omega
  · have := (List.getElem?_eq_some_iff.1 h).1
    omega

theorem BtfView.typeById_zero (btf : BtfView) : btf.typeById 0 = some btfVoid := rfl

/-- The modifiers of a chain that ends are all different, so the loop has enough rounds. -/
theorem skipModsAndTypedefs_of_loop {fuel : Nat} {result : Except CoreFailure (Nat × BtfType)}
    (h : loop (skipStep btf) fuel id = some result) : skipModsAndTypedefs btf id = result := by
  have hgoes : ∀ a a', skipStep btf a = .inr a' → a ∈ Icc 1 btf.types.length := by
    intro a a' hstep
    unfold skipStep at hstep
    split at hstep
    · simp at hstep
    next t htype =>
      have hlt := BtfView.typeById_lt htype
      have hne : a ≠ 0 := by
        rintro rfl
        rw [BtfView.typeById_zero, Option.some.injEq] at htype
        subst htype
        simp [isMod, isTypedef, kind, btfVoid, infoKind, BtfKind.ofNat] at hstep
      rw [mem_Icc]
      omega
  have hcard : (Icc 1 btf.types.length).card < btf.types.length + 1 := by simp
  rw [skipModsAndTypedefs, loop_of_card_lt hgoes hcard h]
  rfl

theorem skipStep_eq_ok {a : Nat} : skipStep btf a = .inl (.ok (id, t)) ↔
      a = id ∧ btf.typeById id = some t ∧ (t.isMod || t.isTypedef) = false := by
  unfold skipStep
  constructor
  · intro h
    split at h
    · simp at h
    · split at h
      · simp at h
      · simp_all
  · rintro ⟨rfl, htype, hplain⟩
    simp [htype, hplain]

theorem skipModsAndTypedefs_of_plain (htype : btf.typeById id = some t)
    (hplain : (t.isMod || t.isTypedef) = false) : skipModsAndTypedefs btf id = .ok (id, t) := by
  have hstep : skipStep btf id = .inl (.ok (id, t)) := skipStep_eq_ok.2 ⟨rfl, htype, hplain⟩
  have hloop : loop (skipStep btf) 1 id = some (.ok (id, t)) := by simp [loop, hstep]
  exact skipModsAndTypedefs_of_loop hloop

theorem skipModsAndTypedefs_eq_ok_iff {r : Nat × BtfType} : skipModsAndTypedefs btf id = .ok r ↔
      loop (skipStep btf) (btf.types.length + 1) id = some (.ok r) := by
  rw [skipModsAndTypedefs]
  cases loop (skipStep btf) (btf.types.length + 1) id <;> simp

theorem skipModsAndTypedefs_eq_ok {id' : Nat} (h : skipModsAndTypedefs btf id = .ok (id', t)) :
    btf.typeById id' = some t ∧ skipModsAndTypedefs btf id' = .ok (id', t) := by
  obtain ⟨a, hstep⟩ := exists_of_loop (skipModsAndTypedefs_eq_ok_iff.1 h)
  obtain ⟨rfl, htype, hplain⟩ := skipStep_eq_ok.1 hstep
  exact ⟨htype, skipModsAndTypedefs_of_plain htype hplain⟩

/-! ## Walks -/

/-- A step of a walk: to a member of a struct or union, or to an element of the given type. -/
inductive WalkStep
  | member (id i : Nat)
  | element (id : Nat) (idx : U32)
  deriving DecidableEq, Repr

def BtfView.memberAt (btf : BtfView) (id i : Nat) : Option BtfMember :=
  (btf.typeById id).bind fun t => if t.isComposite then t.members[i]? else none

def stepOffset (btf : BtfView) : WalkStep → U32
  | .member id i =>
    match btf.typeById id, btf.memberAt id i with
    | some t, some m => t.memberBitOffset m
    | _, _ => 0
  | .element id idx =>
    match btfResolveSize btf id with
    | .error _ => 0
    | .ok sz => idx * BitVec.ofNat 32 sz * 8

/-- An index may be used if it is in the array or if the array is flexible, that is, an empty array
at the end of a struct. -/
def indexOk (lastMember : Bool) (arr : BtfArray) (idx : U32) : Bool :=
  idx < arr.nelems || (arr.nelems = 0 && lastMember)

/-- The steps from a type along a raw spec, if each of them is defined. `lastMember` tells that the
step before was to the last member of a struct. -/
def walkFrom (btf : BtfView) : Bool → Nat → List U32 → Option (List WalkStep)
  | _, _, [] => some []
  | lastMember, id, idx :: rest =>
    match skipModsAndTypedefs btf id with
    | .error _ => none
    | .ok (id, t) =>
      if t.isComposite then
        match t.members[idx.toNat]? with
        | none => none
        | some m =>
          (walkFrom btf (idx.toNat + 1 = t.vlen) m.type.toNat rest).map (.member id idx.toNat :: ·)
      else if t.isArray && indexOk lastMember t.array idx then
        match skipModsAndTypedefs btf t.array.type.toNat with
        | .error _ => none
        | .ok (elemId, _) =>
          if (btfResolveSize btf elemId).isOk then
            (walkFrom btf false elemId rest).map (.element elemId idx :: ·)
          else none
      else none

def walk (btf : BtfView) (rootId : Nat) : List U32 → Option (List WalkStep)
  | [] => none
  | idx :: rest =>
    match skipModsAndTypedefs btf rootId with
    | .error _ => none
    | .ok (id, _) =>
      if (btfResolveSize btf id).isOk then
        (walkFrom btf false id rest).map (.element id idx :: ·)
      else none

def offsetSum (btf : BtfView) (steps : List WalkStep) : U32 := (steps.map (stepOffset btf)).sum

/-- The offset of a step as a number, of which `stepOffset` has the low 32 bits. -/
def stepBits (btf : BtfView) : WalkStep → Nat
  | .member id i => (stepOffset btf (.member id i)).toNat
  | .element id idx =>
    match btfResolveSize btf id with
    | .error _ => 0
    | .ok sz => idx.toNat * sz * 8

def bitSum (btf : BtfView) (steps : List WalkStep) : Nat := (steps.map (stepBits btf)).sum

theorem ofNat_bitSum (btf : BtfView) (steps : List WalkStep) :
    BitVec.ofNat 32 (bitSum btf steps) = offsetSum btf steps := by
  have hstep : ∀ step, BitVec.ofNat 32 (stepBits btf step) = stepOffset btf step := by
    rintro (⟨id, i⟩ | ⟨id, idx⟩)
    · simp [stepBits]
    · rw [stepBits, stepOffset]
      split <;> simp [BitVec.ofNat_mul]
  induction steps with
  | nil => rfl
  | cons step steps ih =>
    rw [bitSum, offsetSum, List.map_cons, List.map_cons, List.sum_cons, List.sum_cons,
      BitVec.ofNat_add, hstep]
    exact congrArg _ ih

/-- The raw spec can be walked along from the root and the offsets met add up to the bit offset. -/
def BpfCoreSpec.Consistent (btf : BtfView) (rootId : Nat) (spec : BpfCoreSpec) : Prop :=
  ∃ steps, walk btf rootId spec.rawSpec = some steps ∧ bitSum btf steps = spec.bitOffset.toNat

/-- The same with the sum taken modulo 2^32, as `bit_offset` is. -/
def BpfCoreSpec.ConsistentMod (btf : BtfView) (rootId : Nat) (spec : BpfCoreSpec) : Prop :=
  ∃ steps, walk btf rootId spec.rawSpec = some steps ∧ offsetSum btf steps = spec.bitOffset

/-! ## BTFs of the same shape -/

/-- The records agree but for the `offset` words of members. -/
structure BtfType.SameShape (t t' : BtfType) : Prop where
  nameOff : t'.nameOff = t.nameOff
  info : t'.info = t.info
  size : t'.size = t.size
  extra : ∀ i, (t.isComposite = true → i % 3 ≠ 2) → t'.extra[i]? = t.extra[i]?

/-- The BTFs agree but for the offsets of members. -/
structure BtfView.SameShape (btf btf' : BtfView) : Prop where
  length : btf'.types.length = btf.types.length
  types : ∀ id, Option.Rel BtfType.SameShape (btf.typeById id) (btf'.typeById id)
  strs : btf'.strs = btf.strs
  ptrSz : btf'.ptrSz = btf.ptrSz

namespace BtfType.SameShape

variable {t t' : BtfType}

protected theorem refl (t : BtfType) : t.SameShape t := ⟨rfl, rfl, rfl, fun _ _ => rfl⟩

section
variable (h : t.SameShape t')
include h

theorem kind : t'.kind = t.kind := by rw [BtfType.kind, h.info, BtfType.kind]

theorem vlen : t'.vlen = t.vlen := by rw [BtfType.vlen, h.info, BtfType.vlen]

theorem isComposite : t'.isComposite = t.isComposite := by
  rw [BtfType.isComposite, h.kind, BtfType.isComposite]

theorem isArray : t'.isArray = t.isArray := by
  rw [BtfType.isArray, h.kind, BtfType.isArray]

theorem isPlain : (t'.isMod || t'.isTypedef) = (t.isMod || t.isTypedef) := by
  simp only [isMod, isTypedef, h.kind]

theorem type : t'.type = t.type := by rw [BtfType.type, h.size, BtfType.type]

section
variable (hplain : t.isComposite = false)
include hplain

theorem extra_eq : t'.extra = t.extra :=
  List.ext_getElem? fun i => h.extra i fun hc => by simp [hplain] at hc

theorem array : t'.array = t.array := by
  simp only [BtfType.array, h.extra_eq hplain]

theorem firstWord : t'.firstWord = t.firstWord := by
  simp only [BtfType.firstWord, h.extra_eq hplain]

end

theorem members (hcomposite : t.isComposite = true) :
    List.Forall₂ (fun m m' : BtfMember => m'.nameOff = m.nameOff ∧ m'.type = m.type)
      t.members t'.members := by
  have hlen := length_extra_of_isComposite hcomposite
  have hlen' : t'.extra.length = 3 * t.vlen := by
    rw [length_extra_of_isComposite (h.isComposite.trans hcomposite), h.vlen]
  rw [BtfType.members, BtfType.members, toMembers_eq _ _ hlen, toMembers_eq _ _ hlen',
    List.forall₂_map_left_iff, List.forall₂_map_right_iff, List.forall₂_same]
  intro i _
  have hname := h.extra (3 * i) fun _ => by omega
  have htype := h.extra (3 * i + 1) fun _ => by omega
  simp [List.getD_eq_getElem?_getD, hname, htype]

end

end BtfType.SameShape

variable (localBtf : BtfView)

namespace BtfView.SameShape

variable {btf btf' : BtfView}

protected theorem refl (btf : BtfView) : btf.SameShape btf := by
  refine ⟨rfl, fun id => ?_, rfl, rfl⟩
  cases btf.typeById id with
  | none => exact .none
  | some t => exact .some (.refl t)

section
variable (h : btf.SameShape btf')
include h

theorem nameByOffset (offset : U32) : btf'.nameByOffset offset = btf.nameByOffset offset := by
  rw [BtfView.nameByOffset, h.strs, BtfView.nameByOffset]

theorem loop_skipStep (fuel id : Nat) :
    Option.Rel (fun r r' => (∃ e, r = .error e ∧ r' = .error e) ∨
      ∃ id' t t', r = .ok (id', t) ∧ r' = .ok (id', t') ∧ t.SameShape t')
      (loop (skipStep btf) fuel id) (loop (skipStep btf') fuel id) := by
  induction fuel generalizing id with
  | zero => exact .none
  | succ fuel ih =>
    rw [loop, loop, skipStep, skipStep]
    have htypes := h.types id
    cases htype : btf.typeById id with
    | none =>
      cases htype' : btf'.typeById id with
      | none => exact .some (.inl ⟨.fault, rfl, rfl⟩)
      | some t' => simp [htype, htype'] at htypes
    | some t =>
      cases htype' : btf'.typeById id with
      | none => simp [htype, htype'] at htypes
      | some t' =>
        have hshape : t.SameShape t' := by simpa [htype, htype'] using htypes
        simp only [hshape.isPlain, hshape.type]
        split_ifs
        · exact ih t.type
        · exact .some (.inr ⟨id, t, t', rfl, rfl, hshape⟩)

theorem skip (id : Nat) :
    (∃ e, skipModsAndTypedefs btf id = .error e ∧ skipModsAndTypedefs btf' id = .error e) ∨
      ∃ id' t t', skipModsAndTypedefs btf id = .ok (id', t) ∧
        skipModsAndTypedefs btf' id = .ok (id', t') ∧ t.SameShape t' := by
  have hloop := h.loop_skipStep (btf.types.length + 1) id
  rw [skipModsAndTypedefs, skipModsAndTypedefs, h.length]
  generalize loop (skipStep btf) (btf.types.length + 1) id = r at hloop ⊢
  generalize loop (skipStep btf') (btf.types.length + 1) id = r' at hloop ⊢
  cases hloop with
  | none => exact .inl ⟨.fault, rfl, rfl⟩
  | some hrel => exact hrel

theorem skip_ok {id id' : Nat} {t : BtfType} (hskip : skipModsAndTypedefs btf id = .ok (id', t)) :
    ∃ t', skipModsAndTypedefs btf' id = .ok (id', t') ∧ t.SameShape t' := by
  rcases h.skip id with ⟨e, herror, -⟩ | ⟨id'', s, s', hok, hok', hshape⟩
  · simp [hskip] at herror
  · rw [hskip, Except.ok.injEq] at hok
    obtain ⟨rfl, rfl⟩ := hok
    exact ⟨s', hok', hshape⟩

theorem resolveSizeFrom (depth nelems id : Nat) :
    Bpf.resolveSizeFrom btf' depth nelems id = Bpf.resolveSizeFrom btf depth nelems id := by
  induction depth generalizing nelems id with
  | zero => rfl
  | succ depth ih =>
    rw [Bpf.resolveSizeFrom, Bpf.resolveSizeFrom]
    have htypes := h.types id
    generalize btf.typeById id = r at htypes ⊢
    generalize btf'.typeById id = r' at htypes ⊢
    cases htypes with
    | none => rfl
    | @some t t' hshape =>
      simp only [hshape.kind, hshape.size, h.ptrSz, hshape.type, ih]
      split <;> try rfl
      rename_i hkind
      rw [hshape.array (by simp [isComposite, hkind])]

theorem resolveSize (id : Nat) :
    btfResolveSize btf' id = btfResolveSize btf id := h.resolveSizeFrom _ _ id

theorem compatTypes (localType : BtfType) {t t' : BtfType} (hshape : t.SameShape t') :
    Bpf.compatTypes localBtf btf' localType t' = Bpf.compatTypes localBtf btf localType t := by
  have hcompat : btfKindCoreCompat localType t' = btfKindCoreCompat localType t := by
    simp only [btfKindCoreCompat, isAnyEnum, hshape.kind]
  have hnames : essentialNamesMatch localBtf btf' localType t' =
      essentialNamesMatch localBtf btf localType t := by
    rw [essentialNamesMatch, h.nameByOffset, hshape.nameOff, essentialNamesMatch]
  -- only the words of a type that is not composite are read
  have hplain : btfKindCoreCompat localType t = true →
      localType.kind = .int ∨ localType.kind = .array → t.isComposite = false := by
    intro hkinds hlocal
    simp only [btfKindCoreCompat, isAnyEnum] at hkinds
    simp only [isComposite]
    rcases hlocal with hlocal | hlocal <;> simp [hlocal] at hkinds <;> simp [← hkinds]
  rw [Bpf.compatTypes, Bpf.compatTypes, hcompat, hnames, hshape.isComposite]
  cases hkinds : btfKindCoreCompat localType t with
  | false => rfl
  | true =>
    cases hkind : localType.kind with
    | int => rw [btfIntOffset, btfIntOffset, hshape.firstWord (hplain hkinds (.inl hkind)),
        btfIntOffset]
    | array => rw [hshape.array (hplain hkinds (.inr hkind))]
    | _ => rfl

theorem fieldsCompatStep :
    Bpf.fieldsCompatStep localBtf btf' = Bpf.fieldsCompatStep localBtf btf := by
  funext ids
  rw [Bpf.fieldsCompatStep, Bpf.fieldsCompatStep]
  cases skipModsAndTypedefs localBtf ids.1 with
  | error e => rfl
  | ok r =>
    rcases h.skip ids.2 with ⟨e, herror, herror'⟩ | ⟨id, t, t', hok, hok', hshape⟩
    · rw [herror, herror']
    · rw [hok, hok']
      exact h.compatTypes localBtf r.2 hshape

theorem fieldsAreCompat (localId targId : Nat) :
    bpfCoreFieldsAreCompat localBtf localId btf' targId =
      bpfCoreFieldsAreCompat localBtf localId btf targId := by
  rw [bpfCoreFieldsAreCompat, h.fieldsCompatStep, h.length, bpfCoreFieldsAreCompat]

theorem isFlexArr (acc : BpfCoreAccessor) (arr : BtfArray) :
    Bpf.isFlexArr btf' acc arr = Bpf.isFlexArr btf acc arr := by
  rw [Bpf.isFlexArr, Bpf.isFlexArr]
  have htypes := h.types acc.typeId
  generalize btf.typeById acc.typeId = r at htypes ⊢
  generalize btf'.typeById acc.typeId = r' at htypes ⊢
  cases htypes with
  | none => rfl
  | some hshape => simp only [hshape.vlen]

theorem walkFrom (lastMember : Bool) (id : Nat) (raw : List U32) :
    Bpf.walkFrom btf' lastMember id raw = Bpf.walkFrom btf lastMember id raw := by
  induction raw generalizing lastMember id with
  | nil => rfl
  | cons idx rest ih =>
    rw [Bpf.walkFrom, Bpf.walkFrom]
    rcases h.skip id with ⟨e, herror, herror'⟩ | ⟨id', t, t', hok, hok', hshape⟩
    · rw [herror, herror']
    rw [hok, hok']
    simp only [hshape.isComposite, hshape.isArray, hshape.vlen]
    cases hcomposite : t.isComposite with
    | true =>
      have hmembers := hshape.members hcomposite
      simp only [if_true]
      cases hm : t.members[idx.toNat]? with
      | none =>
        have hnone : t'.members[idx.toNat]? = none := by
          rw [List.getElem?_eq_none_iff] at hm ⊢
          rwa [← hmembers.length_eq]
        rw [hnone]
      | some m =>
        have hlt := (List.getElem?_eq_some_iff.1 hm).1
        have hlt' : idx.toNat < t'.members.length := by rwa [← hmembers.length_eq]
        have hsame := hmembers.get hlt hlt'
        have hm' : t.members.get ⟨idx.toNat, hlt⟩ = m := (List.getElem?_eq_some_iff.1 hm).2
        rw [hm'] at hsame
        have hget : t'.members[idx.toNat]? = some (t'.members.get ⟨idx.toNat, hlt'⟩) :=
          List.getElem?_eq_getElem hlt'
        rw [hget]
        simp only [hsame.2, ih]
    | false =>
      rw [hshape.array hcomposite]
      cases t.isArray && indexOk lastMember t.array idx with
      | false => rfl
      | true =>
        simp only [if_true, Bool.false_eq_true, if_false]
        rcases h.skip t.array.type.toNat with
          ⟨e, helem, helem'⟩ | ⟨elemId, elem, elem', helem, helem', -⟩
        · rw [helem, helem']
        · rw [helem, helem']
          simp only [h.resolveSize, ih]

theorem walk (rootId : Nat) (raw : List U32) :
    Bpf.walk btf' rootId raw = Bpf.walk btf rootId raw := by
  cases raw with
  | nil => rfl
  | cons idx rest =>
    rw [Bpf.walk, Bpf.walk]
    rcases h.skip rootId with ⟨e, herror, herror'⟩ | ⟨id, t, t', hok, hok', -⟩
    · rw [herror, herror']
    · rw [hok, hok']
      simp only [h.resolveSize, h.walkFrom]

end

end BtfView.SameShape

/-! ## Rounds of the compatibility check -/

theorem id_lt_of_skip_eq_ok {id' : Nat}
    (h : skipModsAndTypedefs btf id = .ok (id', t)) : id < btf.types.length + 1 := by
  cases htype : btf.typeById id with
  | some _ => exact BtfView.typeById_lt htype
  | none => simp [skipModsAndTypedefs, loop, skipStep, htype] at h

/-- The pairs of types the check goes on from are different, so if it ends, it does within as many
rounds as there are pairs. -/
theorem bpfCoreFieldsAreCompat_of_loop {localBtf targBtf : BtfView} {localId targId fuel : Nat}
    {result : Except CoreFailure Bool}
    (h : loop (fieldsCompatStep localBtf targBtf) fuel (localId, targId) = some result) :
    loop (fieldsCompatStep localBtf targBtf)
        ((localBtf.types.length + 1) * (targBtf.types.length + 1) + 1) (localId, targId) =
      some result ∧ bpfCoreFieldsAreCompat localBtf localId targBtf targId = result := by
  have hgoes : ∀ a a', fieldsCompatStep localBtf targBtf a = .inr a' →
      a ∈ range (localBtf.types.length + 1) ×ˢ range (targBtf.types.length + 1) := by
    intro a a' hstep
    unfold fieldsCompatStep at hstep
    cases hlocal : skipModsAndTypedefs localBtf a.1 with
    | error e => simp [hlocal] at hstep
    | ok r =>
      cases htarg : skipModsAndTypedefs targBtf a.2 with
      | error e => simp [hlocal, htarg] at hstep
      | ok r' =>
        rw [mem_product, mem_range, mem_range]
        exact ⟨id_lt_of_skip_eq_ok hlocal, id_lt_of_skip_eq_ok htarg⟩
  have hcard : (range (localBtf.types.length + 1) ×ˢ range (targBtf.types.length + 1)).card <
        (localBtf.types.length + 1) * (targBtf.types.length + 1) + 1 := by
    rw [card_product, card_range, card_range]
    omega
  have hloop := loop_of_card_lt hgoes hcard h
  refine ⟨hloop, ?_⟩
  rw [bpfCoreFieldsAreCompat, hloop]
  rfl

def intType : BtfType := ⟨0, 0x01000000#32, 4, [32], rfl⟩

/-- An `int`, and arrays of it and of these arrays. -/
def arrayView : BtfView :=
  ⟨[intType, ⟨0, 0x03000000#32, 0, [1, 1, 4], rfl⟩, ⟨0, 0x03000000#32, 0, [2, 1, 4], rfl⟩], [], 8⟩

theorem bpfCoreFieldsAreCompat_of_loop_array :
    loop (fieldsCompatStep arrayView arrayView) 17 (3, 3) = some (.ok true) ∧
      bpfCoreFieldsAreCompat arrayView 3 arrayView 3 = .ok true :=
  @bpfCoreFieldsAreCompat_of_loop _ _ 3 3 3 _ rfl

end LinuxKernel.Bpf
