import LinuxKernel.Bpf.Btf

/-!
# Equality and hashes of BTF types

The predicates with which `btf__dedup` compares two records of a kind, and the hashes under which it
looks for candidates. `exact` predicates compare the ids a record refers to, `compat` and `shallow`
ones leave them out.
-/

namespace LinuxKernel.Bpf

open List BtfType

/-! ## Equality -/

def btfEqualCommon (t1 t2 : BtfType) : Bool :=
  t1.nameOff = t2.nameOff && t1.info = t2.info && t1.size = t2.size

def btfEqualIntTag (t1 t2 : BtfType) : Bool :=
  btfEqualCommon t1 t2 && t1.firstWord = t2.firstWord

structure BtfEnum where
  nameOff : U32
  val : U32
  deriving DecidableEq, Repr

structure BtfEnum64 where
  nameOff : U32
  valLo32 : U32
  valHi32 : U32
  deriving DecidableEq, Repr

def toEnums : List U32 → List BtfEnum
  | n :: v :: ws => ⟨n, v⟩ :: toEnums ws
  | _ => []

def toEnums64 : List U32 → List BtfEnum64
  | n :: lo :: hi :: ws => ⟨n, lo, hi⟩ :: toEnums64 ws
  | _ => []

def btfEqualEnumMembers (t1 t2 : BtfType) : Bool :=
  ((toEnums t1.extra).zip (toEnums t2.extra)).all fun (m1, m2) =>
    m1.nameOff = m2.nameOff && m1.val = m2.val

def btfEqualEnum64Members (t1 t2 : BtfType) : Bool :=
  ((toEnums64 t1.extra).zip (toEnums64 t2.extra)).all fun (m1, m2) =>
    m1.nameOff = m2.nameOff && m1.valLo32 = m2.valLo32 && m1.valHi32 = m2.valHi32

def btfEqualEnum (t1 t2 : BtfType) : Bool :=
  btfEqualCommon t1 t2 &&
    if t1.kind = .enum then btfEqualEnumMembers t1 t2 else btfEqualEnum64Members t1 t2

def btfIsEnumFwd (t : BtfType) : Bool := t.isAnyEnum && t.vlen = 0

def btfCompatEnum (t1 t2 : BtfType) : Bool :=
  if !btfIsEnumFwd t1 && !btfIsEnumFwd t2 then btfEqualEnum t1 t2
  else t1.nameOff = t2.nameOff && t1.isAnyEnum && t2.isAnyEnum

def btfShallowEqualStruct (t1 t2 : BtfType) : Bool :=
  btfEqualCommon t1 t2 && (t1.members.zip t2.members).all fun (m1, m2) =>
    m1.nameOff = m2.nameOff && m1.offset = m2.offset

def btfEqualArray (t1 t2 : BtfType) : Bool :=
  btfEqualCommon t1 t2 && t1.array.type = t2.array.type &&
    t1.array.indexType = t2.array.indexType && t1.array.nelems = t2.array.nelems

def btfCompatArray (t1 t2 : BtfType) : Bool :=
  btfEqualCommon t1 t2 && t1.array.nelems = t2.array.nelems

def btfEqualFnproto (t1 t2 : BtfType) : Bool :=
  btfEqualCommon t1 t2 && (t1.params.zip t2.params).all fun (m1, m2) =>
    m1.nameOff = m2.nameOff && m1.type = m2.type

def btfCompatFnproto (t1 t2 : BtfType) : Bool :=
  t1.nameOff = t2.nameOff && t1.info = t2.info &&
    (t1.params.zip t2.params).all fun (m1, m2) => m1.nameOff = m2.nameOff

/-! ## Hashes -/

/-- `hash_combine` on a 64-bit `long`. -/
def hashCombine (h : BitVec 64) (value : U32) : BitVec 64 := h * 31#64 + value.setWidth 64

def btfHashCommon (t : BtfType) : BitVec 64 :=
  hashCombine (hashCombine (hashCombine 0 t.nameOff) t.info) t.size

def btfHashIntDeclTag (t : BtfType) : BitVec 64 := hashCombine (btfHashCommon t) t.firstWord

def btfHashEnum (t : BtfType) : BitVec 64 := hashCombine 0 t.nameOff

def btfHashStruct (t : BtfType) : BitVec 64 :=
  t.members.foldl (fun h m => hashCombine (hashCombine h m.nameOff) m.offset) (btfHashCommon t)

def btfHashArray (t : BtfType) : BitVec 64 :=
  hashCombine (hashCombine (hashCombine (btfHashCommon t) t.array.type) t.array.indexType)
    t.array.nelems

def btfHashFnproto (t : BtfType) : BitVec 64 :=
  t.params.foldl (fun h m => hashCombine (hashCombine h m.nameOff) m.type) (btfHashCommon t)

/-! ## What equality says -/

variable {t1 t2 : BtfType}

theorem btfEqualCommon_iff : btfEqualCommon t1 t2 = true ↔
      t1.nameOff = t2.nameOff ∧ t1.info = t2.info ∧ t1.size = t2.size := by
  simp [btfEqualCommon, and_assoc]

theorem info_eq_of_btfEqualCommon (h : btfEqualCommon t1 t2 = true) :
    t1.info = t2.info := (btfEqualCommon_iff.1 h).2.1

theorem info_eq_of_btfEqualIntTag (h : btfEqualIntTag t1 t2 = true) : t1.info = t2.info := by
  simp only [btfEqualIntTag, Bool.and_eq_true] at h
  exact info_eq_of_btfEqualCommon h.1

theorem info_eq_of_btfEqualEnum (h : btfEqualEnum t1 t2 = true) : t1.info = t2.info := by
  simp only [btfEqualEnum, Bool.and_eq_true] at h
  exact info_eq_of_btfEqualCommon h.1

theorem info_eq_of_btfEqualArray (h : btfEqualArray t1 t2 = true) : t1.info = t2.info := by
  simp only [btfEqualArray, Bool.and_eq_true] at h
  exact info_eq_of_btfEqualCommon h.1.1.1

theorem info_eq_of_btfEqualFnproto (h : btfEqualFnproto t1 t2 = true) : t1.info = t2.info := by
  simp only [btfEqualFnproto, Bool.and_eq_true] at h
  exact info_eq_of_btfEqualCommon h.1

theorem isAnyEnum_congr (h : t1.info = t2.info) : t1.isAnyEnum = t2.isAnyEnum := by
  have hkind : t1.kind = t2.kind := by simp only [kind, h]
  unfold isAnyEnum
  rw [hkind]

theorem btfIsEnumFwd_congr (h : t1.info = t2.info) : btfIsEnumFwd t1 = btfIsEnumFwd t2 := by
  have hvlen : t1.vlen = t2.vlen := by simp only [vlen, h]
  unfold btfIsEnumFwd
  rw [isAnyEnum_congr h, hvlen]

theorem not_isComposite_of_isEnumFwd {t : BtfType} (h : btfIsEnumFwd t = true) :
    t.isComposite = false := by
  cases hcomp : t.isComposite with
  | false => rfl
  | true =>
    rcases isComposite_iff.1 hcomp with hk | hk <;>
      simp [btfIsEnumFwd, isAnyEnum, hk] at h

theorem info_eq_of_btfShallowEqualStruct
    (h : btfShallowEqualStruct t1 t2 = true) : t1.info = t2.info := by
  simp only [btfShallowEqualStruct, Bool.and_eq_true] at h
  exact info_eq_of_btfEqualCommon h.1

/-! ## The layout of an aggregate -/

/-- The same kind, name, size and number of members, with the same member names and offsets. -/
def SameLayout (t1 t2 : BtfType) : Prop :=
  t1.kind = t2.kind ∧ t1.nameOff = t2.nameOff ∧ t1.size = t2.size ∧ t1.vlen = t2.vlen ∧
    t1.members.map (fun m => (m.nameOff, m.offset)) =
      t2.members.map (fun m => (m.nameOff, m.offset))

instance (t1 t2 : BtfType) : Decidable (SameLayout t1 t2) :=
  inferInstanceAs (Decidable (_ ∧ _))

theorem SameLayout.refl (t : BtfType) : SameLayout t t := ⟨rfl, rfl, rfl, rfl, rfl⟩

theorem SameLayout.symm (h : SameLayout t1 t2) : SameLayout t2 t1 :=
  ⟨h.1.symm, h.2.1.symm, h.2.2.1.symm, h.2.2.2.1.symm, h.2.2.2.2.symm⟩

theorem SameLayout.trans {t3 : BtfType} (h12 : SameLayout t1 t2) (h23 : SameLayout t2 t3) :
    SameLayout t1 t3 :=
  ⟨h12.1.trans h23.1, h12.2.1.trans h23.2.1, h12.2.2.1.trans h23.2.2.1,
    h12.2.2.2.1.trans h23.2.2.2.1, h12.2.2.2.2.trans h23.2.2.2.2⟩

theorem SameLayout.isComposite_eq (h : SameLayout t1 t2) : t1.isComposite = t2.isComposite := by
  simp only [isComposite, h.1]

theorem map_eq_of_zip_all {α β : Type} [DecidableEq β] (f : α → β) :
    ∀ {l1 l2 : List α}, l1.length = l2.length →
      (l1.zip l2).all (fun p => f p.1 = f p.2) = true → l1.map f = l2.map f
  | [], [], _, _ => rfl
  | a :: l1, b :: l2, hlen, hall => by
    simp only [zip_cons_cons, all_cons, Bool.and_eq_true, decide_eq_true_eq] at hall
    have hrest := map_eq_of_zip_all f (by simpa using hlen) hall.2
    simp [hall.1, hrest]

theorem sameLayout_of_btfShallowEqualStruct (hcomp : t1.isComposite = true)
    (h : btfShallowEqualStruct t1 t2 = true) : SameLayout t1 t2 := by
  have hinfo := info_eq_of_btfShallowEqualStruct h
  have hkind : t1.kind = t2.kind := by simp only [kind, hinfo]
  have hvlen : t1.vlen = t2.vlen := by simp only [vlen, hinfo]
  have hcomp2 : t2.isComposite = true := by
    rw [isComposite_iff] at hcomp ⊢
    rwa [← hkind]
  simp only [btfShallowEqualStruct, Bool.and_eq_true] at h
  obtain ⟨hname, -, hsize⟩ := btfEqualCommon_iff.1 h.1
  refine ⟨hkind, hname, hsize, hvlen, map_eq_of_zip_all _ ?_ ?_⟩
  · rw [length_members hcomp, length_members hcomp2, hvlen]
  · rw [← h.2]
    simp

/-! ## Hashes and equality -/

theorem btfHashCommon_congr (h : btfEqualCommon t1 t2 = true) :
    btfHashCommon t1 = btfHashCommon t2 := by
  obtain ⟨hname, hinfo, hsize⟩ := btfEqualCommon_iff.1 h
  simp only [btfHashCommon, hname, hinfo, hsize]

theorem nameOff_eq_of_btfCompatEnum (h : btfCompatEnum t1 t2 = true) : t1.nameOff = t2.nameOff := by
  unfold btfCompatEnum at h
  split at h
  next =>
    simp only [btfEqualEnum, Bool.and_eq_true] at h
    exact (btfEqualCommon_iff.1 h.1).1
  next =>
    simp only [Bool.and_eq_true, decide_eq_true_eq] at h
    exact h.1.1

theorem btfHashStruct_congr (hcomp : t1.isComposite = true)
    (h : btfShallowEqualStruct t1 t2 = true) : btfHashStruct t1 = btfHashStruct t2 := by
  have hmembers := (sameLayout_of_btfShallowEqualStruct hcomp h).2.2.2.2
  simp only [btfShallowEqualStruct, Bool.and_eq_true] at h
  -- the hash is a fold over the names and offsets that are compared
  have hash_eq (t : BtfType) : btfHashStruct t =
      (t.members.map fun m => (m.nameOff, m.offset)).foldl
        (fun h p => hashCombine (hashCombine h p.1) p.2) (btfHashCommon t) := by
    rw [foldl_map, btfHashStruct]
  rw [hash_eq, hash_eq, hmembers, btfHashCommon_congr h.1]

theorem btfHashFnproto_congr (hcommon : btfHashCommon t1 = btfHashCommon t2)
    (hnames : t1.params.map (·.nameOff) = t2.params.map (·.nameOff))
    (htypes : t1.params.map (·.type) = t2.params.map (·.type)) :
    btfHashFnproto t1 = btfHashFnproto t2 := by
  have hash_eq (t : BtfType) : btfHashFnproto t =
      ((t.params.map (·.nameOff)).zip (t.params.map (·.type))).foldl
        (fun h p => hashCombine (hashCombine h p.1) p.2) (btfHashCommon t) := by
    rw [zip_map', foldl_map, btfHashFnproto]
  rw [hash_eq, hash_eq, hnames, htypes, hcommon]

theorem params_eq_of_zip_all {β : Type} [DecidableEq β] (f : BtfParam → β)
    (hk : t1.kind = .funcProto)
    (hinfo : t1.info = t2.info)
    (h : (t1.params.zip t2.params).all (fun p => f p.1 = f p.2) = true) :
    t1.params.map f = t2.params.map f := by
  have hk2 : t2.kind = .funcProto := by rw [← hk, kind, kind, hinfo]
  apply map_eq_of_zip_all f _ h
  rw [length_params hk, length_params hk2, vlen, vlen, hinfo]

/-- Types that a predicate of the deduplication takes for equal have the same hash. The `compat`
predicates for arrays and prototypes leave out the ids that the hash depends on. -/
theorem btfHash_congr (t1 t2 : BtfType) :
    (btfEqualCommon t1 t2 = true → btfHashCommon t1 = btfHashCommon t2) ∧
    (btfEqualIntTag t1 t2 = true → btfHashIntDeclTag t1 = btfHashIntDeclTag t2) ∧
    (btfEqualEnum t1 t2 = true → btfHashEnum t1 = btfHashEnum t2) ∧
    (btfCompatEnum t1 t2 = true → btfHashEnum t1 = btfHashEnum t2) ∧
    (t1.isComposite = true → btfShallowEqualStruct t1 t2 = true →
      btfHashStruct t1 = btfHashStruct t2) ∧
    (btfEqualArray t1 t2 = true → btfHashArray t1 = btfHashArray t2) ∧
    (btfCompatArray t1 t2 = true → t1.array.type = t2.array.type →
      t1.array.indexType = t2.array.indexType → btfHashArray t1 = btfHashArray t2) ∧
    (t1.kind = .funcProto → btfEqualFnproto t1 t2 = true →
      btfHashFnproto t1 = btfHashFnproto t2) ∧
    (t1.kind = .funcProto → btfCompatFnproto t1 t2 = true → t1.size = t2.size →
      t1.params.map (·.type) = t2.params.map (·.type) →
      btfHashFnproto t1 = btfHashFnproto t2) := by
  refine ⟨btfHashCommon_congr, fun h => ?_, fun h => ?_, fun h => ?_, btfHashStruct_congr,
    fun h => ?_, fun h htype hindex => ?_, fun hk h => ?_, fun hk h hsize htypes => ?_⟩
  · simp only [btfEqualIntTag, Bool.and_eq_true, decide_eq_true_eq] at h
    rw [btfHashIntDeclTag, btfHashIntDeclTag, btfHashCommon_congr h.1, h.2]
  · simp only [btfEqualEnum, Bool.and_eq_true] at h
    rw [btfHashEnum, btfHashEnum, (btfEqualCommon_iff.1 h.1).1]
  · rw [btfHashEnum, btfHashEnum, nameOff_eq_of_btfCompatEnum h]
  · simp only [btfEqualArray, Bool.and_eq_true, decide_eq_true_eq] at h
    simp only [btfHashArray, btfHashCommon_congr h.1.1.1, h.1.1.2, h.1.2, h.2]
  · simp only [btfCompatArray, Bool.and_eq_true, decide_eq_true_eq] at h
    simp only [btfHashArray, btfHashCommon_congr h.1, htype, hindex, h.2]
  · simp only [btfEqualFnproto, Bool.and_eq_true, decide_eq_true_eq, all_eq_true] at h
    have hinfo := info_eq_of_btfEqualCommon h.1
    apply btfHashFnproto_congr (btfHashCommon_congr h.1)
    · exact params_eq_of_zip_all _ hk hinfo (by simpa using fun p q hp => (h.2 (p, q) hp).1)
    · exact params_eq_of_zip_all _ hk hinfo (by simpa using fun p q hp => (h.2 (p, q) hp).2)
  · simp only [btfCompatFnproto, Bool.and_eq_true, decide_eq_true_eq] at h
    have hcommon : btfEqualCommon t1 t2 = true := btfEqualCommon_iff.2 ⟨h.1.1, h.1.2, hsize⟩
    exact btfHashFnproto_congr (btfHashCommon_congr hcommon)
      (params_eq_of_zip_all _ hk h.1.2 h.2) htypes

theorem btfHash_compat_differs :
    (∃ t1 t2 : BtfType, t1.kind = .array ∧ btfCompatArray t1 t2 = true ∧
      btfHashArray t1 ≠ btfHashArray t2) ∧
    ∃ t1 t2 : BtfType, t1.kind = .funcProto ∧ btfCompatFnproto t1 t2 = true ∧
      btfHashFnproto t1 ≠ btfHashFnproto t2 :=
  ⟨⟨⟨0, 0x03000000#32, 0, [1, 3, 8], rfl⟩, ⟨0, 0x03000000#32, 0, [2, 3, 8], rfl⟩, by decide⟩,
    ⟨0, 0x0d000000#32, 1, [], rfl⟩, ⟨0, 0x0d000000#32, 2, [], rfl⟩, by decide⟩

end LinuxKernel.Bpf
