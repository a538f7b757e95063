import LinuxKernel.Bpf.BtfAdd
import LinuxKernel.Bpf.StrsetRun

/-!
# What a successful addition does

Every `btf__add_*` call that succeeds leaves a modifiable object whose sections have the lengths the
header says, with a record at the start of every region. A region is packed if it is just this
record; only a member count that wraps, or a source whose records do not fill its type section,
breaks that.
-/

namespace LinuxKernel.Bpf

open Foundation Option BtfType Btf

/-! ## The info word -/

section
variable {kind : BtfKind} {vlen : Nat} {kflag : Bool}

theorem toNat_btfTypeInfo (hkind : kind.toNat < 32) (hvlen : vlen < 2 ^ 24) :
    (btfTypeInfo kind vlen kflag).toNat = kflag.toNat * 2 ^ 31 + (kind.toNat * 2 ^ 24 + vlen) := by
  have hflag : kflag.toNat ≤ 1 := Bool.toNat_le kflag
  have hlow : kind.toNat <<< 24 ||| vlen = kind.toNat * 2 ^ 24 + vlen := by
    rw [← Nat.shiftLeft_add_eq_or_of_lt hvlen, Nat.shiftLeft_eq]
  have hall : kflag.toNat <<< 31 ||| (kind.toNat * 2 ^ 24 + vlen) =
      kflag.toNat * 2 ^ 31 + (kind.toNat * 2 ^ 24 + vlen) := by
    rw [← Nat.shiftLeft_add_eq_or_of_lt (by omega), Nat.shiftLeft_eq]
  rw [btfTypeInfo, Nat.or_assoc, hlow, hall, BitVec.toNat_ofNat, Nat.mod_eq_of_lt (by omega)]

theorem infoKind_btfTypeInfo (hkind : kind.toNat < 32) (hvlen : vlen < 2 ^ 24) :
    infoKind (btfTypeInfo kind vlen kflag) = .ofNat kind.toNat := by
  rw [infoKind, BitVec.toNat_and, BitVec.toNat_ushiftRight, toNat_btfTypeInfo hkind hvlen]
  congr 1
  refine (Nat.and_two_pow_sub_one_eq_mod _ 5).trans ?_
  omega

theorem infoVlen_eq (info : U32) : infoVlen info = info.toNat % 2 ^ 16 :=
  Nat.and_two_pow_sub_one_eq_mod _ 16

theorem infoVlen_btfTypeInfo (hkind : kind.toNat < 32) (hvlen : vlen < 2 ^ 24) :
    infoVlen (btfTypeInfo kind vlen kflag) = vlen % 2 ^ 16 := by
  rw [infoVlen_eq, toNat_btfTypeInfo hkind hvlen]
  omega

theorem infoVlen_lt (info : U32) : infoVlen info < 2 ^ 16 := by
  rw [infoVlen_eq]
  exact Nat.mod_lt _ (by decide)

end

def BtfKind.memberWords : BtfKind → Nat
  | enum | funcProto => 2
  | enum64 | struct | union | datasec => 3
  | _ => 0

def memberKinds : List BtfKind := [.struct, .union, .enum, .enum64, .funcProto, .datasec]

theorem memberKinds_spec : ∀ kind ∈ memberKinds,
    kind.toNat < 32 ∧ BtfKind.ofNat kind.toNat = kind ∧ 0 < kind.memberWords := by
  decide

variable {info : U32}

theorem btfExtraWords_member (h : infoKind info ∈ memberKinds) :
    btfExtraWords info = some ((infoKind info).memberWords * infoVlen info) := by
  simp only [memberKinds, List.mem_cons, List.not_mem_nil, or_false] at h
  rcases h with h | h | h | h | h | h <;> simp only [btfExtraWords, h, BtfKind.memberWords]

theorem btfExtraWords_btfTypeInfo {kind : BtfKind} (h : kind ∈ memberKinds) {vlen : Nat}
    (hvlen : vlen < 2 ^ 24) (kflag : Bool) : infoKind (btfTypeInfo kind vlen kflag) = kind ∧
      btfExtraWords (btfTypeInfo kind vlen kflag) =
        some (kind.memberWords * (vlen % 2 ^ 16)) := by
  have hkind := memberKinds_spec kind h
  have heq : infoKind (btfTypeInfo kind vlen kflag) = kind :=
    (infoKind_btfTypeInfo hkind.1 hvlen).trans hkind.2.1
  refine ⟨heq, ?_⟩
  rw [btfExtraWords_member (heq.symm ▸ h), heq, infoVlen_btfTypeInfo hkind.1 hvlen]

/-! ## Regions -/

def PackedRegion (region : List U32) : Prop := ∃ t, recordOf region = some t ∧ t.words = region

theorem recordOf_cons {nameOff size : U32} {rest : List U32} {k : Nat}
    (hwords : btfExtraWords info = some k) (hfit : k ≤ rest.length) :
    ∃ t, recordOf (nameOff :: info :: size :: rest) = some t ∧
      t.words = nameOff :: info :: size :: rest.take k := by
  have hk : (btfExtraWords info).getD 0 = k := by rw [hwords, getD_some]
  have hsome : (btfExtraWords info).isSome ∧ (btfExtraWords info).getD 0 ≤ rest.length :=
    ⟨by rw [hwords]; rfl, hk.trans_le hfit⟩
  refine ⟨_, dif_pos hsome, ?_⟩
  simp only [words, hk]

variable {region : List U32} {t : BtfType}

theorem recordOf_eq_some (h : recordOf region = some t) :
    ∃ rest k, region = t.nameOff :: t.info :: t.size :: rest ∧
      btfExtraWords t.info = some k ∧ k ≤ rest.length ∧ t.extra = rest.take k := by
  match region with
  | nameOff :: info :: size :: rest =>
    simp only [recordOf] at h
    split at h
    next hfit =>
      cases h
      obtain ⟨k, hk⟩ := isSome_iff_exists.1 hfit.1
      rw [hk] at hfit
      exact ⟨rest, k, rfl, hk, hfit.2, by simp only [hk, getD_some]⟩
    · cases h
  | [] | [_] | [_, _] => cases h

theorem packedRegion_cons {nameOff size : U32} {rest : List U32} :
    PackedRegion (nameOff :: info :: size :: rest) ↔ btfExtraWords info = some rest.length := by
  constructor
  · rintro ⟨t, ht, hwords⟩
    obtain ⟨rest', k, heq, hk, hfit, hextra⟩ := recordOf_eq_some ht
    obtain ⟨rfl, rfl, rfl, rfl⟩ := heq
    simp only [words, hextra, List.cons.injEq, true_and] at hwords
    have hlen := congrArg List.length hwords
    rw [List.length_take, Nat.min_eq_left hfit] at hlen
    rw [hk, hlen]
  · intro h
    obtain ⟨t, ht, hwords⟩ := @recordOf_cons info nameOff size rest _ h le_rfl
    exact ⟨t, ht, hwords.trans (by rw [List.take_length])⟩

theorem PackedRegion.isSome (h : PackedRegion region) : (recordOf region).isSome := by
  obtain ⟨t, ht, -⟩ := h
  rw [ht]
  rfl

theorem recordOf_append (h : recordOf region = some t)
    (more : List U32) : recordOf (region ++ more) = some t := by
  obtain ⟨rest, k, rfl, hk, hfit, hextra⟩ := recordOf_eq_some h
  obtain ⟨t', ht', hwords⟩ := @recordOf_cons t.info t.nameOff t.size (rest ++ more) k hk
    (by rw [List.length_append]; omega)
  rw [List.take_append_of_le_length hfit, ← hextra] at hwords
  refine ht'.trans (congrArg some ?_)
  cases t
  obtain ⟨rfl, rfl, rfl, rfl⟩ := hwords
  rfl

theorem PackedRegion.append_iff (h : PackedRegion region) (more : List U32) :
    PackedRegion (region ++ more) ↔ more = [] := by
  constructor
  · rintro ⟨t, ht, hwords⟩
    obtain ⟨t', ht', hwords'⟩ := h
    rw [recordOf_append ht'] at ht
    cases ht
    rw [hwords'] at hwords
    exact List.self_eq_append_right.1 hwords
  · rintro rfl
    rwa [List.append_nil]

variable {newInfo : U32 → U32}

theorem extendRegion_member {member : List U32}
    (ht : recordOf region = some t) (hkind : t.kind ∈ memberKinds)
    (hlen : member.length = t.kind.memberWords) (hkind' : infoKind (newInfo t.info) = t.kind)
    (hvlen' : infoVlen (newInfo t.info) = (t.vlen + 1) % 2 ^ 16) :
    (recordOf (extendRegion newInfo member region)).isSome ∧
      (PackedRegion (extendRegion newInfo member region) ↔
        PackedRegion region ∧ t.vlen + 1 < 2 ^ 16) := by
  obtain ⟨rest, k, rfl, hk, hfit, -⟩ := recordOf_eq_some ht
  have hk' : k = t.kind.memberWords * t.vlen :=
    some.inj (hk.symm.trans (btfExtraWords_member hkind))
  have hnew : btfExtraWords (newInfo t.info) =
      some (t.kind.memberWords * ((t.vlen + 1) % 2 ^ 16)) := by
    rw [btfExtraWords_member (hkind'.symm ▸ hkind), hkind', hvlen']
  have hpos : 0 < t.kind.memberWords := (memberKinds_spec _ hkind).2.2
  have hlt : t.vlen < 2 ^ 16 := infoVlen_lt t.info
  have hmod : (t.vlen + 1) % 2 ^ 16 = if t.vlen + 1 < 2 ^ 16 then t.vlen + 1 else 0 := by
    split <;> omega
  generalize hm : t.kind.memberWords = m at *
  have hsucc : m * (t.vlen + 1) = m * t.vlen + m := Nat.mul_succ m t.vlen
  refine ⟨?_, ?_⟩
  · obtain ⟨t', ht', -⟩ := @recordOf_cons (newInfo t.info) t.nameOff t.size (rest ++ member) _ hnew
      (by rw [List.length_append, hmod]; split <;> omega)
    show (recordOf (t.nameOff :: newInfo t.info :: t.size :: (rest ++ member))).isSome = true
    rw [ht']
    rfl
  · show PackedRegion (t.nameOff :: newInfo t.info :: t.size :: (rest ++ member)) ↔ _
    rw [packedRegion_cons, packedRegion_cons, hnew, hk, some.injEq, some.injEq,
      List.length_append, hmod]
    split <;> omega

/-! ## Invariant -/

/-- The strings have the length that the header says, and would be accepted by the parser. -/
def Btf.StrsOk (btf : Btf) : Prop :=
  match btf.strs with
  | .data strs => strs.length = btf.hdr.strLen.toNat ∧ btfParseStrSec strs = true
  | .set set =>
    set.strsDataLen = btf.hdr.strLen.toNat ∧ set.strsDataMaxLen = BTF_MAX_STR_OFFSET ∧
      ∃ t, set.Shows t ∧ btfParseStrSec t.text = true

/-- An object without a base. -/
structure Btf.WF (btf : Btf) : Prop where
  magic : btf.hdr.magic = BTF_MAGIC
  startId : btf.startId = 1
  startStrOff : btf.startStrOff = 0
  typeLen : btf.hdr.typeLen.toNat = 4 * btf.types.flatten.length
  records : ∀ region ∈ btf.types, (recordOf region).isSome
  strs : btf.StrsOk
  swapped : btf.swappedEndian = true → btf.hdr.hdrLen.toNat = btfHeaderSize
  hdrRest : btf.hdrRest.length = btf.hdr.hdrLen.toNat - btfHeaderSize
  modifiable : btf.isModifiable = true →
    btf.rawData = none ∧ btf.rawDataSwapped = none ∧ btfHeaderSize ≤ btf.hdr.hdrLen.toNat

/-- What the functions for strings do: the object is modifiable, and at most the length of the
strings has changed. -/
structure StrStep (st st' : BtfState) : Prop where
  base : st'.base = []
  wf : st'.btf.WF
  modifiable : st'.btf.isModifiable = true
  types : st'.btf.types = st.btf.types
  swapped : st'.btf.swappedEndian = st.btf.swappedEndian
  hdr : { st'.btf.hdr with strLen := st.btf.hdr.strLen } = st.btf.hdr

variable {st₁ st₂ st₃ : BtfState}

theorem StrStep.trans (h₁₂ : StrStep st₁ st₂) (h₂₃ : StrStep st₂ st₃) : StrStep st₁ st₃ where
  base := h₂₃.base
  wf := h₂₃.wf
  modifiable := h₂₃.modifiable
  types := h₂₃.types.trans h₁₂.types
  swapped := h₂₃.swapped.trans h₁₂.swapped
  hdr := by
    rw [← h₁₂.hdr, ← h₂₃.hdr]

theorem btfParseStrSec_iff {strs : List Byte} :
    btfParseStrSec strs = true ↔ strs ≠ [] ∧ strs.length ≤ BTF_MAX_STR_OFFSET + 1 ∧
      strs.getLast? = some 0 ∧ strs.head? = some 0 := by
  simp only [btfParseStrSec, Bool.and_eq_true, decide_eq_true_eq, ne_eq, List.length_eq_zero_iff,
    and_assoc]
  refine and_congr_right fun hne => and_congr_left fun _ => ?_
  omega

theorem btfParseStrSec_append {text : List Byte} (h : btfParseStrSec text = true) {s : CStr}
    (hlen : text.length + s.stored.length ≤ BTF_MAX_STR_OFFSET) :
    btfParseStrSec (text ++ s.stored) = true := by
  rw [btfParseStrSec_iff] at h ⊢
  obtain ⟨hne, -, -, hhead⟩ := h
  refine ⟨by simp [hne], ?_, by simp [CStr.stored], ?_⟩
  · rw [List.length_append]
    omega
  · rw [List.head?_append, hhead]
    rfl

variable {btf : Btf}

theorem Btf.WF.strsData_take (h : btf.WF) : btf.hdr.strLen.toNat ≤ btf.strsData.length ∧
      btfParseStrSec (btf.strsData.take btf.hdr.strLen.toNat) = true := by
  have hstrs := h.strs
  unfold StrsOk at hstrs
  unfold strsData
  cases hs : btf.strs with
  | data strs =>
    simp only [hs] at hstrs
    obtain ⟨hlen, hparse⟩ := hstrs
    rw [← hlen]
    exact ⟨le_rfl, by rwa [List.take_length]⟩
  | set set =>
    simp only [hs] at hstrs
    obtain ⟨hlen, -, t, hshows, hparse⟩ := hstrs
    rw [← hlen]
    exact ⟨hshows.len_le, by rwa [hshows.text]⟩

theorem Strset.Shows.add_text {set : Strset} {t : StringTable} (h : set.Shows t)
    (hparse : btfParseStrSec t.text = true) {s : CStr}
    (hlimit : set.strsDataLen + s.stored.length ≤ BTF_MAX_STR_OFFSET) :
    btfParseStrSec (t.add s).2.text = true ∧ (t.add s).2.text.length < 2 ^ 32 := by
  rw [← h.length_text] at hlimit
  unfold BTF_MAX_STR_OFFSET at hlimit
  unfold StringTable.add
  cases t.offsetOf s.bytes with
  | some off => exact ⟨hparse, by dsimp only; omega⟩
  | none =>
    refine ⟨btfParseStrSec_append hparse hlimit, ?_⟩
    rw [List.length_append]
    omega

/-! ## Strings -/

def anyStop (_ : BtfStop) (_ : BtfState) : Prop := True

theorem btfEnsureModifiable_wf {a : EnsureAlloc} {btf' : Btf} (h : btf.WF)
    (hok : btfEnsureModifiable a btf = .ok btf') :
    btf'.WF ∧ btf'.isModifiable = true ∧ btf'.types = btf.types ∧
      btf'.swappedEndian = btf.swappedEndian ∧ btf'.hdr = btf.hdr := by
  have hstrs := h.strs
  unfold btfEnsureModifiable at hok
  unfold StrsOk at hstrs
  cases hs : btf.strs with
  | set set =>
    simp only [hs] at hok
    obtain rfl := Except.ok.inj hok
    have hmod : btf.isModifiable = true := by rw [isModifiable, hs]
    simp only [hs] at hstrs
    exact ⟨{ h with
      strs := hstrs
      modifiable := fun _ => ⟨rfl, rfl, (h.modifiable hmod).2.2⟩ }, rfl, rfl, rfl, rfl⟩
  | data strs =>
    simp only [hs] at hok hstrs
    obtain ⟨hlen, hparse⟩ := hstrs
    cases hnew : strsetNew a.strs BTF_MAX_STR_OFFSET (some strs) with
    | error e =>
      simp only [hnew] at hok
      split_ifs at hok
    | ok set =>
      simp only [hnew] at hok
      split_ifs at hok with halloc hshort
      obtain rfl := Except.ok.inj hok
      have hterm : ∀ data, some strs = some data → Terminated data := by
        intro data hdata
        cases hdata
        exact Or.inr (btfParseStrSec_iff.1 hparse).2.2.1
      obtain ⟨hshows, hmax⟩ := strsetNew_shows hterm hnew
      have hstrs' : set.strsDataLen = btf.hdr.strLen.toNat := by
        rw [← hshows.length_text, ← hlen]
        rfl
      refine ⟨{ h with
        strs := ⟨hstrs', hmax, _, hshows, hparse⟩
        modifiable := fun _ => ⟨rfl, rfl, Nat.not_lt.1 hshort⟩ }, rfl, rfl, rfl, rfl⟩

variable {st : BtfState}

theorem wp_ensureModifiable (a : EnsureAlloc) (hbase : st.base = []) (h : st.btf.WF) :
    wp (ensureModifiable a) (fun _ st' => StrStep st st') anyStop st := by
  refine wp_get_bind ?_
  cases hens : btfEnsureModifiable a st.btf with
  | error e => cases e <;> trivial
  | ok btf =>
    obtain ⟨hwf, hmod, htypes, hswapped, hhdr⟩ := btfEnsureModifiable_wf h hens
    exact ⟨hbase, hwf, hmod, htypes, hswapped, by rw [hhdr]⟩

theorem wp_retInt {ret : Int} {Q : Int → BtfState → Prop} (h : Q ret st) :
    wp (retInt ret) Q anyStop st := by
  unfold retInt
  split
  · trivial
  · exact h

theorem wp_addStrToSet (a : StrsetAlloc) (s : Option CStr) (hbase : st.base = []) (h : st.btf.WF) :
    wp (addStrToSet a s) (fun _ st' => StrStep st st') anyStop st := by
  refine wp_get_bind ?_
  have hstrs := h.strs
  unfold StrsOk at hstrs
  cases hs : st.btf.strs with
  | data strs => trivial
  | set set =>
    cases s with
    | none => trivial
    | some s =>
      simp only [hs] at hstrs ⊢
      obtain ⟨hlen, hmax, t, hshows, hparse⟩ := hstrs
      obtain ⟨hmax', hcases⟩ := hshows.strsetAddStr a s
      split
      · trivial
      next hret =>
        refine wp_set_bind (wp_retInt ?_)
        rcases hcases with ⟨hnomem, -⟩ | ⟨hlimit, -, hshows'⟩
        · rw [hnomem] at hret
          exact absurd (by decide) hret
        obtain ⟨hparse', hlen'⟩ := hshows.add_text hparse (hmax ▸ hlimit)
        have hset : (strsetAddStr a set s).2.strsDataLen =
            (BitVec.ofNat 32 (strsetAddStr a set s).2.strsDataLen).toNat := by
          rw [BitVec.toNat_ofNat, Nat.mod_eq_of_lt]
          rw [← hshows'.length_text]
          exact hlen'
        have hmod : st.btf.isModifiable = true := by rw [isModifiable, hs]
        exact
          { base := hbase
            wf := { h with
              strs := ⟨hset, hmax'.trans hmax, _, hshows', hparse'⟩
              modifiable := fun _ => h.modifiable hmod }
            modifiable := rfl
            types := rfl
            swapped := rfl
            hdr := rfl }

variable (a : Nat → StrAlloc)

theorem wp_btfAddStr (s : Option CStr) (hbase : st.base = []) (h : st.btf.WF) :
    wp (btfAddStr a s) (fun _ st' => StrStep st st') anyStop st := by
  refine wp_get_bind ?_
  rw [hbase]
  refine wp_set_bind ?_
  refine wp_seq (wp_ensureModifiable _ rfl h) fun _ st' hstep => ?_
  refine wp_imp (wp_addStrToSet _ s hstep.base hstep.wf) fun _ st'' hstep' => ?_
  have hboth := hstep.trans hstep'
  exact ⟨hboth.base, hboth.wf, hboth.modifiable, hboth.types, hboth.swapped, hboth.hdr⟩

theorem wp_addName (name : Option CStr)
    (hbase : st.base = []) (h : st.btf.WF) (hmod : st.btf.isModifiable = true) :
    wp (addName a name) (fun _ st' => StrStep st st') anyStop st := by
  have hrefl : StrStep st st := ⟨hbase, h, hmod, rfl, rfl, rfl⟩
  cases name with
  | none => exact hrefl
  | some s =>
    unfold addName
    dsimp only
    split
    · exact hrefl
    · exact wp_seq (wp_btfAddStr a (some s) hbase h) fun _ _ hstep => hstep

/-! ## Types -/

def Btf.Packed (btf : Btf) : Prop := ∀ region ∈ btf.types, PackedRegion region

/-- What a successful call does; the regions stay packed if and only if `fits`. -/
structure Added (fits : Prop) (st st' : BtfState) : Prop where
  base : st'.base = []
  wf : st'.btf.WF
  modifiable : st'.btf.isModifiable = true
  swapped : st'.btf.swappedEndian = st.btf.swappedEndian
  hdrLen : st'.btf.hdr.hdrLen = st.btf.hdr.hdrLen
  typeOff : st'.btf.hdr.typeOff = st.btf.hdr.typeOff
  gap : st'.btf.hdr.strOff - st'.btf.hdr.typeLen = st.btf.hdr.strOff - st.btf.hdr.typeLen
  packed : st'.btf.Packed ↔ st.btf.Packed ∧ fits

variable {st' : BtfState}

theorem StrStep.added (h : StrStep st st') : Added True st st' where
  base := h.base
  wf := h.wf
  modifiable := h.modifiable
  swapped := h.swapped
  hdrLen := by rw [← h.hdr]
  typeOff := by rw [← h.hdr]
  gap := by rw [← h.hdr]
  packed := by rw [Packed, h.types, and_true, Packed]

variable {fits : Prop}

theorem Added.trans {fits' : Prop} (h : Added fits st₁ st₂)
    (h' : Added fits' st₂ st₃) : Added (fits ∧ fits') st₁ st₃ where
  base := h'.base
  wf := h'.wf
  modifiable := h'.modifiable
  swapped := h'.swapped.trans h.swapped
  hdrLen := h'.hdrLen.trans h.hdrLen
  typeOff := h'.typeOff.trans h.typeOff
  gap := h'.gap.trans h.gap
  packed := by rw [h'.packed, h.packed, and_assoc]

theorem Added.congr {fits' : Prop} (h : Added fits st st')
    (hiff : fits ↔ fits') : Added fits' st st' :=
  { h with packed := by rw [h.packed, hiff] }

theorem Added.of_strStep (h' : Added fits st₂ st₃) (h : StrStep st₁ st₂) : Added fits st₁ st₃ :=
  (h.added.trans h').congr (and_iff_right trivial)

variable {ok : Bool} {types : List (List U32)}

theorem added_of_types (hbase : st.base = []) (h : st.btf.WF)
    (hmod : st.btf.isModifiable = true) {sz : Nat}
    (hlen : 4 * types.flatten.length = 4 * st.btf.types.flatten.length + sz)
    (hfits : st.btf.hdr.typeLen.toNat + sz ≤ UINT_MAX)
    (hrecords : ∀ region ∈ types, (recordOf region).isSome)
    (hpacked : (∀ region ∈ types, PackedRegion region) ↔ st.btf.Packed ∧ fits) :
    Added fits st { st with btf := { st.btf with types := types, hdr := st.btf.hdr.grow sz } } where
  base := hbase
  wf :=
    { h with
      typeLen := by
        unfold UINT_MAX at hfits
        show (st.btf.hdr.typeLen + BitVec.ofNat 32 sz).toNat = 4 * types.flatten.length
        rw [BitVec.toNat_add, BitVec.toNat_ofNat, hlen, ← h.typeLen]
        omega
      records := hrecords
      strs := h.strs
      modifiable := fun _ => h.modifiable hmod }
  modifiable := hmod
  swapped := rfl
  hdrLen := rfl
  typeOff := rfl
  gap := by
    show st.btf.hdr.strOff + BitVec.ofNat 32 sz - (st.btf.hdr.typeLen + BitVec.ofNat 32 sz) = _
    bv_omega
  packed := hpacked

theorem wp_btfAddTypeMem {addSz : Nat} : wp (btfAddTypeMem ok addSz)
      (fun _ st' => st' = st ∧ st.btf.hdr.typeLen.toNat + addSz ≤ UINT_MAX) anyStop st := by
  refine wp_get_bind ?_
  split
  next hfits =>
    simp only [memFits, Bool.or_eq_true, Bool.and_eq_true, decide_eq_true_eq] at hfits
    refine ⟨rfl, ?_⟩
    unfold UINT_MAX at hfits ⊢
    omega
  · trivial

theorem StrStep.typeLen (h : StrStep st st') : st'.btf.hdr.typeLen = st.btf.hdr.typeLen := by
  rw [← h.hdr]

theorem flatten_concat_length :
    4 * (types ++ [region]).flatten.length = 4 * types.flatten.length + 4 * region.length := by
  simp only [List.flatten_append, List.flatten_singleton, List.length_append]
  omega

theorem wp_btfCommitType {record : List U32} (hbase : st.base = [])
    (h : st.btf.WF) (hmod : st.btf.isModifiable = true) (hrecord : PackedRegion record)
    (hfits : st.btf.hdr.typeLen.toNat + 4 * record.length ≤ UINT_MAX) : wp (btfCommitType ok record)
      (fun _ st' => Added True st st' ∧ st'.btf.types = st.btf.types ++ [record]) anyStop st := by
  refine wp_get_bind ?_
  split
  · trivial
  refine wp_set_bind (wp_retInt ⟨?_, rfl⟩)
  refine added_of_types hbase h hmod flatten_concat_length hfits ?_ ?_
  · exact List.forall_mem_append.2 ⟨h.records, List.forall_mem_singleton.2 hrecord.isSome⟩
  · simp only [List.mem_append, List.mem_singleton, or_imp, forall_and, forall_eq, Packed, and_true]
    exact and_iff_left hrecord

theorem wp_appendType {a : AddAlloc} {name : Option CStr} {record : U32 → List U32}
    (hbase : st.base = []) (h : st.btf.WF) (hrecord : ∀ off, PackedRegion (record off))
    (hlen : ∀ off, (record off).length = (record 0).length) : wp (appendType a name record)
      (fun _ st' => Added True st st' ∧ ∃ older off, st'.btf.types = older ++ [record off])
      anyStop st := by
  refine wp_seq (wp_ensureModifiable _ hbase h) fun _ st₁ h₁ => ?_
  refine wp_read wp_btfAddTypeMem fun _ hfits => ?_
  refine wp_seq (wp_addName _ name h₁.base h₁.wf h₁.modifiable) fun off st₃ h₃ => ?_
  refine wp_imp (wp_btfCommitType h₃.base h₃.wf h₃.modifiable (hrecord off) ?_)
    fun _ _ ⟨hadded, htypes⟩ => ?_
  · rw [h₃.typeLen, hlen off]
    exact hfits
  · exact ⟨hadded.of_strStep (h₁.trans h₃), _, off, htypes⟩

/-! ## Members -/

theorem Btf.lastInfo_eq_some (h : btf.lastInfo = some info) :
    ∃ older nameOff rest, btf.types = older ++ [nameOff :: info :: rest] := by
  unfold lastInfo at h
  split at h
  next nameOff info' rest hlast =>
    cases h
    obtain ⟨older, htypes⟩ := List.getLast?_eq_some_iff.1 hlast
    exact ⟨older, nameOff, rest, htypes⟩
  · cases h

theorem modify_concat (older : List (List U32)) (region : List U32) (f : List U32 → List U32) :
    (older ++ [region]).modify ((older ++ [region]).length - 1) f = older ++ [f region] := by
  rw [List.length_append, List.length_singleton, Nat.add_sub_cancel]
  induction older with
  | nil => rfl
  | cons x older ih => simp [ih]

theorem packed_replace_last {older : List (List U32)} {region' : List U32}
    (h : PackedRegion region' ↔ PackedRegion region ∧ fits) :
    (∀ r ∈ older ++ [region'], PackedRegion r) ↔
      (∀ r ∈ older ++ [region], PackedRegion r) ∧ fits := by
  simp only [List.mem_append, List.mem_singleton, or_imp, forall_and, forall_eq, h, and_assoc]

theorem length_extendRegion {member : List U32} :
    (extendRegion newInfo member region).length = region.length + member.length := by
  match region with
  | [] => simp [extendRegion]
  | [_] => simp [extendRegion, Nat.add_comm]
  | nameOff :: info :: rest =>
    simp only [extendRegion, List.length_cons, List.length_append]
    omega

theorem wp_appendMember {a : AddAlloc} {name : Option CStr} {member : U32 → List U32}
    (hbase : st.base = []) (h : st.btf.WF)
    (hlast : st.btf.lastInfo = some info) (hkind : infoKind info ∈ memberKinds)
    (hlen : ∀ off, (member off).length = (infoKind info).memberWords)
    (hkind' : infoKind (newInfo info) = infoKind info)
    (hvlen' : infoVlen (newInfo info) = (infoVlen info + 1) % 2 ^ 16) :
    wp (appendMember a name member newInfo)
      (fun _ st' => Added (infoVlen info + 1 < 2 ^ 16) st st') anyStop st := by
  refine wp_seq (wp_ensureModifiable _ hbase h) fun _ st₁ h₁ => ?_
  refine wp_read wp_btfAddTypeMem fun _ hfits => ?_
  refine wp_seq (wp_addName _ name h₁.base h₁.wf h₁.modifiable) fun off st₃ h₃ => ?_
  refine wp_get_bind (wp_set_bind ?_)
  have hstep := h₁.trans h₃
  refine Added.of_strStep ?_ hstep
  obtain ⟨older, nameOff, rest, htypes⟩ := lastInfo_eq_some hlast
  have htypes₃ : st₃.btf.types = older ++ [nameOff :: info :: rest] := hstep.types.trans htypes
  have hrecords := h.records
  rw [htypes, List.forall_mem_append, List.forall_mem_singleton] at hrecords
  obtain ⟨t, ht⟩ := isSome_iff_exists.1 hrecords.2
  have hinfo : t.info = info := by
    obtain ⟨rest', -, heq, -⟩ := recordOf_eq_some ht
    simp only [List.cons.injEq] at heq
    exact heq.2.1.symm
  obtain ⟨hrecord, hpacked⟩ := @extendRegion_member _ t newInfo (member off) ht
    (by rw [kind, hinfo]; exact hkind) (by rw [kind, hinfo]; exact hlen off)
    (by rw [kind, hinfo]; exact hkind') (by rw [vlen, hinfo]; exact hvlen')
  rw [vlen, hinfo] at hpacked
  refine added_of_types h₃.base h₃.wf h₃.modifiable ?_ ?_ ?_ ?_
  · rw [nrTypes, htypes₃, modify_concat, flatten_concat_length, flatten_concat_length,
      length_extendRegion]
    omega
  · rw [h₃.typeLen, hlen off, ← hlen 0]
    exact hfits
  · rw [nrTypes, htypes₃, modify_concat]
    exact List.forall_mem_append.2 ⟨hrecords.1, List.forall_mem_singleton.2 hrecord⟩
  · rw [Packed, nrTypes, htypes₃, modify_concat]
    exact packed_replace_last hpacked

end LinuxKernel.Bpf
