import LinuxKernel.Bpf.BtfAddSpec

/-!
# Runs of additions

The effect of every `btf__add_*` call, from the two ways to append and from the copying of records,
and of a sequence of calls.
-/

namespace LinuxKernel.Bpf

open Foundation List Option BtfType

/-! ## New types -/

variable {kind : BtfKind} {extra : List U32}

section
variable {a : AddAlloc} {name : Option CStr} {st : BtfState}

theorem wp_guard {c : Prop} [Decidable c] {x : BtfM Int} {Q : Int → BtfState → Prop}
    (h : ¬c → wp x Q anyStop st) : wp (if c then einval else x) Q anyStop st := by
  split
  · trivial
  · exact h ‹_›

theorem wp_appendWords {info size : U32} (hbase : st.base = [])
    (h : st.btf.WF) (hextra : btfExtraWords info = some extra.length) :
    wp (appendType a name fun off => off :: info :: size :: extra)
      (fun _ st' => Added True st st' ∧
        ∃ older off, st'.btf.types = older ++ [off :: info :: size :: extra]) anyStop st :=
  wp_appendType hbase h (fun _ => packedRegion_cons.2 hextra) fun _ => rfl

theorem wp_btfAddRefKind {refTypeId : U32} (hbase : st.base = [])
    (h : st.btf.WF) (hkind : btfExtraWords (btfTypeInfo kind 0 false) = some 0) :
    wp (btfAddRefKind a kind name refTypeId)
      (fun _ st' => Added True st st' ∧ ∃ older off,
        st'.btf.types = older ++ [[off, btfTypeInfo kind 0 false, refTypeId]]) anyStop st :=
  wp_guard fun _ => wp_appendWords hbase h hkind

theorem wp_setLastInfo {info nameOff info₀ size : U32} {older : List (List U32)}
    (hbase : st.base = []) (h : st.btf.WF) (hmod : st.btf.isModifiable = true)
    (htypes : st.btf.types = older ++ [[nameOff, info₀, size]])
    (hinfo₀ : btfExtraWords info₀ = some 0) (hinfo : btfExtraWords info = some 0) :
    wp (setLastInfo info) (fun _ st' => Added True st st') anyStop st := by
  refine wp_get_bind ?_
  have hnew : st.btf.types.modify (st.btf.nrTypes - 1) (extendRegion (fun _ => info) []) =
      older ++ [[nameOff, info, size]] := by
    rw [Btf.nrTypes, htypes, modify_concat]
    rfl
  have hregion : PackedRegion [nameOff, info, size] := packedRegion_cons.2 hinfo
  have hregion₀ : PackedRegion [nameOff, info₀, size] := packedRegion_cons.2 hinfo₀
  have hadded := @added_of_types st True (older ++ [[nameOff, info, size]]) hbase h hmod 0
    (by rw [htypes, flatten_concat_length, flatten_concat_length]; rfl)
    (by have := st.btf.hdr.typeLen.isLt; unfold UINT_MAX; omega)
    (by
      have hrecords := h.records
      rw [htypes, forall_mem_append] at hrecords
      exact forall_mem_append.2 ⟨hrecords.1, forall_mem_singleton.2 hregion.isSome⟩)
    (by
      rw [Btf.Packed, htypes]
      exact packed_replace_last (by simp only [hregion, hregion₀, and_true]))
  have hgrow : st.btf.hdr.grow 0 = st.btf.hdr := by
    cases hh : st.btf.hdr
    simp [BtfHeader.grow]
  rw [hgrow, ← hnew] at hadded
  exact hadded

theorem wp_withInfo {x : BtfM Int} {refTypeId info : U32}
    (hx : wp x (fun _ st' => Added True st st' ∧ ∃ older off,
      st'.btf.types = older ++ [[off, btfTypeInfo kind 0 false, refTypeId]]) anyStop st)
    (hkind : btfExtraWords (btfTypeInfo kind 0 false) = some 0)
    (hinfo : btfExtraWords info = some 0) :
    wp (do
      let id ← x
      onlyIf (0 < id) (setLastInfo info)
      pure id) (fun _ st' => Added True st st') anyStop st := by
  refine wp_seq hx fun id st' ⟨hadded, older, off, htypes⟩ => ?_
  refine wp_seq (wp_onlyIf (fun _ => ?_) fun _ => ?_) fun _ _ hQ => hQ
  · refine wp_imp (wp_setLastInfo hadded.base hadded.wf hadded.modifiable htypes hkind hinfo)
      fun _ st'' hadded' => ?_
    exact (hadded.trans hadded').congr (and_iff_right trivial)
  · exact hadded

end

/-! ## Copied types -/

def walkTypes : Nat → List U32 → Option (List U32)
  | 0, ws => some ws
  | cnt + 1, ws =>
    match recordOf ws with
    | none => none
    | some t => walkTypes cnt (ws.drop t.words.length)

theorem BtfType.length_words (t : BtfType) :
    t.words.length = 3 + (btfExtraWords t.info).getD 0 := by
  simp only [words, length_cons, t.length_extra]
  omega

theorem BtfType.packedRegion_words {t : BtfType} (h : (btfExtraWords t.info).isSome) :
    PackedRegion t.words := by
  obtain ⟨k, hk⟩ := isSome_iff_exists.1 h
  refine packedRegion_cons.2 ?_
  rw [t.length_extra, hk, getD_some]

theorem BtfType.info_setStr (t : BtfType) (slot : StrSlot) (off : U32) :
    (t.setStr slot off).info = t.info := by
  cases slot <;> rfl

theorem BtfType.info_rewriteTypeIds {delta : U32} {t t' : BtfType}
    (h : t.rewriteTypeIds delta = some t') : t'.info = t.info := by
  obtain ⟨slots, -, rfl⟩ := map_eq_some_iff.1 h
  have hfold : ∀ (slots : List IdSlot) (t : BtfType), (slots.foldl (fun t slot =>
      if t.getId slot = 0 then t else t.setId slot (t.getId slot + delta)) t).info = t.info := by
    intro slots
    induction slots with
    | nil => intro t; rfl
    | cons slot slots ih =>
      intro t
      rw [foldl_cons, ih]
      split
      · rfl
      · cases slot <;> rfl
  exact hfold slots t

section
variable {st : BtfState} {a : Nat → SlotAlloc} {src : List Btf}

theorem wp_btfRewriteStr (p : Pipe) (strOff : U32) (hbase : st.base = []) (h : st.btf.WF)
    (hmod : st.btf.isModifiable = true) :
    wp (btfRewriteStr a src p strOff) (fun _ st' => StrStep st st') anyStop st := by
  have hrefl : StrStep st st := ⟨hbase, h, hmod, rfl, rfl, rfl⟩
  unfold btfRewriteStr
  dsimp only
  split
  · exact hrefl
  split
  · exact hrefl
  refine wp_seq (wp_btfAddStr _ _ hbase h) fun off st' hstep => ?_
  split
  · exact hstep
  · split
    · trivial
    · exact hstep

theorem wp_visitStrOffs (p : Pipe) (t : BtfType) (hbase : st.base = []) (h : st.btf.WF)
    (hmod : st.btf.isModifiable = true) :
    wp (visitStrOffs a src p t) (fun r st' => StrStep st st' ∧ r.1.info = t.info) anyStop st := by
  refine wp_foldlM (fun slot _ x st₁ ⟨hstep, hinfo⟩ => ?_) ⟨⟨hbase, h, hmod, rfl, rfl, rfl⟩, rfl⟩
  refine wp_seq (wp_btfRewriteStr x.2 _ hstep.base hstep.wf hstep.modifiable) fun r st₂ hstep' => ?_
  exact ⟨hstep.trans hstep', (info_setStr _ _ _).trans hinfo⟩

theorem wp_btfAddType {a : CopyAlloc} {srcType : BtfType} (hbase : st.base = []) (h : st.btf.WF) :
    wp (btfAddType a src srcType) (fun _ st' => Added True st st') anyStop st := by
  unfold btfAddType
  cases hk : btfExtraWords srcType.info with
  | none => trivial
  | some k =>
    refine wp_seq (wp_ensureModifiable _ hbase h) fun _ st₁ h₁ => ?_
    refine wp_read wp_btfAddTypeMem fun _ hfits => ?_
    refine wp_seq (wp_visitStrOffs _ srcType h₁.base h₁.wf h₁.modifiable)
      fun r st₃ ⟨h₃, hinfo⟩ => ?_
    refine wp_imp (wp_btfCommitType h₃.base h₃.wf h₃.modifiable
      (packedRegion_words (by rw [hinfo, hk]; rfl)) ?_) fun _ _ ⟨hadded, _⟩ => ?_
    · rw [h₃.typeLen, length_words, hinfo, ← length_words]
      exact hfits
    · exact hadded.of_strStep (h₁.trans h₃)

theorem wp_addTypes (delta : U32) (cnt : Nat) (p : Pipe) (ws : List U32) (hbase : st.base = [])
    (h : st.btf.WF) (hmod : st.btf.isModifiable = true) :
    wp (addTypes a src delta cnt p ws) (fun r st' => StrStep st st' ∧
      (∀ region ∈ r.1, PackedRegion region) ∧ r.1.length = cnt ∧
      walkTypes cnt ws = some r.2 ∧ r.1.flatten.length + r.2.length = ws.length) anyStop st := by
  induction cnt generalizing st p ws with
  | zero => exact ⟨⟨hbase, h, hmod, rfl, rfl, rfl⟩, by simp, rfl, rfl, by simp⟩
  | succ cnt ih =>
    unfold addTypes
    cases hrec : recordOf ws with
    | none =>
      dsimp only
      split
      · split <;> trivial
      · trivial
    | some t =>
      refine wp_seq (wp_visitStrOffs p t hbase h hmod) fun r st₁ ⟨h₁, hinfo⟩ => ?_
      cases hids : r.1.rewriteTypeIds delta with
      | none => simp only [hids]; trivial
      | some t' =>
        simp only [hids]
        refine wp_seq (ih r.2 _ h₁.base h₁.wf h₁.modifiable)
          fun r' st₂ ⟨h₂, hpacked, hcnt, hwalk, hlen⟩ => ?_
        obtain ⟨rest, k, hws, hk, hfit, hextra⟩ := recordOf_eq_some hrec
        have hinfo' : t'.info = t.info := (info_rewriteTypeIds hids).trans hinfo
        have hwords : t'.words.length = t.words.length := by rw [length_words, length_words, hinfo']
        have hle : t.words.length ≤ ws.length := by
          rw [hws, length_words, hk, getD_some]
          simp only [length_cons]
          omega
        refine ⟨h₁.trans h₂, ?_, by simp [hcnt], ?_, ?_⟩
        · exact forall_mem_cons.2 ⟨packedRegion_words (by rw [hinfo', hk]; rfl), hpacked⟩
        · simp only [walkTypes, hrec, hwalk]
        · rw [length_drop] at hlen
          simp only [flatten_cons, length_append, hwords]
          omega

theorem modify_last_cases {regions : List (List U32)} {rest : List U32}
    (hpacked : ∀ region ∈ regions, PackedRegion region) (hrest : regions = [] → rest = []) :
    let regions' := regions.modify (regions.length - 1) (· ++ rest)
    regions'.flatten.length = regions.flatten.length + rest.length ∧
      (∀ region ∈ regions', (recordOf region).isSome) ∧
      ((∀ region ∈ regions', PackedRegion region) ↔ rest = []) := by
  rcases eq_nil_or_concat regions with rfl | ⟨older, last, hregions⟩
  · simp [hrest rfl]
  rw [concat_eq_append] at hregions
  subst hregions
  have hlast : PackedRegion last := hpacked last (by simp)
  have holder : ∀ region ∈ older, PackedRegion region := fun region h =>
    hpacked region (mem_append_left _ h)
  rw [modify_concat]
  refine ⟨?_, ?_, ?_⟩
  · simp only [flatten_append, flatten_singleton, length_append]
    omega
  · obtain ⟨t, ht, -⟩ := hlast
    refine forall_mem_append.2 ⟨fun region hold => (holder region hold).isSome, ?_⟩
    rw [forall_mem_singleton, recordOf_append ht]
    rfl
  · rw [← hlast.append_iff rest]
    simp only [mem_append, mem_singleton, or_imp, forall_and, forall_eq]
    exact and_iff_right holder

theorem wp_onError {α : Type} {Q : α → BtfState → Prop} {x : BtfM α} {handler : Int → BtfM α}
    {E E' : BtfStop → BtfState → Prop}
    (hx : wp x Q E' st) (hfault : ∀ st', E' .fault st' → E .fault st')
    (hhandler : ∀ e st', E' (.err e) st' → wp (handler e) Q E st') :
    wp (onError x handler) Q E st := by
  unfold wp onError at *
  cases hrun : x st with
  | ok r st' =>
    rw [hrun] at hx
    exact hx
  | error e st' =>
    rw [hrun] at hx
    cases e with
    | fault => exact hfault st' hx
    | err e => exact hhandler e st' hx

theorem wp_addBtfRollback {α : Type} {oldStrsLen : U32} {e : Int} {Q : α → BtfState → Prop} :
    wp (addBtfRollback oldStrsLen e) Q anyStop st := by
  refine wp_get_bind ?_
  split
  · exact wp_set_bind trivial
  · exact wp_set_bind trivial

/-- The records of the source, read one after the other, fill its type section. -/
def Btf.Walks (btf : Btf) : Prop := walkTypes btf.nrTypes btf.types.flatten = some []

theorem wp_btfAddBtf {a : CopyAlloc} {srcBtf : Btf} (hbase : st.base = []) (h : st.btf.WF) :
    wp (btfAddBtf a [srcBtf]) (fun _ st' => Added srcBtf.Walks st st') anyStop st := by
  refine wp_seq (wp_ensureModifiable _ hbase h) fun _ st₁ h₁ => wp_get_bind ?_
  have hmem : wp (addTypeMemInt a.typeMem srcBtf.hdr.typeLen) (fun _ st' => st' = st₁ ∧
      (0 ≤ srcBtf.hdr.typeLen.toInt →
        st₁.btf.hdr.typeLen.toNat + srcBtf.hdr.typeLen.toNat ≤ UINT_MAX)) anyStop st₁ := by
    refine wp_get_bind ?_
    split
    · exact wp_imp wp_btfAddTypeMem fun _ _ ⟨heq, hfits⟩ => ⟨heq, fun _ => hfits⟩
    next hneg =>
      split
      · exact ⟨rfl, fun hpos => absurd hpos hneg⟩
      · trivial
  refine wp_read hmem fun _ hfits => ?_
  split_ifs with hoffs hmap hsrc
  · trivial
  · trivial
  · trivial
  · rw [not_or, not_lt] at hsrc
    refine wp_seq (wp_onError (wp_addTypes _ _ _ _ h₁.base h₁.wf h₁.modifiable) (fun _ _ => trivial)
      fun _ _ _ => wp_addBtfRollback) fun r st₃ ⟨h₃, hpacked, hcnt, hwalk, hlen⟩ => ?_
    have hrest : r.1 = [] → r.2 = [] := by
      intro hnil
      have hzero : srcBtf.types = [] := by
        rw [← length_eq_zero_iff]
        show srcBtf.nrTypes = 0
        rw [← hcnt, hnil, length_nil]
      rw [hzero, hnil] at hlen
      simpa using hlen
    refine wp_get_bind (wp_set_bind (wp_retInt ?_))
    obtain ⟨hlen', hrecords, hiff⟩ := modify_last_cases hpacked hrest
    refine (added_of_types h₃.base h₃.wf h₃.modifiable ?_ ?_ ?_ ?_).of_strStep (h₁.trans h₃)
    · rw [flatten_append, length_append]
      omega
    · rw [h₃.typeLen]
      exact hfits hsrc.1
    · exact forall_mem_append.2 ⟨h₃.wf.records, hrecords⟩
    · rw [Btf.Walks, hwalk, some.injEq, ← hiff, Btf.Packed]
      simp only [mem_append, or_imp, forall_and]

end

/-! ## Calls -/

/-- What keeps the regions packed, in the object before the call: the member count of the last type
can be raised, and the records of a source fill its type section. -/
def AddCall.fits (btf : Btf) : AddCall → Prop
  | .field _ _ _ _ _ | .enumValue _ _ _ | .enum64Value _ _ _ | .funcParam _ _ _
  | .datasecVarInfo _ _ _ _ => ∀ info, btf.lastInfo = some info → infoVlen info + 1 < 2 ^ 16
  | .btf _ src => ∀ srcBtf, src = [srcBtf] → srcBtf.Walks
  | _ => True

variable {kinds : List BtfKind}

section
variable {st : BtfState}

theorem wp_onLastType {f : U32 → BtfM Int}
    (hf : ∀ info, st.btf.lastInfo = some info → infoKind info ∈ kinds →
      wp (f info) (fun _ st' => Added (infoVlen info + 1 < 2 ^ 16) st st') anyStop st) :
    wp (onLastType kinds f) (fun _ st' =>
      Added (∀ info, st.btf.lastInfo = some info → infoVlen info + 1 < 2 ^ 16) st st')
      anyStop st := by
  refine wp_get_bind ?_
  split
  · trivial
  next info hlast =>
    split
    · rename_i hkind
      refine wp_imp (hf info hlast hkind) fun _ _ hadded => hadded.congr ?_
      simp only [hlast, some.injEq, forall_eq']
    · trivial

variable {info : U32}

theorem incVlen_spec (h : infoKind info ∈ memberKinds) : infoKind (incVlen info) = infoKind info ∧
      infoVlen (incVlen info) = (infoVlen info + 1) % 2 ^ 16 := by
  have hvlen : infoVlen info + 1 < 2 ^ 24 := by
    have := infoVlen_lt info
    omega
  exact ⟨(btfExtraWords_btfTypeInfo h hvlen _).1,
    infoVlen_btfTypeInfo (memberKinds_spec _ h).1 hvlen⟩

variable {a : AddAlloc} {name : Option CStr}

section
variable (hbase : st.base = []) (h : st.btf.WF)
include hbase h

theorem wp_newRecord {size : U32} (hextra : btfExtraWords info = some extra.length) :
    wp (appendType a name fun off => off :: info :: size :: extra)
      (fun _ st' => Added True st st') anyStop st :=
  wp_imp (wp_appendWords hbase h hextra) fun _ _ hadded => hadded.1

theorem wp_newRef {refTypeId : U32} (hkind : btfExtraWords (btfTypeInfo kind 0 false) = some 0) :
    wp (btfAddRefKind a kind name refTypeId) (fun _ st' => Added True st st') anyStop st :=
  wp_imp (wp_btfAddRefKind hbase h hkind) fun _ _ hadded => hadded.1

theorem wp_newAnonymous {size : U32} (hextra : btfExtraWords info = some extra.length) :
    wp (appendType a none fun _ => 0 :: info :: size :: extra)
      (fun _ st' => Added True st st') anyStop st :=
  wp_imp (wp_appendType hbase h (fun _ => packedRegion_cons.2 hextra) fun _ => rfl)
    fun _ _ hadded => hadded.1

theorem wp_btfAddEnumCommon {byteSz : U32} {isSigned : Bool} (hkind : kind ∈ memberKinds) :
    wp (btfAddEnumCommon a name byteSz isSigned kind) (fun _ st' => Added True st st') anyStop st :=
  wp_guard fun _ => wp_newRecord hbase h (btfExtraWords_btfTypeInfo hkind (by decide) _).2

theorem wp_btfAddFunc {linkage : Nat} {protoTypeId : U32} :
    wp (btfAddFunc a name linkage protoTypeId) (fun _ st' => Added True st st') anyStop st := by
  refine wp_guard fun _ => wp_guard fun hlinkage => ?_
  refine wp_withInfo (wp_btfAddRefKind hbase h rfl) rfl ?_
  have hkind : infoKind (btfTypeInfo .func linkage false) = .func :=
    infoKind_btfTypeInfo (by decide) (by omega)
  rw [btfExtraWords, hkind]

theorem wp_btfAddFwd {fwdKind : Nat} :
    wp (btfAddFwd a name fwdKind) (fun _ st' => Added True st st') anyStop st := by
  refine wp_guard fun _ => ?_
  split
  · refine wp_withInfo (wp_btfAddRefKind hbase h rfl) rfl ?_
    cases decide (fwdKind = 1) <;> rfl
  · split
    · exact wp_btfAddEnumCommon hbase h (by decide)
    · trivial

theorem wp_newMember {member : U32 → List U32}
    (hlast : st.btf.lastInfo = some info) (hmem : infoKind info ∈ kinds)
    (hkinds : ∀ kind ∈ kinds, kind ∈ memberKinds ∧ ∀ off, (member off).length = kind.memberWords) :
    wp (appendMember a name member incVlen)
      (fun _ st' => Added (infoVlen info + 1 < 2 ^ 16) st st') anyStop st := by
  obtain ⟨hkind, hlen⟩ := hkinds _ hmem
  obtain ⟨hkind', hvlen'⟩ := incVlen_spec hkind
  exact wp_appendMember hbase h hlast hkind hlen hkind' hvlen'

theorem wp_btfAddField {typeId bitOffset bitSize : U32} :
    wp (btfAddField a name typeId bitOffset bitSize) (fun _ st' =>
      Added (∀ info, st.btf.lastInfo = some info → infoVlen info + 1 < 2 ^ 16) st st')
      anyStop st := by
  refine wp_onLastType fun info hlast hmem => ?_
  refine wp_guard fun _ => wp_guard fun _ => wp_guard fun _ => ?_
  have hmember : ∀ kind ∈ [BtfKind.struct, .union], kind ∈ memberKinds ∧ 3 = kind.memberWords := by
    decide
  obtain ⟨hkind, hwords⟩ := hmember _ hmem
  have hvlen : infoVlen info + 1 < 2 ^ 24 := by
    have := infoVlen_lt info
    omega
  exact wp_appendMember hbase h hlast hkind (fun _ => hwords)
    (btfExtraWords_btfTypeInfo hkind hvlen _).1
    (infoVlen_btfTypeInfo (memberKinds_spec _ hkind).1 hvlen)

theorem wp_btfAddEnumValue {value : BitVec 64} : wp (btfAddEnumValue a name value) (fun _ st' =>
      Added (∀ info, st.btf.lastInfo = some info → infoVlen info + 1 < 2 ^ 16) st st')
      anyStop st := by
  refine wp_onLastType fun info hlast hmem => wp_guard fun _ => ?_
  split
  · trivial
  have hkind : infoKind info = .enum := by simpa using hmem
  have hmember : infoKind info ∈ memberKinds := by
    rw [hkind]
    decide
  obtain ⟨hkind', hvlen'⟩ := incVlen_spec hmember
  refine wp_appendMember hbase h hlast hmember (fun _ => by rw [hkind]; rfl) ?_ ?_
  · split
    · rw [hkind']
      exact (btfExtraWords_btfTypeInfo hmember (by omega) _).1
    · exact hkind'
  · split
    · rw [infoVlen_btfTypeInfo (by rw [hkind', hkind]; decide) (by omega), hvlen', Nat.mod_mod]
    · exact hvlen'

end

theorem wp_exec (c : AddCall) (hbase : st.base = []) (h : st.btf.WF) :
    wp c.exec (fun _ st' => Added (c.fits st.btf) st st') anyStop st := by
  cases c with
  | str a s => exact wp_imp (wp_btfAddStr a s hbase h) fun _ _ hstep => hstep.added
  | type a src t => exact wp_btfAddType hbase h
  | btf a src =>
    match src with
    | [] => trivial
    | _ :: _ :: _ => trivial
    | [srcBtf] =>
      refine wp_imp (wp_btfAddBtf hbase h) fun _ _ hadded => hadded.congr ?_
      simp only [AddCall.fits, cons.injEq, and_true, forall_eq']
  | int a name byteSz encoding =>
    exact wp_guard fun _ => wp_guard fun _ => wp_guard fun _ => wp_newRecord hbase h rfl
  | float a name byteSz => exact wp_guard fun _ => wp_guard fun _ => wp_newRecord hbase h rfl
  | ptr a refTypeId => exact wp_newRef hbase h rfl
  | array a indexTypeId elemTypeId nrElems => exact wp_guard fun _ => wp_newAnonymous hbase h rfl
  | struct a name byteSz | union a name byteSz => exact wp_newRecord hbase h rfl
  | field a name typeId bitOffset bitSize => exact wp_btfAddField hbase h
  | enum a name byteSz => exact wp_btfAddEnumCommon hbase h (by decide)
  | enumValue a name value => exact wp_btfAddEnumValue hbase h
  | enum64 a name byteSz isSigned => exact wp_btfAddEnumCommon hbase h (by decide)
  | enum64Value a name value =>
    exact wp_onLastType fun info hlast hmem => wp_guard fun _ =>
      wp_newMember hbase h hlast hmem (by simp [memberKinds, BtfKind.memberWords])
  | fwd a name fwdKind => exact wp_btfAddFwd hbase h
  | typedef a name refTypeId => exact wp_guard fun _ => wp_newRef hbase h rfl
  | volatile a refTypeId | const a refTypeId | restrict a refTypeId => exact wp_newRef hbase h rfl
  | typeTag a value refTypeId => exact wp_guard fun _ => wp_newRef hbase h rfl
  | func a name linkage protoTypeId => exact wp_btfAddFunc hbase h
  | funcProto a retTypeId => exact wp_guard fun _ => wp_newAnonymous hbase h rfl
  | funcParam a name typeId =>
    exact wp_guard fun _ => wp_onLastType fun info hlast hmem =>
      wp_newMember hbase h hlast hmem (by simp [memberKinds, BtfKind.memberWords])
  | var a name linkage typeId =>
    exact wp_guard fun _ => wp_guard fun _ => wp_guard fun _ => wp_newRecord hbase h rfl
  | datasec a name byteSz => exact wp_guard fun _ => wp_newRecord hbase h rfl
  | datasecVarInfo a varTypeId offset byteSz =>
    exact wp_onLastType fun info hlast hmem => wp_guard fun _ =>
      wp_newMember hbase h hlast hmem (by simp [memberKinds, BtfKind.memberWords])
  | declTag a value refTypeId componentIdx =>
    exact wp_guard fun _ => wp_guard fun _ => wp_newRecord hbase h rfl

/-! ## Runs -/

/-- Every call of the run fits the object it meets. -/
def RunFits : List AddCall → BtfState → Prop
  | [], _ => True
  | c :: calls, st => c.fits st.btf ∧ ∀ r st', c.exec st = .ok r st' → RunFits calls st'

theorem added_runAdds {c : AddCall} {calls : List AddCall} {st' : BtfState}
    (hbase : st.base = []) (h : st.btf.WF) (hrun : runAdds (c :: calls) st = some st') :
    Added (RunFits (c :: calls) st) st st' := by
  induction calls generalizing c st with
  | nil =>
    unfold runAdds at hrun
    cases hexec : c.exec st with
    | error e st₁ => simp [hexec] at hrun
    | ok r st₁ =>
      simp only [hexec, runAdds, some.injEq] at hrun
      subst hrun
      exact (wp_ok (wp_exec c hbase h) hexec).congr (by simp [RunFits])
  | cons c' calls ih =>
    rw [runAdds] at hrun
    cases hexec : c.exec st with
    | error e st₁ => simp [hexec] at hrun
    | ok r st₁ =>
      simp only [hexec] at hrun
      have hfirst := wp_ok (wp_exec c hbase h) hexec
      refine (hfirst.trans (ih hfirst.base hfirst.wf hrun)).congr ?_
      rw [RunFits.eq_2 _ c, hexec]
      simp

end

end LinuxKernel.Bpf
