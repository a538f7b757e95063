import LinuxKernel.Bpf.BtfDedupStruct

/-!
# Forward declarations and reference types in BTF deduplication

`btf_dedup_resolve_fwds` links forward declarations to the only struct or union of their name.
`btf_dedup_ref_types` then links every type that is left, a type after those it refers to. Its
recursion marks a type as being in progress first, so that the types not processed yet bound its
depth.
-/

namespace LinuxKernel.Bpf

open Foundation Option BtfType
open List hiding getElem?_eq_some_iff
open Foundation.Forest

variable {C : DedupCtx} {d d' d'' : Dedup}

/-! ## Forward declarations -/

/-- The names lead to canonical structs and unions, or to 0. -/
structure DedupCtx.NamesOk (C : DedupCtx) (map : List MapEntry) (names : Hashmap (BitVec 64) Nat) :
    Prop where
  wf : names.WF namesFns
  entry : ∀ e ∈ names.buckets.flatten, e.value ≠ 0 → nextId map e.value = some e.value ∧
    HasType C.types e.value fun t => t.isComposite = true

variable {map : List MapEntry} {names : Hashmap (BitVec 64) Nat}

theorem DedupCtx.NamesOk.insert
    (h : C.NamesOk map names) (a : Alloc) (key : BitVec 64) {value : Nat}
    (strategy : InsertStrategy) (hvalue : value ≠ 0 → nextId map value = some value ∧
      HasType C.types value fun t => t.isComposite = true) :
    C.NamesOk map (hashmapInsert namesFns a names key value strategy).map := by
  obtain ⟨hwf, hmem⟩ := hashmapInsert_mem a h.wf key value strategy
  refine ⟨hwf, fun e he => ?_⟩
  rcases hmem e he with rfl | he
  · exact hvalue
  · exact h.entry e he

variable {typeId : Nat}

theorem fillName_spec (h : C.Inv d)
    (hnames : C.NamesOk d.map names) (hlt : typeId < C.types.length) :
    wp (fillName C.env names typeId)
      (fun names' d' => C.NamesOk d.map names' ∧ ∃ k, d' = { d with allocs := k }) C.Failed d := by
  refine wp_read (typeById_spec h fun _ => hlt) (fun t ht => ?_)
  refine wp_read (mapAt_spec h fun _ => hlt) (fun e he => ?_)
  split
  next hcond =>
    simp only [Bool.and_eq_true, decide_eq_true_eq] at hcond
    obtain ⟨hcomp, rfl⟩ := hcond
    have hcanon : nextId d.map typeId = some typeId ∧
        HasType C.types typeId fun t => t.isComposite = true :=
      ⟨nextId_eq_some.2 he, (h.composite_iff ht).2 hcomp⟩
    simp only [nextAlloc, wp_bind, wp_get, wp_set, wp_pure]
    have hadd := hnames.insert (C.env.alloc d.allocs) (t.nameOff.setWidth 64) .add (fun _ => hcanon)
    split
    · exact ⟨hadd.insert _ _ .set (by simp), _, rfl⟩
    · split
      · exact ⟨hadd, _, rfl⟩
      · exact DedupCtx.Inv.errorCode { h with } (by simp) (by simp)
  · exact ⟨hnames, _, rfl⟩

theorem fillUniqueNamesMap_spec (h : C.Inv d) : wp (fillUniqueNamesMap C.env)
      (fun names d' => C.NamesOk d.map names ∧ ∃ k, d' = { d with allocs := k }) C.Failed d := by
  refine wp_get_bind (wp_foldlM (fun i hi names d' hI => ?_) ⟨?_, d.allocs, rfl⟩)
  · obtain ⟨hnames, k, rfl⟩ := hI
    have hlt : i < C.types.length := by
      rw [h.length_types, mem_range'_1] at hi
      omega
    have hinv : C.Inv { d with allocs := k } := { h with }
    refine wp_imp (fillName_spec hinv hnames hlt) (fun names' d' ⟨hnames', k', hd⟩ => ?_)
    exact ⟨hnames', k', hd⟩
  · exact ⟨wf_hashmapInit _, fun e he => by simp [hashmapInit] at he⟩

theorem DedupCtx.NamesOk.later (h : C.NamesOk d.map names)
    (hlater : C.Later d d') : C.NamesOk d'.map names := by
  refine ⟨h.wf, fun e he hne => ?_⟩
  obtain ⟨hself, t, ht, hcomp⟩ := h.entry e he hne
  exact ⟨hlater.stable _ _ hself (C.not_fwd_of_isComposite ht hcomp), t, ht, hcomp⟩

variable {d0 : Dedup}

theorem btfDedupResolveFwd_spec (h : C.StructInv d0 d) (hnames : C.NamesOk d.map names)
    (hlt : typeId < C.types.length) : wp (btfDedupResolveFwd names typeId)
      (fun _ d' => C.StructInv d0 d' ∧ C.NamesOk d'.map names) C.Failed d := by
  refine wp_read (typeById_spec h.inv fun _ => hlt) (fun t ht => ?_)
  refine wp_read (mapAt_spec h.inv fun _ => hlt) (fun e _ => ?_)
  split
  next hcond =>
    simp only [Bool.and_eq_true] at hcond
    split
    · exact ⟨h, hnames⟩
    rename_i candId hfind
    split
    · exact ⟨h, hnames⟩
    rename_i hne
    obtain ⟨e', he', rfl⟩ := hashmapFind_mem hfind
    obtain ⟨hself, ct, hct, hcomp⟩ := hnames.entry e' he' hne
    have hcandLt : e'.value < C.types.length := (List.getElem?_eq_some_iff.1 hct).1
    refine wp_read (typeById_spec h.inv fun _ => hcandLt) (fun candT _ => ?_)
    split
    · exact ⟨h, hnames⟩
    have hfwd : C.Fwd typeId := (h.inv.fwd_iff ht).2 hcond.1
    have hlegal : C.Legal d .resolveFwd typeId (.mapped e'.value) :=
      legal_mergeFwd h.inv (by simp) hlt hcandLt (.inr hself) hfwd
        (C.not_fwd_of_isComposite hct hcomp)
    have hlater := DedupCtx.Later.write hlegal (.inr (.inl hfwd))
    refine wp_imp (setMap_spec hlegal) (fun _ d'' hd => ?_)
    subst hd
    exact ⟨⟨h.inv.write hlegal, h.types_eq, h.later.trans hlater⟩, hnames.later hlater⟩
  · exact ⟨h, hnames⟩

theorem btfDedupResolveFwds_spec (h : C.StructInv d0 d) :
    wp (btfDedupResolveFwds C.env) (fun _ d' => C.StructInv d0 d') C.Failed d := by
  unfold btfDedupResolveFwds nextAlloc
  simp only [wp_bind, wp_get, wp_set, wp_pure]
  have halloc : ∀ k, C.StructInv d0 { d with allocs := k } := fun k =>
    ⟨{ h.inv with }, h.types_eq, h.later.trans (.of_map_eq rfl)⟩
  split
  · refine wp_seq (fillUniqueNamesMap_spec (halloc _).inv) (fun names d' hfill => ?_)
    obtain ⟨hnames, k, rfl⟩ := hfill
    have hloop := forEachType_spec
      (I := fun _ d' => C.StructInv d0 d' ∧ C.NamesOk d'.map names) (halloc k).inv
      (fun i _ hhi d' hI => btfDedupResolveFwd_spec hI.1 hI.2 hhi) ⟨halloc k, hnames⟩
    exact wp_imp hloop (fun _ _ hI => hI.1)
  · exact (halloc _).inv.errorCode (by simp) (by simp)

/-! ## Writing ids back -/

variable {t : BtfType} {refId : Nat}

theorem RefsInRange.setId {n : Nat} {types : List BtfType} (h : RefsInRange n types)
    (ht : types[typeId]? = some t) (slot : IdSlot) (href : refId < n) :
    RefsInRange n (types.set typeId (t.setId slot (BitVec.ofNat 32 refId))) := by
  intro t' ht' id hid
  rcases mem_or_eq_of_mem_set ht' with ht' | rfl
  · exact h t' ht' id hid
  · rcases mem_typeIds_setId hid with rfl | hid
    · exact Nat.lt_of_le_of_lt (Nat.mod_le _ _) href
    · exact h t (mem_of_getElem? ht) id hid

def Dedup.withType (d : Dedup) (typeId : Nat) (t : BtfType) : Dedup :=
  { d with types := d.types.set typeId t }

section
variable (h : C.Inv d) (ht : d.types[typeId]? = some t) (hcomp : t.isComposite = false)
    (slot : IdSlot) (href : refId < C.types.length)
include h ht hcomp slot href

theorem DedupCtx.Inv.setId : C.Inv (d.withType typeId (t.setId slot (BitVec.ofNat 32 refId))) where
  startId_eq := h.startId_eq
  shape := by
    refine ⟨by simp [Dedup.withType, h.length_types], fun i t' ht' => ?_⟩
    by_cases hi : typeId = i
    · subst hi
      have hlt : typeId < d.types.length := (List.getElem?_eq_some_iff.1 ht).1
      simp only [Dedup.withType, getElem?_set_self hlt, some.injEq] at ht'
      obtain ⟨t0, ht0, hinfo, -⟩ := h.record ht
      refine ⟨t0, ht0, by rw [← ht', info_setId, hinfo], fun hcomp0 => ?_⟩
      have hcomp' := (h.composite_iff ht).1 ⟨t0, ht0, hcomp0⟩
      simp [hcomp] at hcomp'
    · rw [Dedup.withType, getElem?_set_ne hi] at ht'
      exact h.record ht'
  refs hsafe := (h.refs hsafe).setId ht slot href
  run := h.run
  map_eq := h.map_eq
  table_wf := h.table_wf
  table := h.table
  hypot_length := h.hypot_length
  hypot_list := h.hypot_list
  hypot_map := h.hypot_map

theorem setTypeId_spec : wp (setTypeId typeId slot refId)
      (fun _ d' => C.Inv d' ∧ d'.map = d.map ∧ d'.writes = d.writes) C.Failed d := by
  refine wp_read (typeById_spec h fun _ => lt_of_types h ht) (fun t' ht' => ?_)
  cases ht.symm.trans ht'
  exact wp_get_bind ⟨h.setId ht hcomp slot href, rfl, rfl⟩

end

/-! ## The recursion over references -/

variable {slots : List IdSlot} {hash : BtfType → BitVec 64} {eq : BtfType → BtfType → Bool}

/-- How a reference type is treated fits its record: its slots are those that hold ids, and equal
types are of the same kind. -/
theorem refScheme_some (h : refScheme t = some (slots, hash, eq)) :
    t.idSlots = some slots ∧ t.isComposite = false ∧ t.isFwd = false ∧ t.isAnyEnum = false ∧
      ∀ t1 t2, eq t1 t2 = true → t1.info = t2.info := by
  unfold refScheme at h
  simp only [idSlots, isComposite, isFwd, isAnyEnum]
  split at h <;> simp only [some.injEq, Prod.mk.injEq, reduceCtorEq] at h <;>
    obtain ⟨rfl, rfl, rfl⟩ := h <;> rename_i hk <;> simp [hk]
  all_goals
    intro t1 t2 heq
    first
    | exact info_eq_of_btfEqualCommon heq
    | exact info_eq_of_btfEqualIntTag heq
    | exact info_eq_of_btfEqualArray heq
    | exact info_eq_of_btfEqualFnproto heq

theorem refScheme_congr {t1 t2 : BtfType} (h : t1.info = t2.info) :
    refScheme t1 = refScheme t2 := by
  have hkind : t1.kind = t2.kind := by simp only [kind, h]
  have hvlen : t1.vlen = t2.vlen := by simp only [vlen, h]
  simp only [refScheme, hkind, hvlen]

def unprocessedCount (map : List MapEntry) : Nat := map.count .unprocessed

/-- What `btf_dedup_ref_type` does to `map`: entries of types that were processed are kept. -/
structure Dedup.Processed (d d' : Dedup) : Prop where
  entry : ∀ (j : Nat) (e : MapEntry), d.map[j]? = some e → e ≠ .unprocessed → d'.map[j]? = some e
  count : unprocessedCount d'.map ≤ unprocessedCount d.map

theorem Dedup.Processed.of_map_eq (h : d'.map = d.map) : d.Processed d' := by
  refine ⟨fun j e he _ => ?_, ?_⟩
  · rwa [h]
  · rw [h]

theorem Dedup.Processed.trans (h : d.Processed d') (h' : d'.Processed d'') : d.Processed d'' :=
  ⟨fun j e he hne => h'.entry j e (h.entry j e he hne) hne, h'.count.trans h.count⟩

theorem Dedup.Processed.later (h : d.Processed d') : C.Later d d' := by
  have hkeep : ∀ j k, nextId d.map j = some k → nextId d'.map j = some k := by
    intro j k hjk
    rw [nextId_eq_some] at hjk ⊢
    exact h.entry j _ hjk (by simp)
  refine ⟨fun j hj => ?_, fun j k hjk _ => hkeep j k hjk⟩
  obtain ⟨k, hk⟩ := ne_none_iff_exists'.1 hj
  simp [hkeep j k hk]

variable {i : Nat} {v : MapEntry}

theorem unprocessedCount_set (h : map[i]? = some .unprocessed) (hv : v ≠ .unprocessed) :
    unprocessedCount (map.set i v) + 1 = unprocessedCount map := by
  obtain ⟨hlt, hval⟩ := List.getElem?_eq_some_iff.1 h
  have hpos : 0 < unprocessedCount map :=
    count_pos_iff.2 (mem_of_getElem? h)
  unfold unprocessedCount at hpos ⊢
  rw [count_set hlt, hval]
  simp only [beq_self_eq_true, if_true, beq_iff_eq, hv, if_false]
  omega

theorem unprocessedCount_set_le
    (hv : v ≠ .unprocessed) : unprocessedCount (map.set i v) ≤ unprocessedCount map := by
  by_cases hlt : i < map.length
  · unfold unprocessedCount
    rw [count_set hlt]
    simp [hv]
  · rw [set_eq_of_length_le (Nat.le_of_not_lt hlt)]

/-- Entries are kept when the entry of a type that was not processed in the beginning is written. -/
theorem Dedup.Processed.set (h : d.Processed d') (hold : d.map[i]? = some .unprocessed)
    (hv : v ≠ .unprocessed) (hmap : d''.map = d'.map.set i v) : d.Processed d'' := by
  refine ⟨fun j e he hne => ?_, ?_⟩
  · have hij : i ≠ j := by
      rintro rfl
      exact hne (some.inj (he.symm.trans hold))
    rw [hmap, getElem?_set_ne hij]
    exact h.entry j e he hne
  · rw [hmap]
    exact (unprocessedCount_set_le hv).trans h.count

def RefSpec (C : DedupCtx) (fuel : Nat) (refType : Nat → DedupM Nat) : Prop :=
  ∀ typeId d, C.Inv d → (C.safe → typeId < C.types.length) →
    (C.safe → unprocessedCount d.map + C.types.length < fuel) →
    wp (refType typeId) (fun r d' => C.Inv d' ∧ d.Processed d' ∧ r < C.types.length ∧
      nextId d'.map typeId ≠ none) C.Failed d

variable {fuel : Nat} {t0 : BtfType}

theorem refSlots_spec {refType : Nat → DedupM Nat} (hrec : RefSpec C fuel refType)
    (ht0 : C.types[typeId]? = some t0) (hcomp : t0.isComposite = false) (h : C.Inv d)
    (hslots : ∀ slot ∈ slots, slot ∈ t0.idSlots.getD [])
    (hfuel : C.safe → unprocessedCount d.map + C.types.length < fuel) :
    wp (refSlots refType typeId slots) (fun _ d' => C.Inv d' ∧ d.Processed d') C.Failed d := by
  have hlt : typeId < C.types.length := (List.getElem?_eq_some_iff.1 ht0).1
  induction slots generalizing d with
  | nil => exact ⟨h, .of_map_eq rfl⟩
  | cons slot slots ih =>
    refine wp_read (typeById_spec h fun _ => hlt) (fun t ht => ?_)
    have hinfo : t.info = t0.info := by
      obtain ⟨t1, ht1, hinfo, -⟩ := h.record ht
      rwa [← some.inj (ht0.symm.trans ht1)] at hinfo
    have hid : C.safe → (t.getId slot).toNat < C.types.length := by
      intro hsafe
      apply h.idsOk ht hsafe
      unfold typeIds
      rw [idSlots_congr hinfo]
      exact mem_map_of_mem (hslots slot mem_cons_self)
    refine wp_seq (hrec _ d h hid hfuel) (fun r d1 ⟨h1, hproc, hr, _⟩ => ?_)
    obtain ⟨t1, ht1⟩ : ∃ t1, d1.types[typeId]? = some t1 :=
      ⟨_, getElem?_eq_getElem (by rwa [h1.length_types])⟩
    have hcomp1 : t1.isComposite = false := by
      rw [← Bool.not_eq_true, ← h1.composite_iff ht1]
      rintro ⟨t2, ht2, hcomp2⟩
      cases ht0.symm.trans ht2
      simp [hcomp] at hcomp2
    refine wp_seq (setTypeId_spec h1 ht1 hcomp1 slot hr) (fun _ d2 ⟨h2, hmap, _⟩ => ?_)
    have hproc2 : d.Processed d2 := hproc.trans (.of_map_eq hmap)
    refine wp_imp (ih h2 (fun s hs => hslots s (mem_cons_of_mem _ hs)) (fun hsafe => ?_))
      (fun _ d3 ⟨h3, hproc3⟩ => ⟨h3, hproc2.trans hproc3⟩)
    have hle := hproc2.count
    have hlt := hfuel hsafe
    omega

theorem legal_inProgress (he : d.map[typeId]? = some .unprocessed) :
    C.Legal d .inProgress typeId .inProgress where
  after_eq := rfl
  id_lt := (List.getElem?_eq_some_iff.1 he).1
  link b hb := by simp at hb
  mark _ := by simp [nextId, he]
  overwrites := .inr (.inl (by simp [nextId, he]))
  layout b t hb := by simp at hb
  merge _ hsite := by simp at hsite

/-- The end of `btf_dedup_ref_type`, when all referenced types are deduplicated. -/
theorem refCanonical_spec (h : C.Inv d) (ht0 : C.types[typeId]? = some t0)
    (hscheme : refScheme t0 = some (slots, hash, eq)) (hmark : d.map[typeId]? = some .inProgress) :
    wp (do
        let t ← typeById typeId
        let newId ← findCand eq t typeId (← dedupCands C.env (hash t))
        setCanonical C.env .ref (hash t) typeId newId
        pure newId)
      (fun r d' => C.Inv d' ∧ r < C.types.length ∧ d'.map = d.map.set typeId (.mapped r))
      C.Failed d := by
  have hlt : typeId < C.types.length := (List.getElem?_eq_some_iff.1 ht0).1
  have hnone : nextId d.map typeId = none := by simp [nextId, hmark]
  obtain ⟨-, hcomp, hfwd, henum, heqInfo⟩ := refScheme_some hscheme
  refine wp_read (typeById_spec h fun _ => hlt) (fun t ht => ?_)
  have hinfo : t.info = t0.info := by
    obtain ⟨t1, ht1, hinfo, -⟩ := h.record ht
    rwa [← some.inj (ht0.symm.trans ht1)] at hinfo
  refine wp_read (dedupCands_spec _ _) (fun l hl => ?_)
  refine wp_read (findCand_spec h hl) (fun r hr => ?_)
  -- a candidate that is equal is no forward declaration, so it is canonical
  have hcand : r = typeId ∨ (r < C.types.length ∧ nextId d.map r = some r) := by
    refine hr.imp id ?_
    rintro ⟨hok, cand, hcand, heq⟩
    have hcandInfo : t0.info = cand.info := hinfo.symm.trans (heqInfo _ _ heq)
    refine ⟨hok.lt, hok.canonical ?_ ?_⟩
    · change ¬ C.Fwd r
      rw [h.fwd_iff hcand]
      have hkind : t0.kind = cand.kind := by simp only [kind, hcandInfo]
      simpa [isFwd, hkind] using hfwd
    · rw [h.hasType_iff hcand fun t1 t2 hi => by rw [btfIsEnumFwd_congr hi]]
      simp [btfIsEnumFwd, ← isAnyEnum_congr hcandInfo, henum]
  have hrLt : r < C.types.length := by
    rcases hcand with rfl | ⟨hrLt, -⟩
    · exact hlt
    · exact hrLt
  have hlegal : C.Legal d .ref typeId (.mapped r) := by
    refine h.legal_link (by simp) hlt hrLt ?_ (.inr (.inl hnone)) (fun t' ht' hcomp' => ?_)
    · refine hcand.imp id ?_
      rintro ⟨-, hself⟩
      refine avoids_of_isRoot (.inr hself) ?_
      rintro rfl
      simp [hnone] at hself
    · cases ht0.symm.trans ht'
      simp [hcomp] at hcomp'
  exact wp_seq (setCanonical_spec h _ hlegal) (fun _ d'' hset => ⟨hset.1, hrLt, hset.2.map⟩)

theorem btfDedupRefType_spec (fuel : Nat) : RefSpec C fuel (btfDedupRefType C.env fuel) := by
  induction fuel with
  | zero => exact fun _ _ h _ hfuel => h.failed fun hsafe => absurd (hfuel hsafe) (by omega)
  | succ fuel ih =>
    intro typeId d h hid hfuel
    refine wp_read (mapAt_spec h hid) (fun e he => ?_)
    have hlt := lt_of_map h he
    cases e with
    | inProgress => exact h.errorCode (by simp) (by simp)
    | mapped j =>
      refine wp_imp (resolveTypeId_spec h hid fun hsafe => ?_) (fun r d'' ⟨hd, _, _, hr⟩ => ?_)
      · have hlt := hfuel hsafe
        omega
      · subst hd
        refine ⟨h, .of_map_eq rfl, hr, ?_⟩
        simp [nextId_eq_some.2 he]
    | unprocessed =>
      refine wp_read (typeById_spec h hid) (fun t ht => ?_)
      have hlegal := legal_inProgress (C := C) he
      refine wp_seq (setMap_spec hlegal) (fun _ d1 hd => ?_)
      have h1 : C.Inv d1 := hd ▸ h.write hlegal
      have hmap1 : d1.map = d.map.set typeId .inProgress := by rw [hd]; rfl
      have hproc1 : d.Processed d1 := (Dedup.Processed.of_map_eq rfl).set he (by simp) hmap1
      have hcount : unprocessedCount d1.map + 1 = unprocessedCount d.map := by
        rw [hmap1]
        exact unprocessedCount_set he (by simp)
      split
      · exact h1.errorCode (by simp) (by simp)
      next slots hash eq hscheme =>
        obtain ⟨t0, ht0, hinfo, -⟩ := h.record ht
        have hscheme0 : refScheme t0 = some (slots, hash, eq) := by
          rw [← refScheme_congr hinfo]
          exact hscheme
        obtain ⟨hslots, hcomp, -⟩ := refScheme_some hscheme0
        refine wp_seq (refSlots_spec ih ht0 hcomp h1 (fun slot hs => by simpa [hslots] using hs)
          (fun hsafe => ?_)) (fun _ d2 ⟨h2, hproc2⟩ => ?_)
        · have hlt := hfuel hsafe
          omega
        have hmark : d2.map[typeId]? = some .inProgress := by
          refine hproc2.entry _ _ ?_ (by simp)
          rw [hmap1, getElem?_set_self (by rwa [h.length_map])]
        refine wp_imp (refCanonical_spec h2 ht0 hscheme0 hmark) (fun r d3 ⟨h3, hr, hmap3⟩ => ?_)
        refine ⟨h3, (hproc1.trans hproc2).set he (by simp) hmap3, hr, ?_⟩
        rw [hmap3, nextId_set_self (by rwa [h2.length_map])]
        simp

theorem btfDedupRefTypes_spec (h : C.Inv d)
    (hfuel : C.safe → C.types.length + C.types.length < fuel) : wp (btfDedupRefTypes C.env fuel)
      (fun _ d' => C.Inv d' ∧ C.Later d d' ∧
        ∀ j, C.startId ≤ j → j < C.types.length → nextId d'.map j ≠ none) C.Failed d := by
  have hloop := forEachType_spec (f := fun typeId => do
      let _ ← btfDedupRefType C.env fuel typeId
      pure ())
    (I := fun i d' => C.Inv d' ∧ d.Processed d' ∧
      ∀ j, C.startId ≤ j → j < i → nextId d'.map j ≠ none) h
    (fun i hlo hhi d' hI => ?_) ⟨h, .of_map_eq rfl, fun j hlo hhi => by omega⟩
  · refine wp_imp hloop (fun _ d' ⟨h', hproc, hlinked⟩ => ?_)
    exact ⟨h', hproc.later, fun j hlo hhi => hlinked j hlo (by omega)⟩
  obtain ⟨h', hproc, hlinked⟩ := hI
  have hcount : unprocessedCount d'.map ≤ C.types.length := by
    rw [← h'.length_map]
    exact count_le_length
  refine wp_seq (btfDedupRefType_spec fuel i d' h' (fun _ => hhi) (fun hsafe => ?_))
    (fun r d'' ⟨h'', hproc', _, hlink⟩ => ⟨h'', hproc.trans hproc', fun j hjlo hjhi => ?_⟩)
  · have hlt := hfuel hsafe
    omega
  · by_cases hj : j = i
    · rwa [hj]
    · exact (hproc'.later (C := C)).linked j (hlinked j hjlo (by omega))

end LinuxKernel.Bpf
