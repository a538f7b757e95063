import LinuxKernel.Bpf.BtfDedupEquiv

/-!
# Structs and unions in BTF deduplication

The pass `btf_dedup_struct_types`. Its writes link forward declarations and types that have no link
yet. When a struct or union is equivalent to a candidate, merging the hypothetical map has linked it
already, with the pair that was entered first.
-/

namespace LinuxKernel.Bpf

open Foundation List BtfType
open Foundation.Forest

variable {C : DedupCtx} {d d' d'' : Dedup}

def DedupCtx.Fwd (C : DedupCtx) (i : Nat) : Prop := HasType C.types i fun t => t.kind = .fwd

variable {i : Nat} {t : BtfType}

theorem DedupCtx.not_fwd_of_isComposite (C : DedupCtx)
    (ht : C.types[i]? = some t) (hcomp : t.isComposite = true) : ¬ C.Fwd i := by
  rintro ⟨t', ht', hkind⟩
  cases ht.symm.trans ht'
  simp [isComposite, hkind] at hcomp

/-- Since `d`, linked types have stayed linked, and only links of forward declarations were
replaced. -/
structure DedupCtx.Later (C : DedupCtx) (d d' : Dedup) : Prop where
  linked : ∀ j, nextId d.map j ≠ none → nextId d'.map j ≠ none
  stable : ∀ j k, nextId d.map j = some k → ¬ C.Fwd j → nextId d'.map j = some k

variable {site : WriteSite}

namespace DedupCtx.Later

theorem refl (d : Dedup) : C.Later d d := ⟨fun _ h => h, fun _ _ h _ => h⟩

theorem trans (h : C.Later d d') (h' : C.Later d' d'') : C.Later d d'' :=
  ⟨fun j hj => h'.linked j (h.linked j hj),
    fun j k hjk hfwd => h'.stable j k (h.stable j k hjk hfwd) hfwd⟩

theorem of_map_eq (h : d'.map = d.map) : C.Later d d' := by
  refine ⟨fun j hj => ?_, fun j k hjk _ => ?_⟩
  · rwa [h]
  · rwa [h]

theorem write {id : Nat} {value : MapEntry} (hlegal : C.Legal d site id value)
    (hover : nextId d.map id = none ∨ C.Fwd id ∨ d.map[id]? = some value) :
    C.Later d (d.write site id value) := by
  refine ⟨fun j hj => hlegal.nextId_ne_none hj, fun j k hjk hfwd => ?_⟩
  by_cases hj : j = id
  · subst hj
    rcases hover with hnone | hfwd' | hsame
    · simp [hnone] at hjk
    · exact absurd hfwd' hfwd
    · have hval : value = .mapped k := Option.some.inj (hsame.symm.trans (nextId_eq_some.1 hjk))
      rw [hval]
      exact nextId_set_self hlegal.id_lt
  · exact (nextId_set_ne (Ne.symm hj)).trans hjk

end DedupCtx.Later

/-! ## Merging the hypothetical map -/

structure Dedup.Merged (d d' : Dedup) : Prop where
  types : d'.types = d.types
  startId : d'.startId = d.startId
  dedupTable : d'.dedupTable = d.dedupTable
  hypotMap : d'.hypotMap = d.hypotMap
  hypotList : d'.hypotList = d.hypotList
  adjust : d'.hypotAdjustCanon = d.hypotAdjustCanon

theorem Dedup.Merged.refl (d : Dedup) : d.Merged d := ⟨rfl, rfl, rfl, rfl, rfl, rfl⟩

theorem Dedup.Merged.trans (h : d.Merged d') (h' : d'.Merged d'') : d.Merged d'' :=
  ⟨h'.types.trans h.types, h'.startId.trans h.startId, h'.dedupTable.trans h.dedupTable,
    h'.hypotMap.trans h.hypotMap, h'.hypotList.trans h.hypotList, h'.adjust.trans h.adjust⟩

theorem Dedup.Merged.write (d : Dedup) (site : WriteSite) (id : Nat) (value : MapEntry) :
    d.Merged (d.write site id value) := ⟨rfl, rfl, rfl, rfl, rfl, rfl⟩

/-- A canonical type and a struct or union without a link. -/
structure DedupCtx.FirstPair (C : DedupCtx) (d : Dedup) (canon targ : Nat) : Prop where
  targ_unlinked : nextId d.map targ = none
  targ_composite : HasType C.types targ fun t => t.isComposite = true
  canon_self : nextId d.map canon = some canon
  canon_not_fwd : ¬ C.Fwd canon

/-- The effect of merging, for the pair that comes first. -/
structure DedupCtx.MergeOk (C : DedupCtx) (d d' : Dedup) (canon targ : Nat) : Prop where
  inv : C.Inv d'
  merged : d.Merged d'
  later : C.Later d d'
  adjusted : d.hypotAdjustCanon = true → ∀ k, ¬ C.Fwd k → nextId d'.map k = nextId d.map k
  first : d.hypotAdjustCanon = false → C.FirstPair d canon targ → nextId d'.map targ = some canon

theorem DedupCtx.Inv.fwd_iff (h : C.Inv d) (ht : d.types[i]? = some t) :
    C.Fwd i ↔ t.isFwd = true := by
  unfold DedupCtx.Fwd
  rw [h.hasType_kind ht (P := fun k => k = .fwd)]
  simp [isFwd]

theorem DedupCtx.Inv.composite_iff (h : C.Inv d) (ht : d.types[i]? = some t) :
    HasType C.types i (fun t => t.isComposite = true) ↔ t.isComposite = true :=
  h.hasType_iff ht fun t1 t2 hinfo => by
    have hkind : t1.kind = t2.kind := by simp only [kind, hinfo]
    rw [isComposite_iff, isComposite_iff, hkind]

theorem legal_mergeFwd (h : C.Inv d)
    (hsite : ∀ direct, site ≠ .mergeStruct direct) {a b : Nat}
    (ha : a < C.types.length) (hb : b < C.types.length) (hroot : IsRoot (nextId d.map) b)
    (hfwd : C.Fwd a) (hnot : ¬ C.Fwd b) : C.Legal d site a (.mapped b) := by
  refine h.legal_link hsite ha hb (.inr (avoids_of_isRoot hroot ?_))
    (.inr (.inr (.inl hfwd))) (fun t ht hcomp => ?_)
  · rintro rfl
    exact hnot hfwd
  · exact absurd hfwd (C.not_fwd_of_isComposite ht hcomp)

variable {canon targ : Nat}

/-- A direct merge has to link aggregates of one layout, if all merges did up to now. -/
def DedupCtx.Alike (C : DedupCtx) (d : Dedup) (direct : Bool) (canon targ : Nat) : Prop :=
  direct = true → MergesAlike C.types d.writes → ∀ t, C.types[targ]? = some t →
    HasType C.types canon (SameLayout t)

variable {direct : Bool}

theorem legal_mergeStruct (h : C.Inv d) (hpair : C.FirstPair d canon targ)
    (halike : C.Alike d direct canon targ) :
    C.Legal d (.mergeStruct direct) targ (.mapped canon) where
  after_eq := rfl
  id_lt := by
    obtain ⟨t, ht, -⟩ := hpair.targ_composite
    rw [h.length_map]
    exact (List.getElem?_eq_some_iff.1 ht).1
  link b hb := by
    obtain rfl := MapEntry.mapped.inj hb
    have hne : targ ≠ canon := by
      intro heq
      have hself := hpair.canon_self
      rw [← heq, hpair.targ_unlinked] at hself
      simp at hself
    exact ⟨lt_of_nextId hpair.canon_self, .inr (avoids_of_isRoot (.inr hpair.canon_self) hne)⟩
  mark hv := absurd rfl (hv canon)
  overwrites := .inr (.inl hpair.targ_unlinked)
  layout b t hb ht _ := by
    obtain rfl := MapEntry.mapped.inj hb
    cases direct with
    | false => exact .inr (.inl rfl)
    | true => exact .inr (.inr fun hmerges => halike rfl hmerges t ht)
  merge _ _ := by
    have hlt : canon < C.types.length := by
      rw [← h.length_map]
      exact lt_of_nextId hpair.canon_self
    exact ⟨canon, rfl, hpair.targ_composite, ⟨_, getElem?_eq_getElem hlt,
      fun hkind => hpair.canon_not_fwd ⟨_, getElem?_eq_getElem hlt, hkind⟩⟩,
      hpair.canon_self, hpair.targ_unlinked⟩

theorem mergeOk_refl (h : C.Inv d)
    (hfirst : d.hypotAdjustCanon = false → ¬ C.FirstPair d canon targ) : C.MergeOk d d canon targ :=
  ⟨h, .refl d, .refl d, fun _ _ _ => rfl, fun hadj hpair => absurd hpair (hfirst hadj)⟩

/-- The end of a walk that is a forward declaration is linked to the other end. -/
theorem setMap_mergeFwd_spec (h : C.Inv d)
    (hsite : ∀ direct, site ≠ .mergeStruct direct) {a b : Nat} {ta tb : BtfType}
    (ha : d.types[a]? = some ta) (hb : d.types[b]? = some tb)
    (hroot : IsRoot (nextId d.map) b) (hfwd : ta.isFwd = true) (hnot : tb.isFwd = false)
    (hfirst : ¬ C.FirstPair d canon targ) :
    wp (setMap site a (.mapped b)) (fun _ d' => C.MergeOk d d' canon targ) C.Failed d := by
  have hfwd' : C.Fwd a := (h.fwd_iff ha).2 hfwd
  have hlegal : C.Legal d site a (.mapped b) :=
    legal_mergeFwd h hsite (lt_of_types h ha) (lt_of_types h hb) hroot hfwd'
      (by rw [h.fwd_iff hb, hnot]; simp)
  refine wp_imp (setMap_spec hlegal) (fun _ d' hd => ?_)
  subst hd
  refine ⟨h.write hlegal, .write d site a (.mapped b), .write hlegal (.inr (.inl hfwd')),
    fun _ k hk => nextId_set_ne ?_, fun _ hpair => absurd hpair hfirst⟩
  rintro rfl
  exact hk hfwd'

theorem mergeOk_writeStruct (h : C.Inv d) {cId tId : Nat}
    (hc : EndsAt (nextId d.map) canon cId) (ht : EndsAt (nextId d.map) targ tId)
    (hadj : d.hypotAdjustCanon = false) (hpair : C.FirstPair d cId tId)
    (halike : C.Alike d direct cId tId) :
    C.MergeOk d (d.write (.mergeStruct direct) tId (.mapped cId)) canon targ where
  inv := h.write (legal_mergeStruct h hpair halike)
  merged := .write d (.mergeStruct direct) tId (.mapped cId)
  later := .write (legal_mergeStruct h hpair halike) (.inl hpair.targ_unlinked)
  adjusted hadj' := by simp [hadj] at hadj'
  first _ hpair' := by
    obtain rfl := hc.unique (endsAt_root (.inr hpair'.canon_self))
    obtain rfl := ht.unique (endsAt_root (.inl hpair'.targ_unlinked))
    exact nextId_set_self (legal_mergeStruct h hpair halike).id_lt

theorem isMapped_iff {map : List MapEntry} {e : MapEntry} (hroot : IsRoot (nextId map) i)
    (he : map[i]? = some e) :
    (e.isMapped = true ↔ nextId map i = some i) ∧ (e.isMapped = false ↔ nextId map i = none) := by
  cases e with
  | mapped j =>
    have hnext : nextId map i = some j := nextId_eq_some.2 he
    rcases hroot with hr | hr
    · simp [hr] at hnext
    · simp [hr, MapEntry.isMapped]
  | unprocessed | inProgress =>
    have hnext : nextId map i = none := by simp [nextId, he]
    simp [hnext, MapEntry.isMapped]

def mergeStruct (direct : Bool) (cId tId : Nat) (c t : BtfType) : DedupM Unit := do
  let cEntry ← mapAt cId
  let tEntry ← mapAt tId
  onlyIf (t.isComposite && !c.isFwd && cEntry.isMapped && !tEntry.isMapped)
    (setMap (.mergeStruct direct) tId (.mapped cId))

structure DedupCtx.Ends (C : DedupCtx) (d : Dedup) (canon targ cId tId : Nat) (c t : BtfType) :
    Prop where
  inv : C.Inv d
  canon_end : EndsAt (nextId d.map) canon cId
  targ_end : EndsAt (nextId d.map) targ tId
  canon_type : d.types[cId]? = some c
  targ_type : d.types[tId]? = some t

namespace DedupCtx.Ends

variable {canon targ cId tId : Nat} {c t : BtfType}

section
variable (e : C.Ends d canon targ cId tId c t)
include e

theorem first (hpair : C.FirstPair d canon targ) :
    C.FirstPair d cId tId ∧ c.isFwd = false ∧ t.isComposite = true := by
  obtain rfl := e.canon_end.unique (endsAt_root (.inr hpair.canon_self))
  obtain rfl := e.targ_end.unique (endsAt_root (.inl hpair.targ_unlinked))
  refine ⟨hpair, ?_, (e.inv.composite_iff e.targ_type).1 hpair.targ_composite⟩
  rw [← Bool.not_eq_true, ← e.inv.fwd_iff e.canon_type]
  exact hpair.canon_not_fwd

theorem mergeCanonFwd_spec (hc : c.isFwd = true) :
    wp (onlyIf (!t.isFwd && c.isFwd) (setMap .mergeCanonFwd cId (.mapped tId)))
      (fun _ d' => C.MergeOk d d' canon targ) C.Failed d := by
  have hfirst : ¬ C.FirstPair d canon targ := fun hpair => by
    have hnot := (e.first hpair).2.1
    simp [hc] at hnot
  refine wp_onlyIf (fun hcond => ?_) (fun _ => mergeOk_refl e.inv fun _ => hfirst)
  simp only [Bool.and_eq_true, Bool.not_eq_true'] at hcond
  exact setMap_mergeFwd_spec e.inv (by simp) e.canon_type e.targ_type e.targ_end.isRoot hc hcond.1
    hfirst

theorem mergeTargFwd_spec (hc : c.isFwd = false) (ht : t.isFwd = true) :
    wp (onlyIf (t.isFwd && !c.isFwd) (setMap .mergeTargFwd tId (.mapped cId)))
      (fun _ d' => C.MergeOk d d' canon targ) C.Failed d := by
  refine wp_onlyIf (fun _ => ?_) (fun hcond => by simp [hc, ht] at hcond)
  refine setMap_mergeFwd_spec e.inv (by simp) e.targ_type e.canon_type e.canon_end.isRoot ht hc
    fun hpair => ?_
  have hcomp := (e.first hpair).2.2
  simp only [isFwd, decide_eq_true_eq] at ht
  simp [isComposite, ht] at hcomp

/-- The entry of two aggregates was compared, and the walks from them keep the layout. -/
theorem alike (hentry : d.hypotMap[canon]? = some (some targ)) (hcmp : C.Compared d)
    (hdirect : direct = true → HasType C.types targ (fun t => t.isComposite = true) ∧
      HasType C.types canon fun t => t.isComposite = true) : C.Alike d direct cId tId := by
  intro hd hmerges t ht
  obtain ⟨⟨t₀, ht₀, hcomp⟩, u₀, hu₀, hcomp'⟩ := hdirect hd
  have hlinks := e.inv.run.sameLayout (fun i j hij _ => (nextId_initialMap hij).1) hmerges
  rw [← e.inv.map_eq] at hlinks
  obtain ⟨_, htwalk⟩ := e.targ_end
  obtain ⟨_, hcwalk⟩ := e.canon_end
  obtain ⟨t', ht', hsame⟩ := sameLayout_of_walk hlinks htwalk ht₀ hcomp
  obtain ⟨u, hu, hsame'⟩ := sameLayout_of_walk hlinks hcwalk hu₀ hcomp'
  cases ht.symm.trans ht'
  exact ⟨u, hu, (hsame.symm.trans (hcmp _ _ _ _ hentry ht₀ hu₀ hcomp hcomp')).trans hsame'⟩

theorem mergeStruct_skip (hok : C.MergeOk d d' canon targ)
    (hskip : (t.isComposite && !c.isFwd) = false) :
    wp (mergeStruct direct cId tId c t) (fun _ d' => C.MergeOk d d' canon targ) C.Failed d' := by
  refine wp_read (mapAt_spec hok.inv fun _ => lt_of_types e.inv e.canon_type) (fun cEntry _ => ?_)
  refine wp_read (mapAt_spec hok.inv fun _ => lt_of_types e.inv e.targ_type) (fun tEntry _ => ?_)
  rw [hskip]
  exact hok

theorem mergeStruct_spec (hc : c.isFwd = false) (hadj : d.hypotAdjustCanon = false)
    (halike : C.Alike d direct cId tId) :
    wp (mergeStruct direct cId tId c t) (fun _ d' => C.MergeOk d d' canon targ) C.Failed d := by
  refine wp_read (mapAt_spec e.inv fun _ => lt_of_types e.inv e.canon_type) (fun cEntry hce => ?_)
  refine wp_read (mapAt_spec e.inv fun _ => lt_of_types e.inv e.targ_type) (fun tEntry hte => ?_)
  have hcMapped := isMapped_iff e.canon_end.isRoot hce
  have htMapped := isMapped_iff e.targ_end.isRoot hte
  refine wp_onlyIf (fun hcond => ?_) (fun hcond => ?_)
  · simp only [Bool.and_eq_true, Bool.not_eq_true', and_assoc] at hcond
    obtain ⟨hcomp, -, hcSelf, htNone⟩ := hcond
    have hpair : C.FirstPair d cId tId := by
      refine ⟨htMapped.2.1 htNone, (e.inv.composite_iff e.targ_type).2 hcomp,
        hcMapped.1.1 hcSelf, ?_⟩
      rw [e.inv.fwd_iff e.canon_type]
      simp [hc]
    refine wp_imp (setMap_spec (legal_mergeStruct e.inv hpair halike)) (fun _ d' hd => ?_)
    rw [hd]
    exact mergeOk_writeStruct e.inv e.canon_end e.targ_end hadj hpair halike
  · refine mergeOk_refl e.inv fun _ hpair => ?_
    obtain ⟨hpair', -, hcomp⟩ := e.first hpair
    simp [hcomp, hc, hcMapped.1.2 hpair'.canon_self, htMapped.2.2 hpair'.targ_unlinked] at hcond

end

end DedupCtx.Ends

variable {fuel : Nat}

theorem DedupCtx.Inv.hasType_of_any (h : C.Inv d)
    (hany : d.types[i]?.any (·.isComposite) = true) :
    HasType C.types i fun t => t.isComposite = true := by
  cases ht : d.types[i]? with
  | none => simp [ht] at hany
  | some t => exact (h.composite_iff ht).2 (by simpa [ht] using hany)

theorem mergeEntry_spec (h : C.Inv d) (hcmp : C.Compared d)
    (hentry : d.hypotMap[canon]? = some (some targ)) (hfuel : C.safe → C.types.length ≤ fuel) :
    wp (mergeEntry fuel canon) (fun _ d' => C.MergeOk d d' canon targ) C.Failed d := by
  have hcanon : canon < C.types.length := (h.hypot_list _ (h.hypot_map _ _ hentry).2).1
  have htarg : targ < C.types.length := (h.hypot_map _ _ hentry).1
  refine wp_read (hypotAt_spec h fun _ => hcanon) (fun entry he => ?_)
  cases hentry.symm.trans he
  refine wp_read (resolveTypeId_spec h (fun _ => htarg) hfuel) (fun tId ⟨ht, _, htLt⟩ => ?_)
  refine wp_read (resolveTypeId_spec h (fun _ => hcanon) hfuel) (fun cId ⟨hc, _, hcLt⟩ => ?_)
  refine wp_read (typeById_spec h fun _ => htLt) (fun t htType => ?_)
  refine wp_read (typeById_spec h fun _ => hcLt) (fun c hcType => ?_)
  have e : C.Ends d canon targ cId tId c t := ⟨h, hc, ht, hcType, htType⟩
  -- at most one of the three statements writes
  cases hcf : c.isFwd with
  | true =>
    rw [← hcf]
    refine wp_seq (e.mergeCanonFwd_spec hcf) (fun _ d'' hok => wp_get_bind ?_)
    split
    · exact hok
    · refine wp_seq (wp_onlyIf (fun hcond => by simp [hcf] at hcond) (fun _ => hok))
        (fun _ d'' hok => e.mergeStruct_skip hok (by simp [hcf]))
  | false =>
    rw [← hcf]
    refine wp_seq (wp_onlyIf (fun hcond => by simp [hcf] at hcond) (fun _ => rfl))
      (fun _ d'' hd => wp_get_bind ?_) (R := fun _ d'' => d'' = d)
    subst hd
    split
    next hadj => exact mergeOk_refl h fun hadj' => by simp [hadj] at hadj'
    next hadj =>
      cases htf : t.isFwd with
      | true =>
        rw [← htf]
        refine wp_seq (e.mergeTargFwd_spec hcf htf) (fun _ d'' hok => e.mergeStruct_skip hok ?_)
        simp only [isFwd, decide_eq_true_eq] at htf
        simp [isComposite, htf]
      | false =>
        refine e.mergeStruct_spec hcf (by simpa using hadj) (e.alike hentry hcmp fun hdirect => ?_)
        simp only [all_cons, all_nil, Bool.and_true, Bool.and_eq_true] at hdirect
        exact ⟨h.hasType_of_any hdirect.1, h.hasType_of_any hdirect.2⟩

theorem DedupCtx.MergeOk.trans {x y : Nat} (h : C.MergeOk d d' canon targ)
    (h' : C.MergeOk d' d'' x y) : C.MergeOk d d'' canon targ where
  inv := h'.inv
  merged := h.merged.trans h'.merged
  later := h.later.trans h'.later
  adjusted hadj k hk := by
    rw [h'.adjusted (h.merged.adjust.trans hadj) k hk, h.adjusted hadj k hk]
  first hadj hpair := by
    obtain ⟨t, ht, hcomp⟩ := hpair.targ_composite
    exact h'.later.stable _ _ (h.first hadj hpair) (C.not_fwd_of_isComposite ht hcomp)

theorem mergeHypotMap_spec (h : C.Inv d) (hcmp : C.Compared d) {l : List Nat}
    (hlist : d.hypotList = canon :: l)
    (hentry : d.hypotMap[canon]? = some (some targ)) (hfuel : C.safe → C.types.length ≤ fuel) :
    wp (mergeHypotMap fuel) (fun _ d' => C.MergeOk d d' canon targ) C.Failed d := by
  unfold mergeHypotMap
  refine wp_get_bind ?_
  have hloop : wp (d.hypotList.forM (mergeEntry fuel))
      (fun _ d' => (d.hypotList = [] ∧ d' = d) ∨ C.MergeOk d d' canon targ) C.Failed d := by
    refine wp_forM (I := fun done d' => (done = [] ∧ d' = d) ∨ C.MergeOk d d' canon targ)
      (fun done x rest hsplit d' hI => ?_) (.inl ⟨rfl, rfl⟩)
    rcases hI with ⟨rfl, rfl⟩ | hok
    · rw [hlist, nil_append] at hsplit
      obtain rfl := (cons.inj hsplit).1
      exact wp_imp (mergeEntry_spec h hcmp hentry hfuel) (fun _ _ hok => .inr hok)
    · obtain ⟨y, hy⟩ := (h.hypot_list x (by simp [hsplit])).2
      rw [← hok.merged.hypotMap] at hy
      have hcmp' : C.Compared d' := by
        unfold DedupCtx.Compared
        rwa [hok.merged.hypotMap]
      exact wp_imp (mergeEntry_spec hok.inv hcmp' hy hfuel) (fun _ _ hok' => .inr (hok.trans hok'))
  refine wp_imp hloop (fun _ d' hI => ?_)
  rcases hI with ⟨hnil, -⟩ | hok
  · simp [hlist] at hnil
  · exact hok

/-! ## The pass -/

structure DedupCtx.StructInv (C : DedupCtx) (d0 d : Dedup) : Prop where
  inv : C.Inv d
  types_eq : d.types = C.types
  later : C.Later d0 d

/-- How the search for a struct or union ends: it has no link, or is linked to the candidate. -/
def DedupCtx.Found (C : DedupCtx) (d : Dedup) (typeId : Nat) (t : BtfType) (r : Nat) : Prop :=
  (r = typeId ∧ nextId d.map typeId = none) ∨
    (nextId d.map typeId = some r ∧ nextId d.map r = some r ∧ HasType C.types r (SameLayout t))

variable {typeId : Nat}

theorem isEquiv_cand_spec (h : C.Inv d) (htypes : d.types = C.types) {candId : Nat}
    (hlt : typeId < C.types.length) (hnone : nextId d.map typeId = none)
    (hself : nextId d.map candId = some candId) (hnot : ¬ C.Fwd candId)
    (hlist : d.hypotList = []) (hunset : d.hypotMap[candId]? = some none)
    (hfuel : C.safe → C.types.length + max C.types.length C.bound < fuel) :
    wp (isEquiv C.env fuel typeId candId)
      (fun b d' => C.Inv d' ∧ d.Hypothesised d' ∧ (∃ l, d'.hypotList = candId :: l) ∧
        d'.hypotMap[candId]? = some (some typeId) ∧ (C.Compared d → b = true → C.Compared d'))
      C.Failed d := by
  have hne : typeId ≠ candId := by
    rintro rfl
    simp [hself] at hnone
  have hcandLt : candId < d.hypotMap.length := (List.getElem?_eq_some_iff.1 hunset).1
  have hunsetFuel : C.safe → unsetCount d.hypotMap + max C.types.length C.bound < fuel := by
    intro hsafe
    have hle := unsetCount_le h
    have hlt := hfuel hsafe
    omega
  have hspec := isEquiv_first_spec h htypes hlt (.inl hnone) (.inr hself) hne hnot hunset hunsetFuel
  refine wp_imp hspec (fun _ d' ⟨hinv, hhyp, hcmp⟩ => ?_)
  refine ⟨hinv, (hypothesised_hypot hunset).trans hhyp, ?_,
    hhyp.entry _ _ (getElem?_hypot_self hcandLt), hcmp⟩
  obtain ⟨l, hl⟩ := hhyp.list
  exact ⟨l, by simp [← hl, Dedup.hypot, hlist]⟩

/-- An aggregate among the candidates is canonical. -/
theorem CandOk.self_of_isComposite {candId : Nat} {candType : BtfType}
    (hcand : CandOk C.types d.map candId) (hct : C.types[candId]? = some candType)
    (hcomp : candType.isComposite = true) : nextId d.map candId = some candId := by
  apply hcand.canonical (C.not_fwd_of_isComposite hct hcomp)
  rintro ⟨t', ht', henum⟩
  cases hct.symm.trans ht'
  simp [not_isComposite_of_isEnumFwd henum] at hcomp

theorem DedupCtx.Inv.compared_of_unset (h : C.Inv d)
    (hunset : ∀ i < C.types.length, d.hypotMap[i]? = some none) : C.Compared d := by
  intro i j _ _ hij
  have hi := (List.getElem?_eq_some_iff.1 hij).1
  rw [h.hypot_length] at hi
  simp [hunset i hi] at hij

theorem findStructCand_spec (ht : C.types[typeId]? = some t) (hcomp : t.isComposite = true)
    (hfuel : C.safe → C.types.length + max C.types.length C.bound < fuel) {l : List Nat}
    (h : C.Inv d) (htypes : d.types = C.types) (hnone : nextId d.map typeId = none)
    (hl : d.Cands l) : wp (findStructCand C.env fuel t typeId l)
      (fun r d' => C.StructInv d d' ∧ C.Found d' typeId t r) C.Failed d := by
  induction l generalizing d with
  | nil => exact ⟨⟨h, htypes, .refl d⟩, .inl ⟨rfl, hnone⟩⟩
  | cons candId l ih =>
    have hlt : typeId < C.types.length := (List.getElem?_eq_some_iff.1 ht).1
    have hlen : C.safe → C.types.length ≤ fuel := fun hsafe => by
      have hlt := hfuel hsafe
      omega
    have hcand := h.cand hl mem_cons_self
    have hrest : d.Cands l := fun c hc => hl c (mem_cons_of_mem _ hc)
    -- the search goes on in a state with the same table in which the type has no link
    have hnext : ∀ {d' : Dedup}, C.Inv d' → d'.types = C.types → d'.dedupTable = d.dedupTable →
        C.Later d d' → nextId d'.map typeId = none →
        wp (findStructCand C.env fuel t typeId l)
          (fun r d'' => C.StructInv d d'' ∧ C.Found d'' typeId t r) C.Failed d' := by
      intro d' h' htypes' htable hlater hnone'
      have hrest' : d'.Cands l := by
        unfold Dedup.Cands
        rwa [htable]
      exact wp_imp (ih h' htypes' hnone' hrest') (fun r d'' ⟨hs, hf⟩ =>
        ⟨⟨hs.inv, hs.types_eq, hlater.trans hs.later⟩, hf⟩)
    refine wp_read (typeById_spec h fun _ => hcand.lt) (fun candType hct => ?_)
    rw [htypes] at hct
    split
    next heq =>
      have hsame := sameLayout_of_btfShallowEqualStruct hcomp heq
      have hcomp' : candType.isComposite = true := hsame.isComposite_eq.symm.trans hcomp
      have hnotFwd : ¬ C.Fwd candId := C.not_fwd_of_isComposite hct hcomp'
      have hself := hcand.self_of_isComposite hct hcomp'
      refine wp_seq (clearHypotMap_spec h) (fun _ d1 ⟨h1, hclear, hunset⟩ => ?_)
      rw [← hclear.map] at hnone hself
      refine wp_seq (isEquiv_cand_spec h1 (hclear.types.trans htypes) hlt hnone hself hnotFwd
        hclear.list (hunset candId hcand.lt) hfuel)
        (fun b d2 ⟨h2, hhyp, ⟨l', hlist⟩, hentry, hcmp⟩ => ?_)
      have hmap : d2.map = d.map := hhyp.map.trans hclear.map
      have htypes2 : d2.types = C.types := hhyp.types.trans (hclear.types.trans htypes)
      have htable2 : d2.dedupTable = d.dedupTable := hhyp.dedupTable.trans hclear.dedupTable
      rw [← hhyp.map] at hnone hself
      split
      next hb =>
        have hcmp2 := hcmp (h1.compared_of_unset hunset) hb
        refine wp_seq (mergeHypotMap_spec h2 hcmp2 hlist hentry hlen)
          (fun _ d3 hok => wp_get_bind ?_)
        have hlater : C.Later d d3 := (DedupCtx.Later.of_map_eq hmap).trans hok.later
        have htypes3 : d3.types = C.types := hok.merged.types.trans htypes2
        have htNotFwd : ¬ C.Fwd typeId := C.not_fwd_of_isComposite ht hcomp
        split
        · rename_i hadj
          rw [hok.merged.adjust] at hadj
          exact hnext hok.inv htypes3 (hok.merged.dedupTable.trans htable2) hlater
            ((hok.adjusted hadj typeId htNotFwd).trans hnone)
        · rename_i hadj
          have hadj' : d2.hypotAdjustCanon = false := by
            rw [← hok.merged.adjust]
            simpa using hadj
          have hlinked := hok.first hadj' ⟨hnone, ⟨t, ht, hcomp⟩, hself, hnotFwd⟩
          exact ⟨⟨hok.inv, htypes3, hlater⟩,
            .inr ⟨hlinked, hok.later.stable _ _ hself hnotFwd, candType, hct, hsame⟩⟩
      · exact hnext h2 htypes2 htable2 (.of_map_eq hmap) hnone
    · exact hnext h htypes rfl (.refl d) hnone

theorem btfDedupStructType_spec {d0 : Dedup} (h : C.StructInv d0 d) (hlt : typeId < C.types.length)
    (hfuel : C.safe → C.types.length + max C.types.length C.bound < fuel) :
    wp (btfDedupStructType C.env fuel typeId) (fun _ d' => C.StructInv d0 d') C.Failed d := by
  refine wp_read (mapAt_spec h.inv fun _ => hlt) (fun e he => ?_)
  split
  · exact h
  rename_i hmapped
  have hnone : nextId d.map typeId = none := by
    cases e with
    | mapped j => simp [MapEntry.isMapped] at hmapped
    | unprocessed | inProgress => simp [nextId, he]
  refine wp_read (typeById_spec h.inv fun _ => hlt) (fun t ht => ?_)
  rw [h.types_eq] at ht
  split
  next hcomp =>
    refine wp_read (dedupCands_spec _ _) (fun l hl => ?_)
    refine wp_seq (findStructCand_spec ht hcomp hfuel h.inv h.types_eq hnone hl)
      (fun r d1 hcand => ?_)
    obtain ⟨hs, hfound⟩ := hcand
    have hover : nextId d1.map typeId = none ∨ d1.map[typeId]? = some (.mapped r) :=
      hfound.imp (fun hf => hf.2) (fun hf => nextId_eq_some.1 hf.1)
    have hlegal : C.Legal d1 .struct typeId (.mapped r) := by
      refine hs.inv.legal_link (by simp) hlt ?_ ?_ (hover.symm.imp id .inl) (fun t' ht' _ => ?_)
      · rcases hfound with ⟨rfl, -⟩ | ⟨hlink, -⟩
        · exact hlt
        · exact hs.inv.nextId_lt hlink
      · by_cases hr : r = typeId
        · exact .inl hr
        · rcases hfound with ⟨hr', -⟩ | ⟨-, hself, -⟩
          · exact absurd hr' hr
          · exact .inr (avoids_of_isRoot (.inr hself) (Ne.symm hr))
      · cases ht.symm.trans ht'
        exact hfound.imp (fun hf => hf.1) (fun hf => hf.2.2)
    refine wp_imp (setCanonical_spec hs.inv _ hlegal) (fun _ d2 hset => ?_)
    obtain ⟨hinv, hsame⟩ := hset
    refine ⟨hinv, hsame.types.trans hs.types_eq, (h.later.trans hs.later).trans ?_⟩
    exact (DedupCtx.Later.write hlegal (hover.imp id .inr)).trans (.of_map_eq hsame.map)
  · exact h

theorem btfDedupStructTypes_spec (h : C.Inv d) (htypes : d.types = C.types)
    (hfuel : C.safe → C.types.length + max C.types.length C.bound < fuel) :
    wp (btfDedupStructTypes C.env fuel) (fun _ d' => C.StructInv d d') C.Failed d :=
  forEachType_spec (I := fun _ d' => C.StructInv d d') h
    (fun _ _ hhi _ hI => btfDedupStructType_spec hI hhi hfuel) ⟨h, htypes, .refl d⟩

end LinuxKernel.Bpf
