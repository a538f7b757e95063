import LinuxKernel.Bpf.BtfDedupInv

/-!
# Base BTF and primitive types in BTF deduplication

`btf_dedup_prep` makes the base types canonical, and `btf_dedup_prim_types` links the primitive
types. During both every link leads to a linked type, so that the type being processed, which has
no link yet, is on no walk. The exception are the forward declarations of an enum that is just
being processed.
-/

namespace LinuxKernel.Bpf

open Foundation List BtfType
open Foundation.Forest

variable {C : DedupCtx}

/-- The type is one that is canonical from the beginning. -/
def DedupCtx.Unlinked (C : DedupCtx) (map : List MapEntry) (i : Nat) : Prop :=
  ∀ j, i ≤ j → ¬ HasType C.types j (fun t => t.kind = .var ∨ t.kind = .datasec) →
    nextId map j = none

/-- The state in the loops over the types, which have come to type `i`. -/
structure DedupCtx.PrimInv (C : DedupCtx) (i : Nat) (d : Dedup) : Prop where
  inv : C.Inv d
  closed : ∀ x j, nextId d.map x = some j → nextId d.map j ≠ none
  unlinked : C.Unlinked d.map i
  base : ∀ j < C.types.length, j < C.startId → j < i → nextId d.map j ≠ none
  sites : ∀ w ∈ d.writes, ∀ direct, w.site ≠ .mergeStruct direct
  types_eq : d.types = C.types

/-- The state while an enum is compared with the candidates: forward declarations may be linked to
it already. -/
structure DedupCtx.EnumInv (C : DedupCtx) (i : Nat) (t : BtfType) (d : Dedup) : Prop where
  inv : C.Inv d
  closed : ∀ x j, nextId d.map x = some j →
    nextId d.map j ≠ none ∨ (j = i ∧ btfIsEnumFwd t = false)
  current : nextId d.map i = none
  unlinked : C.Unlinked d.map (i + 1)
  base : ∀ j < C.types.length, j < C.startId → nextId d.map j ≠ none
  sites : ∀ w ∈ d.writes, ∀ direct, w.site ≠ .mergeStruct direct
  types_eq : d.types = C.types

variable {i c : Nat}

/-- If every link leads to a linked type, then the walk from a linked type does not visit one
without a link. -/
theorem avoids_of_linked {map : List MapEntry} (hacyc : Acyclic (nextId map))
    (hclosed : ∀ x j, nextId map x = some j → nextId map j ≠ none)
    (hi : nextId map i = none) (hc : nextId map c ≠ none) : Avoids (nextId map) i c := by
  apply avoids_of_closed hacyc (C := fun x => nextId map x ≠ none) ?_ hc
  · simpa using hi
  · exact fun x y _ hxy => hclosed x y hxy

namespace DedupCtx.EnumInv

variable {i : Nat} {t : BtfType} {d : Dedup}

theorem avoids (h : C.EnumInv i t d) (ht : btfIsEnumFwd t = true) {c : Nat}
    (hc : nextId d.map c ≠ none) : Avoids (nextId d.map) i c := by
  refine avoids_of_linked h.inv.acyclic (fun x y hxy => ?_) h.current hc
  rcases h.closed x y hxy with hy | ⟨-, hfwd⟩
  · exact hy
  · simp [ht] at hfwd

theorem finish (h : C.EnumInv i t d) {b : Nat} (hlegal : C.Legal d .prim i (.mapped b))
    (hb : b = i ∨ nextId d.map b ≠ none) {d' : Dedup} (hinv : C.Inv d')
    (hsame : (d.write .prim i (.mapped b)).SameButTable d') : C.PrimInv (i + 1) d' := by
  have hmap : d'.map = d.map.set i (.mapped b) := hsame.map
  have hself : nextId d'.map i = some b := by
    rw [hmap]
    exact nextId_set_self hlegal.id_lt
  have hold : ∀ {x}, nextId d.map x ≠ none → nextId d'.map x ≠ none := by
    intro x hx
    rw [hmap]
    exact hlegal.nextId_ne_none hx
  refine ⟨hinv, fun x j hxj => ?_, fun j hj hvar => ?_,
    fun j hj hbase _ => hold (h.base j hj hbase),
    ?_, hsame.types.trans h.types_eq⟩
  · by_cases hx : x = i
    · subst hx
      cases hself.symm.trans hxj
      rcases hb with rfl | hb
      · simp [hself]
      · exact hold hb
    · rw [hmap, nextId_set_ne (Ne.symm hx)] at hxj
      rcases h.closed x j hxj with hj | ⟨rfl, -⟩
      · exact hold hj
      · simp [hself]
  · rw [hmap, nextId_set_ne (by omega)]
    exact h.unlinked j hj hvar
  · rw [hsame.writes]
    exact forall_mem_cons.2 ⟨by simp, h.sites⟩

end DedupCtx.EnumInv

variable {t : BtfType} {d : Dedup}

theorem DedupCtx.PrimInv.enumInv (h : C.PrimInv i d)
    (hi : C.startId ≤ i) (ht : C.types[i]? = some t) (hvar : t.kind ≠ .var)
    (hdatasec : t.kind ≠ .datasec) :
    C.EnumInv i t d where
  inv := h.inv
  closed x j hxj := .inl (h.closed x j hxj)
  current := by
    apply h.unlinked i (Nat.le_refl i)
    rintro ⟨t', ht', hkind⟩
    cases ht.symm.trans ht'
    rcases hkind with hkind | hkind
    · exact hvar hkind
    · exact hdatasec hkind
  unlinked j hj := h.unlinked j (by omega)
  base j hj hbase := h.base j hj hbase (by omega)
  sites := h.sites
  types_eq := h.types_eq

theorem DedupCtx.PrimInv.skip (h : C.PrimInv i d) (hi : C.startId ≤ i) : C.PrimInv (i + 1) d :=
  { h with
    unlinked := fun j hj => h.unlinked j (by omega)
    base := fun j hj hbase _ => h.base j hj hbase (by omega) }

/-! ## The search for an enum -/

variable {cand : BtfType}

theorem DedupCtx.EnumInv.hasType_iff (h : C.EnumInv i t d) (hcand : d.types[c]? = some cand)
    {P : BtfType → Prop} : HasType C.types c P ↔ P cand := by
  rw [h.types_eq] at hcand
  constructor
  · rintro ⟨cand', hcand', hp⟩
    rwa [Option.some.inj (hcand.symm.trans hcand')]
  · exact fun hp => ⟨cand, hcand, hp⟩

theorem DedupCtx.EnumInv.legal_enumFwd (h : C.EnumInv i t d)
    (hi : i < C.types.length) (hcand : d.types[c]? = some cand)
    (hfwd : btfIsEnumFwd cand = true) (hne : c ≠ i) : C.Legal d .enumFwd c (.mapped i) := by
  refine h.inv.legal_link (by simp) (lt_of_types h.inv hcand) hi
    (.inr (avoids_of_isRoot (.inl h.current) hne))
    (.inr (.inr (.inr ⟨(h.hasType_iff hcand).2 hfwd, h.sites⟩))) (fun t' ht' hcomp => ?_)
  have heq : t' = cand := by
    rw [h.types_eq] at hcand
    exact Option.some.inj (ht'.symm.trans hcand)
  simp [heq, not_isComposite_of_isEnumFwd hfwd] at hcomp

theorem DedupCtx.EnumInv.write_enumFwd (h : C.EnumInv i t d) (ht : btfIsEnumFwd t = false)
    (hlinked : nextId d.map c ≠ none) (hlegal : C.Legal d .enumFwd c (.mapped i)) :
    C.EnumInv i t (d.write .enumFwd c (.mapped i)) := by
  have hne : c ≠ i := by
    rintro rfl
    exact hlinked h.current
  refine ⟨h.inv.write hlegal, fun x j hxj => ?_, ?_, fun j hj hvar => ?_,
    fun j hj hbase => hlegal.nextId_ne_none (h.base j hj hbase), ?_, h.types_eq⟩
  · rcases hlegal.nextId_after hxj with ⟨-, hval⟩ | ⟨-, hold⟩
    · exact .inr ⟨(MapEntry.mapped.inj hval).symm, ht⟩
    · exact (h.closed x j hold).imp hlegal.nextId_ne_none id
  · exact (nextId_set_ne hne).trans h.current
  · have hold := h.unlinked j hj hvar
    have hcj : c ≠ j := by
      rintro rfl
      exact hlinked hold
    exact (nextId_set_ne hcj).trans hold
  · exact forall_mem_cons.2 ⟨by simp, h.sites⟩

/-- The candidate that a search for type `i` ends with. -/
def DedupCtx.PrimFound (C : DedupCtx) (i : Nat) (t : BtfType) (r : Nat) (d : Dedup) : Prop :=
  C.EnumInv i t d ∧ r < C.types.length ∧
    (r = i ∨ nextId d.map r ≠ none ∧ Avoids (nextId d.map) i r)

theorem findEnumCand_spec (hi : i < C.types.length)
    (ht : t.isAnyEnum = true) {l : List Nat} (h : C.EnumInv i t d) (hl : d.Cands l) :
    wp (findEnumCand t i l) (C.PrimFound i t) C.Failed d := by
  induction l generalizing d with
  | nil => exact ⟨h, hi, .inl rfl⟩
  | cons c l ih =>
    have hc := h.inv.cand hl mem_cons_self
    have hrest : d.Cands l := fun c hc => hl c (mem_cons_of_mem _ hc)
    have hne : c ≠ i := by
      rintro rfl
      exact hc.linked h.current
    refine wp_read (typeById_spec h.inv fun _ => hc.lt) (fun cand hcand => ?_)
    split
    next heq =>
      refine ⟨h, hc.lt, .inr ⟨hc.linked, ?_⟩⟩
      cases hfwd : btfIsEnumFwd t with
      | true => exact h.avoids hfwd hc.linked
      | false =>
        -- an enum with values is canonical for good
        have hinfo := info_eq_of_btfEqualEnum heq
        have hkind : cand.isAnyEnum = true := (isAnyEnum_congr hinfo).symm.trans ht
        have hself : nextId d.map c = some c := by
          apply hc.canonical
          · rw [h.hasType_iff hcand]
            intro hk
            simp [isAnyEnum, hk] at hkind
          · rw [h.hasType_iff hcand]
            simp [← btfIsEnumFwd_congr hinfo, hfwd]
        exact avoids_of_isRoot (.inr hself) (Ne.symm hne)
    next hneq =>
      split
      · rename_i hcompat
        split
        · rename_i hfwd
          exact ⟨h, hc.lt, .inr ⟨hc.linked, h.avoids hfwd hc.linked⟩⟩
        rename_i hfwd
        have hfwd' : btfIsEnumFwd t = false := by simpa using hfwd
        have hcandFwd : btfIsEnumFwd cand = true := by
          by_contra hcandFwd
          simp [btfCompatEnum, hneq, hfwd', hcandFwd] at hcompat
        have hlegal := h.legal_enumFwd hi hcand hcandFwd hne
        refine wp_seq (setMap_spec hlegal) (fun _ d'' hd => ?_)
        subst hd
        exact ih (h.write_enumFwd hfwd' hc.linked hlegal) hrest
      · exact ih h hrest

/-! ## The passes -/

theorem findCand_prim_spec (h : C.PrimInv i d) (hi : i < C.types.length) (henum : C.EnumInv i t d)
    {l : List Nat} (hl : d.Cands l) (eq : BtfType → BtfType → Bool) :
    wp (findCand eq t i l) (C.PrimFound i t) C.Failed d := by
  refine wp_imp (findCand_spec h.inv hl) ?_
  rintro r d' ⟨rfl, rfl | ⟨hcand, -⟩⟩
  · exact ⟨henum, hi, .inl rfl⟩
  · exact ⟨henum, hcand.lt, .inr
      ⟨hcand.linked, avoids_of_linked h.inv.acyclic h.closed henum.current hcand.linked⟩⟩

theorem canonize_prim_spec (h : C.PrimInv i d) (hstart : C.startId ≤ i) (ht : C.types[i]? = some t)
    (hkind : t.isComposite = false ∧ t.kind ≠ .var ∧ t.kind ≠ .datasec)
    {find : List Nat → DedupM Nat}
    (hfind : C.EnumInv i t d → ∀ l, d.Cands l → wp (find l) (C.PrimFound i t) C.Failed d)
    (hash : BitVec 64) :
    wp (do
        let newId ← find (← dedupCands C.env hash)
        setCanonical C.env .prim hash i newId)
      (fun _ d' => C.PrimInv (i + 1) d') C.Failed d := by
  refine wp_read (dedupCands_spec _ _) (fun l hl => ?_)
  refine wp_seq (hfind (h.enumInv hstart ht hkind.2.1 hkind.2.2) l hl)
    (fun r d' ⟨h', hr, hcand⟩ => ?_)
  have hlegal : C.Legal d' .prim i (.mapped r) := by
    refine h'.inv.legal_link (by simp) (List.getElem?_eq_some_iff.1 ht).1 hr
      (hcand.imp id And.right) (.inr (.inl h'.current)) ?_
    intro t' ht' hcomp
    cases ht.symm.trans ht'
    simp [hkind.1] at hcomp
  refine wp_imp (setCanonical_spec h'.inv hash hlegal) (fun _ d'' ⟨hinv, hsame⟩ => ?_)
  exact h'.finish hlegal (hcand.imp id And.left) hinv hsame

theorem btfDedupPrimType_spec (h : C.PrimInv i d)
    (hstart : C.startId ≤ i) (hi : i < C.types.length) :
    wp (btfDedupPrimType C.env i) (fun _ d' => C.PrimInv (i + 1) d') C.Failed d := by
  refine wp_read (typeById_spec h.inv fun _ => hi) (fun t ht => ?_)
  rw [h.types_eq] at ht
  split
  case h_20 => exact h.inv.errorCode (by simp) (by simp)
  case h_21 => exact h.inv.errorCode (by simp) (by simp)
  case h_15 hk | h_18 hk | h_19 hk =>
    exact canonize_prim_spec h hstart ht (by simp [isComposite, hk])
      (fun henum _ hl => findCand_prim_spec h hi henum hl _) _
  case h_16 hk | h_17 hk =>
    exact canonize_prim_spec h hstart ht (by simp [isComposite, hk])
      (fun henum _ hl => findEnumCand_spec hi (by simp [isAnyEnum, hk]) henum hl) _
  all_goals exact h.skip hstart

theorem btfDedupPrimTypes_spec (h : C.PrimInv C.startId d) : wp (btfDedupPrimTypes C.env)
      (fun _ d' => C.PrimInv (C.startId + (C.types.length - C.startId)) d') C.Failed d :=
  forEachType_spec h.inv (fun _ hlo hhi _ hI => btfDedupPrimType_spec hI hlo hhi) h

/-- In `btf_dedup_prep` every link is one of a type to itself. -/
structure DedupCtx.PrepInv (C : DedupCtx) (i : Nat) (d : Dedup) : Prop extends C.PrimInv i d where
  self : ∀ x j, nextId d.map x = some j → j = x

theorem prepType_legal (h : C.PrepInv i d) (hi : i < C.types.length) :
    C.Legal d .prep i (.mapped i) := by
  refine h.inv.legal_link (by simp) hi hi (.inl rfl) ?_ (fun _ _ _ => .inl rfl)
  cases hn : nextId d.map i with
  | none => exact .inr (.inl rfl)
  | some j =>
    obtain rfl := h.self i j hn
    exact .inl (nextId_eq_some.1 hn)

theorem DedupCtx.PrepInv.finish {d' : Dedup} (h : C.PrepInv i d)
    (hi : i < C.types.length) (hinv : C.Inv d')
    (hsame : (d.write .prep i (.mapped i)).SameButTable d') : C.PrepInv (i + 1) d' := by
  have hlegal := prepType_legal h hi
  have hmap : d'.map = d.map.set i (.mapped i) := hsame.map
  have hself : ∀ x j, nextId d'.map x = some j → j = x := by
    intro x j hxj
    rw [hmap] at hxj
    rcases hlegal.nextId_after hxj with ⟨rfl, hval⟩ | ⟨-, hold⟩
    · exact (MapEntry.mapped.inj hval).symm
    · exact h.self x j hold
  refine ⟨⟨hinv, fun x j hxj => ?_, fun j hj hvar => ?_, fun j hj hbase hji => ?_, ?_,
    hsame.types.trans h.types_eq⟩, hself⟩
  · rw [hself x j hxj, hxj]
    simp
  · rw [hmap, nextId_set_ne (by omega)]
    exact h.unlinked j (by omega) hvar
  · rw [hmap]
    by_cases hj' : j = i
    · rw [hj', nextId_set_self hlegal.id_lt]
      simp
    · exact hlegal.nextId_ne_none (h.base j hj hbase (by omega))
  · rw [hsame.writes]
    exact forall_mem_cons.2 ⟨by simp, h.sites⟩

theorem prepHash_error {e : Failure} (h : prepHash t = .error e) : e = .einval := by
  unfold prepHash at h
  split at h <;> simp_all

theorem prepType_spec (h : C.PrepInv i d) (hi : C.safe → i < C.types.length) :
    wp (prepType C.env i) (fun _ d' => C.PrepInv (i + 1) d') C.Failed d := by
  refine wp_read (typeById_spec h.inv hi) (fun t ht => ?_)
  have hlt := lt_of_types h.inv ht
  have hlegal := prepType_legal h hlt
  refine wp_seq (setMap_spec hlegal) (fun _ d'' hd => ?_)
  subst hd
  have hinv := h.inv.write hlegal
  split
  next e he =>
    rw [prepHash_error he]
    exact hinv.errorCode (by simp) (by simp)
  · exact h.finish hlt hinv ⟨rfl, rfl, rfl, rfl, rfl, rfl⟩
  next hash _ =>
    have hself : nextId (d.write .prep i (.mapped i)).map i = some i :=
      nextId_set_self hlegal.id_lt
    have hcand : CandOk C.types (d.write .prep i (.mapped i)).map i :=
      ⟨hlt, by simp [hself], fun _ _ => hself⟩
    exact wp_imp (tableAdd_spec hinv hash hcand) (fun _ d'' ⟨hinv', hsame⟩ =>
      h.finish hlt hinv' hsame)

theorem btfDedupPrep_spec (h : C.PrepInv 1 d) :
    wp (btfDedupPrep C.env) (fun _ d' => C.PrimInv C.startId d') C.Failed d := by
  refine wp_get_bind ?_
  rw [h.inv.startId_eq]
  have hpos := C.startId_pos
  have hloop : wp ((range' 1 (C.startId - 1)).forM (prepType C.env))
      (fun _ d' => C.PrepInv (1 + (C.startId - 1)) d') C.Failed d := by
    refine wp_forM_range (fun i hlo hhi d hI => prepType_spec hI fun hsafe => ?_) h
    have hle := C.startId_le hsafe
    omega
  refine wp_imp hloop (fun _ d' hI => ?_)
  rw [show 1 + (C.startId - 1) = C.startId by omega] at hI
  exact hI.toPrimInv

theorem prepInv_btfDedupNew (C : DedupCtx) : C.PrepInv 1 (btfDedupNew C.types C.startId) where
  inv :=
    { startId_eq := rfl
      shape := ⟨rfl, fun i t ht => ⟨t, ht, rfl, fun _ => rfl⟩⟩
      refs := C.refs
      run := .nil
      map_eq := rfl
      table_wf := wf_hashmapInit _
      table := fun e he => by simp [btfDedupNew, hashmapInit] at he
      hypot_length := by simp [btfDedupNew]
      hypot_list := fun i hi => by simp [btfDedupNew] at hi
      hypot_map := fun i j hij => by simp [btfDedupNew, getElem?_replicate] at hij }
  closed x j hxj := by
    obtain ⟨rfl, -⟩ := nextId_initialMap hxj
    rw [hxj]
    simp
  unlinked j hj hvar := by
    by_contra hne
    obtain ⟨k, hk⟩ := Option.ne_none_iff_exists'.1 hne
    rcases (nextId_initialMap hk).2 with h0 | hkind
    · omega
    · exact hvar hkind
  base j hj _ hj1 := by
    obtain rfl : j = 0 := by omega
    have hzero : (initialMap C.types)[0]? = some (.mapped 0) := by
      simp [initialMap, getElem?_eq_getElem hj]
    simp [nextId_eq_some.2 hzero, btfDedupNew]
  sites w hw := by simp [btfDedupNew] at hw
  types_eq := rfl
  self x j hxj := (nextId_initialMap hxj).1

end LinuxKernel.Bpf
