import LinuxKernel.Bpf.BtfDedupInv

/-!
# The comparison of type graphs in BTF deduplication

`btf_dedup_is_equiv` changes nothing but the hypothetical map, to which it only adds. Each of its
recursive calls adds an entry or ends at once, so that the number of entries that are not set yet
bounds the depth of the recursion. If it succeeds, the aggregates that it has entered as pairs have
the same layout.
-/

namespace LinuxKernel.Bpf

open Foundation BtfType
open List hiding getElem?_eq_some_iff
open Foundation.Forest

variable {C : DedupCtx}

/-! ## The hypothetical map -/

def unsetCount (m : List (Option Nat)) : Nat := m.countP Option.isNone

structure Dedup.Hypothesised (d d' : Dedup) : Prop where
  types : d'.types = d.types
  startId : d'.startId = d.startId
  dedupTable : d'.dedupTable = d.dedupTable
  map : d'.map = d.map
  writes : d'.writes = d.writes
  list : d.hypotList <+: d'.hypotList
  entry : ∀ i j : Nat, d.hypotMap[i]? = some (some j) → d'.hypotMap[i]? = some (some j)
  unset : unsetCount d'.hypotMap ≤ unsetCount d.hypotMap

theorem Dedup.Hypothesised.refl (d : Dedup) : d.Hypothesised d :=
  ⟨rfl, rfl, rfl, rfl, rfl, prefix_refl _, fun _ _ h => h, le_rfl⟩

variable {d : Dedup}

theorem Dedup.Hypothesised.trans {d' d'' : Dedup} (h : d.Hypothesised d')
    (h' : d'.Hypothesised d'') : d.Hypothesised d'' where
  types := h'.types.trans h.types
  startId := h'.startId.trans h.startId
  dedupTable := h'.dedupTable.trans h.dedupTable
  map := h'.map.trans h.map
  writes := h'.writes.trans h.writes
  list := h.list.trans h'.list
  entry i j hij := h'.entry i j (h.entry i j hij)
  unset := h'.unset.trans h.unset

/-- The two types have one layout if both are aggregates. -/
abbrev BothAlike (t u : BtfType) : Prop :=
  t.isComposite = true → u.isComposite = true → SameLayout t u

/-- Where both types of an entry are aggregates, they have one layout. -/
def DedupCtx.Compared (C : DedupCtx) (d : Dedup) : Prop :=
  ∀ (i j : Nat) (t u : BtfType), d.hypotMap[i]? = some (some j) → C.types[j]? = some t →
    C.types[i]? = some u → t.isComposite = true → u.isComposite = true → SameLayout t u

/-- Nothing but the hypothetical map changes, and the invariant holds again. Under `P`, which is
about the entries before, an answer that the types are equivalent is about aggregates of one
layout. -/
abbrev DedupCtx.Hypothesises (C : DedupCtx) (x : DedupM Bool) (d : Dedup)
    (P : Prop := C.Compared d) : Prop :=
  wp x (fun b d' => C.Inv d' ∧ d.Hypothesised d' ∧ (P → b = true → C.Compared d')) C.Failed d

/-- The state after `btf_dedup_hypot_map_add`, up to the bookkeeping of the list's memory. -/
def Dedup.hypot (d : Dedup) (fromId toId : Nat) : Dedup :=
  { d with
    hypotList := d.hypotList ++ [fromId]
    hypotMap := d.hypotMap.set fromId (some toId) }

theorem growHypotList_spec (h : C.Inv d) : wp (growHypotList C.env)
      (fun _ d' => ∃ cap allocs, d' = { d with hypotCap := cap, allocs := allocs })
      C.Failed d := by
  unfold growHypotList nextAlloc
  simp only [wp_bind, wp_get, wp_set, wp_pure]
  split
  · exact ⟨_, _, rfl⟩
  · exact DedupCtx.Inv.errorCode { h with } (by simp) (by simp)

variable {fromId toId : Nat}

theorem hypotMapAdd_spec (h : C.Inv d) (hfrom : C.safe → fromId < C.types.length) :
    wp (hypotMapAdd C.env fromId toId)
      (fun _ d' => fromId < C.types.length ∧
        ∃ cap allocs, d' = { d.hypot fromId toId with hypotCap := cap, allocs := allocs })
      C.Failed d := by
  refine wp_get_bind ?_
  have hgrown : wp (onlyIf (d.hypotList.length = d.hypotCap) (growHypotList C.env))
      (fun _ d' => ∃ cap allocs, d' = { d with hypotCap := cap, allocs := allocs })
      C.Failed d :=
    wp_onlyIf (fun _ => growHypotList_spec h) (fun _ => ⟨_, _, rfl⟩)
  refine wp_seq hgrown (fun _ d' ⟨cap, allocs, hd⟩ => ?_)
  subst hd
  refine wp_get_bind ?_
  split
  · refine ⟨?_, cap, allocs, rfl⟩
    rwa [← h.hypot_length]
  · refine DedupCtx.Inv.failed { h with } fun hsafe => absurd (hfrom hsafe) ?_
    rwa [← h.hypot_length]

theorem unsetCount_set {m : List (Option Nat)} {i j : Nat} (h : m[i]? = some none) :
    unsetCount (m.set i (some j)) + 1 = unsetCount m := by
  obtain ⟨hlt, hnone⟩ := List.getElem?_eq_some_iff.1 h
  have hpos : 0 < unsetCount m := countP_pos_iff.2 ⟨none, mem_of_getElem? h, rfl⟩
  unfold unsetCount at hpos ⊢
  rw [countP_set hlt, hnone]
  simp only [Option.isNone_none, if_true, Option.isNone_some, Bool.false_eq_true, if_false]
  omega

theorem getElem?_hypot_self (hfrom : fromId < d.hypotMap.length) :
    (d.hypot fromId toId).hypotMap[fromId]? = some (some toId) := by
  simp [Dedup.hypot, hfrom]

theorem DedupCtx.Inv.hypot (h : C.Inv d) (hfrom : fromId < C.types.length)
    (hto : toId < C.types.length) : C.Inv (d.hypot fromId toId) where
  startId_eq := h.startId_eq
  shape := h.shape
  refs := h.refs
  run := h.run
  map_eq := h.map_eq
  table_wf := h.table_wf
  table := h.table
  hypot_length := by simp [Dedup.hypot, h.hypot_length]
  hypot_list i hi := by
    by_cases heq : fromId = i
    · subst heq
      exact ⟨hfrom, toId, getElem?_hypot_self (by rwa [h.hypot_length])⟩
    · have hmem : i ∈ d.hypotList := by simpa [Dedup.hypot, Ne.symm heq] using hi
      simpa [Dedup.hypot, heq] using h.hypot_list i hmem
  hypot_map i j hij := by
    by_cases heq : fromId = i
    · subst heq
      rw [getElem?_hypot_self (by rwa [h.hypot_length])] at hij
      simp only [Option.some.injEq] at hij
      exact ⟨hij ▸ hto, by simp [Dedup.hypot]⟩
    · obtain ⟨hj, hmem⟩ := h.hypot_map i j (by simpa [Dedup.hypot, heq] using hij)
      exact ⟨hj, by simp [Dedup.hypot, hmem]⟩

theorem hypothesised_hypot
    (hunset : d.hypotMap[fromId]? = some none) : d.Hypothesised (d.hypot fromId toId) where
  types := rfl
  startId := rfl
  dedupTable := rfl
  map := rfl
  writes := rfl
  list := prefix_append _ _
  entry i j hij := by
    have hne : fromId ≠ i := by
      rintro rfl
      simp [hunset] at hij
    simpa [Dedup.hypot, hne] using hij
  unset := by
    have hcount := unsetCount_set (j := toId) hunset
    simp only [Dedup.hypot]
    omega

/-! ## Comparing with an earlier hypothesis -/

variable {E : Failure → Dedup → Prop}

theorem wp_readOnly {α : Type} {x : Except Failure α} {Q : α → Dedup → Prop}
    (hok : ∀ a, x = .ok a → Q a d)
    (herror : ∀ e, x = .error e → E e d) : wp (readOnly x) Q E d := by
  cases x with
  | ok a => exact hok a rfl
  | error e => exact herror e rfl

variable {fuel : Nat}

section
variable {id1 id2 : Nat} (h : C.Inv d) (htypes : d.types = C.types)
    (hfuel : C.safe → C.bound ≤ fuel) (h1 : C.safe → id1 < C.types.length)
    (h2 : C.safe → id2 < C.types.length)
include h htypes hfuel h1 h2

theorem compareHypot_spec : C.Hypothesises (compareHypot fuel id1 id2) d := by
  refine wp_get_bind ?_
  rw [htypes]
  refine wp_seq (wp_readOnly (fun _ _ => rfl) (fun e he => ?_)) (fun b d' hd => ?_)
  · refine h.failed fun hsafe => ?_
    obtain ⟨same, hsame⟩ := identicalArrays_ok (h1 hsafe) (h2 hsafe)
    simp [hsame] at he
  subst hd
  split
  · exact ⟨h, .refl _, fun hcmp _ => hcmp⟩
  refine wp_readOnly (fun b _ => ⟨h, .refl _, fun hcmp _ => hcmp⟩) (fun e he => ?_)
  refine h.failed fun hsafe => ?_
  obtain ⟨b, hb⟩ := C.identical hsafe id1 (h1 hsafe) id2 (h2 hsafe)
  simp [identicalStructs_mono (hfuel hsafe) hb] at he

end

/-! ## The recursion -/

def EquivSpec (C : DedupCtx) (fuel : Nat) (equiv : Nat → Nat → DedupM Bool) : Prop :=
  ∀ cand canon d, C.Inv d → d.types = C.types → (C.safe → cand < C.types.length) →
    (C.safe → canon < C.types.length) →
    (C.safe → unsetCount d.hypotMap + max C.types.length C.bound < fuel) →
    C.Hypothesises (equiv cand canon) d

variable {equiv : Nat → Nat → DedupM Bool}

theorem allEquiv_spec (hequiv : EquivSpec C fuel equiv) {l : List (U32 × U32)} (h : C.Inv d)
    (htypes : d.types = C.types)
    (hl : C.safe → ∀ p ∈ l, p.1.toNat < C.types.length ∧ p.2.toNat < C.types.length)
    (hfuel : C.safe → unsetCount d.hypotMap + max C.types.length C.bound < fuel) :
    C.Hypothesises (allEquiv equiv l) d := by
  induction l generalizing d with
  | nil => exact ⟨h, .refl d, fun hcmp _ => hcmp⟩
  | cons p l ih =>
    refine wp_seq (hequiv _ _ d h htypes (fun hsafe => (hl hsafe _ mem_cons_self).1)
      (fun hsafe => (hl hsafe _ mem_cons_self).2) hfuel) (fun b d' ⟨h', hhyp, hcmp⟩ => ?_)
    split
    next hb =>
      have hrest := ih h' (hhyp.types.trans htypes)
        (fun hsafe p hp => hl hsafe p (mem_cons_of_mem _ hp))
        (fun hsafe => by
          have hlt := hfuel hsafe
          have hle := hhyp.unset
          omega)
      exact wp_imp hrest (fun _ d'' ⟨h'', hhyp', hcmp'⟩ =>
        ⟨h'', hhyp.trans hhyp', fun hd => hcmp' (hcmp hd hb)⟩)
    · exact ⟨h', hhyp, by simp⟩

theorem equivFwd_spec (h : C.Inv d) (candType canonType : BtfType) (canonId : Nat) :
    C.Hypothesises (equivFwd candType canonType canonId) d := by
  have hadjust : C.Inv { d with hypotAdjustCanon := true } := { h with }
  unfold equivFwd
  split
  · exact ⟨h, .refl d, fun hcmp _ => hcmp⟩
  refine wp_get_bind ?_
  refine wp_seq (R := fun _ d' => C.Inv d' ∧ d.Hypothesised d' ∧ (C.Compared d → C.Compared d'))
    (wp_onlyIf (fun _ => ?_) (fun _ => ?_)) (fun _ d' ⟨h', hhyp, hcmp⟩ => ?_)
  · exact ⟨hadjust, { Dedup.Hypothesised.refl d with }, id⟩
  · exact ⟨h, .refl d, id⟩
  · exact ⟨h', hhyp, fun hd _ => hcmp hd⟩

def DedupCtx.IdsOk (C : DedupCtx) (t : BtfType) : Prop :=
  C.safe → ∀ id ∈ t.typeIds, id.toNat < C.types.length

theorem DedupCtx.Inv.idsOk (h : C.Inv d) {i : Nat} {t : BtfType}
    (ht : d.types[i]? = some t) : C.IdsOk t :=
  fun hsafe => h.refs hsafe t (mem_of_getElem? ht)

theorem isFwd_of_isComposite {t : BtfType} (h : t.isComposite = true) : t.isFwd = false := by
  rcases isComposite_iff.1 h with hk | hk <;> simp [isFwd, hk]

theorem equivTypes_spec (hequiv : EquivSpec C fuel equiv) (h : C.Inv d) (htypes : d.types = C.types)
    {candType canonType : BtfType} (hcand : C.IdsOk candType) (hcanon : C.IdsOk canonType)
    (canonId : Nat) (hfuel : C.safe → unsetCount d.hypotMap + max C.types.length C.bound < fuel) :
    C.Hypothesises (equivTypes equiv candType canonType canonId) d
      (BothAlike candType canonType → C.Compared d) := by
  -- the entry of the pair is fine if one of the two is no aggregate, or their layout is the same
  have hfine : ∀ {x : DedupM Bool}, BothAlike candType canonType → C.Hypothesises x d →
      C.Hypothesises x d (BothAlike candType canonType → C.Compared d) := fun hsame hx =>
    wp_imp hx fun _ _ ⟨hinv, hhyp, hcmp⟩ => ⟨hinv, hhyp, fun hP => hcmp (hP hsame)⟩
  have hfalse : C.Hypothesises (pure false) d (BothAlike candType canonType → C.Compared d) :=
    ⟨h, .refl d, by simp⟩
  have hdone : ∀ b : Bool, C.Hypothesises (pure b) d := fun _ => ⟨h, .refl d, fun hcmp _ => hcmp⟩
  -- the recursion goes through pairs of ids of the two records
  have hall : ∀ l : List (U32 × U32), (∀ p ∈ l, p ∈ candType.typeIds.zip canonType.typeIds) →
      C.Hypothesises (allEquiv equiv l) d := by
    intro l hl
    exact allEquiv_spec hequiv h htypes (fun hsafe p hp => ⟨hcand hsafe _ (of_mem_zip (hl p hp)).1,
        hcanon hsafe _ (of_mem_zip (hl p hp)).2⟩) hfuel
  unfold equivTypes
  split
  · exact hfalse
  split
  next hfwd =>
    refine hfine (fun hcomp hcomp' => ?_) (equivFwd_spec h _ _ _)
    simp [isFwd_of_isComposite hcomp, isFwd_of_isComposite hcomp'] at hfwd
  split
  · exact hfalse
  rename_i hkind
  simp only [ne_eq, Decidable.not_not] at hkind
  have hhead : candType.typeIds = [candType.size] → canonType.typeIds = [canonType.size] →
      C.Hypothesises (if candType.info ≠ canonType.info then pure false
        else allEquiv equiv [(candType.size, canonType.size)]) d := by
    intro hids hids'
    split
    · exact hdone _
    · exact hall _ (by simp [hids, hids'])
  have hmembers : candType.isComposite = true → canonType.isComposite = true →
      C.Hypothesises (if btfShallowEqualStruct candType canonType = true then
          allEquiv equiv ((candType.members.map (·.type)).zip (canonType.members.map (·.type)))
        else pure false) d (BothAlike candType canonType → C.Compared d) := by
    intro hcomp hcomp'
    split
    next heq =>
      refine hfine (fun _ _ => sameLayout_of_btfShallowEqualStruct hcomp heq) (hall _ ?_)
      rw [typeIds_composite hcomp, typeIds_composite hcomp']
      exact fun p hp => hp
    · exact hfalse
  cases hk : candType.kind <;> rw [hk] at hkind <;> simp only
  case array =>
    refine hfine (by simp [isComposite, hk]) ?_
    split
    · apply hall
      simp [typeIds, idSlots, hk, ← hkind, getId, array]
    · exact hdone _
  case funcProto =>
    refine hfine (by simp [isComposite, hk]) ?_
    split
    · apply hall
      rw [typeIds_funcProto hk, typeIds_funcProto hkind.symm]
      exact fun p hp => hp
    · exact hdone _
  case struct =>
    exact hmembers (isComposite_iff.2 (.inl hk)) (isComposite_iff.2 (.inl hkind.symm))
  case union =>
    exact hmembers (isComposite_iff.2 (.inr hk)) (isComposite_iff.2 (.inr hkind.symm))
  case int | enum | enum64 | fwd | float => exact hfine (by simp [isComposite, hk]) (hdone _)
  case const | volatile | restrict | ptr | typedef | func | typeTag =>
    refine hfine (by simp [isComposite, hk]) ?_
    exact hhead (by simp [typeIds, idSlots, hk, getId])
      (by simp [typeIds, idSlots, ← hkind, getId])
  all_goals exact h.errorCode (by simp) (by simp)

/-- The end of `btf_dedup_is_equiv`: the pair is entered in the hypothetical map, and the two types
are compared. -/
theorem hypotMapAdd_equivTypes_spec
    (hequiv : EquivSpec C fuel equiv) (h : C.Inv d) (htypes : d.types = C.types)
    {cand canon : Nat} (hcand : cand < C.types.length) (hunset : d.hypotMap[canon]? = some none)
    (hfuel : C.safe → unsetCount d.hypotMap + max C.types.length C.bound < fuel + 1) :
    wp (do
        hypotMapAdd C.env canon cand
        let candType ← typeById cand
        let canonType ← typeById canon
        equivTypes equiv candType canonType canon)
      (fun b d' => C.Inv d' ∧ (d.hypot canon cand).Hypothesised d' ∧
        (C.Compared d → b = true → C.Compared d')) C.Failed d := by
  have hcanon : canon < C.types.length := by
    rw [← h.hypot_length]
    exact (List.getElem?_eq_some_iff.1 hunset).1
  refine wp_seq (hypotMapAdd_spec h fun _ => hcanon) (fun _ d' ⟨_, cap, allocs, hd⟩ => ?_)
  have hinv : C.Inv d' := by
    rw [hd]
    exact { h.hypot hcanon hcand with }
  have hhyp : (d.hypot canon cand).Hypothesised d' := by
    rw [hd]
    exact { Dedup.Hypothesised.refl (d.hypot canon cand) with }
  refine wp_seq (typeById_spec hinv fun _ => hcand) (fun candType d'' ⟨hd', hct⟩ => ?_)
  subst hd'
  refine wp_seq (typeById_spec hinv fun _ => hcanon) (fun canonType d' ⟨hd', hnt⟩ => ?_)
  subst hd'
  have hspec := equivTypes_spec hequiv hinv (hhyp.types.trans htypes) (hinv.idsOk hct)
    (hinv.idsOk hnt) canon (fun hsafe => by
      have hlt := hfuel hsafe
      have hle := hhyp.unset
      have hcount := unsetCount_set (j := cand) hunset
      simp only [Dedup.hypot] at hle
      omega)
  refine wp_imp hspec (fun _ d'' ⟨hinv', hhyp', hcmp⟩ => ⟨hinv', hhyp.trans hhyp', fun hold => ?_⟩)
  refine hcmp fun hsame i j t u hij ht hu => ?_
  rw [hhyp.types, show (d.hypot canon cand).types = d.types from rfl, htypes] at hct hnt
  rw [hd] at hij
  by_cases hi : canon = i
  · subst hi
    have hto : (d.hypot canon cand).hypotMap[canon]? = some (some cand) :=
      getElem?_hypot_self (by rwa [h.hypot_length])
    cases hto.symm.trans hij
    cases hct.symm.trans ht
    cases hnt.symm.trans hu
    exact hsame
  · exact hold i j t u (by simpa [Dedup.hypot, hi] using hij) ht hu

theorem isEquiv_spec (fuel : Nat) : EquivSpec C fuel (isEquiv C.env fuel) := by
  induction fuel with
  | zero => exact fun _ _ _ h _ _ _ hfuel => h.failed fun hsafe => absurd (hfuel hsafe) (by omega)
  | succ fuel ih =>
    intro cand canon d h htypes hcand hcanon hfuel
    have hlen : C.safe → C.types.length ≤ fuel := fun hsafe => by
      have hlt := hfuel hsafe
      omega
    have hbound : C.safe → C.bound ≤ fuel := fun hsafe => by
      have hlt := hfuel hsafe
      omega
    refine wp_read (resolveTypeId_spec h hcand hlen) (fun candRoot ⟨_, hcandLt, _⟩ => ?_)
    refine wp_read (resolveTypeId_spec h hcanon hlen) (fun canonRoot _ => ?_)
    split
    · exact ⟨h, .refl _, fun hcmp _ => hcmp⟩
    refine wp_read (resolveFwdId_spec h hcanon hlen) (fun canon' ⟨hcanonLt, _⟩ => ?_)
    refine wp_read (hypotAt_spec h fun _ => hcanonLt) (fun e he => ?_)
    cases e with
    | some hypotId =>
      have hhypot := (h.hypot_map _ _ he).1
      simp only
      split
      · exact ⟨h, .refl _, fun hcmp _ => hcmp⟩
      · exact compareHypot_spec h htypes hbound (fun _ => hhypot) hcand
    | none =>
      refine wp_imp (hypotMapAdd_equivTypes_spec ih h htypes hcandLt he hfuel)
        (fun _ d' ⟨hinv, hhyp, hcmp⟩ => ⟨hinv, (hypothesised_hypot he).trans hhyp, hcmp⟩)

/-- A first comparison, of two types that are their own roots, enters them in the hypothetical
map. -/
theorem isEquiv_first_spec (h : C.Inv d) (htypes : d.types = C.types)
    {cand canon : Nat} (hcand : cand < C.types.length)
    (hcandRoot : IsRoot (nextId d.map) cand) (hcanonRoot : IsRoot (nextId d.map) canon)
    (hne : cand ≠ canon) (hfwd : ¬ HasType C.types canon (fun t => t.kind = .fwd))
    (hunset : d.hypotMap[canon]? = some none)
    (hfuel : C.safe → unsetCount d.hypotMap + max C.types.length C.bound < fuel) :
    wp (isEquiv C.env fuel cand canon)
      (fun b d' => C.Inv d' ∧ (d.hypot canon cand).Hypothesised d' ∧
        (C.Compared d → b = true → C.Compared d')) C.Failed d := by
  cases fuel with
  | zero => exact h.failed fun hsafe => absurd (hfuel hsafe) (by omega)
  | succ fuel =>
    have hcanon : canon < C.types.length := by
      rw [← h.hypot_length]
      exact (List.getElem?_eq_some_iff.1 hunset).1
    have hlen : C.safe → C.types.length ≤ fuel := fun hsafe => by
      have hlt := hfuel hsafe
      omega
    refine wp_read (resolveTypeId_spec h (fun _ => hcand) hlen) (fun candRoot ⟨he, _⟩ => ?_)
    obtain rfl := he.unique (endsAt_root hcandRoot)
    refine wp_read (resolveTypeId_spec h (fun _ => hcanon) hlen) (fun canonRoot ⟨he, _⟩ => ?_)
    obtain rfl := he.unique (endsAt_root hcanonRoot)
    rw [if_neg hne]
    refine wp_read (resolveFwdId_spec h (fun _ => hcanon) hlen) (fun canon' ⟨_, hsame⟩ => ?_)
    rw [hsame hfwd]
    refine wp_read (hypotAt_spec h fun _ => hcanon) (fun e he => ?_)
    cases hunset.symm.trans he
    exact hypotMapAdd_equivTypes_spec (isEquiv_spec fuel) h htypes hcand hunset hfuel

/-! ## Clearing the hypothetical map -/

theorem getElem?_foldl_set_none (l : List Nat) (m : List (Option Nat)) (k : Nat) :
    (l.foldl (fun m i => m.set i none) m)[k]? =
      if k ∈ l then m[k]?.map (fun _ => none) else m[k]? := by
  induction l generalizing m with
  | nil => simp
  | cons i l ih =>
    rw [foldl_cons, ih]
    by_cases hki : k = i
    · subst hki
      simp [getElem?_set]
      split <;> simp_all
    · simp [hki, getElem?_set_ne (Ne.symm hki)]

theorem length_foldl_set_none (l : List Nat) (m : List (Option Nat)) :
    (l.foldl (fun m i => m.set i none) m).length = m.length := by
  induction l generalizing m with
  | nil => rfl
  | cons i l ih => simp [ih]

structure Dedup.Cleared (d d' : Dedup) : Prop where
  types : d'.types = d.types
  startId : d'.startId = d.startId
  dedupTable : d'.dedupTable = d.dedupTable
  map : d'.map = d.map
  writes : d'.writes = d.writes
  list : d'.hypotList = []
  adjust : d'.hypotAdjustCanon = false

theorem clearHypotMap_spec (h : C.Inv d) : wp clearHypotMap (fun _ d' => C.Inv d' ∧ d.Cleared d' ∧
      ∀ i < C.types.length, d'.hypotMap[i]? = some none) E d := by
  unfold clearHypotMap
  refine wp_get_bind ?_
  rw [wp_set]
  -- every entry that is set is in the list
  have hnone : ∀ i < C.types.length,
      (d.hypotList.foldl (fun m i => m.set i none) d.hypotMap)[i]? = some none := by
    intro i hi
    have hlt : i < d.hypotMap.length := by rwa [h.hypot_length]
    rw [getElem?_foldl_set_none, getElem?_eq_getElem hlt]
    split
    · simp
    next hmem =>
      cases he : d.hypotMap[i] with
      | none => rfl
      | some j =>
        have hset := (h.hypot_map i j (by rw [getElem?_eq_getElem hlt, he])).2
        exact absurd hset hmem
  refine ⟨⟨h.startId_eq, h.shape, h.refs, h.run, h.map_eq, h.table_wf, h.table, ?_, ?_, ?_⟩,
    ⟨rfl, rfl, rfl, rfl, rfl, rfl, rfl⟩, hnone⟩
  · rw [length_foldl_set_none, h.hypot_length]
  · intro i hi
    simp at hi
  · intro i j hij
    have hlt := (List.getElem?_eq_some_iff.1 hij).1
    rw [length_foldl_set_none, h.hypot_length] at hlt
    simp [hnone i hlt] at hij

theorem unsetCount_le (h : C.Inv d) : unsetCount d.hypotMap ≤ C.types.length := by
  rw [← h.hypot_length]
  exact countP_le_length

end LinuxKernel.Bpf
