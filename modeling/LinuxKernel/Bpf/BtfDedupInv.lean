import LinuxKernel.Bpf.BtfDedupTrace
import LinuxKernel.Bpf.BtfIdentical

/-!
# The invariant of BTF deduplication

`DedupCtx.Inv` holds of every state the passes go through. It says that the writes to `map` were
legal, that the candidates in the hash table are canonical, and that the ids the state holds are ids
of types. The specifications of the primitive operations of `DedupM` follow.
-/

namespace LinuxKernel.Bpf

open Foundation List
open Foundation.Forest

/-- `types` differs from `T` in the ids that records other than structs and unions refer to. -/
structure SameShape (T types : List BtfType) : Prop where
  length_eq : types.length = T.length
  record : ∀ (i : Nat) (t : BtfType), types[i]? = some t →
    ∃ t0, T[i]? = some t0 ∧ t.info = t0.info ∧ (t0.isComposite = true → t = t0)

/-- A candidate is linked; one that no forward declaration of its kind exists for is canonical. -/
structure CandOk (T : List BtfType) (map : List MapEntry) (id : Nat) : Prop where
  lt : id < T.length
  linked : nextId map id ≠ none
  canonical : ¬ HasType T id (fun t => t.kind = .fwd) →
    ¬ HasType T id (fun t => btfIsEnumFwd t = true) → nextId map id = some id

/-- A deduplication: the BTF it started with, and how it is run. `safe` stands for the assumptions
under which it ends and does not fault: the references are in range, and `bound` is fuel that
suffices for every comparison by `btf_dedup_identical_structs`. -/
structure DedupCtx where
  env : DedupEnv
  types : List BtfType
  startId : Nat
  safe : Prop
  bound : Nat
  startId_pos : 0 < startId
  startId_le : safe → startId ≤ types.length
  refs : safe → RefsInRange types.length types
  identical : safe → ∀ id1 < types.length, ∀ id2 < types.length,
    ∃ b, identicalStructs types bound id1 id2 = .ok b

namespace DedupCtx

variable (C : DedupCtx)

structure Inv (d : Dedup) : Prop where
  startId_eq : d.startId = C.startId
  shape : SameShape C.types d.types
  refs : C.safe → RefsInRange C.types.length d.types
  run : LegalRun C.types (initialMap C.types) d.writes
  map_eq : d.map = currentMap (initialMap C.types) d.writes
  table_wf : d.dedupTable.WF (dedupFns C.env.forceCollisions)
  table : ∀ e ∈ d.dedupTable.buckets.flatten, CandOk C.types d.map e.value
  hypot_length : d.hypotMap.length = C.types.length
  hypot_list : ∀ i ∈ d.hypotList, i < C.types.length ∧ ∃ j, d.hypotMap[i]? = some (some j)
  hypot_map : ∀ i j, d.hypotMap[i]? = some (some j) → j < C.types.length ∧ i ∈ d.hypotList

/-- A failure leaves the invariant, and under the assumptions of `safe` it is an error code. -/
def Failed (e : Failure) (d : Dedup) : Prop := C.Inv d ∧ (C.safe → e ≠ .fault ∧ e ≠ .fuel)

variable {C} {e : Failure} {d : Dedup}

theorem Inv.failed (h : C.Inv d) (he : C.safe → e ≠ .fault ∧ e ≠ .fuel) : C.Failed e d := ⟨h, he⟩

theorem Inv.errorCode (h : C.Inv d) (hfault : e ≠ .fault) (hfuel : e ≠ .fuel) : C.Failed e d :=
  h.failed fun _ => ⟨hfault, hfuel⟩

end DedupCtx

/-! ## The initial map -/

theorem nextId_initialMap {T : List BtfType} {i j : Nat} (h : nextId (initialMap T) i = some j) :
    j = i ∧ (i = 0 ∨ HasType T i fun t => t.kind = .var ∨ t.kind = .datasec) := by
  rw [nextId_eq_some, initialMap, getElem?_mapIdx] at h
  cases ht : T[i]? with
  | none => simp [ht] at h
  | some t =>
    simp only [ht, Option.map_some, Option.some.injEq] at h
    split_ifs at h with hcond
    refine ⟨(MapEntry.mapped.inj h).symm, ?_⟩
    rcases hcond with h0 | hkind
    · exact .inl h0
    · exact .inr ⟨t, ht, hkind⟩

theorem length_initialMap (T : List BtfType) : (initialMap T).length = T.length := by
  simp [initialMap]

theorem acyclic_initialMap (T : List BtfType) : Acyclic (nextId (initialMap T)) := by
  intro a
  refine ⟨a, endsAt_root ?_⟩
  cases h : nextId (initialMap T) a with
  | none => exact .inl h
  | some b =>
    obtain ⟨rfl, -⟩ := nextId_initialMap h
    exact .inr h

namespace DedupCtx.Inv

variable {C : DedupCtx} {d : Dedup}

theorem length_map (h : C.Inv d) : d.map.length = C.types.length := by
  rw [h.map_eq, h.run.length_currentMap, length_initialMap]

theorem length_types (h : C.Inv d) : d.types.length = C.types.length := h.shape.length_eq

theorem acyclic (h : C.Inv d) : Acyclic (nextId d.map) := by
  rw [h.map_eq]
  exact h.run.acyclic (acyclic_initialMap _)

variable {i : Nat}

theorem nextId_lt (h : C.Inv d) {j : Nat} (hij : nextId d.map i = some j) : j < C.types.length := by
  rw [← length_initialMap]
  refine h.run.nextId_lt (fun i j hij => ?_) i j (by rwa [← h.map_eq])
  obtain ⟨rfl, -⟩ := nextId_initialMap hij
  exact lt_of_nextId hij

variable {t : BtfType}

theorem record (h : C.Inv d) (ht : d.types[i]? = some t) :
    ∃ t0, C.types[i]? = some t0 ∧ t.info = t0.info ∧ (t0.isComposite = true → t = t0) :=
  h.shape.record i t ht

theorem hasType_iff (h : C.Inv d) (ht : d.types[i]? = some t)
    {P : BtfType → Prop} (hP : ∀ t1 t2 : BtfType, t1.info = t2.info → (P t1 ↔ P t2)) :
    HasType C.types i P ↔ P t := by
  obtain ⟨t0, ht0, hinfo, -⟩ := h.record ht
  constructor
  · rintro ⟨t1, ht1, hp⟩
    cases ht0.symm.trans ht1
    exact (hP _ _ hinfo).2 hp
  · exact fun hp => ⟨t0, ht0, (hP _ _ hinfo).1 hp⟩

theorem hasType_kind (h : C.Inv d) (ht : d.types[i]? = some t)
    {P : BtfKind → Prop} : HasType C.types i (fun t => P t.kind) ↔ P t.kind :=
  h.hasType_iff ht fun t1 t2 hinfo => by simp only [BtfType.kind, hinfo]

end DedupCtx.Inv

/-! ## Reading the state -/

section
variable {C : DedupCtx} {d : Dedup} {id : Nat}

section
variable (h : C.Inv d) (hid : C.safe → id < C.types.length)
include h hid

theorem typeById_spec :
    wp (typeById id) (fun t d' => d' = d ∧ d.types[id]? = some t) C.Failed d := by
  refine wp_get_bind ?_
  cases ht : d.types[id]? with
  | some t => exact ⟨rfl, rfl⟩
  | none =>
    refine h.failed fun hsafe => absurd (hid hsafe) ?_
    rw [getElem?_eq_none_iff, h.length_types] at ht
    omega

theorem mapAt_spec : wp (mapAt id) (fun e d' => d' = d ∧ d.map[id]? = some e) C.Failed d := by
  refine wp_get_bind ?_
  cases he : d.map[id]? with
  | some e => exact ⟨rfl, rfl⟩
  | none =>
    refine h.failed fun hsafe => absurd (hid hsafe) ?_
    rw [getElem?_eq_none_iff, h.length_map] at he
    omega

theorem hypotAt_spec :
    wp (hypotAt id) (fun e d' => d' = d ∧ d.hypotMap[id]? = some e) C.Failed d := by
  refine wp_get_bind ?_
  cases he : d.hypotMap[id]? with
  | some e => exact ⟨rfl, rfl⟩
  | none =>
    refine h.failed fun hsafe => absurd (hid hsafe) ?_
    rw [getElem?_eq_none_iff, h.hypot_length] at he
    omega

end

variable {t : BtfType}

theorem lt_of_types (h : C.Inv d) (ht : d.types[id]? = some t) : id < C.types.length := by
  rw [← h.length_types]
  exact (List.getElem?_eq_some_iff.1 ht).1

theorem lt_of_map (h : C.Inv d) {e : MapEntry} (he : d.map[id]? = some e) :
    id < C.types.length := by
  rw [← h.length_map]
  exact (List.getElem?_eq_some_iff.1 he).1

/-- `resolve_type_id` follows the walk along `map` to its end. It fails if it starts outside the
map or the fuel does not suffice for all ids. -/
theorem resolveTypeId_wp {n : Nat} (hlen : d.map.length = n) (hacyc : Acyclic (nextId d.map))
    (hrange : ∀ i j, nextId d.map i = some j → j < n) (fuel id : Nat) :
    wp (resolveTypeId fuel id) (fun r d' => d' = d ∧ EndsAt (nextId d.map) id r ∧ id < n ∧ r < n)
      (fun _ d' => d' = d ∧ (id < n → fuel < n)) d := by
  obtain ⟨r, l, hwalk⟩ := hacyc id
  suffices hfail : wp (resolveTypeId fuel id)
      (fun r d' => d' = d ∧ EndsAt (nextId d.map) id r ∧ id < n ∧ r < n)
      (fun _ d' => d' = d ∧ (id < n → fuel < l.length)) d by
    refine wp_mono hfail (fun _ _ h => h) (fun _ d' ⟨hd, hlt⟩ => ⟨hd, fun hid => ?_⟩)
    exact Nat.lt_of_lt_of_le (hlt hid) (hwalk.length_le hid hrange)
  induction fuel generalizing id l with
  | zero => exact ⟨rfl, fun _ => length_pos_of_mem hwalk.mem_self⟩
  | succ fuel ih =>
    refine (wp_bind _ _).2 (wp_get_bind ?_)
    cases he : d.map[id]? with
    | none =>
      refine ⟨rfl, fun hid => ?_⟩
      rw [getElem?_eq_none_iff] at he
      omega
    | some e =>
      have hlt : id < n := hlen ▸ (List.getElem?_eq_some_iff.1 he).1
      cases e with
      | mapped j =>
        have hnext : nextId d.map id = some j := nextId_eq_some.2 he
        simp only [wp_pure]
        by_cases hj : j = id
        · subst hj
          simp only [if_true, wp_pure]
          exact ⟨trivial, endsAt_root (.inr hnext), hlt, hlt⟩
        simp only [hj, if_false]
        cases hwalk with
        | root hr =>
          rcases hr with hr | hr
          · simp [hr] at hnext
          · exact absurd (Option.some.inj (hnext.symm.trans hr)) hj
        | @step l' _ b _ hn hne hrest =>
          cases hnext.symm.trans hn
          refine wp_mono (ih _ l' hrest) ?_ ?_
          · rintro r' d'' ⟨rfl, ⟨l'', hw''⟩, -, hr'⟩
            exact ⟨rfl, ⟨_, .step hnext hj hw''⟩, hlt, hr'⟩
          rintro _ d'' ⟨rfl, hfail⟩
          refine ⟨rfl, fun _ => ?_⟩
          have hlt' := hfail (hrange _ _ hnext)
          simp only [length_cons]
          omega
      | unprocessed | inProgress =>
        have hnext : nextId d.map id = none := by simp [nextId, he]
        exact ⟨rfl, endsAt_root (.inl hnext), hlt, hlt⟩

variable {fuel : Nat}

theorem resolveTypeId_spec (h : C.Inv d) (hid : C.safe → id < C.types.length)
    (hfuel : C.safe → C.types.length ≤ fuel) : wp (resolveTypeId fuel id)
      (fun r d' => d' = d ∧ EndsAt (nextId d.map) id r ∧ id < C.types.length ∧ r < C.types.length)
      C.Failed d := by
  refine wp_mono (resolveTypeId_wp h.length_map h.acyclic (fun _ _ => h.nextId_lt) fuel id)
    (fun _ _ hpost => hpost) ?_
  rintro e d' ⟨rfl, hfail⟩
  refine h.failed fun hsafe => ?_
  have hlt := hfail (hid hsafe)
  have hle := hfuel hsafe
  omega

theorem resolveFwdId_spec (h : C.Inv d) (hid : C.safe → id < C.types.length)
    (hfuel : C.safe → C.types.length ≤ fuel) : wp (resolveFwdId fuel id)
      (fun r d' => d' = d ∧ r < C.types.length ∧
        (¬ HasType C.types id (fun t => t.kind = .fwd) → r = id)) C.Failed d := by
  refine wp_read (typeById_spec h hid) (fun t ht => ?_)
  have hlt := lt_of_types h ht
  split
  next hfwd =>
    refine wp_read (resolveTypeId_spec h hid hfuel) (fun r ⟨_, _, hr⟩ => ?_)
    refine wp_read (typeById_spec h fun _ => hr) (fun u _ => ?_)
    have hisFwd : HasType C.types id (fun t => t.kind = .fwd) :=
      (h.hasType_kind ht (P := fun k => k = .fwd)).2 (by simpa [BtfType.isFwd] using hfwd)
    split
    · exact ⟨rfl, hlt, fun _ => rfl⟩
    · exact ⟨rfl, hr, fun hnot => absurd hisFwd hnot⟩
  · exact ⟨rfl, hlt, fun _ => rfl⟩

/-! ## Writing the state -/

def Dedup.write (d : Dedup) (site : WriteSite) (id : Nat) (value : MapEntry) : Dedup :=
  { d with
    map := d.map.set id value
    writes := ⟨site, id, value, d.map.set id value⟩ :: d.writes }

def DedupCtx.Legal (C : DedupCtx) (d : Dedup) (site : WriteSite) (id : Nat) (value : MapEntry) :
    Prop :=
  LegalWrite C.types d.writes d.map ⟨site, id, value, d.map.set id value⟩

variable {site : WriteSite}

theorem DedupCtx.Inv.legal_link (h : C.Inv d) (hsite : ∀ direct, site ≠ .mergeStruct direct)
    {a b : Nat} (ha : a < C.types.length) (hb : b < C.types.length)
    (hlink : b = a ∨ Avoids (nextId d.map) a b)
    (hover : d.map[a]? = some (.mapped b) ∨ nextId d.map a = none ∨
      HasType C.types a (fun t => t.kind = .fwd) ∨
      (HasType C.types a (fun t => btfIsEnumFwd t = true) ∧
        ∀ w ∈ d.writes, ∀ direct, w.site ≠ .mergeStruct direct))
    (hlayout : ∀ t, C.types[a]? = some t → t.isComposite = true →
      b = a ∨ HasType C.types b (SameLayout t)) : C.Legal d site a (.mapped b) where
  after_eq := rfl
  id_lt := by
    rw [h.length_map]
    exact ha
  link b' hb' := by
    obtain rfl := MapEntry.mapped.inj hb'
    rw [h.length_map]
    exact ⟨hb, hlink⟩
  mark hv := absurd rfl (hv b)
  overwrites := hover
  layout b' t hb' ht hcomp := by
    obtain rfl := MapEntry.mapped.inj hb'
    exact (hlayout t ht hcomp).imp id fun hsame => .inr fun _ => hsame
  merge direct hs := absurd hs (hsite direct)

variable {value : MapEntry}

theorem DedupCtx.Inv.write (h : C.Inv d)
    (hlegal : C.Legal d site id value) : C.Inv (d.write site id value) where
  startId_eq := h.startId_eq
  shape := h.shape
  refs := h.refs
  run := by
    refine .cons h.run ?_
    rw [← h.map_eq]
    exact hlegal
  map_eq := rfl
  table_wf := h.table_wf
  table e he := by
    obtain ⟨hlt, hlinked, hcanonical⟩ := h.table e he
    refine ⟨hlt, hlegal.nextId_ne_none hlinked, fun hfwd henum => ?_⟩
    exact hlegal.nextId_stable (hcanonical hfwd henum) hfwd (.inl henum)
  hypot_length := h.hypot_length
  hypot_list := h.hypot_list
  hypot_map := h.hypot_map

variable {E : Failure → Dedup → Prop}

theorem setMap_spec (hlegal : C.Legal d site id value) :
    wp (setMap site id value) (fun _ d' => d' = d.write site id value) E d := by
  refine wp_get_bind ?_
  rw [if_pos hlegal.id_lt]
  exact rfl

def Dedup.Cands (d : Dedup) (l : List Nat) : Prop :=
  ∀ c ∈ l, ∃ e ∈ d.dedupTable.buckets.flatten, e.value = c

variable {l : List Nat}

theorem DedupCtx.Inv.cand (h : C.Inv d) (hl : d.Cands l) {c : Nat} (hc : c ∈ l) :
    CandOk C.types d.map c := by
  obtain ⟨e, he, rfl⟩ := hl c hc
  exact h.table e he

theorem mem_flatten_of_mem_keyEntries {K V : Type} {f : HashFns K} {map : Hashmap K V} {key : K}
    {e : HashmapEntry K V} (he : e ∈ hashmapKeyEntries f map key) : e ∈ map.buckets.flatten := by
  unfold hashmapKeyEntries at he
  split at he
  · simp at he
  have hmem := (mem_filter.1 he).1
  rw [getD_eq_getElem?_getD] at hmem
  cases hb : map.buckets[bucketOf f map.capBits key]? with
  | none => simp [hb] at hmem
  | some chain =>
    rw [hb] at hmem
    exact mem_flatten.2 ⟨chain, mem_of_getElem? hb, hmem⟩

theorem dedupCands_spec (env : DedupEnv) (hash : BitVec 64) :
    wp (dedupCands env hash) (fun l d' => d' = d ∧ d.Cands l) E d := by
  refine wp_get_bind ⟨rfl, fun c hc => ?_⟩
  obtain ⟨e, he, rfl⟩ := mem_map.1 hc
  exact ⟨e, mem_flatten_of_mem_keyEntries he, rfl⟩

variable {typeId : Nat}

theorem findCand_spec (h : C.Inv d) {eq : BtfType → BtfType → Bool} (hl : d.Cands l) :
    wp (findCand eq t typeId l)
      (fun r d' => d' = d ∧ (r = typeId ∨
        CandOk C.types d.map r ∧ ∃ cand, d.types[r]? = some cand ∧ eq t cand = true))
      C.Failed d := by
  induction l with
  | nil => exact ⟨rfl, .inl rfl⟩
  | cons c l ih =>
    have hc := h.cand hl mem_cons_self
    refine wp_read (typeById_spec h fun _ => hc.lt) (fun cand hcand => ?_)
    split
    next heq => exact ⟨rfl, .inr ⟨hc, cand, hcand, heq⟩⟩
    · exact ih fun c hc => hl c (mem_cons_of_mem _ hc)

/-- Everything but the hash table and the count of allocations is as before. -/
structure Dedup.SameButTable (d d' : Dedup) : Prop where
  types : d'.types = d.types
  startId : d'.startId = d.startId
  map : d'.map = d.map
  writes : d'.writes = d.writes
  hypotMap : d'.hypotMap = d.hypotMap
  hypotList : d'.hypotList = d.hypotList

theorem tableAdd_spec (h : C.Inv d) (hash : BitVec 64) (hcand : CandOk C.types d.map typeId) :
    wp (tableAdd C.env hash typeId) (fun _ d' => C.Inv d' ∧ d.SameButTable d') C.Failed d := by
  unfold tableAdd nextAlloc
  simp only [wp_bind, wp_get, wp_set, wp_pure]
  have hspec := hashmapInsertNew_spec (C.env.alloc d.allocs) h.table_wf hash typeId
  obtain ⟨hwf, hperm⟩ := hspec
  have hmem : ∀ e ∈ (hashmapInsertNew (dedupFns C.env.forceCollisions) (C.env.alloc d.allocs)
      d.dedupTable hash typeId).map.buckets.flatten, CandOk C.types d.map e.value := by
    intro e he
    rcases hperm with ⟨-, hperm⟩ | ⟨-, hperm⟩
    · rcases mem_cons.1 (hperm.mem_iff.1 he) with rfl | he
      · exact hcand
      · exact h.table e he
    · exact h.table e (hperm.mem_iff.1 he)
  have hinv : C.Inv { d with
      allocs := d.allocs + 1
      dedupTable := (hashmapInsertNew (dedupFns C.env.forceCollisions) (C.env.alloc d.allocs)
        d.dedupTable hash typeId).map } :=
    { h with table_wf := hwf, table := hmem }
  split
  · exact ⟨hinv, rfl, rfl, rfl, rfl, rfl, rfl⟩
  · exact hinv.errorCode (by simp) (by simp)

theorem setCanonical_spec (h : C.Inv d) (hash : BitVec 64) {newId : Nat}
    (hlegal : C.Legal d site typeId (.mapped newId)) :
    wp (setCanonical C.env site hash typeId newId)
      (fun _ d' => C.Inv d' ∧ (d.write site typeId (.mapped newId)).SameButTable d')
      C.Failed d := by
  refine wp_seq (setMap_spec hlegal) (fun _ d' hd => ?_)
  subst hd
  have hinv := h.write hlegal
  split
  next heq =>
    subst heq
    have hself : nextId (d.map.set typeId (.mapped typeId)) typeId = some typeId :=
      nextId_set_self hlegal.id_lt
    apply tableAdd_spec hinv
    refine ⟨?_, ?_, fun _ _ => hself⟩
    · have hlt := hlegal.id_lt
      rwa [h.length_map] at hlt
    · change nextId (d.map.set typeId (.mapped typeId)) typeId ≠ none
      rw [hself]
      simp
  · exact ⟨hinv, rfl, rfl, rfl, rfl, rfl, rfl⟩

theorem forEachType_spec (h : C.Inv d) {f : Nat → DedupM Unit} {I : Nat → Dedup → Prop}
    (hstep : ∀ i, C.startId ≤ i → i < C.types.length → ∀ d, I i d →
      wp (f i) (fun _ d' => I (i + 1) d') C.Failed d) (hinit : I C.startId d) :
    wp (forEachType f) (fun _ d' => I (C.startId + (C.types.length - C.startId)) d')
      C.Failed d := by
  refine wp_get_bind ?_
  rw [h.startId_eq, h.length_types]
  exact wp_forM_range (fun i hlo hhi => hstep i hlo (by omega)) hinit

end

end LinuxKernel.Bpf
