import LinuxKernel.Bpf.BtfDedupPrim
import LinuxKernel.Bpf.BtfDedupRef

/-!
# The canonical map of BTF deduplication

What the legality of all writes to `map` says about a run of the passes: following `map` ends in
every state, and once the passes have succeeded it ends at a canonical type. For a struct or union
that is one of the same layout if the merges for forward declarations linked aggregates of the same
layout. The run ends if the comparisons with `btf_dedup_identical_structs` do; all other recursions
are bounded by the length of a walk along `map`, by the entries of the hypothetical map that are not
set, or by the types that are not processed.
-/

namespace LinuxKernel.Bpf

open Foundation
open Foundation.Forest

/-- The state after the passes: every type is linked. -/
structure DedupCtx.Done (C : DedupCtx) (d : Dedup) : Prop extends C.Inv d where
  linked : ∀ j < C.types.length, nextId d.map j ≠ none

theorem btfDedupPasses_spec (C : DedupCtx) (fuel : Nat)
    (hfuel : C.safe → C.types.length + max C.types.length C.bound < fuel) :
    wp (btfDedupPasses C.env fuel) (fun _ d' => C.Done d') C.Failed
      (btfDedupNew C.types C.startId) := by
  refine wp_seq (btfDedupPrep_spec (prepInv_btfDedupNew C)) (fun _ d1 h1 => ?_)
  refine wp_seq (btfDedupPrimTypes_spec h1) (fun _ d2 h2 => ?_)
  refine wp_seq (btfDedupStructTypes_spec h2.inv h2.types_eq hfuel) (fun _ d3 h3 => ?_)
  refine wp_seq (btfDedupResolveFwds_spec h3) (fun _ d4 h4 => ?_)
  refine wp_imp (btfDedupRefTypes_spec h4.inv fun hsafe => ?_)
    (fun _ d5 ⟨h5, hlater, hlinked⟩ => ⟨h5, fun j hj => ?_⟩)
  · have hlt := hfuel hsafe
    omega
  · by_cases hbase : j < C.startId
    · exact (h4.later.trans hlater).linked j (h2.base j hj hbase (by omega))
    · exact hlinked j (by omega) hj

/-- A deduplication about whose failures nothing is said. -/
def plainCtx (env : DedupEnv) (types : List BtfType) (startId : Nat) (hstart : 0 < startId) :
    DedupCtx where
  env := env
  types := types
  startId := startId
  safe := False
  bound := 0
  startId_pos := hstart
  startId_le := False.elim
  refs := False.elim
  identical := False.elim

def stateOf {α : Type} : EStateM.Result Failure Dedup α → Dedup
  | .ok _ d => d
  | .error _ d => d

def Dedup.maps (types : List BtfType) (d : Dedup) : List (List MapEntry) :=
  initialMap types :: d.writes.map (·.after)

variable {types : List BtfType}

theorem maps_of_legalRun {d : Dedup} (hrun : LegalRun types (initialMap types) d.writes)
    (hmap : d.map = currentMap (initialMap types) d.writes) :
    d.map ∈ d.maps types ∧ ∀ map ∈ d.maps types, Acyclic (nextId map) := by
  constructor
  · rw [hmap]
    unfold Dedup.maps
    cases d.writes with
    | nil => exact List.mem_cons_self
    | cons w ws => exact List.mem_cons_of_mem _ (by simp [currentMap])
  · intro map hmem
    rcases List.mem_cons.1 hmem with rfl | hmem
    · exact acyclic_initialMap types
    · obtain ⟨w, hw, rfl⟩ := List.mem_map.1 hmem
      exact hrun.acyclic_after (acyclic_initialMap types) w hw

/-- In every state of a run of the passes, with or without base BTF, `map` leads from every id to
one that is unmapped or mapped to itself, and after a run that succeeds to one that is mapped to
itself. -/
theorem btfDedupPasses_canonical (env : DedupEnv) (fuel : Nat) (types : List BtfType)
    (startId : Nat) (hstart : 0 < startId) :
    let r := btfDedupPasses env fuel (btfDedupNew types startId)
    ((stateOf r).map ∈ (stateOf r).maps types ∧
      ∀ map ∈ (stateOf r).maps types, ∀ id, ∃ root, EndsAt (nextId map) id root) ∧
    ∀ d, r = .ok () d → ∀ id < types.length,
      ∃ root, EndsAt (nextId d.map) id root ∧ nextId d.map root = some root := by
  have hspec := btfDedupPasses_spec (plainCtx env types startId hstart) fuel
    (fun hsafe => hsafe.elim)
  intro r
  refine ⟨?_, fun d hr id hid => ?_⟩
  · cases hr : r with
    | ok a d =>
      have hinv := wp_ok hspec hr
      exact maps_of_legalRun hinv.run hinv.map_eq
    | error e d =>
      have hinv := (wp_error hspec hr).1
      exact maps_of_legalRun hinv.run hinv.map_eq
  · have hinv := wp_ok hspec hr
    obtain ⟨root, l, hwalk⟩ := hinv.acyclic id
    have hroot : root < types.length :=
      hwalk.mem_of_closed (fun _ _ _ => hinv.nextId_lt) hid root hwalk.end_mem
    refine ⟨root, ⟨l, hwalk⟩, ?_⟩
    rcases hwalk.isRoot with hnone | hself
    · exact absurd hnone (hinv.linked root hroot)
    · exact hself

/-- With references in range the passes end with success or an error code, if `bound` nested calls
of `btf_dedup_identical_structs` are enough to compare any two types. -/
theorem btfDedupPasses_ends (env : DedupEnv) (types : List BtfType) (startId bound : Nat)
    (hstart : 0 < startId) (hle : startId ≤ types.length) (hrefs : RefsInRange types.length types)
    (hidentical : ∀ id1 < types.length, ∀ id2 < types.length,
      ∃ b, identicalStructs types bound id1 id2 = .ok b)
    (fuel : Nat) (hfuel : types.length + max types.length bound < fuel) (d : Dedup) :
    btfDedupPasses env fuel (btfDedupNew types startId) ≠ .error .fuel d ∧
      btfDedupPasses env fuel (btfDedupNew types startId) ≠ .error .fault d := by
  have hspec := btfDedupPasses_spec ⟨env, types, startId, True, bound, hstart, fun _ => hle,
    fun _ => hrefs, fun _ => hidentical⟩ fuel fun _ => hfuel
  constructor
  · intro hrun
    exact ((wp_error hspec hrun).2 trivial).2 rfl
  · intro hrun
    exact ((wp_error hspec hrun).2 trivial).1 rfl

/-! ## A BTF for the examples -/

def sampleEnv : DedupEnv := ⟨false, fun _ => {}⟩

def succeedsWith {α : Type} (r : EStateM.Result Failure Dedup α) (check : Dedup → Bool) : Bool :=
  match r with
  | .ok _ d => check d
  | .error _ _ => false

theorem exists_of_succeedsWith {r : EStateM.Result Failure Dedup Unit} {check : Dedup → Bool}
    (h : succeedsWith r check = true) : ∃ d, r = .ok () d ∧ check d = true := by
  cases r with
  | ok u d => exact ⟨d, rfl, h⟩
  | error e d => simp [succeedsWith] at h

def sampleInt (name : U32) : BtfType := ⟨name, 0x01000000#32, 4, [32], List.length_singleton⟩

def samplePtr (target : U32) : BtfType := ⟨0, 0x02000000#32, target, [], List.length_nil⟩

def sampleFwd (name : U32) : BtfType := ⟨name, 0x07000000#32, 0, [], List.length_nil⟩

def sampleStruct (name size member type : U32) : BtfType :=
  ⟨name, 0x04000001#32, size, [member, type, 0], rfl⟩

/-- Two different structs of name 2, with the ids 2 and 11. Id 5 is a forward declaration of that
name, which the struct of name 4 in the second unit resolves to 11, and the struct of name 3
compares with 2. -/
def clashTypes : List BtfType :=
  [btfVoid, sampleInt 1, sampleStruct 2 8 5 1, samplePtr 2, sampleStruct 3 8 7 3, sampleFwd 2,
    samplePtr 5, sampleStruct 4 8 7 6, samplePtr 11, sampleStruct 4 8 7 8, sampleStruct 3 8 7 6,
    sampleStruct 2 4 6 1]

theorem btfDedupPasses_canonical_clash :
    0 < 1 ∧ ∃ d, btfDedupPasses sampleEnv 40 (btfDedupNew clashTypes 1) = .ok () d ∧
      ∃ root, EndsAt (nextId d.map) 5 root ∧ nextId d.map root = some root := by
  have hok : succeedsWith (btfDedupPasses sampleEnv 40 (btfDedupNew clashTypes 1))
      (fun _ => true) = true := by decide +kernel
  obtain ⟨d, hrun, -⟩ := exists_of_succeedsWith hok
  exact ⟨by decide, d, hrun,
    (btfDedupPasses_canonical sampleEnv 40 clashTypes 1 (by decide)).2 d hrun 5 (by decide)⟩

/-! ## Structs and unions -/

/-- In a state whose `map` was written legally `resolve_type_id` returns the end of the walk. -/
theorem LegalRun.resolveTypeId_endsAt {d : Dedup}
    (hlegal : LegalRun types (initialMap types) d.writes)
    (hmap : d.map = currentMap (initialMap types) d.writes) {id : Nat} (hid : id < types.length) :
    ∃ r, resolveTypeId types.length id d = .ok r d ∧ EndsAt (nextId d.map) id r := by
  have hacyc : Acyclic (nextId d.map) := hmap ▸ hlegal.acyclic (acyclic_initialMap types)
  have hlen : d.map.length = types.length := by
    rw [hmap, hlegal.length_currentMap, length_initialMap]
  have hrange : ∀ i j, nextId d.map i = some j → j < types.length := by
    rw [hmap, ← length_initialMap types]
    refine hlegal.nextId_lt fun i j hij => ?_
    obtain ⟨rfl, -⟩ := nextId_initialMap hij
    exact lt_of_nextId hij
  have hwp := resolveTypeId_wp hlen hacyc hrange types.length id
  unfold wp at hwp
  split at hwp
  next r d' hres =>
    obtain ⟨rfl, hends, -⟩ := hwp
    exact ⟨r, hres, hends⟩
  · exact absurd (hwp.2 hid) (Nat.lt_irrefl _)

/-- The passes of `btf__dedup` resolve every struct and union to one of the same layout exactly if
the merges that go through a forward declaration link aggregates of the same layout. -/
theorem btfDedup_sameLayout_iff (env : DedupEnv) (fuel : Nat) (types : List BtfType) (d : Dedup)
    (hrun : btfDedupPasses env fuel (btfDedupNew types 1) = .ok () d) :
    (∀ (id : Nat) (t : BtfType), types[id]? = some t → t.isComposite = true →
      ∃ r, resolveTypeId types.length id d = .ok r d ∧ HasType types r (SameLayout t)) ↔
    MergesAlike types d.writes := by
  have hdone := wp_ok (btfDedupPasses_spec (plainCtx env types 1 Nat.one_pos)
    fuel (fun hsafe => hsafe.elim)) hrun
  have hlegal : LegalRun types (initialMap types) d.writes := hdone.run
  have hmap : d.map = currentMap (initialMap types) d.writes := hdone.map_eq
  constructor
  · intro hall w hw hsite c t hval ht
    obtain ⟨earlier, before, hlw⟩ := hlegal.legal_of_mem hw
    obtain ⟨-, -, ⟨t', ht', hcomp⟩, -⟩ := hlw.merge _ hsite
    cases ht.symm.trans ht'
    obtain ⟨r, hres, hsame⟩ := hall w.id t ht hcomp
    obtain ⟨r', hres', hends⟩ :=
      hlegal.resolveTypeId_endsAt hmap (List.getElem?_eq_some_iff.1 ht).1
    -- the merge is still in place at the end, so it is the root the type is resolved to
    obtain ⟨hlink, hself⟩ := hlegal.merge_lasts hw hsite hval
    rw [← hmap] at hlink hself
    have hends' : EndsAt (nextId d.map) w.id c := by
      by_cases hc : c = w.id
      · rw [hc] at hself ⊢
        exact endsAt_root (.inr hself)
      · exact ⟨_, .step hlink hc (.root (.inr hself))⟩
    obtain rfl := hends.unique hends'
    have heq : r = r' := by
      rw [hres'] at hres
      simpa using hres.symm
    rwa [← heq]
  · intro halike id t ht hcomp
    obtain ⟨r, hres, l, hwalk⟩ :=
      hlegal.resolveTypeId_endsAt hmap (List.getElem?_eq_some_iff.1 ht).1
    refine ⟨r, hres, sameLayout_of_walk (fun i j u hij hu hcu => ?_) hwalk ht hcomp⟩
    rw [hmap] at hij
    refine hlegal.sameLayout (fun i j hij hcomp => ?_) halike i j u hij hu hcu
    exact (nextId_initialMap hij).1

/-- The forward declaration of the clashing name leads a merge to link a struct of four bytes to one
of eight. -/
theorem btfDedup_clash :
    RefsInRange clashTypes.length clashTypes ∧
    ∃ d, btfDedupPasses sampleEnv 40 (btfDedupNew clashTypes 1) = .ok () d ∧
      resolveTypeId clashTypes.length 11 d = .ok 2 d ∧
      ∃ t u, clashTypes[11]? = some t ∧ clashTypes[2]? = some u ∧
        t.isComposite = true ∧ t.size = 4 ∧ u.size = 8 ∧ ¬ SameLayout t u := by
  have hok : succeedsWith (btfDedupPasses sampleEnv 40 (btfDedupNew clashTypes 1))
      (fun d => d.map[11]? = some (.mapped 2) && d.map[2]? = some (.mapped 2)) = true := by
    decide +kernel
  obtain ⟨d, hrun, hcheck⟩ := exists_of_succeedsWith hok
  simp only [Bool.and_eq_true, decide_eq_true_eq] at hcheck
  refine ⟨by decide +kernel, d, hrun, ?_, sampleStruct 2 4 6 1, sampleStruct 2 8 5 1, rfl, rfl,
    by decide +kernel⟩
  have hmap11 : mapAt 11 d = .ok (.mapped 2) d := by
    simp only [mapAt, bind, EStateM.bind, get, getThe, MonadStateOf.get, EStateM.get, hcheck.1]
    rfl
  have hmap2 : mapAt 2 d = .ok (.mapped 2) d := by
    simp only [mapAt, bind, EStateM.bind, get, getThe, MonadStateOf.get, EStateM.get, hcheck.2]
    rfl
  simp [clashTypes, resolveTypeId, bind, EStateM.bind, hmap11, hmap2, pure, EStateM.pure]

/-- The same types, but for the last struct, which is like the one of id 2. -/
def agreeTypes : List BtfType := clashTypes.set 11 (sampleStruct 2 8 5 1)

theorem btfDedup_sameLayout_iff_agree :
    ∃ d, btfDedupPasses sampleEnv 40 (btfDedupNew agreeTypes 1) = .ok () d ∧
      (∃ w ∈ d.writes, w.site = .mergeStruct true) ∧
      (∃ w ∈ d.writes, w.site = .mergeStruct false) ∧
      ∃ r, resolveTypeId agreeTypes.length 11 d = .ok r d ∧
        HasType agreeTypes r (SameLayout (sampleStruct 2 8 5 1)) := by
  have hok : succeedsWith (btfDedupPasses sampleEnv 40 (btfDedupNew agreeTypes 1))
      (fun d => d.writes.any (fun w => w.site = .mergeStruct true) &&
        d.writes.any (fun w => w.site = .mergeStruct false) &&
        d.writes.all (fun w => w.site ≠ .mergeStruct false || w.id = 11 && w.value = .mapped 2)) =
        true := by
    decide +kernel
  obtain ⟨d, hrun, hcheck⟩ := exists_of_succeedsWith hok
  simp only [Bool.and_eq_true, List.any_eq_true, List.all_eq_true, Bool.or_eq_true,
    decide_eq_true_eq] at hcheck
  obtain ⟨⟨hdirect, hfwd⟩, hmerges⟩ := hcheck
  refine ⟨d, hrun, hdirect, hfwd, ?_⟩
  refine (btfDedup_sameLayout_iff sampleEnv 40 agreeTypes d hrun).2 ?_ 11 _ rfl (by decide)
  intro w hw hsite c t hval ht
  rcases hmerges w hw with hne | ⟨hid, hval'⟩
  · exact absurd hsite hne
  · rw [hid] at ht
    obtain rfl : c = 2 := by simpa [hval] using hval'
    cases ht
    exact ⟨_, rfl, by decide⟩

end LinuxKernel.Bpf
