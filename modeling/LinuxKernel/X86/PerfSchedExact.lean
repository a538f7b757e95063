import LinuxKernel.X86.PerfSched

/-!
# The bookkeeping of counters

`perf_sched_restore_state` takes back the counter of a saved state: one bit of `used`, and not the
count in `nr_gp`. A search that stops at the limit of general purpose counters has raised `nr_gp`
before. In all other steps of `perf_assign_events` both fields say which counters the events have.
-/

namespace LinuxKernel.X86

open List

/-! ## Steps of a run -/

/-- Where a run stands: before a search, or behind one, or at the end. -/
inductive SchedPc
  | search
  | failed
  | found
  | done
  deriving DecidableEq

/-- A run of `perf_assign_events`: `held` are the events that have a counter, with it, and `kept`
those that had one before each of the saved states. -/
structure SchedRun where
  pc : SchedPc
  sched : PerfSched
  held : List (Nat × Nat)
  kept : List (List (Nat × Nat))
  deriving DecidableEq

namespace SchedRun

def init (cs : List EventConstraint) (wmin wmax gpmax : Int) : SchedRun :=
  ⟨.search, perfSchedInit cs wmin wmax gpmax, [], []⟩

/-- `__perf_sched_find_counter`, `perf_sched_restore_state` and `perf_sched_next_event`. -/
def step (r : SchedRun) : Option SchedRun :=
  match r.pc with
  | .search =>
    match perfSchedFindCounterOnce r.sched with
    | (false, sched) => some ⟨.failed, sched, r.held, r.kept⟩
    | (true, sched) =>
      some ⟨.found, sched, (sched.state.event, sched.state.counter) :: r.held,
        if r.sched.saved.length < sched.saved.length then r.held :: r.kept else r.kept⟩
  | .failed =>
    match r.sched.saved, r.kept with
    | state :: saved, held :: kept =>
      some ⟨.search, { r.sched with state := state.retry, saved := saved }, held, kept⟩
    | _, _ => none
  | .found =>
    let (more, sched) := perfSchedNextEvent r.sched
    some ⟨if more then .search else .done, sched, r.held, r.kept⟩
  | .done => none

def Reaches : SchedRun → SchedRun → Prop := Relation.ReflTransGen fun r r' => r.step = some r'

/-- The union of the masks of the counters that the events have. -/
def heldMask (cs : List EventConstraint) : List (Nat × Nat) → BitVec 64
  | [] => 0
  | (e, k) :: held => heldMask cs held ||| cs[e]?.elim 0 (counterMask · k)

def gpHeld (held : List (Nat × Nat)) : Nat := held.countP (·.2 < INTEL_PMC_IDX_FIXED)

structure Exact (cs : List EventConstraint) (state : SchedState) (held : List (Nat × Nat)) :
    Prop where
  used : state.used = heldMask cs held
  nrGp : state.nrGp = gpHeld held

/-- The event to be placed has no free fixed counter, but a free one for general purposes from the
counter of the state on, and `nr_gp` has reached the limit of these. -/
def AtLimit (sched : PerfSched) : Prop :=
  sched.state.unassigned ≠ 0 ∧ sched.maxGp ≤ sched.state.nrGp ∧
    ∃ c, sched.constraints[sched.state.event]? = some c ∧
      (∀ k, INTEL_PMC_IDX_FIXED ≤ k → k < X86_PMC_IDX_MAX → c.idxmsk.getLsbD k = true →
        sched.state.used &&& bitUll k ≠ 0) ∧
      ∃ k, sched.state.counter ≤ k ∧ k < INTEL_PMC_IDX_FIXED ∧ c.idxmsk.getLsbD k = true ∧
        sched.state.used &&& gpMask c k = 0

/-- The next step loses the count: it restores a state with a general purpose counter, or it is a
search at the limit of these counters. -/
def Leaks (r : SchedRun) : Prop :=
  (r.pc = .failed ∧ ∃ x ∈ r.sched.saved.head?, x.counter < INTEL_PMC_IDX_FIXED) ∨
    r.pc = .search ∧ AtLimit r.sched

/-- A saved state is exact with the counter that it has just got. -/
structure KeptExact (cs : List EventConstraint) (x : SchedState) (held : List (Nat × Nat)) :
    Prop where
  exact : Exact cs x ((x.event, x.counter) :: held)
  free : ∃ c, cs[x.event]? = some c ∧ heldMask cs held &&& counterMask c x.counter = 0

def Kept (r : SchedRun) : Prop := Forall₂ (KeptExact r.sched.constraints) r.sched.saved r.kept

variable {cs : List EventConstraint} {state : SchedState} {held : List (Nat × Nat)}
  {c : EventConstraint} {e k : Nat} {r r' : SchedRun}

theorem heldMask_cons (hc : cs[e]? = some c) :
    heldMask cs ((e, k) :: held) = heldMask cs held ||| counterMask c k := by
  rw [heldMask, hc]
  rfl

theorem gpHeld_cons :
    gpHeld ((e, k) :: held) = gpHeld held + if k < INTEL_PMC_IDX_FIXED then 1 else 0 := by
  rw [gpHeld, countP_cons]
  simp [gpHeld]

theorem Exact.found (h : Exact cs state held) (hc : cs[state.event]? = some c)
    (hfree : state.used &&& counterMask c k = 0) : KeptExact cs { state with
      used := state.used ||| counterMask c k
      nrGp := state.nrGp + if k < INTEL_PMC_IDX_FIXED then 1 else 0
      counter := k } held := by
  refine ⟨⟨?_, ?_⟩, c, hc, ?_⟩
  · rw [heldMask_cons hc, ← h.used]
  · rw [gpHeld_cons, ← h.nrGp]
  · rw [← h.used]
    exact hfree

theorem findFree_eq_none {used : BitVec 64} {mask : Nat → BitVec 64} {idx size : Nat} :
    findFree c used mask idx size = none ↔
      ∀ k, idx ≤ k → k < size → c.idxmsk.getLsbD k = true → used &&& mask k ≠ 0 := by
  simp only [findFree, find?_eq_none, mem_range'_1, Bool.and_eq_true, beq_iff_eq, not_and, and_imp]
  refine forall₂_congr fun k hk => ⟨fun h hlt => h (by omega), fun h hlt => h (by omega)⟩

theorem findFixed_eq_none {used : BitVec 64} : findFixed c used = none ↔
    ∀ k, INTEL_PMC_IDX_FIXED ≤ k → k < X86_PMC_IDX_MAX → c.idxmsk.getLsbD k = true →
      used &&& bitUll k ≠ 0 := by
  rw [findFixed]
  split
  · exact findFree_eq_none
  next hmask =>
    -- no bit of the mask is that of a fixed counter
    refine iff_of_true rfl fun k hk hlt hbit => ?_
    have hzero := congrArg (·.getLsbD k) (not_not.1 hmask)
    rw [BitVec.getLsbD_and, hbit, BitVec.getLsbD_shiftLeft, BitVec.getLsbD_allOnes] at hzero
    unfold INTEL_PMC_IDX_FIXED at hk hzero
    unfold X86_PMC_IDX_MAX at hlt
    simp [hlt, Nat.not_lt.2 hk, show k - 32 < 64 by omega] at hzero

/-- A search at the limit fails with one more in `nr_gp`, every other one that fails changes
nothing. -/
theorem findCounterOnce_failed (sched : PerfSched) :
    (AtLimit sched → perfSchedFindCounterOnce sched =
      (false, { sched with state.nrGp := sched.state.nrGp + 1 })) ∧
    ∀ sched', ¬ AtLimit sched → perfSchedFindCounterOnce sched = (false, sched') →
      sched' = sched := by
  constructor
  · rintro ⟨hleft, hgp, c, hc, hfixed, k, hk⟩
    have hnone := findFixed_eq_none.2 hfixed
    cases hfree : findFree c sched.state.used (gpMask c) sched.state.counter
      INTEL_PMC_IDX_FIXED with
    | none => exact absurd hk.2.2.2 (findFree_eq_none.1 hfree k hk.1 hk.2.1 hk.2.2.1)
    | some idx =>
      simp only [perfSchedFindCounterOnce, hc, hnone, hfree, if_neg hleft]
      exact if_pos (by push_cast; omega)
  · intro sched' hlimit h
    simp only [perfSchedFindCounterOnce] at h
    split_ifs at h with hleft
    · cases h
      rfl
    repeat' split at h
    all_goals first
      | cases h
        rfl
      | cases h
    next hgp _ c hc _ hfixed _ idx hfree =>
      refine absurd ⟨hleft, ?_, c, hc, findFixed_eq_none.1 hfixed, idx,
        findFree_eq_some hfree⟩ hlimit
      push_cast at hgp
      omega

theorem nextEvent_keeps (sched : PerfSched) : ∃ weight event counter unassigned,
    (perfSchedNextEvent sched).2 = { sched with state := { sched.state with
      weight := weight, event := event, counter := counter, unassigned := unassigned } } := by
  simp only [perfSchedNextEvent]
  repeat' split
  all_goals exact ⟨_, _, _, _, rfl⟩

theorem Leaks.step (h : r.Leaks) (hkept : r.Kept) : ∃ r', r.step = some r' := by
  obtain ⟨pc, sched, held, kept⟩ := r
  rcases h with ⟨rfl, x, hx, -⟩ | ⟨rfl, hlimit⟩
  · obtain ⟨maxWeight, maxGp, cs, state, saved⟩ := sched
    simp only [Kept] at hkept
    cases hkept with
    | nil => cases hx
    | cons hfirst hrest => exact ⟨_, rfl⟩
  · simp only [SchedRun.step, (findCounterOnce_failed sched).1 hlimit]
    exact ⟨_, rfl⟩

variable {sched sched' : PerfSched} {found : Bool} {kept : List (List (Nat × Nat))}

theorem findCounter_reaches (hlen : kept.length = sched.saved.length)
    (hfind : perfSchedFindCounter sched = (found, sched')) : ∃ held' kept',
    kept'.length = sched'.saved.length ∧ (found = false → sched'.saved = []) ∧
    Reaches ⟨.search, sched, held, kept⟩ ⟨if found then .found else .failed, sched', held',
      kept'⟩ := by
  induction sched using perfSchedFindCounter.induct generalizing held kept with
  | case1 sched sched₁ honce =>
    rw [findCounter_found honce] at hfind
    cases hfind
    have hsaved : sched'.saved.length = sched.saved.length ∨
        sched'.saved.length = sched.saved.length + 1 := by
      obtain ⟨c, k, -, -, -, -, -, -, rfl⟩ := findCounterOnce_found honce
      rw [counterFound_eq]
      dsimp only
      split
      · exact .inr rfl
      · exact .inl rfl
    refine ⟨_, _, ?_, by simp, .single (by simp only [step, honce]; rfl)⟩
    split
    · rw [length_cons]
      omega
    · omega
  | case2 sched sched₁ honce hsaved =>
    rw [findCounter_failed honce, hsaved] at hfind
    cases hfind
    obtain ⟨n, rfl⟩ := not_found honce
    exact ⟨held, kept, hlen, fun _ => hsaved, .single (by simp only [step, honce]; rfl)⟩
  | case3 sched sched₁ honce state saved hsaved ih =>
    rw [findCounter_failed honce, hsaved] at hfind
    obtain ⟨n, rfl⟩ := not_found honce
    rw [show sched.saved = state :: saved from hsaved] at hlen
    obtain ⟨held₁, kept, rfl⟩ := exists_of_length_succ kept hlen
    obtain ⟨held', kept', hlen', hempty, hrest⟩ := @ih held₁ kept (Nat.succ.inj hlen) hfind
    refine ⟨held', kept', hlen', hempty, .head (by simp only [step, honce]; rfl) (.head ?_ hrest)⟩
    simp only [step]
    rw [show sched.saved = state :: saved from hsaved]

variable {assign assign' : Option (Nat → Nat)}

theorem assignLoop_reaches {fuel n : Nat} (hlen : kept.length = sched.saved.length)
    (h : assignLoop fuel sched assign = some (n, assign')) :
    ∃ r, Reaches ⟨.search, sched, held, kept⟩ r ∧ r.step = none ∧ r.sched.state.unassigned = n := by
  induction fuel generalizing sched held kept assign with
  | zero => cases h
  | succ fuel ih =>
    rw [assignLoop] at h
    cases hfind : perfSchedFindCounter sched with
    | mk found sched₁ =>
      obtain ⟨held₁, kept₁, hlen₁, hempty, hreach⟩ := @findCounter_reaches held _ _ _ _ hlen hfind
      rw [hfind] at h
      cases found with
      | false =>
        cases h
        refine ⟨_, hreach, ?_, rfl⟩
        simp [step, hempty rfl]
      | true =>
        obtain ⟨weight, event, counter, unassigned, hkeeps⟩ := nextEvent_keeps sched₁
        have hstep : step ⟨.found, sched₁, held₁, kept₁⟩ = some
            ⟨if (perfSchedNextEvent sched₁).1 then .search else .done,
            (perfSchedNextEvent sched₁).2,
              held₁, kept₁⟩ := rfl
        simp only [Bool.not_true, Bool.false_eq_true, if_false] at h
        split at h
        next hmore =>
          rw [hmore, if_pos rfl] at hstep
          obtain ⟨r, hr, hend, hn⟩ := @ih held₁ _ _ _ (by rw [hkeeps]; exact hlen₁) h
          exact ⟨r, (hreach.tail hstep).trans hr, hend, hn⟩
        next hmore =>
          cases h
          rw [if_neg hmore] at hstep
          exact ⟨_, hreach.tail hstep, rfl, rfl⟩

/-- When `perf_assign_events` returns, its run has come to an end with the same number of events. -/
theorem perfAssignEvents_reaches {fuel n : Nat} {wmin wmax gpmax : Int}
    (h : perfAssignEvents fuel cs wmin wmax gpmax assign = some (n, assign')) :
    ∃ r, Reaches (init cs wmin wmax gpmax) r ∧ r.step = none ∧ r.sched.state.unassigned = n :=
  assignLoop_reaches rfl h

theorem perfAssignEvents_reaches_fixedPair :
    ∃ r, Reaches (init fixedPair 1 1 4) r ∧ r.step = none ∧ r.sched.state.unassigned = 0 :=
  perfAssignEvents_reaches perfAssignEvents_fixedPair

end SchedRun

end LinuxKernel.X86
