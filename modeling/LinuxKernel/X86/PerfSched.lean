import Mathlib

/-!
# Assigning events to performance counters

`perf_assign_events` of `arch/x86/events/core.c`: events are taken in the order of their weights,
each gets the first counter of its mask that is free, and a small stack of saved states lets the
search try the next counter for an event whose constraint overlaps with others.
-/

namespace LinuxKernel.X86

open List hiding getElem?_eq_some_iff
open Function Nat List Prod
open BitVec

/-! ## The code -/

def INTEL_PMC_IDX_FIXED : Nat := 32
def X86_PMC_IDX_MAX : Nat := 64
def SCHED_STATES_MAX : Nat := 2
def PERF_X86_EVENT_PAIR : BitVec 32 := 0x01000

def bitUll (nr : Nat) : BitVec 64 := BitVec.twoPow 64 nr

structure EventConstraint where
  idxmsk : BitVec 64
  weight : Int
  overlap : Bool
  flags : BitVec 32
  deriving DecidableEq, Repr

structure SchedState where
  weight : Int
  event : Nat
  counter : Nat
  unassigned : Nat
  nrGp : Nat
  used : BitVec 64
  deriving DecidableEq, Repr

/-- `struct perf_sched`; the last saved state is the first of `saved`. -/
structure PerfSched where
  maxWeight : Int
  maxGp : Int
  constraints : List EventConstraint
  state : SchedState
  saved : List SchedState
  deriving DecidableEq, Repr

def perfSchedInit (constraints : List EventConstraint) (wmin wmax gpmax : Int) : PerfSched where
  maxWeight := wmax
  maxGp := gpmax
  constraints := constraints
  state :=
    { weight := wmin
      event := constraints.findIdx fun c => c.weight == wmin
      counter := 0
      unassigned := constraints.length
      nrGp := 0
      used := 0 }
  saved := []

def perfSchedSaveState (sched : PerfSched) : PerfSched :=
  if SCHED_STATES_MAX ≤ sched.saved.length then sched
  else { sched with saved := sched.state :: sched.saved }

/-- What `perf_sched_restore_state` makes of a saved state: the counter did not work out, the next
one is to be tried. -/
def SchedState.retry (state : SchedState) : SchedState :=
  { state with used := state.used &&& ~~~bitUll state.counter, counter := state.counter + 1 }

def gpMask (c : EventConstraint) (idx : Nat) : BitVec 64 :=
  let mask := bitUll idx
  if c.flags &&& PERF_X86_EVENT_PAIR ≠ 0 then mask ||| mask <<< 1 else mask

def findFree (c : EventConstraint) (used : BitVec 64) (mask : Nat → BitVec 64) (idx size : Nat) :
    Option Nat :=
  (List.range' idx (size - idx)).find? fun idx => c.idxmsk.getLsbD idx && used &&& mask idx == 0

def findFixed (c : EventConstraint) (used : BitVec 64) : Option Nat :=
  if c.idxmsk &&& BitVec.allOnes 64 <<< INTEL_PMC_IDX_FIXED ≠ 0 then
    findFree c used bitUll INTEL_PMC_IDX_FIXED X86_PMC_IDX_MAX
  else none

def counterFound (sched : PerfSched) (c : EventConstraint) (state : SchedState) (idx : Nat) :
    PerfSched :=
  let sched := { sched with state := { state with counter := idx } }
  if c.overlap then perfSchedSaveState sched else sched

/-- `__perf_sched_find_counter` -/
def perfSchedFindCounterOnce (sched : PerfSched) : Bool × PerfSched :=
  let state := sched.state
  if state.unassigned = 0 then (false, sched)
  else
    match sched.constraints[state.event]? with
    | none => (false, sched)
    | some c =>
      match findFixed c state.used with
      | some idx =>
        (true, counterFound sched c { state with used := state.used ||| bitUll idx } idx)
      | none =>
        match findFree c state.used (gpMask c) state.counter INTEL_PMC_IDX_FIXED with
        | none => (false, sched)
        | some idx =>
          let state := { state with nrGp := state.nrGp + 1 }
          if sched.maxGp < state.nrGp then (false, { sched with state := state })
          else
            (true, counterFound sched c { state with used := state.used ||| gpMask c idx } idx)

theorem not_found {sched sched' : PerfSched}
    (h : perfSchedFindCounterOnce sched = (false, sched')) :
    ∃ n, sched' = { sched with state := { sched.state with nrGp := n } } := by
  simp only [perfSchedFindCounterOnce] at h
  repeat' split at h
  all_goals cases h
  all_goals exact ⟨_, rfl⟩

def perfSchedFindCounter (sched : PerfSched) : Bool × PerfSched :=
  match _hfind : perfSchedFindCounterOnce sched with
  | (true, sched') => (true, sched')
  | (false, sched') =>
    match _hsaved : sched'.saved with
    | [] => (false, sched')
    | state :: saved => perfSchedFindCounter { sched' with state := state.retry, saved := saved }
termination_by sched.saved.length
decreasing_by
  obtain ⟨n, rfl⟩ := not_found _hfind
  rw [show sched.saved = state :: saved from _hsaved]
  exact Nat.lt_succ_self _

/-- The loop of `perf_sched_next_event`: whether it ends at an event, with the weight and the event
it ends at. -/
def nextEvent (constraints : List EventConstraint) (maxWeight weight : Int) (event : Nat) :
    Bool × Int × Nat :=
  if event + 1 < constraints.length then
    if (constraints[event + 1]?.map (·.weight)) = some weight then (true, weight, event + 1)
    else nextEvent constraints maxWeight weight (event + 1)
  else if maxWeight < weight + 1 then (false, weight + 1, 0)
  else if (constraints[0]?.map (·.weight)) = some (weight + 1) then (true, weight + 1, 0)
  else nextEvent constraints maxWeight (weight + 1) 0
termination_by ((maxWeight - weight).toNat, constraints.length - event)

def perfSchedNextEvent (sched : PerfSched) : Bool × PerfSched :=
  let state := sched.state
  if state.unassigned = 0 then (false, sched)
  else
    let state := { state with unassigned := state.unassigned - 1 }
    if state.unassigned = 0 then (false, { sched with state := state })
    else
      match nextEvent sched.constraints sched.maxWeight state.weight state.event with
      | (false, weight, event) =>
        (false, { sched with state := { state with weight := weight, event := event } })
      | (true, weight, event) =>
        (true, { sched with
          state := { state with weight := weight, event := event, counter := 0 } })

/-- The loop of `perf_assign_events`, at most `fuel` times: what it returns, and the counters of the
events. -/
def assignLoop : Nat → PerfSched → Option (Nat → Nat) → Option (Nat × Option (Nat → Nat))
  | 0, _, _ => none
  | fuel + 1, sched, assign =>
    let (found, sched) := perfSchedFindCounter sched
    if !found then some (sched.state.unassigned, assign)
    else
      let assign := assign.map fun assign =>
        Function.update assign sched.state.event sched.state.counter
      let (more, sched) := perfSchedNextEvent sched
      if more then assignLoop fuel sched assign else some (sched.state.unassigned, assign)

/-- `perf_assign_events`; the array `assign` may be `NULL`. -/
def perfAssignEvents (fuel : Nat) (constraints : List EventConstraint) (wmin wmax gpmax : Int)
    (assign : Option (Nat → Nat)) : Option (Nat × Option (Nat → Nat)) :=
  assignLoop fuel (perfSchedInit constraints wmin wmax gpmax) assign

/-! ## Counters that events own -/

/-- The counters that an event has when it is assigned counter `k`: the merge event of a pair takes
the next counter, if it is one for general purposes. -/
def Owns (c : EventConstraint) (k i : Nat) : Prop :=
  i = k ∨ (c.flags &&& PERF_X86_EVENT_PAIR ≠ 0 ∧ k < INTEL_PMC_IDX_FIXED ∧ i = k + 1)

variable {i k : Nat}

theorem getLsbD_bitUll (hi : i < 64) : (bitUll k).getLsbD i = decide (i = k) := by
  rw [bitUll]
  by_cases hik : i = k
  · simp [hik, hik ▸ hi]
  · simp [hik, Ne.symm hik]

variable {c : EventConstraint}

theorem getLsbD_gpMask (hk : k < INTEL_PMC_IDX_FIXED)
    (hi : i < 64) : (gpMask c k).getLsbD i = true ↔ Owns c k i := by
  have hbit := getLsbD_bitUll (k := k) hi
  have hshift : (bitUll k <<< 1).getLsbD i = decide (i = k + 1) := by
    rw [getLsbD_shiftLeft]
    rcases Nat.eq_zero_or_pos i with rfl | hpos
    · simp
    · rw [getLsbD_bitUll (show i - 1 < 64 by omega)]
      have hiff : i - 1 = k ↔ i = k + 1 := by omega
      simp [hi, hiff, Nat.not_lt.2 hpos]
  unfold gpMask
  by_cases hpair : c.flags &&& PERF_X86_EVENT_PAIR ≠ 0
  · rw [if_pos hpair, getLsbD_or, hbit, hshift, Bool.or_eq_true, decide_eq_true_eq,
      decide_eq_true_eq]
    exact or_congr_right ⟨fun h => ⟨hpair, hk, h⟩, fun h => h.2.2⟩
  · rw [if_neg hpair, hbit, decide_eq_true_eq]
    exact ⟨.inl, fun h => h.resolve_right fun hpair' => hpair hpair'.1⟩

def counterMask (c : EventConstraint) (k : Nat) : BitVec 64 :=
  if k < INTEL_PMC_IDX_FIXED then gpMask c k else bitUll k

theorem getLsbD_counterMask (hi : i < 64) : (counterMask c k).getLsbD i = true ↔ Owns c k i := by
  unfold counterMask
  split
  next hk => exact getLsbD_gpMask hk hi
  next hk =>
    rw [getLsbD_bitUll hi, decide_eq_true_eq]
    exact ⟨.inl, fun h => h.resolve_right fun hpair => hk hpair.2.1⟩

theorem owns_lt (hk : k < 64) (h : Owns c k i) : i < 64 := by
  rcases h with rfl | ⟨-, hlt, rfl⟩
  · exact hk
  · unfold INTEL_PMC_IDX_FIXED at hlt
    omega

theorem findFree_eq_some {used : BitVec 64} {mask : Nat → BitVec 64}
    {idx size : Nat} (h : findFree c used mask idx size = some k) :
    idx ≤ k ∧ k < size ∧ c.idxmsk.getLsbD k = true ∧ used &&& mask k = 0 := by
  have hmem := mem_of_find?_eq_some h
  have hfree := find?_some h
  rw [mem_range'_1] at hmem
  simp only [Bool.and_eq_true, beq_iff_eq] at hfree
  exact ⟨hmem.1, by omega, hfree⟩

/-! ## The invariant

A trail has the events that have a counter, with it, in the order in which they got it. -/

section
variable {cs : List EventConstraint} {maxGp : Int} {used used' : BitVec 64} {nrGp nrGp' : Nat}
  {trail : List (Nat × Nat)} {state : SchedState} {assign : Nat → Nat} {c : EventConstraint}
  {e k : Nat}

/-- Two events of a trail have no counter in common. -/
def Apart (cs : List EventConstraint) (p q : Nat × Nat) : Prop :=
  ∀ c c', cs[p.1]? = some c → cs[q.1]? = some c' → ∀ i, Owns c p.2 i → ¬ Owns c' q.2 i

instance (cs : List EventConstraint) : Std.Symm (Apart cs) where
  symm _ _ hapart c c' hc hc' i howns howns' := hapart c' c hc' hc i howns' howns

/-- The events of the trail have counters of their masks, which they do not share and which are
marked as used; `nrGp` is at least the number of general purpose counters among them. -/
structure Held (cs : List EventConstraint) (maxGp : Int) (used : BitVec 64) (nrGp : Nat)
    (trail : List (Nat × Nat)) : Prop where
  valid : ∀ p ∈ trail, ∃ c, cs[p.1]? = some c ∧ p.2 < 64 ∧ c.idxmsk.getLsbD p.2 = true
  apart : trail.Pairwise (Apart cs)
  nodup : (trail.map Prod.fst).Nodup
  used : ∀ p ∈ trail, ∀ c, cs[p.1]? = some c → ∀ i, Owns c p.2 i → used.getLsbD i = true
  gp : trail.countP (·.2 < INTEL_PMC_IDX_FIXED) ≤ nrGp
  gp_le : (nrGp : Int) ≤ max maxGp 0

def Before (weight : Int) (event : Nat) (weight' : Int) (event' : Nat) : Prop :=
  weight < weight' ∨ (weight = weight' ∧ event < event')

/-- The state is about to find a counter for its event, after those of the trail. -/
structure Front (cs : List EventConstraint) (maxGp : Int) (state : SchedState)
    (trail : List (Nat × Nat)) : Prop where
  held : Held cs maxGp state.used state.nrGp trail
  order : ∀ p ∈ trail, ∀ c, cs[p.1]? = some c → Before c.weight p.1 state.weight state.event
  weight : ∀ c, cs[state.event]? = some c → c.weight = state.weight
  count : trail.length + state.unassigned = cs.length

def Agrees (assign : Nat → Nat) (trail : List (Nat × Nat)) : Prop :=
  ∀ p ∈ trail, assign p.1 = p.2

structure Chosen (cs : List EventConstraint) (maxGp : Int) (state : SchedState)
    (trail : List (Nat × Nat)) : Prop where
  left : state.unassigned ≠ 0
  held : Held cs maxGp state.used state.nrGp (trail ++ [(state.event, state.counter)])
  order : ∀ p ∈ trail, ∀ c, cs[p.1]? = some c → Before c.weight p.1 state.weight state.event
  weight : ∀ c, cs[state.event]? = some c → c.weight = state.weight
  count : trail.length + state.unassigned = cs.length

theorem not_before_self (weight : Int) (event : Nat) : ¬ Before weight event weight event := by
  unfold Before
  omega

theorem Before.trans {w w' w'' : Int} {e e' e'' : Nat} (h : Before w e w' e')
    (h' : Before w' e' w'' e'') : Before w e w'' e'' := by
  unfold Before at h h' ⊢
  omega

theorem Front.event_notMem (h : Front cs maxGp state trail) (hc : cs[state.event]? = some c) :
    state.event ∉ trail.map fst := by
  intro hmem
  obtain ⟨p, hp, heq⟩ := mem_map.1 hmem
  have horder := h.order p hp c (heq ▸ hc)
  rw [h.weight c hc, Before] at horder
  omega

theorem Held.add (h : Held cs maxGp used nrGp trail) (hc : cs[e]? = some c)
    (he : e ∉ trail.map fst) (hk : k < 64) (hmask : c.idxmsk.getLsbD k = true)
    (hfree : ∀ i, Owns c k i → used.getLsbD i = false)
    (hused : ∀ i, used.getLsbD i = true ∨ Owns c k i → used'.getLsbD i = true)
    (hgp : nrGp + (if k < INTEL_PMC_IDX_FIXED then 1 else 0) ≤ nrGp')
    (hgp_le : (nrGp' : Int) ≤ max maxGp 0) : Held cs maxGp used' nrGp' (trail ++ [(e, k)]) := by
  refine ⟨?_, ?_, ?_, ?_, ?_, hgp_le⟩
  · exact forall_mem_append.2 ⟨h.valid, forall_mem_singleton.2 ⟨c, hc, hk, hmask⟩⟩
  · refine pairwise_append.2 ⟨h.apart, pairwise_singleton _ _, ?_⟩
    intro p hp q hq c' c'' hc' hc'' i howns howns'
    obtain rfl := mem_singleton.1 hq
    cases hc.symm.trans hc''
    have hbit := h.used p hp c' hc' i howns
    rw [hfree i howns'] at hbit
    cases hbit
  · rw [map_append, nodup_append]
    refine ⟨h.nodup, nodup_singleton _, ?_⟩
    intro a ha b hb hab
    obtain rfl := mem_singleton.1 hb
    exact he (hab ▸ ha)
  · refine forall_mem_append.2 ⟨fun p hp c' hc' i howns => ?_,
      forall_mem_singleton.2 fun c' hc' i howns => ?_⟩
    · exact hused i (.inl (h.used p hp c' hc' i howns))
    · cases hc.symm.trans hc'
      exact hused i (.inr howns)
  · have hgp' := h.gp
    rw [countP_append, countP_singleton]
    simp only [decide_eq_true_eq]
    omega

/-- The bits of a trail stay marked when the counter of the event behind it is taken back. -/
theorem Held.retry (h : Held cs maxGp used nrGp (trail ++ [(e, k)])) (hc : cs[e]? = some c)
    (hk : k < 64) : Held cs maxGp (used &&& ~~~bitUll k) nrGp trail := by
  obtain ⟨hleft, -, hcross⟩ := pairwise_append.1 h.apart
  refine ⟨fun p hp => h.valid p (mem_append_left _ hp), hleft, ?_, ?_, ?_, h.gp_le⟩
  · have hnodup := h.nodup
    rw [map_append] at hnodup
    exact (nodup_append.1 hnodup).1
  · intro p hp c' hc' i howns
    obtain ⟨c'', hc'', hlt, -⟩ := h.valid p (mem_append_left _ hp)
    have hi := owns_lt hlt howns
    have hne : i ≠ k := by
      rintro rfl
      exact hcross p hp (e, i) (by simp) c' c hc' hc i howns (.inl rfl)
    rw [getLsbD_and, getLsbD_not, getLsbD_bitUll hi, h.used p (mem_append_left _ hp) c' hc' i howns]
    simp [hi, hne]
  · have hgp := h.gp
    rw [countP_append] at hgp
    omega

theorem Chosen.front_retry (h : Chosen cs maxGp state trail) :
    Front cs maxGp state.retry trail := by
  obtain ⟨c, hc, hk, -⟩ := h.held.valid (state.event, state.counter) (by simp)
  exact ⟨h.held.retry hc hk, h.order, h.weight, h.count⟩

end

/-- The states that may be restored: the trail before each of them is still what was assigned. -/
structure Stack (cs : List EventConstraint) (maxGp : Int) (assign : Nat → Nat) (state : SchedState)
    (saved : List SchedState) : Prop where
  restorable : ∀ sv ∈ saved, ∃ trail, Front cs maxGp sv.retry trail ∧ Agrees assign trail
  ordered : (state :: saved).Pairwise fun a b => ¬ Before a.weight a.event b.weight b.event

structure Inv (sched : PerfSched) (assign : Nat → Nat) : Prop where
  front : ∃ trail, Front sched.constraints sched.maxGp sched.state trail ∧ Agrees assign trail
  stack : Stack sched.constraints sched.maxGp assign sched.state sched.saved

structure Found (sched : PerfSched) (assign : Nat → Nat) : Prop where
  chosen : ∃ trail, Chosen sched.constraints sched.maxGp sched.state trail ∧ Agrees assign trail
  stack : Stack sched.constraints sched.maxGp assign sched.state sched.saved

section
variable {sched sched' : PerfSched} {assign : Nat → Nat} {c : EventConstraint}
  {state state' : SchedState} {idx : Nat} {saved : List SchedState} {trail : List (Nat × Nat)}

theorem counterFound_eq (sched : PerfSched) (c : EventConstraint) (state : SchedState) (idx : Nat) :
    counterFound sched c state idx = { sched with
      state := { state with counter := idx }
      saved := if c.overlap ∧ sched.saved.length < SCHED_STATES_MAX then
        { state with counter := idx } :: sched.saved else sched.saved } := by
  simp only [counterFound, perfSchedSaveState]
  by_cases hoverlap : c.overlap = true
  · by_cases hfull : SCHED_STATES_MAX ≤ sched.saved.length
    · simp [hoverlap, hfull, Nat.not_lt.2 hfull]
    · simp [hoverlap, hfull, Nat.not_le.1 hfull]
  · simp [hoverlap]

theorem found_counterFound
    (hstack : Stack sched.constraints sched.maxGp assign sched.state sched.saved)
    (hweight : state.weight = sched.state.weight) (hevent : state.event = sched.state.event)
    (hchosen : Chosen sched.constraints sched.maxGp { state with counter := idx } trail)
    (hagrees : Agrees assign trail) : Found (counterFound sched c state idx) assign := by
  have hstack' : Stack sched.constraints sched.maxGp assign { state with counter := idx }
      sched.saved := by
    refine ⟨hstack.restorable, ?_⟩
    rw [pairwise_cons, hweight, hevent]
    exact pairwise_cons.1 hstack.ordered
  rw [counterFound_eq]
  refine ⟨⟨trail, hchosen, hagrees⟩, ?_⟩
  split
  · refine ⟨?_, pairwise_cons.2 ⟨?_, hstack'.ordered⟩⟩
    · exact forall_mem_cons.2 ⟨⟨trail, hchosen.front_retry, hagrees⟩, hstack'.restorable⟩
    · exact forall_mem_cons.2 ⟨not_before_self _ _, (pairwise_cons.1 hstack'.ordered).1⟩
  · exact hstack'

/-- A counter that was found is free and of the mask of the event; a general purpose counter is not
before the one where the search starts, and within the limit. -/
theorem findCounterOnce_found (h : perfSchedFindCounterOnce sched = (true, sched')) :
    ∃ c k, sched.state.unassigned ≠ 0 ∧ sched.constraints[sched.state.event]? = some c ∧ k < 64 ∧
      c.idxmsk.getLsbD k = true ∧ sched.state.used &&& counterMask c k = 0 ∧
      (k < INTEL_PMC_IDX_FIXED →
        sched.state.counter ≤ k ∧ ((sched.state.nrGp + 1 : Nat) : Int) ≤ sched.maxGp) ∧
      sched' = counterFound sched c { sched.state with
        used := sched.state.used ||| counterMask c k
        nrGp := sched.state.nrGp + if k < INTEL_PMC_IDX_FIXED then 1 else 0 } k := by
  simp only [perfSchedFindCounterOnce] at h
  split at h
  · cases h
  next hleft =>
    split at h
    · cases h
    rename_i c hc
    split at h
    · rename_i k hfixed
      cases h
      unfold findFixed at hfixed
      split at hfixed
      · obtain ⟨hlo, hhi, hmask, hfree⟩ := findFree_eq_some hfixed
        have hk : ¬ k < INTEL_PMC_IDX_FIXED := Nat.not_lt.2 hlo
        refine ⟨c, k, hleft, hc, hhi, hmask, ?_, fun hlt => absurd hlt hk, ?_⟩
        · rwa [counterMask, if_neg hk]
        · rw [counterMask, if_neg hk, if_neg hk]
          rfl
      · cases hfixed
    · split at h
      · cases h
      rename_i k hgp
      split at h
      · cases h
      next hmax =>
        cases h
        obtain ⟨hlo, hhi, hmask, hfree⟩ := findFree_eq_some hgp
        refine ⟨c, k, hleft, hc, Nat.lt_trans hhi (by decide), hmask, ?_,
          fun _ => ⟨hlo, Int.not_lt.1 hmax⟩, ?_⟩
        · rwa [counterMask, if_pos hhi]
        · rw [counterMask, if_pos hhi, if_pos hhi]

/-- A counter whose bits are not used is free, and its bits are marked. -/
theorem owns_of_free {used : BitVec 64} (hk : idx < 64) (hfree : used &&& counterMask c idx = 0) :
    (∀ i, Owns c idx i → used.getLsbD i = false) ∧
      ∀ i, used.getLsbD i = true ∨ Owns c idx i →
        (used ||| counterMask c idx).getLsbD i = true := by
  have hmask := fun i (howns : Owns c idx i) => (getLsbD_counterMask (owns_lt hk howns)).2 howns
  constructor
  · intro i howns
    have hbit := congrArg (·.getLsbD i) hfree
    simp only [getLsbD_and, hmask i howns, Bool.and_true] at hbit
    rw [hbit]
    exact getLsbD_zero
  · rintro i (hbit | howns)
    · rw [getLsbD_or, hbit, Bool.true_or]
    · rw [getLsbD_or, hmask i howns, Bool.or_true]

/-- `__perf_sched_find_counter` finds a counter that no event of the trail has, or leaves the saved
states and the number of events to go as they are. -/
theorem findCounterOnce_spec (h : Inv sched assign)
    (hfind : perfSchedFindCounterOnce sched = (true, sched')) :
    Found sched' assign ∧ sched'.constraints = sched.constraints ∧ sched'.maxGp = sched.maxGp := by
  obtain ⟨trail, hfront, hagrees⟩ := h.front
  obtain ⟨c, k, hleft, hc, hk, hmask, hfree, hgp, rfl⟩ := findCounterOnce_found hfind
  have hbits := owns_of_free hk hfree
  have hgp_le := hfront.held.gp_le
  refine ⟨found_counterFound h.stack rfl rfl ?_ hagrees, ?_⟩
  · refine ⟨hleft, hfront.held.add hc (hfront.event_notMem hc) hk hmask hbits.1 hbits.2
      (Nat.le_refl _) ?_, hfront.order, hfront.weight, hfront.count⟩
    dsimp only
    split <;> omega
  · rw [counterFound_eq]
    exact ⟨rfl, rfl⟩

/-- All events of a trail have their counters; `unassigned` events are left. -/
def Assigned (cs : List EventConstraint) (maxGp : Int) (assign : Nat → Nat) (unassigned : Nat) :
    Prop :=
  ∃ trail used nrGp, Held cs maxGp used nrGp trail ∧ Agrees assign trail ∧
    trail.length + unassigned = cs.length

theorem findCounter_found (h : perfSchedFindCounterOnce sched = (true, sched')) :
    perfSchedFindCounter sched = (true, sched') := by
  rw [perfSchedFindCounter]
  split
  next heq =>
    cases h.symm.trans heq
    rfl
  next heq => cases h.symm.trans heq

theorem findCounter_failed (h : perfSchedFindCounterOnce sched = (false, sched')) :
    perfSchedFindCounter sched =
      match sched'.saved with
      | [] => (false, sched')
      | state :: saved =>
        perfSchedFindCounter { sched' with state := state.retry, saved := saved } := by
  rw [perfSchedFindCounter]
  split
  next heq => cases h.symm.trans heq
  next heq =>
    cases h.symm.trans heq
    split <;> rename_i hsaved <;> rw [hsaved]

/-- The last search starts from the state, or from a saved one that is restored. -/
theorem findCounter_start {found : Bool} (hfind : perfSchedFindCounter sched = (found, sched')) :
    ∃ start, start.constraints = sched.constraints ∧ start.maxGp = sched.maxGp ∧
      perfSchedFindCounterOnce start = (found, sched') ∧
      (start = sched ∨ ∃ x, start.state = x.retry ∧ x :: start.saved <:+ sched.saved) := by
  induction sched using perfSchedFindCounter.induct with
  | case1 sched sched₁ honce =>
    rw [findCounter_found honce] at hfind
    cases hfind
    exact ⟨sched, rfl, rfl, honce, .inl rfl⟩
  | case2 sched sched₁ honce hsaved =>
    rw [findCounter_failed honce, hsaved] at hfind
    cases hfind
    exact ⟨sched, rfl, rfl, honce, .inl rfl⟩
  | case3 sched sched₁ honce state saved hsaved ih =>
    rw [findCounter_failed honce, hsaved] at hfind
    obtain ⟨n, rfl⟩ := not_found honce
    obtain ⟨start, hconstraints, hmaxGp, honce', hfrom⟩ := ih hfind
    refine ⟨start, hconstraints, hmaxGp, honce', .inr ?_⟩
    rw [show sched.saved = state :: saved from hsaved]
    rcases hfrom with rfl | ⟨x, hx, hsuffix⟩
    · exact ⟨state, rfl, suffix_rfl⟩
    · exact ⟨x, hx, hsuffix.trans (suffix_cons ..)⟩

theorem Inv.restore {start : PerfSched} {x : SchedState} (h : Inv sched assign)
    (hconstraints : start.constraints = sched.constraints) (hmaxGp : start.maxGp = sched.maxGp)
    (hx : start.state = x.retry) (hsuffix : x :: start.saved <:+ sched.saved) :
    Inv start assign := by
  obtain ⟨hrestorable, hordered⟩ := h.stack
  have hrest := (pairwise_cons.1 hordered).2.sublist hsuffix.sublist
  refine ⟨?_, ?_, ?_⟩
  · rw [hconstraints, hmaxGp, hx]
    exact hrestorable x (hsuffix.subset mem_cons_self)
  · rw [hconstraints, hmaxGp]
    exact fun sv hsv => hrestorable sv (hsuffix.subset (mem_cons_of_mem _ hsv))
  · rw [pairwise_cons] at hrest ⊢
    rw [hx]
    exact hrest

theorem findCounter_spec (h : Inv sched assign) {found : Bool}
    (hfind : perfSchedFindCounter sched = (found, sched')) :
    sched'.constraints = sched.constraints ∧ sched'.maxGp = sched.maxGp ∧
      if found then Found sched' assign
      else Assigned sched.constraints sched.maxGp assign sched'.state.unassigned := by
  obtain ⟨start, hconstraints, hmaxGp, honce, hfrom⟩ := findCounter_start hfind
  have hstart : Inv start assign := by
    rcases hfrom with rfl | ⟨x, hx, hsuffix⟩
    · exact h
    · exact h.restore hconstraints hmaxGp hx hsuffix
  rw [← hconstraints, ← hmaxGp]
  cases found with
  | true =>
    obtain ⟨hfound, hsame⟩ := findCounterOnce_spec hstart honce
    exact ⟨hsame.1, hsame.2, hfound⟩
  | false =>
    obtain ⟨n, rfl⟩ := not_found honce
    obtain ⟨trail, hfront, hagrees⟩ := hstart.front
    exact ⟨rfl, rfl, trail, _, _, hfront.held, hagrees, hfront.count⟩

/-! ## The next event -/

theorem nextEvent_spec {cs : List EventConstraint} {maxWeight weight weight' : Int}
    {event event' : Nat} (h : nextEvent cs maxWeight weight event = (true, weight', event')) :
    Before weight event weight' event' ∧ ∀ c, cs[event']? = some c → c.weight = weight' := by
  have hmatch : ∀ {w : Int} {e : Nat}, cs[e]?.map (·.weight) = some w →
      ∀ c, cs[e]? = some c → c.weight = w := by
    intro w e hmap c hc
    rw [hc] at hmap
    exact Option.some.inj hmap
  induction weight, event using nextEvent.induct cs maxWeight with
  | case1 weight event hlt hweight =>
    rw [nextEvent, if_pos hlt, if_pos hweight] at h
    cases h
    exact ⟨.inr ⟨rfl, lt_succ_self _⟩, hmatch hweight⟩
  | case2 weight event hlt hweight ih =>
    rw [nextEvent, if_pos hlt, if_neg hweight] at h
    obtain ⟨hbefore, hfound⟩ := ih h
    refine ⟨?_, hfound⟩
    unfold Before at hbefore ⊢
    omega
  | case3 weight event hlt hmax =>
    rw [nextEvent, if_neg hlt, if_pos hmax] at h
    cases h
  | case4 weight event hlt hmax hweight =>
    rw [nextEvent, if_neg hlt, if_neg hmax, if_pos hweight] at h
    cases h
    exact ⟨.inl (by omega), hmatch hweight⟩
  | case5 weight event hlt hmax hweight ih =>
    rw [nextEvent, if_neg hlt, if_neg hmax, if_neg hweight] at h
    obtain ⟨hbefore, hfound⟩ := ih h
    refine ⟨?_, hfound⟩
    unfold Before at hbefore ⊢
    omega

theorem Agrees.update (h : Agrees assign trail) {e k : Nat} (he : e ∉ trail.map fst) :
    Agrees (update assign e k) trail := by
  intro p hp
  have hne : p.1 ≠ e := fun heq => he (heq ▸ mem_map_of_mem hp)
  rw [update_of_ne hne]
  exact h p hp

theorem Found.assigned (h : Found sched assign) :
    ∃ trail, Chosen sched.constraints sched.maxGp sched.state trail ∧
      Agrees (update assign sched.state.event sched.state.counter)
        (trail ++ [(sched.state.event, sched.state.counter)]) := by
  obtain ⟨trail, hchosen, hagrees⟩ := h.chosen
  have hnodup := hchosen.held.nodup
  rw [map_append, nodup_append] at hnodup
  have hnew : sched.state.event ∉ trail.map fst := fun hmem =>
    hnodup.2.2 _ hmem _ (by simp) rfl
  exact ⟨trail, hchosen, forall_mem_append.2
    ⟨hagrees.update hnew, forall_mem_singleton.2 (update_self ..)⟩⟩

/-- The trails of the saved states do not have the event that is assigned now. -/
theorem Found.restorable (h : Found sched assign) :
    ∀ sv ∈ sched.saved, ∃ trail, Front sched.constraints sched.maxGp sv.retry trail ∧
      Agrees (update assign sched.state.event sched.state.counter) trail := by
  obtain ⟨trail₀, hchosen, -⟩ := h.chosen
  obtain ⟨c, hc, -⟩ := hchosen.held.valid (sched.state.event, sched.state.counter) (by simp)
  intro sv hsv
  obtain ⟨trail, hfront, hagrees⟩ := h.stack.restorable sv hsv
  have hlater := (pairwise_cons.1 h.stack.ordered).1 sv hsv
  refine ⟨trail, hfront, hagrees.update ?_⟩
  intro hmem
  obtain ⟨p, hp, heq⟩ := mem_map.1 hmem
  have hbefore := hfront.order p hp c (heq ▸ hc)
  rw [hchosen.weight c hc, heq] at hbefore
  exact hlater hbefore

/-- `perf_sched_next_event` goes on to an event behind those of the trail, or ends. -/
theorem nextEvent_found (h : Found sched assign) {more : Bool}
    (hnext : perfSchedNextEvent sched = (more, sched')) :
    sched'.constraints = sched.constraints ∧ sched'.maxGp = sched.maxGp ∧
      if more then
        Inv sched' (update assign sched.state.event sched.state.counter)
      else
        sched'.state.unassigned = 0 → Assigned sched.constraints sched.maxGp
          (update assign sched.state.event sched.state.counter) 0 := by
  obtain ⟨trail, hchosen, hagrees⟩ := h.assigned
  have hcount := hchosen.count
  have hlen : (trail ++ [(sched.state.event, sched.state.counter)]).length = trail.length + 1 := by
    rw [length_append]
    rfl
  have hleft := hchosen.left
  simp only [perfSchedNextEvent, if_neg hleft] at hnext
  split at hnext
  · cases hnext
    exact ⟨rfl, rfl, fun _ => ⟨_, _, _, hchosen.held, hagrees, by omega⟩⟩
  next hlast =>
    split at hnext
    · cases hnext
      exact ⟨rfl, rfl, fun hdone => absurd hdone hlast⟩
    rename_i weight event hnextEvent
    cases hnext
    obtain ⟨hbefore, hweight⟩ := nextEvent_spec hnextEvent
    refine ⟨rfl, rfl, ⟨_, ⟨hchosen.held, ?_, hweight, ?_⟩, hagrees⟩, h.restorable, ?_⟩
    · refine forall_mem_append.2 ⟨fun p hp c' hc' => ?_, forall_mem_singleton.2 fun c' hc' => ?_⟩
      · exact (hchosen.order p hp c' hc').trans hbefore
      · rw [hchosen.weight c' hc']
        exact hbefore
    · show _ + (sched.state.unassigned - 1) = sched.constraints.length
      omega
    · obtain ⟨hfirst, hrest⟩ := pairwise_cons.1 h.stack.ordered
      refine pairwise_cons.2 ⟨fun sv hsv hsv' => ?_, hrest⟩
      exact hfirst sv hsv (hbefore.trans hsv')

/-! ## The whole assignment -/

theorem assignLoop_spec (fuel : Nat) (h : Inv sched assign) {assign' : Nat → Nat}
    (hloop : assignLoop fuel sched (some assign) = some (0, some assign')) :
    Assigned sched.constraints sched.maxGp assign' 0 := by
  induction fuel generalizing sched assign with
  | zero => simp [assignLoop] at hloop
  | succ fuel ih =>
    rw [assignLoop] at hloop
    cases hfind : perfSchedFindCounter sched with
    | mk found sched₁ =>
      obtain ⟨hconstraints, hmaxGp, hresult⟩ := findCounter_spec h hfind
      rw [hfind] at hloop
      cases found with
      | false =>
        simp only [Bool.not_false, if_true, Option.some.injEq, mk.injEq] at hloop
        obtain ⟨hzero, rfl⟩ := hloop
        rw [← hzero]
        exact hresult
      | true =>
        cases hnext : perfSchedNextEvent sched₁ with
        | mk more sched₂ =>
          obtain ⟨hconstraints', hmaxGp', hresult'⟩ := nextEvent_found hresult hnext
          rw [← hconstraints, ← hmaxGp]
          cases more with
          | false =>
            simp [hnext] at hloop
            obtain ⟨hzero, rfl⟩ := hloop
            exact hresult' hzero
          | true =>
            simp [hnext] at hloop
            rw [← hconstraints', ← hmaxGp']
            exact ih hresult' hloop

theorem inv_init (cs : List EventConstraint) (wmin wmax gpmax : Int) (assign : Nat → Nat) :
    Inv (perfSchedInit cs wmin wmax gpmax) assign := by
  refine ⟨⟨[], ⟨⟨by simp, .nil, .nil, by simp, zero_le _, ?_⟩, by simp, ?_, ?_⟩, by simp [Agrees]⟩,
    by simp [perfSchedInit], ?_⟩
  · show (0 : Int) ≤ max gpmax 0
    omega
  · intro c hc
    have hget : cs[cs.findIdx fun c => c.weight == wmin]? = some c := hc
    obtain ⟨hlt, rfl⟩ := List.getElem?_eq_some_iff.1 hget
    exact eq_of_beq (@findIdx_getElem _ (fun c : EventConstraint => c.weight == wmin) cs hlt)
  · exact Nat.zero_add _
  · exact pairwise_singleton _ _

end

/-! ## Termination -/

section
variable {sched sched' : PerfSched} {saved older : List SchedState} {x state : SchedState}

/-- No constraint that overlaps with others has a fixed counter. -/
def NoFixedOverlap (cs : List EventConstraint) : Prop :=
  ∀ c ∈ cs, c.overlap = true → ∀ i, INTEL_PMC_IDX_FIXED ≤ i → c.idxmsk.getLsbD i = false

/-- What the saved states leave to try. A state that is saved, and a counter further on in a saved
state, lower it. -/
def depth : List SchedState → Nat
  | [] => 33 * 34 + 33
  | [x] => (32 - x.counter) * 34 + 33
  | y :: x :: _ => (32 - x.counter) * 34 + (32 - y.counter)

/-- The saved states are of events whose constraints overlap, and few. -/
structure Restartable (sched : PerfSched) : Prop where
  few : sched.saved.length ≤ SCHED_STATES_MAX
  overlap : ∀ x ∈ sched.saved, ∃ c, sched.constraints[x.event]? = some c ∧ c.overlap = true

theorem depth_save (hlen : saved.length < SCHED_STATES_MAX) (hstate : state.counter < 32) :
    depth (state :: saved) < depth saved := by
  match saved, hlen with
  | [], _ =>
    simp only [depth]
    omega
  | [x], _ =>
    simp only [depth]
    omega

theorem depth_restore (hlen : saved.length ≤ SCHED_STATES_MAX) (hsuffix : x :: older <:+ saved)
    (hx : x.counter < state.counter) (hstate : state.counter < 32) :
    depth (state :: older) < depth saved := by
  match saved, hlen with
  | [], _ => simp at hsuffix
  | [a], _ =>
    obtain ⟨rfl, rfl⟩ : x = a ∧ older = [] := by simpa [suffix_cons_iff] using hsuffix
    simp only [depth]
    omega
  | [a, b], _ =>
    obtain ⟨rfl, rfl⟩ | ⟨rfl, rfl⟩ : x = a ∧ older = [b] ∨ x = b ∧ older = [] := by
      simpa [suffix_cons_iff] using hsuffix
    all_goals
      simp only [depth]
      omega

theorem Restartable.findCounter (h : Restartable sched) (hcs : NoFixedOverlap sched.constraints)
    (hfind : perfSchedFindCounter sched = (true, sched')) :
    sched'.constraints = sched.constraints ∧ Restartable sched' ∧
      (depth sched'.saved < depth sched.saved ∨
        sched'.saved = sched.saved ∧ sched'.state.unassigned = sched.state.unassigned) := by
  obtain ⟨start, hstart, -, honce, hfrom⟩ := findCounter_start hfind
  obtain ⟨c, k, -, hc, -, hmask, -, hgp, rfl⟩ := findCounterOnce_found honce
  rw [counterFound_eq]
  refine ⟨hstart, ?_⟩
  have hsuffix : start.saved <:+ sched.saved := by
    rcases hfrom with rfl | ⟨x, -, hx⟩
    · exact suffix_rfl
    · exact (suffix_cons ..).trans hx
  have holder : ∀ x ∈ start.saved, ∃ c, start.constraints[x.event]? = some c ∧ c.overlap = true :=
    hstart ▸ fun x hx => h.overlap x (hsuffix.subset hx)
  by_cases hpush : c.overlap ∧ start.saved.length < SCHED_STATES_MAX
  · simp only [if_pos hpush]
    refine ⟨⟨hpush.2, forall_mem_cons.2 ⟨⟨c, hc, hpush.1⟩, holder⟩⟩, .inl ?_⟩
    have hk : k < INTEL_PMC_IDX_FIXED := by
      by_contra hk
      have hbit := hcs c (mem_of_getElem? (hstart ▸ hc)) hpush.1 k (Nat.not_lt.1 hk)
      rw [hmask] at hbit
      cases hbit
    obtain ⟨hle, -⟩ := hgp hk
    rcases hfrom with rfl | ⟨x, hx, hxs⟩
    · exact depth_save hpush.2 hk
    · rw [hx] at hle
      exact depth_restore h.few hxs hle hk
  · simp only [if_neg hpush]
    rcases hfrom with rfl | ⟨x, hx, hxs⟩
    · exact ⟨⟨h.few, holder⟩, .inr ⟨rfl, rfl⟩⟩
    -- a state is only restored if its constraint overlaps, and then it is saved again
    obtain ⟨c', hc', hoverlap⟩ := h.overlap x (hxs.subset mem_cons_self)
    rw [hstart, hx] at hc
    cases hc.symm.trans hc'
    exact absurd ⟨hoverlap, Nat.le_trans hxs.length_le h.few⟩ hpush

theorem nextEvent_lowers (h : perfSchedNextEvent sched = (true, sched')) :
    sched'.constraints = sched.constraints ∧ sched'.saved = sched.saved ∧
      sched'.state.unassigned < sched.state.unassigned := by
  simp only [perfSchedNextEvent] at h
  split at h
  · cases h
  split at h
  · cases h
  · split at h <;> cases h
    refine ⟨rfl, rfl, ?_⟩
    dsimp only
    omega

theorem assignLoop_ends (sched : PerfSched) (h : Restartable sched)
    (hcs : NoFixedOverlap sched.constraints) (assign : Option (Nat → Nat)) :
    ∃ fuel r, assignLoop fuel sched assign = some r := by
  cases hfind : perfSchedFindCounter sched with
  | mk found sched₁ =>
    cases found with
    | false => exact ⟨1, (sched₁.state.unassigned, assign), by simp [assignLoop, hfind]⟩
    | true =>
      obtain ⟨hconstraints, ⟨hfew, hoverlap⟩, hprogress⟩ := h.findCounter hcs hfind
      cases hnext : perfSchedNextEvent sched₁ with
      | mk more sched₂ =>
        cases more with
        | false => exact ⟨1, by simp [assignLoop, hfind, hnext]⟩
        | true =>
          obtain ⟨hconstraints', hsaved, hless⟩ := nextEvent_lowers hnext
          rw [← hsaved] at hfew hoverlap
          rw [← hconstraints'] at hoverlap hconstraints
          obtain ⟨fuel, r, hr⟩ := assignLoop_ends sched₂ ⟨hfew, hoverlap⟩ (hconstraints ▸ hcs)
            (assign.map (update · sched₁.state.event sched₁.state.counter))
          exact ⟨fuel + 1, r, by simpa [assignLoop, hfind, hnext] using hr⟩
termination_by (depth sched.saved, sched.state.unassigned)
decreasing_by
  rw [hsaved]
  rcases hprogress with hlt | ⟨hsame, hleft⟩
  · exact .left _ _ hlt
  · rw [hsame, ← hleft]
    exact .right _ hless

/-- Without a fixed counter in an overlapping constraint the search comes to an end. -/
theorem perfAssignEvents_ends (cs : List EventConstraint) (hcs : NoFixedOverlap cs)
    (wmin wmax gpmax : Int) (assign : Option (Nat → Nat)) :
    ∃ fuel r, perfAssignEvents fuel cs wmin wmax gpmax assign = some r :=
  assignLoop_ends _ ⟨zero_le _, by simp [perfSchedInit]⟩ hcs assign

/-- The first event is to give up its counter for the second one. -/
def overlapPair : List EventConstraint := [⟨3, 1, true, 0⟩, ⟨1, 2, false, 0⟩]

theorem perfAssignEvents_ends_overlapPair :
    ∃ fuel r, perfAssignEvents fuel overlapPair 1 2 2 none = some r := by
  refine perfAssignEvents_ends overlapPair (forall_mem_cons.2 ⟨fun _ i hi => ?_, ?_⟩) 1 2 2 none
  · have hlt : 3 < 2 ^ i := Nat.lt_of_lt_of_le (by decide) (Nat.pow_le_pow_right (by decide) hi)
    exact testBit_lt_two_pow hlt
  · exact forall_mem_singleton.2 fun h => absurd h (by decide)

end

theorem Held.mem {cs : List EventConstraint} {maxGp : Int} {used : BitVec 64} {nrGp : Nat}
    {trail : List (Nat × Nat)} (h : Held cs maxGp used nrGp trail)
    (hlen : trail.length = cs.length) : (trail.map fst).Perm (range cs.length) := by
  have hsub : trail.map fst ⊆ range cs.length := by
    intro e he
    obtain ⟨p, hp, rfl⟩ := mem_map.1 he
    obtain ⟨c, hc, -⟩ := h.valid p hp
    exact List.mem_range.2 (List.getElem?_eq_some_iff.1 hc).1
  refine (subperm_of_subset h.nodup hsub).perm_of_length_le ?_
  rw [length_range, length_map]
  exact Nat.le_of_eq hlen.symm

/-- When `perf_assign_events` returns 0, every event has a counter of its mask, no two events have a
counter in common, and at most `gpmax` events have a general purpose counter. -/
theorem perfAssignEvents_sound (fuel : Nat) (cs : List EventConstraint) (wmin wmax gpmax : Int)
    (assign assign' : Nat → Nat)
    (h : perfAssignEvents fuel cs wmin wmax gpmax (some assign) = some (0, some assign')) :
    (∀ e c, cs[e]? = some c →
        assign' e < X86_PMC_IDX_MAX ∧ c.idxmsk.getLsbD (assign' e) = true) ∧
      (∀ e e' c c', e ≠ e' → cs[e]? = some c → cs[e']? = some c' →
        ∀ i, Owns c (assign' e) i → ¬ Owns c' (assign' e') i) ∧
      ((List.range cs.length).countP (assign' · < INTEL_PMC_IDX_FIXED) : Int) ≤ max gpmax 0 := by
  obtain ⟨trail, used, nrGp, hheld, hagrees, hlen⟩ : Assigned cs gpmax assign' 0 :=
    assignLoop_spec fuel (inv_init cs wmin wmax gpmax assign) h
  have hperm := hheld.mem hlen
  have hentry : ∀ e c, cs[e]? = some c → (e, assign' e) ∈ trail := by
    intro e c hc
    have hmem : e ∈ trail.map fst :=
      hperm.mem_iff.2 (List.mem_range.2 (List.getElem?_eq_some_iff.1 hc).1)
    obtain ⟨p, hp, rfl⟩ := mem_map.1 hmem
    rw [hagrees p hp]
    exact hp
  refine ⟨?_, ?_, ?_⟩
  · intro e c hc
    obtain ⟨c', hc', hvalid⟩ := hheld.valid _ (hentry e c hc)
    cases hc.symm.trans hc'
    exact hvalid
  · intro e e' c c' hne hc hc' i howns howns'
    have hapart : Apart cs (e, assign' e) (e', assign' e') :=
      hheld.apart.forall (hentry e c hc) (hentry e' c' hc') (fun heq => hne (congrArg fst heq))
    exact hapart c c' hc hc' i howns howns'
  · have hcount : (range cs.length).countP (assign' · < INTEL_PMC_IDX_FIXED) =
        trail.countP (·.2 < INTEL_PMC_IDX_FIXED) := by
      rw [← hperm.countP_eq, countP_map]
      apply countP_congr
      intro p hp
      simp only [comp, hagrees p hp]
    have hgp := hheld.gp
    have hgp_le := hheld.gp_le
    omega

/-- A pair event that only the first fixed counter can count, and an event for the next one. -/
def fixedPair : List EventConstraint :=
  [⟨bitUll 32, 1, false, PERF_X86_EVENT_PAIR⟩, ⟨bitUll 33, 1, false, 0⟩]

def gpPair : List EventConstraint := [⟨3, 2, false, PERF_X86_EVENT_PAIR⟩]

theorem perfAssignEvents_fixedPair : perfAssignEvents 2 fixedPair 1 1 4 (some fun _ => 0) =
      some (0, some (update (update (fun _ => 0) 0 32) 1 33)) := by
  have hfind : perfSchedFindCounter (perfSchedInit fixedPair 1 1 4) =
      (true, ⟨1, 4, fixedPair, ⟨1, 0, 32, 2, 0, bitUll 32⟩, []⟩) :=
    findCounter_found (by decide)
  have hnext : perfSchedNextEvent ⟨1, 4, fixedPair, ⟨1, 0, 32, 2, 0, bitUll 32⟩, []⟩ =
      (true, ⟨1, 4, fixedPair, ⟨1, 1, 0, 1, 0, bitUll 32⟩, []⟩) := by
    simp [perfSchedNextEvent, nextEvent, fixedPair]
  have hfind' : perfSchedFindCounter ⟨1, 4, fixedPair, ⟨1, 1, 0, 1, 0, bitUll 32⟩, []⟩ =
      (true, ⟨1, 4, fixedPair, ⟨1, 1, 33, 1, 0, bitUll 32 ||| bitUll 33⟩, []⟩) :=
    findCounter_found (by decide)
  have hlast : perfSchedNextEvent ⟨1, 4, fixedPair, ⟨1, 1, 33, 1, 0, bitUll 32 ||| bitUll 33⟩, []⟩ =
      (false, ⟨1, 4, fixedPair, ⟨1, 1, 33, 0, 0, bitUll 32 ||| bitUll 33⟩, []⟩) := rfl
  simp [perfAssignEvents, assignLoop, hfind, hnext, hfind', hlast]

theorem perfAssignEvents_gpPair : perfAssignEvents 1 gpPair 2 2 1 (some fun _ => 0) =
      some (0, some (update (fun _ => 0) 0 0)) := by
  have hfind : perfSchedFindCounter (perfSchedInit gpPair 2 2 1) =
      (true, ⟨2, 1, gpPair, ⟨2, 0, 0, 1, 1, 3⟩, []⟩) :=
    findCounter_found (by decide)
  simp [perfAssignEvents, assignLoop, hfind, perfSchedNextEvent]

theorem perfAssignEvents_sound_fixedPair :
    let assign' := update (update (fun _ => 0) 0 32) 1 33
    (∀ e c, fixedPair[e]? = some c →
        assign' e < X86_PMC_IDX_MAX ∧ c.idxmsk.getLsbD (assign' e) = true) ∧
      (∀ e e' c c', e ≠ e' → fixedPair[e]? = some c → fixedPair[e']? = some c' →
        ∀ i, Owns c (assign' e) i → ¬ Owns c' (assign' e') i) ∧
      ((range fixedPair.length).countP (assign' · < INTEL_PMC_IDX_FIXED) : Int) ≤ max 4 0 :=
  perfAssignEvents_sound 2 fixedPair 1 1 4 _ _ perfAssignEvents_fixedPair

/-- An event on a fixed counter does not keep the next counter from another event, and the second
counter of a pair does not count towards `gpmax`. -/
theorem perfAssignEvents_pair :
    (perfAssignEvents 2 fixedPair 1 1 4 (some fun _ => 0) =
        some (0, some (Function.update (Function.update (fun _ => 0) 0 32) 1 33)) ∧
      (fixedPair[0]?.map (·.flags)) = some PERF_X86_EVENT_PAIR) ∧
    (perfAssignEvents 1 gpPair 2 2 1 (some fun _ => 0) =
        some (0, some (Function.update (fun _ => 0) 0 0)) ∧
      (gpPair[0]?.map (·.flags)) = some PERF_X86_EVENT_PAIR) :=
  ⟨⟨perfAssignEvents_fixedPair, by decide⟩, ⟨perfAssignEvents_gpPair, by decide⟩⟩

end LinuxKernel.X86
