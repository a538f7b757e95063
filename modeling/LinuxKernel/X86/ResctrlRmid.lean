import Mathlib

/-!
# The life cycle of resctrl RMIDs

`arch/x86/kernel/cpu/resctrl/monitor.c` with LLC occupancy monitoring: an RMID that is given back
stays in limbo until no domain has cache lines of it any more. The busy bits lie in the domains, the
busy counter of an RMID and the free list are global.
-/

namespace LinuxKernel.X86.Resctrl

open List Function Nat
open Finset hiding mem_range

/-! ## The code -/

/-- `free` is `rmid_free_lru`, `busy` the counter of each `struct rmid_entry`, `limboCount` is
`rmid_limbo_count`, `domains` the list of the L3 resource and `busyLlc` the bitmaps `rmid_busy_llc`.
`held` are the RMIDs that were handed out and not given back; the code does not have it. -/
structure RmidState where
  free : List Nat
  busy : Nat → Nat
  limboCount : Nat
  domains : List Nat
  busyLlc : Nat → Nat → Bool
  held : List Nat

/-- What reading the occupancy of an RMID gives; `none` is an error. -/
abbrev Reading := Option Nat

inductive RmidError
  | ebusy
  | enospc
  deriving DecidableEq

namespace RmidState

def setBit (s : RmidState) (d r : Nat) (b : Bool) : RmidState :=
  { s with busyLlc := Function.update s.busyLlc d (Function.update (s.busyLlc d) r b) }

def allocRmid (s : RmidState) : Except RmidError (Nat × RmidState) :=
  match s.free with
  | [] => .error (if s.limboCount ≠ 0 then .ebusy else .enospc)
  | r :: free => .ok (r, { s with free, held := r :: s.held })

/-- The domains in which an RMID is marked by `add_rmid_to_limbo`: in the domain of this CPU the
occupancy is read. -/
def marks (thisCpu : Nat → Bool) (read : Nat → Reading) (threshold d : Nat) : Bool :=
  !(thisCpu d && match read d with
    | none => true
    | some val => val ≤ threshold)

def addRmidToLimbo (s : RmidState) (r : Nat) (thisCpu : Nat → Bool) (read : Nat → Reading)
    (threshold : Nat) : RmidState :=
  let s : RmidState := { s with busy := Function.update s.busy r 0, held := s.held.erase r }
  let s := s.domains.foldl (fun s d => if marks thisCpu read threshold d then
      { s.setBit d r true with busy := Function.update s.busy r (s.busy r + 1) }
    else s) s
  if s.busy r ≠ 0 then { s with limboCount := s.limboCount + 1 }
    else { s with free := s.free ++ [r] }

def freeRmid (s : RmidState) (r : Nat) (thisCpu : Nat → Bool) (read : Nat → Reading)
    (threshold : Nat) : RmidState :=
  if r = 0 then s else s.addRmidToLimbo r thisCpu read threshold

def dirty (read : Nat → Reading) (threshold r : Nat) : Bool :=
  match read r with
  | none => true
  | some val => threshold ≤ val

def clearBusy (d r : Nat) (s : RmidState) : RmidState :=
  let busy := s.busy r - 1
  let s : RmidState := { s.setBit d r false with busy := Function.update s.busy r busy }
  if busy = 0 then { s with limboCount := s.limboCount - 1, free := s.free ++ [r] } else s

def checkRmid (d : Nat) (forceFree : Bool) (read : Nat → Reading) (threshold : Nat) (s : RmidState)
    (r : Nat) : RmidState :=
  if s.busyLlc d r && (forceFree || !dirty read threshold r) then s.clearBusy d r else s

def checkLimbo (N : Nat) (d : Nat) (forceFree : Bool) (read : Nat → Reading) (threshold : Nat)
    (s : RmidState) : RmidState :=
  (List.range' 1 (N - 1)).foldl (checkRmid d forceFree read threshold) s

def hasBusyRmid (N : Nat) (s : RmidState) (d : Nat) : Bool := (List.range N).any (s.busyLlc d)

/-- `domain_add_cpu` for a new domain: its place is given by the ids, its bitmap is zeroed. -/
def onlineDomain (s : RmidState) (d : Nat) : RmidState :=
  { s with
    domains := s.domains.takeWhile (· < d) ++ d :: s.domains.dropWhile (· < d)
    busyLlc := Function.update s.busyLlc d fun _ => false }

/-- `resctrl_offline_domain` and the removal from the list -/
def offlineDomain (N : Nat) (s : RmidState) (d : Nat) (read : Nat → Reading) (threshold : Nat) :
    RmidState :=
  let s := if hasBusyRmid N s d then checkLimbo N d true read threshold s else s
  { s with domains := s.domains.erase d }

end RmidState

inductive RmidOp
  | alloc
  | free (r : Nat) (thisCpu : Nat → Bool) (read : Nat → Reading) (threshold : Nat)
  | check (d : Nat) (read : Nat → Reading) (threshold : Nat)
  | online (d : Nat)
  | offline (d : Nat) (read : Nat → Reading) (threshold : Nat)

/-- One call; `none` if it is not made in that state. A failing `alloc_rmid` changes nothing. -/
def RmidOp.apply (N : Nat) (s : RmidState) : RmidOp → Option RmidState
  | .alloc => some (match s.allocRmid with
    | .ok (_, s') => s'
    | .error _ => s)
  | .free r thisCpu read threshold => if r ∈ s.held then some (s.freeRmid r thisCpu read threshold)
      else none
  | .check d read threshold => if d ∈ s.domains then some (s.checkLimbo N d false read threshold)
      else none
  | .online d => if d ∈ s.domains then none else some (s.onlineDomain d)
  | .offline d read threshold => if d ∈ s.domains then some (s.offlineDomain N d read threshold)
      else none

def runRmid (N : Nat) (ops : List RmidOp) (s : RmidState) : Option RmidState :=
  ops.foldlM (RmidOp.apply N) s

def RmidState.init (N : Nat) : RmidState where
  free := List.range' 1 (N - 1)
  busy _ := 0
  limboCount := 0
  domains := []
  busyLlc _ _ := false
  held := []

/-! ## The invariant -/

namespace RmidState

variable {N : Nat} {s s' : RmidState} {d r : Nat}

def busyIn (s : RmidState) (r : Nat) : Nat := s.domains.countP (s.busyLlc · r)

def Limbo (s : RmidState) (r : Nat) : Prop := ∃ d ∈ s.domains, s.busyLlc d r = true

instance (s : RmidState) : DecidablePred s.Limbo := fun r =>
  inferInstanceAs (Decidable (∃ d ∈ s.domains, s.busyLlc d r = true))

/-- Every RMID from 1 on has one place, and the counters count what they should. -/
structure Inv (N : Nat) (s : RmidState) : Prop where
  nodup : s.domains.Nodup
  busy : ∀ r, s.busy r = s.busyIn r
  place : ∀ r, s.free.count r + s.held.count r + (if s.busy r = 0 then 0 else 1) =
    if 1 ≤ r ∧ r < N then 1 else 0
  limbo : s.limboCount = ((Finset.Ico 1 N).filter fun r => s.busy r ≠ 0).card

theorem limbo_iff (h : s.Inv N) : s.Limbo r ↔ s.busy r ≠ 0 := by
  rw [h.busy, busyIn, Limbo, ← pos_iff_ne_zero, countP_pos_iff]

theorem inv_init (N : Nat) : (init N).Inv N where
  nodup := nodup_nil
  busy _ := rfl
  place r := by
    have hcount : (range' 1 (N - 1)).count r = if r ∈ range' 1 (N - 1) then 1 else 0 :=
      Nodup.count nodup_range'
    simp only [init, hcount, count_nil, if_true, add_zero, mem_range'_1]
    congr 1
    rw [eq_iff_iff]
    omega
  limbo := by simp [init]

/-- Another counter of one RMID changes the number of RMIDs in limbo accordingly. -/
theorem card_update {f : Nat → Nat} {k : Nat} (hr : 1 ≤ r ∧ r < N) :
    ((Finset.Ico 1 N).filter fun x => update f r k x ≠ 0).card + (if f r = 0 then 0 else 1) =
      ((Finset.Ico 1 N).filter fun x => f x ≠ 0).card + if k = 0 then 0 else 1 := by
  have hmem : r ∈ Finset.Ico 1 N := mem_Ico.2 hr
  have hrest : ((Finset.Ico 1 N).erase r).sum (fun x => if update f r k x ≠ 0 then 1 else 0) =
      ((Finset.Ico 1 N).erase r).sum fun x => if f x ≠ 0 then 1 else 0 :=
    sum_congr rfl fun x hx => by rw [update_of_ne (ne_of_mem_erase hx)]
  rw [card_filter, card_filter, ← add_sum_erase _ _ hmem,
    ← add_sum_erase (Finset.Ico 1 N) (fun x => if f x ≠ 0 then 1 else 0) hmem, hrest]
  by_cases hf : f r = 0 <;> by_cases hk : k = 0 <;> simp [hf, hk] <;> omega

theorem Inv.change (h : s.Inv N) {k : Nat} (hr : 1 ≤ r ∧ r < N) (hdomains : s'.domains = s.domains)
    (hbusy : s'.busy = update s.busy r k) (hin : s'.busyIn r = k)
    (hbits : ∀ d r', r' ≠ r → s'.busyLlc d r' = s.busyLlc d r')
    (hfree : ∀ r', r' ≠ r → s'.free.count r' + s'.held.count r' = s.free.count r' + s.held.count r')
    (hplace : s'.free.count r + s'.held.count r + (if k = 0 then 0 else 1) = 1)
    (hlimbo : s'.limboCount + (if s.busy r = 0 then 0 else 1) =
      s.limboCount + if k = 0 then 0 else 1) : s'.Inv N where
  nodup := hdomains ▸ h.nodup
  busy r' := by
    rw [hbusy]
    by_cases hne : r' = r
    · rw [hne, update_self, hin]
    · rw [update_of_ne hne, h.busy, busyIn, busyIn, hdomains]
      exact countP_congr fun d _ => by rw [hbits d r' hne]
  place r' := by
    rw [hbusy]
    by_cases hne : r' = r
    · rw [hne, update_self, hplace, if_pos hr]
    · rw [update_of_ne hne, hfree r' hne, h.place]
  limbo := by
    have hcard := card_update (f := s.busy) (k := k) hr
    rw [← h.limbo] at hcard
    rw [hbusy]
    omega

theorem Inv.alloc (h : s.Inv N) {s' : RmidState} (halloc : s.allocRmid = .ok (r, s')) :
    s'.Inv N ∧ 1 ≤ r ∧ r < N ∧ r ∉ s.held ∧ ¬s.Limbo r := by
  unfold allocRmid at halloc
  split at halloc
  · cases halloc
  next r' free hfree =>
    cases halloc
    have hplace := h.place r
    simp only [hfree, count_cons_self] at hplace
    have hrange : 1 ≤ r ∧ r < N := by
      by_contra hr
      rw [if_neg hr] at hplace
      omega
    rw [if_pos hrange] at hplace
    refine ⟨⟨h.nodup, h.busy, fun x => ?_, h.limbo⟩, hrange.1, hrange.2, ?_, ?_⟩
    · rw [← h.place x, hfree, count_cons, count_cons]
      dsimp only
      omega
    · rw [← count_eq_zero]
      omega
    · rw [limbo_iff h]
      by_contra hbusy
      rw [if_neg hbusy] at hplace
      omega

theorem busyIn_eq_zero (h : s.Inv N) (hbusy : s.busy r = 0) (hd : d ∈ s.domains) :
    s.busyLlc d r = false := by
  rw [h.busy, busyIn, countP_eq_zero] at hbusy
  simpa using hbusy d hd

theorem Inv.range (h : s.Inv N) (hr : r ∈ s.held ∨ s.busy r ≠ 0) : 1 ≤ r ∧ r < N := by
  have hplace := h.place r
  by_contra hout
  rw [if_neg hout] at hplace
  rcases hr with hheld | hbusy
  · have := count_pos_iff.2 hheld
    omega
  · rw [if_neg hbusy] at hplace
    omega

theorem foldl_mark (mark : Nat → Bool) (domains : List Nat) (s : RmidState) :
    domains.foldl (fun s d => if mark d then
        { s.setBit d r true with busy := update s.busy r (s.busy r + 1) } else s) s =
      { s with
        busy := update s.busy r (s.busy r + domains.countP mark)
        busyLlc := fun d r' => s.busyLlc d r' || (r' == r && domains.contains d && mark d) } := by
  induction domains generalizing s with
  | nil => simp
  | cons x domains ih =>
    rw [foldl_cons, ih]
    by_cases hx : mark x = true
    · simp only [hx, if_true, setBit, update_self, update_idem,
        countP_cons_of_pos hx, mk.injEq, true_and, and_true]
      refine ⟨by congr 1; omega, ?_⟩
      funext d r'
      by_cases hd : d = x
      · by_cases hr : r' = r
        · simp [hd, hr, hx]
        · simp [hd, hr, beq_eq_false_iff_ne.2 hr]
      · simp [hd]
    · simp only [hx, Bool.false_eq_true, if_false, countP_cons_of_neg, not_false_eq_true,
        mk.injEq, true_and, and_true]
      funext d r'
      by_cases hd : d = x
      · simp [hd, hx]
      · simp [hd]

theorem Inv.freeRmid (h : s.Inv N) (hr : r ∈ s.held) (thisCpu : Nat → Bool) (read : Nat → Reading)
    (threshold : Nat) : (s.freeRmid r thisCpu read threshold).Inv N := by
  have hrange := h.range (.inl hr)
  have hplace := h.place r
  have hheld := count_pos_iff.2 hr
  rw [if_pos hrange] at hplace
  have hbusy : s.busy r = 0 := by
    by_contra hbusy
    rw [if_neg hbusy] at hplace
    omega
  rw [RmidState.freeRmid, if_neg (by omega)]
  unfold addRmidToLimbo
  simp only [foldl_mark, update_self, update_idem, zero_add]
  have hin : s.domains.countP (fun d => s.busyLlc d r ||
      (r == r && s.domains.contains d && marks thisCpu read threshold d)) =
      s.domains.countP (marks thisCpu read threshold) :=
    countP_congr fun d hd => by simp [busyIn_eq_zero h hbusy hd, hd]
  have hbits : ∀ d r', r' ≠ r → (s.busyLlc d r' ||
      (r' == r && s.domains.contains d && marks thisCpu read threshold d)) = s.busyLlc d r' := by
    intro d r' hne
    simp [hne]
  have herase : ∀ r', r' ≠ r → (s.held.erase r).count r' = s.held.count r' := fun r' hne =>
    count_erase_of_ne hne
  split
  next hmarked =>
    refine h.change hrange rfl rfl hin hbits (fun r' hne => by rw [herase r' hne]) ?_ ?_
    · rw [if_neg hmarked, count_erase_self]
      dsimp only
      omega
    · rw [if_pos hbusy, if_neg hmarked]
  next hmarked =>
    rw [not_not] at hmarked
    refine h.change hrange rfl rfl hin hbits (fun r' hne => ?_) ?_ ?_
    · rw [herase r' hne, count_append]
      simp [Ne.symm hne]
    · rw [if_pos hmarked, count_erase_self, count_append, count_singleton_self]
      omega
    · rw [if_pos hbusy, if_pos hmarked]

theorem busyIn_clear (h : s.Inv N) (hd : d ∈ s.domains) (hbit : s.busyLlc d r = true) :
    (s.setBit d r false).busyIn r + 1 = s.busyIn r := by
  have hperm := perm_cons_erase hd
  have hrest : (s.domains.erase d).countP (fun x => (s.setBit d r false).busyLlc x r) =
      (s.domains.erase d).countP (s.busyLlc · r) := by
    refine countP_congr fun x hx => ?_
    have hne : x ≠ d := fun heq => (h.nodup.mem_erase_iff.1 hx).1 heq
    simp [setBit, update_of_ne hne]
  change s.domains.countP (fun x => (s.setBit d r false).busyLlc x r) + 1 = s.domains.countP _
  rw [hperm.countP_eq, hperm.countP_eq, countP_cons_of_neg (by simp [setBit]),
    countP_cons_of_pos (by exact hbit), hrest]

theorem Inv.clearBusy (h : s.Inv N) (hd : d ∈ s.domains) (hbit : s.busyLlc d r = true) :
    (s.clearBusy d r).Inv N := by
  have hin := busyIn_clear h hd hbit
  have hpos : s.busy r ≠ 0 := by
    rw [h.busy]
    omega
  have hrange := h.range (.inr hpos)
  have hplace := h.place r
  rw [if_pos hrange, if_neg hpos] at hplace
  have hin' : (s.setBit d r false).busyIn r = s.busy r - 1 := by
    rw [h.busy]
    omega
  have hbits : ∀ d' r', r' ≠ r → (s.setBit d r false).busyLlc d' r' = s.busyLlc d' r' := by
    intro d' r' hne
    by_cases hd' : d' = d
    · simp [setBit, hd', hne]
    · simp [setBit, hd']
  unfold RmidState.clearBusy
  dsimp only
  split
  next hzero =>
    have hlimbo : 0 < s.limboCount := by
      rw [h.limbo, card_pos]
      exact ⟨r, mem_filter.2 ⟨mem_Ico.2 hrange, hpos⟩⟩
    refine h.change hrange rfl rfl hin' hbits (fun r' hne => ?_) ?_ ?_
    · simp [setBit, Ne.symm hne]
    · rw [if_pos hzero, count_append, count_singleton_self, add_zero]
      exact (add_right_comm _ _ _).trans hplace
    · rw [if_neg hpos, if_pos hzero]
      exact Nat.sub_add_cancel hlimbo
  next hnonzero =>
    refine h.change hrange rfl rfl hin' hbits (fun _ _ => rfl) ?_ ?_
    · rw [if_neg hnonzero]
      exact hplace
    · rw [if_neg hpos, if_neg hnonzero]
      rfl

theorem domains_clearBusy : (s.clearBusy d r).domains = s.domains := by
  unfold clearBusy
  dsimp only
  split <;> rfl

theorem busyLlc_clearBusy (d' r' : Nat) :
    (s.clearBusy d r).busyLlc d' r' = if d' = d ∧ r' = r then false else s.busyLlc d' r' := by
  have hbits : (s.clearBusy d r).busyLlc = (s.setBit d r false).busyLlc := by
    unfold clearBusy
    dsimp only
    split <;> rfl
  rw [hbits, setBit]
  by_cases hd : d' = d
  · by_cases hr : r' = r <;> simp [hd, hr]
  · simp [hd]

section
variable {force : Bool} {read : Nat → Reading} {threshold : Nat}

theorem Inv.checkRmid (h : s.Inv N) (hd : d ∈ s.domains) (r : Nat) :
    (checkRmid d force read threshold s r).Inv N ∧
      (checkRmid d force read threshold s r).domains = s.domains := by
  unfold RmidState.checkRmid
  split
  next hc => exact ⟨h.clearBusy hd (Bool.and_eq_true _ _ ▸ hc).1, domains_clearBusy⟩
  next => exact ⟨h, rfl⟩

theorem inv_foldl_check (rs : List Nat) (h : s.Inv N) (hd : d ∈ s.domains) :
    (rs.foldl (checkRmid d force read threshold) s).Inv N := by
  induction rs generalizing s with
  | nil => exact h
  | cons r rs ih =>
    obtain ⟨hinv, hdomains⟩ := h.checkRmid hd r
    exact ih hinv (by rwa [hdomains])

theorem foldl_check_force (rs : List Nat) (hr : r ∈ rs ∨ s.busyLlc d r = false) :
    (rs.foldl (checkRmid d true read threshold) s).busyLlc d r = false := by
  induction rs generalizing s with
  | nil => exact hr.resolve_left (not_mem_nil)
  | cons r' rs ih =>
    apply ih
    have hbit : (checkRmid d true read threshold s r').busyLlc d r =
        if r = r' then false else s.busyLlc d r := by
      unfold checkRmid
      by_cases hset : s.busyLlc d r' = true
      · simp [hset, busyLlc_clearBusy]
      · by_cases heq : r = r'
        · simp [heq, hset]
        · simp [heq, hset]
    rw [hbit]
    by_cases heq : r = r'
    · exact .inr (if_pos heq)
    · rw [if_neg heq]
      exact hr.imp_left fun hmem => (mem_cons.1 hmem).resolve_left heq

end

theorem Inv.offlineDomain (h : s.Inv N) (hd : d ∈ s.domains) (read : Nat → Reading)
    (threshold : Nat) : (s.offlineDomain N d read threshold).Inv N := by
  have hout : ∀ r, ¬(1 ≤ r ∧ r < N) → s.busyLlc d r = false := fun r hr =>
    busyIn_eq_zero h (by_contra fun hne => hr (h.range (.inr hne))) hd
  -- first all bits of the domain are cleared
  obtain ⟨s₁, hs₁, hinv, hclear⟩ : ∃ s₁, (if hasBusyRmid N s d then
      checkLimbo N d true read threshold s else s) = s₁ ∧ s₁.Inv N ∧
        ∀ r, s₁.busyLlc d r = false := by
    refine ⟨_, rfl, ?_⟩
    split
    next hbusy =>
      refine ⟨inv_foldl_check (range' 1 (N - 1)) h hd, fun r => foldl_check_force _ ?_⟩
      by_cases hr : 1 ≤ r ∧ r < N
      · exact .inl (mem_range'_1.2 (by omega))
      · exact .inr (hout r hr)
    next hbusy =>
      refine ⟨h, fun r => ?_⟩
      rw [hasBusyRmid, any_eq_true] at hbusy
      by_cases hr : 1 ≤ r ∧ r < N
      · exact Bool.eq_false_iff.2 fun hbit => hbusy ⟨r, mem_range.2 hr.2, hbit⟩
      · exact hout r hr
  unfold RmidState.offlineDomain
  rw [hs₁]
  refine ⟨hinv.nodup.erase d, fun r => ?_, hinv.place, hinv.limbo⟩
  rw [hinv.busy]
  change s₁.domains.countP (s₁.busyLlc · r) = (s₁.domains.erase d).countP (s₁.busyLlc · r)
  by_cases hmem : d ∈ s₁.domains
  · rw [(perm_cons_erase hmem).countP_eq, countP_cons_of_neg (by simp [hclear])]
  · rw [erase_of_not_mem hmem]

theorem Inv.onlineDomain (h : s.Inv N) (hd : d ∉ s.domains) : (s.onlineDomain d).Inv N := by
  have hperm : (s.onlineDomain d).domains.Perm (d :: s.domains) := by
    have hmid : (s.onlineDomain d).domains.Perm
        (d :: (s.domains.takeWhile (· < d) ++ s.domains.dropWhile (· < d))) := perm_middle
    rwa [takeWhile_append_dropWhile] at hmid
  refine ⟨hperm.nodup_iff.2 (nodup_cons.2 ⟨hd, h.nodup⟩), fun r => ?_, h.place, h.limbo⟩
  have hrest : s.domains.countP (fun x => (s.onlineDomain d).busyLlc x r) =
      s.domains.countP (s.busyLlc · r) := by
    refine countP_congr fun x hx => ?_
    have hne : x ≠ d := fun heq => hd (heq ▸ hx)
    simp [RmidState.onlineDomain, update_of_ne hne]
  rw [busyIn, hperm.countP_eq, countP_cons_of_neg (by simp [RmidState.onlineDomain]), hrest]
  exact h.busy r

/-! ## Runs -/

theorem Inv.apply (h : s.Inv N) {op : RmidOp} (hop : op.apply N s = some s') : s'.Inv N := by
  cases op with
  | alloc =>
    cases hop
    split
    next r s₁ halloc => exact (h.alloc halloc).1
    next => exact h
  | free r thisCpu read threshold =>
    obtain ⟨hr, hs⟩ := Option.ite_none_right_eq_some.1 hop
    cases hs
    exact h.freeRmid hr thisCpu read threshold
  | check d read threshold =>
    obtain ⟨hd, hs⟩ := Option.ite_none_right_eq_some.1 hop
    cases hs
    exact inv_foldl_check _ h hd
  | online d =>
    obtain ⟨hd, hs⟩ := Option.ite_none_left_eq_some.1 hop
    cases hs
    exact h.onlineDomain hd
  | offline d read threshold =>
    obtain ⟨hd, hs⟩ := Option.ite_none_right_eq_some.1 hop
    cases hs
    exact h.offlineDomain hd read threshold

theorem Inv.run (h : s.Inv N) {ops : List RmidOp} (hrun : runRmid N ops s = some s') :
    s'.Inv N := by
  induction ops generalizing s with
  | nil =>
    cases hrun
    exact h
  | cons op ops ih =>
    obtain ⟨s₁, hop, hrest⟩ := Option.bind_eq_some_iff.1 hrun
    exact ih (h.apply hop) hrest

end RmidState

/-- After any run every RMID from 1 on is free, held or in limbo, the counters are right, and an
RMID that is handed out was neither held nor busy anywhere. -/
theorem rmid_lifeCycle (N : Nat) (ops : List RmidOp) (s : RmidState)
    (hrun : runRmid N ops (.init N) = some s) :
    (∀ r, 1 ≤ r → r < N →
      (s.free.count r = 1 ∧ r ∉ s.held ∧ ¬s.Limbo r) ∨
        (r ∉ s.free ∧ s.held.count r = 1 ∧ ¬s.Limbo r) ∨
        (r ∉ s.free ∧ r ∉ s.held ∧ s.Limbo r)) ∧
      (∀ r, s.Limbo r → s.busy r = s.busyIn r) ∧
      s.limboCount = ((Finset.Ico 1 N).filter s.Limbo).card ∧
      ∀ r s', s.allocRmid = .ok (r, s') → 1 ≤ r ∧ r < N ∧ r ∉ s.held ∧ ¬s.Limbo r := by
  have h : s.Inv N := (RmidState.inv_init N).run hrun
  refine ⟨fun r hpos hlt => ?_, fun r _ => h.busy r, ?_, fun r s' halloc => (h.alloc halloc).2⟩
  · have hplace := h.place r
    simp only [RmidState.limbo_iff h, ← List.count_eq_zero]
    by_cases hbusy : s.busy r = 0
    · simp only [hbusy, hpos, hlt, if_true, and_self] at hplace ⊢
      omega
    · simp only [hbusy, hpos, hlt, if_true, if_false, and_self] at hplace ⊢
      omega
  · rw [h.limbo]
    congr 1
    exact Finset.filter_congr fun r _ => (RmidState.limbo_iff h).symm

/-- Two RMIDs are handed out; the first comes back while the other domain still has lines of it. -/
theorem rmid_lifeCycle_oneBusy :
    ∃ s, runRmid 4 [.online 0, .online 1, .alloc, .alloc, .free 1 (· == 0) (fun _ => some 0) 5]
        (.init 4) = some s ∧ s.Limbo 1 ∧ s.held = [2] ∧ s.busy 1 = s.busyIn 1 ∧
      ∀ r s', s.allocRmid = .ok (r, s') → r ∉ s.held ∧ ¬s.Limbo r := by
  obtain ⟨s, hrun, hlimbo, hheld⟩ : ∃ s, runRmid 4 [.online 0, .online 1, .alloc, .alloc,
      .free 1 (· == 0) (fun _ => some 0) 5] (.init 4) = some s ∧ s.Limbo 1 ∧ s.held = [2] :=
    ⟨_, rfl, ⟨1, by decide, rfl⟩, rfl⟩
  have h := rmid_lifeCycle 4 _ s hrun
  exact ⟨s, hrun, hlimbo, hheld, h.2.1 1 hlimbo, fun r s' halloc => (h.2.2.2 r s' halloc).2.2⟩

end LinuxKernel.X86.Resctrl
