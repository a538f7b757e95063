import Mathlib

/-!
# The KVM PMU event filter

`arch/x86/kvm/pmu.c`: the entries of a filter are converted to masked entries, sorted and split into
includes and excludes; a guest event is then looked up by a binary search and a walk in both
directions. `sort()` and `bsearch()` are parameters with what their callers rely on.
-/

namespace LinuxKernel.X86.PmuFilter

open Nat

open List hiding getElem?_eq_some_iff
open BitVec hiding and_assoc and_comm not_and not_not or_comm

abbrev U64 := BitVec 64

/-! ## The code -/

/-- `KVM_PMU_MASKED_ENTRY_EVENT_SELECT`: `GENMASK_ULL(7, 0) | GENMASK_ULL(35, 32)` -/
def ENTRY_EVENT_SELECT : U64 := 0xF000000FF

/-- `KVM_PMU_MASKED_ENTRY_UMASK_MASK`: `GENMASK_ULL(63, 56)` -/
def ENTRY_UMASK_MASK : U64 := 0xFF00000000000000

/-- `KVM_PMU_MASKED_ENTRY_UMASK_MATCH`: `GENMASK_ULL(15, 8)` -/
def ENTRY_UMASK_MATCH : U64 := 0xFF00

/-- `KVM_PMU_MASKED_ENTRY_EXCLUDE`: `BIT_ULL(55)` -/
def ENTRY_EXCLUDE : U64 := 0x80000000000000

/-- `ARCH_PERFMON_EVENTSEL_UMASK` -/
def EVENTSEL_UMASK : U64 := 0xFF00

inductive Vendor
  | intel
  | amd

def Vendor.eventselEvent : Vendor → U64
  | .intel => 0xFF
  | .amd => 0xF000000FF

def filterCmp (a b mask : U64) : Int :=
  (if b &&& mask < a &&& mask then 1 else 0) - if a &&& mask < b &&& mask then 1 else 0

def filterSortCmp (a b : U64) : Int := filterCmp a b (ENTRY_EVENT_SELECT ||| ENTRY_EXCLUDE)

def filterEventCmp (a b : U64) : Int := filterCmp a b ENTRY_EVENT_SELECT

/-- `sort()` with `filter_sort_cmp` and `bsearch()` with `filter_event_cmp`. -/
structure SortLib where
  sort : List U64 → List U64
  sort_perm : ∀ events, (sort events).Perm events
  sort_sorted : ∀ events, (sort events).Pairwise fun a b => filterSortCmp a b ≤ 0
  bsearch : U64 → List U64 → Option Nat
  bsearch_some : ∀ {key events i}, bsearch key events = some i →
    ∃ e, events[i]? = some e ∧ filterEventCmp key e = 0
  bsearch_none : ∀ {key events}, events.Pairwise (fun a b => filterEventCmp a b ≤ 0) →
    bsearch key events = none → ∀ e ∈ events, filterEventCmp key e ≠ 0

inductive Action
  | allow
  | deny
  deriving DecidableEq

/-- The filter as user space gives it; `masked` is `KVM_PMU_EVENT_FLAG_MASKED_EVENTS`. -/
structure UserFilter where
  action : Action
  masked : Bool
  events : List U64

structure Filter where
  action : Action
  includes : List U64
  excludes : List U64
  deriving DecidableEq

section
variable (lib : SortLib) (v : Vendor)

def isMaskedFilterValid (events : List U64) : Bool :=
  events.all fun e =>
    e &&& ~~~(v.eventselEvent ||| ENTRY_UMASK_MASK ||| ENTRY_UMASK_MATCH ||| ENTRY_EXCLUDE) = 0

def possible (e : U64) : Bool := e &&& ~~~(v.eventselEvent ||| EVENTSEL_UMASK) = 0

def convertToMaskedFilter (events : List U64) : List U64 :=
  (events.filter (possible v)).map (· ||| (0xFF : U64) <<< 56)

/-- The events after the conversion; `none` is `-EINVAL`. -/
def maskedEvents (f : UserFilter) : Option (List U64) :=
  if f.masked = false then some (convertToMaskedFilter v f.events)
  else if isMaskedFilterValid v f.events = false then none
  else some f.events

def prepareFilterLists (f : UserFilter) : Option Filter :=
  (maskedEvents v f).map fun masked =>
    let events := lib.sort masked
    let nrIncludes :=
      if f.masked then events.findIdx fun e => e &&& ENTRY_EXCLUDE ≠ 0 else events.length
    ⟨f.action, events.take nrIncludes, events.drop nrIncludes⟩

def isFilterEntryMatch (filterEvent umask : U64) : Bool :=
  umask &&& filterEvent >>> 48 = filterEvent &&& ENTRY_UMASK_MATCH

/-- A walk in one direction, up to the first entry with another event select. -/
def walk (eventSelect umask : U64) : List U64 → Bool
  | [] => false
  | e :: events =>
    if filterEventCmp e eventSelect ≠ 0 then false
    else isFilterEntryMatch e umask || walk eventSelect umask events

def filterContainsMatch (events : List U64) (eventsel : U64) : Bool :=
  let eventSelect := eventsel &&& v.eventselEvent
  let umask := eventsel &&& EVENTSEL_UMASK
  match lib.bsearch eventSelect events with
  | none => false
  | some index =>
    walk eventSelect umask (events.drop index) || walk eventSelect umask (events.take index).reverse

def isGpEventAllowed (f : Filter) (eventsel : U64) : Bool :=
  if filterContainsMatch lib v f.includes eventsel && !filterContainsMatch lib v f.excludes eventsel
  then f.action = .allow else f.action = .deny

end

/-! ## The search -/

def select (e : U64) : Nat := (e &&& ENTRY_EVENT_SELECT).toNat

theorem filterCmp_spec (a b mask : U64) :
    (filterCmp a b mask = 0 ↔ (a &&& mask).toNat = (b &&& mask).toNat) ∧
      (filterCmp a b mask ≤ 0 ↔ (a &&& mask).toNat ≤ (b &&& mask).toNat) := by
  unfold filterCmp
  simp only [lt_def]
  constructor <;> split <;> split <;> omega

theorem filterEventCmp_eq_zero {a b : U64} : filterEventCmp a b = 0 ↔ select a = select b :=
  (filterCmp_spec a b _).1

variable {events : List U64}

/-- A walk finds what it looks for if the run it stays in does not come again. -/
theorem walk_iff {key umask : U64}
    (hrun : events.Pairwise fun a b => select a ≠ select key → select b ≠ select key) :
    walk key umask events = true ↔
      ∃ e ∈ events, select e = select key ∧ isFilterEntryMatch e umask = true := by
  induction hrun with
  | nil => simp [walk]
  | @cons e events he _ ih =>
    rw [walk]
    split
    next hne =>
      rw [Ne, filterEventCmp_eq_zero] at hne
      have hrest : ∀ e' ∈ events, select e' ≠ select key := fun e' he' => he e' he' hne
      simpa [hne] using fun e' he' heq => absurd heq (hrest e' he')
    next heq =>
      rw [not_not, filterEventCmp_eq_zero] at heq
      simp [heq, ih]

variable {lib : SortLib} {v : Vendor} {eventsel : U64}

theorem filterContainsMatch_iff (hsorted : events.Pairwise fun a b => select a ≤ select b) :
    filterContainsMatch lib v events eventsel = true ↔
      ∃ e ∈ events, select e = select (eventsel &&& v.eventselEvent) ∧
        isFilterEntryMatch e (eventsel &&& EVENTSEL_UMASK) = true := by
  unfold filterContainsMatch
  dsimp only
  generalize eventsel &&& v.eventselEvent = key
  cases hb : lib.bsearch key events with
  | none =>
    have hnone := lib.bsearch_none (hsorted.imp fun hle => (filterCmp_spec _ _ _).2.2 hle) hb
    simp only [Bool.false_eq_true, false_iff, not_exists, not_and]
    intro e he heq
    exact absurd (filterEventCmp_eq_zero.2 heq.symm) (hnone e he)
  | some i =>
    obtain ⟨e, he, hcmp⟩ := lib.bsearch_some hb
    rw [filterEventCmp_eq_zero] at hcmp
    -- the entry that was found separates the smaller entries from the larger ones
    have hsplit : events.take i ++ events.drop i = events := take_append_drop i events
    obtain ⟨hi, rfl⟩ := List.getElem?_eq_some_iff.1 he
    have hdrop : events.drop i = events[i] :: events.drop (i + 1) := drop_eq_getElem_cons hi
    rw [← hsplit, pairwise_append] at hsorted
    obtain ⟨htake, hdropSorted, hcross⟩ := hsorted
    have hafter : (events.drop i).Pairwise fun a b =>
        select a ≠ select key → select b ≠ select key := by
      rw [hdrop, pairwise_cons] at hdropSorted ⊢
      refine ⟨fun b _ hne => absurd hcmp.symm hne, hdropSorted.2.imp_of_mem fun ha hb hab hne => ?_⟩
      have := hdropSorted.1 _ ha
      omega
    have hbefore : (events.take i).reverse.Pairwise fun a b =>
        select a ≠ select key → select b ≠ select key := by
      rw [pairwise_reverse]
      refine htake.imp_of_mem fun ha hb hab hne => ?_
      have := hcross _ hb events[i] (by rw [hdrop]; exact mem_cons_self)
      omega
    rw [Bool.or_eq_true, walk_iff hafter, walk_iff hbefore]
    conv_rhs => rw [← hsplit]
    simp only [mem_reverse, mem_append, or_and_right, exists_or]
    exact or_comm

/-! ## Includes and excludes -/

def Excludes (e : U64) : Prop := e.getLsbD 55 = true

theorem and_ENTRY_EXCLUDE (e : U64) : (e &&& ENTRY_EXCLUDE).toNat = (e.getLsbD 55).toNat * 2 ^ 55 :=
  and_two_pow e.toNat 55

variable {e : U64}

theorem and_ENTRY_EXCLUDE_ne : e &&& ENTRY_EXCLUDE ≠ 0 ↔ Excludes e := by
  unfold Excludes
  have hnat : e &&& ENTRY_EXCLUDE = 0 ↔ (e &&& ENTRY_EXCLUDE).toNat = 0 := toNat_inj.symm
  rw [Ne, hnat, and_ENTRY_EXCLUDE]
  cases e.getLsbD 55 <;> simp

theorem select_lt (e : U64) : select e < 2 ^ 36 :=
  lt_of_le_of_lt and_le_right (by decide)

/-- The exclude bit outranks the event select. -/
theorem sortKey (e : U64) : (e &&& (ENTRY_EVENT_SELECT ||| ENTRY_EXCLUDE)).toNat =
    2 ^ 55 * (e.getLsbD 55).toNat + select e := by
  have hlt : select e < 2 ^ 55 := lt_trans (select_lt e) (by decide)
  have hor : e &&& (ENTRY_EVENT_SELECT ||| ENTRY_EXCLUDE) =
      e &&& ENTRY_EXCLUDE ||| e &&& ENTRY_EVENT_SELECT := by
    rw [BitVec.and_or_distrib_left, BitVec.or_comm]
  rw [hor, toNat_or, and_ENTRY_EXCLUDE, mul_comm, two_pow_add_eq_or_of_lt hlt]
  rfl

/-- Both lists are sorted by the event select, and together they hold the events that were given. -/
structure Prepared (masked : List U64) (f : Filter) : Prop where
  mem_includes : ∀ e, e ∈ f.includes ↔ e ∈ masked ∧ ¬Excludes e
  mem_excludes : ∀ e, e ∈ f.excludes ↔ e ∈ masked ∧ Excludes e
  sorted_includes : f.includes.Pairwise fun a b => select a ≤ select b
  sorted_excludes : f.excludes.Pairwise fun a b => select a ≤ select b

theorem prepared_split {masked : List U64} {n : Nat} (action : Action)
    (hbefore : ∀ e ∈ (lib.sort masked).take n, ¬Excludes e)
    (hafter : ∀ e ∈ (lib.sort masked).drop n, Excludes e) :
    Prepared masked ⟨action, (lib.sort masked).take n, (lib.sort masked).drop n⟩ := by
  have hmem : ∀ e, e ∈ masked ↔ e ∈ (lib.sort masked).take n ∨ e ∈ (lib.sort masked).drop n := by
    intro e
    rw [← (lib.sort_perm masked).mem_iff, ← mem_append, take_append_drop]
  have hsorted := lib.sort_sorted masked
  simp only [filterSortCmp, (filterCmp_spec _ _ _).2, sortKey] at hsorted
  refine ⟨fun e => ?_, fun e => ?_, ?_, ?_⟩
  · rw [hmem]
    exact ⟨fun h => ⟨.inl h, hbefore e h⟩, fun h => h.1.resolve_right fun h' => h.2 (hafter e h')⟩
  · rw [hmem]
    exact ⟨fun h => ⟨.inr h, hafter e h⟩, fun h => h.1.resolve_left fun h' => hbefore e h' h.2⟩
  · refine (hsorted.sublist (take_sublist n _)).imp_of_mem fun ha hb hab => ?_
    have hfalse := fun e he => Bool.not_eq_true _ ▸ hbefore e he
    rw [hfalse _ ha, hfalse _ hb] at hab
    omega
  · refine (hsorted.sublist (drop_sublist n _)).imp_of_mem fun ha hb hab => ?_
    rw [hafter _ ha, hafter _ hb] at hab
    omega

theorem split_findIdx {p : U64 → Bool} {l : List U64}
    (h : l.Pairwise fun a b => p a = true → p b = true) :
    (∀ e ∈ l.take (l.findIdx p), p e = false) ∧ ∀ e ∈ l.drop (l.findIdx p), p e = true := by
  induction h with
  | nil => simp
  | @cons a l ha _ ih =>
    rw [findIdx_cons]
    cases hp : p a with
    | true => simpa [hp] using fun e he => ha e he hp
    | false => simpa [hp] using ih

theorem convert_not_excludes : ∀ e ∈ convertToMaskedFilter v events, ¬Excludes e := by
  intro e he
  obtain ⟨x, hx, rfl⟩ := mem_map.1 he
  have hposs := of_decide_eq_true (mem_filter.1 hx).2
  have hmask : (v.eventselEvent ||| EVENTSEL_UMASK).getLsbD 55 = false := by cases v <;> rfl
  have hbit := congrArg (·.getLsbD 55) hposs
  simp only [getLsbD_and, getLsbD_not, hmask] at hbit
  have hhigh : ((0xFF : U64) <<< 56).getLsbD 55 = false := rfl
  rw [Excludes, getLsbD_or, hhigh]
  simpa using hbit

theorem prepareFilterLists_spec {u : UserFilter} {f : Filter}
    (h : prepareFilterLists lib v u = some f) :
    f.action = u.action ∧ ∃ masked, maskedEvents v u = some masked ∧ Prepared masked f := by
  obtain ⟨masked, hmasked, rfl⟩ := Option.map_eq_some_iff.1 h
  refine ⟨rfl, masked, hmasked, ?_⟩
  split
  next hflag =>
    have hsorted := lib.sort_sorted masked
    simp only [filterSortCmp, (filterCmp_spec _ _ _).2, sortKey] at hsorted
    have hsplit := split_findIdx (p := fun e => e &&& ENTRY_EXCLUDE ≠ 0)
      (hsorted.imp fun {a b} hab ha => by
      simp only [decide_eq_true_eq, and_ENTRY_EXCLUDE_ne] at ha ⊢
      by_contra hb
      have hb : b.getLsbD 55 = false := Bool.not_eq_true _ ▸ hb
      have hlt := select_lt b
      rw [ha, hb] at hab
      simp only [Bool.toNat_true, Bool.toNat_false] at hab
      omega)
    simp only [decide_eq_false_iff_not, decide_eq_true_eq, and_ENTRY_EXCLUDE_ne] at hsplit
    exact prepared_split u.action hsplit.1 hsplit.2
  next hflag =>
    rw [maskedEvents, if_pos (by simpa using hflag)] at hmasked
    cases hmasked
    apply prepared_split
    · intro e he
      exact convert_not_excludes e ((lib.sort_perm _).mem_iff.1 (mem_of_mem_take he))
    · simp

/-! ## What an entry says -/

/-- The umask mask of an entry, bits 63 to 56; an unmasked event compares all bits. -/
def entryMask (masked : Bool) (e : U64) : BitVec 8 := if masked then e.extractLsb' 56 8 else 0xFF

/-- An entry has the event select of the guest event, and its match is the masked umask. -/
def Matches (v : Vendor) (masked : Bool) (e eventsel : U64) : Prop :=
  e &&& ENTRY_EVENT_SELECT = eventsel &&& v.eventselEvent ∧
    eventsel.extractLsb' 8 8 &&& entryMask masked e = e.extractLsb' 8 8

/-- The guest event is listed: by an include entry and by no exclude entry. An unmasked event with
bits outside the event select and the umask does not list anything. -/
def Listed (v : Vendor) (u : UserFilter) (eventsel : U64) : Prop :=
  (∃ e ∈ u.events, (u.masked = true ∨ possible v e = true) ∧ ¬(u.masked = true ∧ Excludes e) ∧
    Matches v u.masked e eventsel) ∧
  ¬∃ e ∈ u.events, (u.masked = true ∧ Excludes e) ∧ Matches v u.masked e eventsel

theorem isFilterEntryMatch_iff : isFilterEntryMatch e (eventsel &&& EVENTSEL_UMASK) = true ↔
      eventsel.extractLsb' 8 8 &&& e.extractLsb' 56 8 = e.extractLsb' 8 8 := by
  have humask : ∀ i < 64, EVENTSEL_UMASK.getLsbD i = decide (8 ≤ i ∧ i < 16) := by decide
  have hmatch : ENTRY_UMASK_MATCH = EVENTSEL_UMASK := rfl
  rw [isFilterEntryMatch, decide_eq_true_eq, hmatch]
  constructor
  · intro h
    apply eq_of_getLsbD_eq
    intro i hi
    have hbit := congrArg (·.getLsbD (8 + i)) h
    simp only [getLsbD_and, getLsbD_ushiftRight, humask (8 + i) (by omega)] at hbit
    simp only [getLsbD_and, getLsbD_extractLsb', hi, decide_true, Bool.true_and]
    have hin : decide (8 ≤ 8 + i ∧ 8 + i < 16) = true := decide_eq_true (by omega)
    rw [hin, Bool.and_true, Bool.and_true, ← add_assoc] at hbit
    exact hbit
  · intro h
    apply eq_of_getLsbD_eq
    intro i hi
    simp only [getLsbD_and, getLsbD_ushiftRight, humask i hi]
    by_cases hin : 8 ≤ i ∧ i < 16
    · have hbit := congrArg (·.getLsbD (i - 8)) h
      have hlt : i - 8 < 8 := by omega
      simp only [getLsbD_and, getLsbD_extractLsb', hlt, decide_true, Bool.true_and] at hbit
      have hhigh : 56 + (i - 8) = 48 + i := by omega
      rw [hhigh] at hbit
      simpa [hin] using hbit
    · simp [hin]

theorem matches_convert :
    Matches v true (e ||| (0xFF : U64) <<< 56) eventsel ↔ Matches v false e eventsel := by
  have hselect : (e ||| (0xFF : U64) <<< 56) &&& ENTRY_EVENT_SELECT = e &&& ENTRY_EVENT_SELECT := by
    rw [BitVec.and_comm, BitVec.and_or_distrib_left, BitVec.and_comm]
    exact or_zero
  have hmask : (e ||| (0xFF : U64) <<< 56).extractLsb' 56 8 = 0xFF := by
    have hones : ((0xFF : U64) <<< 56).extractLsb' 56 8 = allOnes 8 := rfl
    rw [extractLsb'_or, hones, or_allOnes]
    rfl
  have hmatch : (e ||| (0xFF : U64) <<< 56).extractLsb' 8 8 = e.extractLsb' 8 8 := by
    rw [extractLsb'_or]
    exact or_zero
  unfold Matches entryMask
  rw [hselect, hmatch, hmask]
  rfl

theorem contains_iff (hsorted : events.Pairwise fun a b => select a ≤ select b) :
    filterContainsMatch lib v events eventsel = true ↔ ∃ e ∈ events, Matches v true e eventsel := by
  have hkey : eventsel &&& v.eventselEvent &&& ENTRY_EVENT_SELECT =
    eventsel &&& v.eventselEvent := by
    rw [BitVec.and_assoc]
    cases v <;> rfl
  have hselect : ∀ e, select e = select (eventsel &&& v.eventselEvent) ↔
      e &&& ENTRY_EVENT_SELECT = eventsel &&& v.eventselEvent := by
    intro e
    rw [select, select, hkey, toNat_inj]
  simp only [filterContainsMatch_iff hsorted, hselect, isFilterEntryMatch_iff, Matches, entryMask,
    if_true]

/-- What the events given by user space say after the conversion. -/
theorem exists_masked_iff {u : UserFilter} {masked : List U64}
    (h : maskedEvents v u = some masked) (excl : Prop) (eventsel : U64) :
    (∃ e ∈ masked, (Excludes e ↔ excl) ∧ Matches v true e eventsel) ↔
      ∃ e ∈ u.events, (u.masked = true ∨ possible v e = true) ∧
        ((u.masked = true ∧ Excludes e) ↔ excl) ∧ Matches v u.masked e eventsel := by
  unfold maskedEvents at h
  split at h
  next hflag =>
    cases h
    simp only [hflag, Bool.false_eq_true, false_or, false_and]
    constructor
    · rintro ⟨e, he, hexcl, hmatch⟩
      rw [iff_false_left (convert_not_excludes e he)] at hexcl
      obtain ⟨x, hx, rfl⟩ := mem_map.1 he
      obtain ⟨hx, hposs⟩ := mem_filter.1 hx
      exact ⟨x, hx, hposs, by simpa using hexcl, matches_convert.1 hmatch⟩
    · rintro ⟨x, hx, hposs, hexcl, hmatch⟩
      have he : x ||| (0xFF : U64) <<< 56 ∈ convertToMaskedFilter v u.events :=
        mem_map_of_mem (mem_filter.2 ⟨hx, hposs⟩)
      refine ⟨_, he, ?_, matches_convert.2 hmatch⟩
      rw [iff_false_left (convert_not_excludes _ he)]
      simpa using hexcl
  next hflag =>
    split at h
    · cases h
    · cases h
      simp [hflag]

/-- A guest event is allowed if it is listed under `KVM_PMU_EVENT_ALLOW` or unlisted under
`KVM_PMU_EVENT_DENY`. -/
theorem gpEvent_allowed_iff (lib : SortLib) (v : Vendor) (u : UserFilter) (f : Filter)
    (h : prepareFilterLists lib v u = some f) (eventsel : U64) :
    isGpEventAllowed lib v f eventsel = true ↔
      (u.action = .allow ∧ Listed v u eventsel) ∨ (u.action = .deny ∧ ¬Listed v u eventsel) := by
  obtain ⟨haction, masked, hmasked, hprep⟩ := prepareFilterLists_spec h
  have hincl := exists_masked_iff hmasked False eventsel
  have hexcl := exists_masked_iff hmasked True eventsel
  have hlisted : (filterContainsMatch lib v f.includes eventsel &&
      !filterContainsMatch lib v f.excludes eventsel) = true ↔ Listed v u eventsel := by
    rw [Bool.and_eq_true, Bool.not_eq_true', ← Bool.not_eq_true, contains_iff hprep.sorted_includes,
      contains_iff hprep.sorted_excludes]
    simp only [hprep.mem_includes, hprep.mem_excludes, and_assoc]
    simp only [iff_false, iff_true] at hincl hexcl
    rw [hincl, hexcl]
    refine and_congr_right fun _ => not_congr (exists_congr fun e => and_congr_right fun _ => ?_)
    exact and_iff_right_of_imp fun hmatch => .inl hmatch.1.1
  unfold isGpEventAllowed
  rw [← hlisted, haction]
  split
  next hyes => simp [hyes]
  next hno => simp [hno]

def plainLib : SortLib where
  sort := List.insertionSort fun a b => filterSortCmp a b ≤ 0
  sort_perm := List.perm_insertionSort _
  sort_sorted events := by
    have htotal : Std.Total fun a b : U64 => filterSortCmp a b ≤ 0 :=
      ⟨fun a b => by simpa only [filterSortCmp, (filterCmp_spec _ _ _).2] using Nat.le_total _ _⟩
    have htrans : IsTrans U64 fun a b => filterSortCmp a b ≤ 0 :=
      ⟨fun a b c => by simpa only [filterSortCmp, (filterCmp_spec _ _ _).2] using Nat.le_trans⟩
    exact List.pairwise_insertionSort _ events
  bsearch key events := events.findIdx? fun e => filterEventCmp key e = 0
  bsearch_some h := by
    obtain ⟨hi, hcmp, -⟩ := List.findIdx?_eq_some_iff_getElem.1 h
    exact ⟨_, List.getElem?_eq_getElem hi, of_decide_eq_true hcmp⟩
  bsearch_none _ h e he := of_decide_eq_false (List.findIdx?_eq_none_iff.1 h e he)

/-- Event `0xC0` with every umask but 1, on a processor of either vendor. -/
def exceptOne : UserFilter := ⟨.allow, true, [0x00800000000001C0 ||| 0xFF00000000000000, 0xC0]⟩

theorem gpEvent_allowed_exceptOne :
    ∃ f, prepareFilterLists plainLib .intel exceptOne = some f ∧
      (isGpEventAllowed plainLib .intel f 0x2C0 = true ↔
        (exceptOne.action = .allow ∧ Listed .intel exceptOne 0x2C0) ∨
          (exceptOne.action = .deny ∧ ¬Listed .intel exceptOne 0x2C0)) := by
  obtain ⟨f, hf⟩ : ∃ f, prepareFilterLists plainLib .intel exceptOne = some f :=
    Option.isSome_iff_exists.1 (by decide +kernel)
  exact ⟨f, hf, gpEvent_allowed_iff plainLib .intel exceptOne f hf 0x2C0⟩

/-- An unmasked event with the `USR` bit set is skipped, although its event select and umask are
those of the guest event. -/
theorem gpEvent_skipped :
    ∃ f, prepareFilterLists plainLib .intel ⟨.allow, false, [0x100C0]⟩ = some f ∧
      Matches .intel false 0x100C0 0xC0 ∧ isGpEventAllowed plainLib .intel f 0xC0 = false := by
  refine ⟨⟨.allow, [], []⟩, by decide +kernel, ?_, by decide +kernel⟩
  exact ⟨by decide, by decide⟩

end LinuxKernel.X86.PmuFilter
