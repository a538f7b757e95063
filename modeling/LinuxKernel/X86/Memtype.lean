import LinuxKernel.Foundation.IntervalTree

/-!
# PAT memory type reservations

`arch/x86/mm/pat/memtype_interval.c`: the interval tree of reserved ranges with their memory types,
and the proof that ranges which overlap keep the same type over every sequence of insertions and
removals.

The tree is the one of `interval_tree_generic.h`; the red-black rebalancing is any that keeps the
order of the nodes. Two nodes of the tree are two positions, so a range can be there twice.
-/

namespace LinuxKernel.X86

open Foundation Foundation.IntervalTree List

def EBUSY : Int := 16
def EINVAL : Int := 22

inductive PageCacheMode
  | wb
  | wc
  | ucMinus
  | uc
  | wt
  | wp
  deriving DecidableEq, Repr

/-- `struct memtype` without its node: a range `[start, end)` that is not empty, and its type. -/
structure Memtype where
  start : Nat
  stop : Nat
  type : PageCacheMode
  nonempty : start < stop
  deriving DecidableEq, Repr

def Memtype.Overlaps (a b : Memtype) : Prop := a.start < b.stop ∧ b.start < a.stop

instance (a b : Memtype) : Decidable (a.Overlaps b) :=
  inferInstanceAs (Decidable (a.start < b.stop ∧ b.start < a.stop))

def memtypeEndpoints : Endpoints Memtype where
  start := Memtype.start
  last := fun e => e.stop - 1

/-- `memtype_rbroot` -/
abbrev MemtypeTree := Intervals memtypeEndpoints

inductive MatchType
  | exact
  | «end»
  deriving DecidableEq, Repr

def MatchType.test (start stop : Nat) (entry : Memtype) : MatchType → Bool
  | .exact => decide (entry.start = start ∧ entry.stop = stop)
  | .«end» => decide (entry.start < start ∧ entry.stop = stop)

/-- The loop ends at an entry that does not start below `stop`. -/
def memtypeMatch (t : MemtypeTree) (start stop : Nat) (matchType : MatchType) :
    Option (Loc Memtype) :=
  ((t.visits start (stop - 1)).takeWhile fun loc => loc.entry.start < stop).find? fun loc =>
    matchType.test start stop loc.entry

/-- `memtype_check_conflict`: `-EBUSY`, or the type found. `newtype` says whether the caller takes
a type other than the requested one. -/
def memtypeCheckConflict (t : MemtypeTree) (start stop : Nat) (reqtype : PageCacheMode)
    (newtype : Bool) : Except Int PageCacheMode :=
  match t.visits start (stop - 1) with
  | [] => .ok reqtype
  | first :: rest =>
    if first.entry.type ≠ reqtype ∧ newtype = false then .error (-EBUSY)
    else if rest.all fun loc => loc.entry.type = first.entry.type then .ok first.entry.type
    else .error (-EBUSY)

variable (R : Rebalancing memtypeEndpoints)

/-- `memtype_check_insert`; the entry is returned with the type it got. -/
def memtypeCheckInsert (t : MemtypeTree) (new : Memtype) (retType : Bool) :
    MemtypeTree × Except Int Memtype :=
  match memtypeCheckConflict t new.start new.stop new.type retType with
  | .error err => (t, .error err)
  | .ok foundType =>
    let new := if retType then { new with type := foundType } else new
    (t.insert R new, .ok new)

/-- The result of `memtype_erase`: the entry that was removed, `NULL` when an entry was cut, or an
error. -/
inductive EraseResult
  | erased (entry : Memtype)
  | shrunk
  | error (err : Int)
  deriving DecidableEq, Repr

def memtypeEraseMatch (t : MemtypeTree) (start stop : Nat) : Option (Loc Memtype) :=
  (memtypeMatch t start stop .exact).or (memtypeMatch t start stop .«end»)

variable {t : MemtypeTree} {start stop : Nat} {loc : Loc Memtype}

theorem of_memtypeMatch {matchType : MatchType}
    (h : memtypeMatch t start stop matchType = some loc) :
    loc ∈ t.visits start (stop - 1) ∧ matchType.test start stop loc.entry = true := by
  have hmem := mem_of_find?_eq_some h
  have htest := find?_some h
  exact ⟨(takeWhile_sublist _).subset hmem, htest⟩

/-- The entry that is erased or cut ends where the range ends, and the range is not empty. -/
theorem of_memtypeEraseMatch (h : memtypeEraseMatch t start stop = some loc) :
    loc.zip = t.tree ∧ loc.entry.stop = stop ∧
      (loc.entry.start ≠ start → loc.entry.start < start) ∧ start < stop := by
  have hmatch : loc ∈ t.visits start (stop - 1) ∧ loc.entry.stop = stop ∧
      (loc.entry.start ≠ start → loc.entry.start < start) := by
    rcases Option.or_eq_some_iff.mp h with hexact | ⟨-, hend⟩
    · obtain ⟨hmem, htest⟩ := of_memtypeMatch hexact
      simp only [MatchType.test, decide_eq_true_eq] at htest
      exact ⟨hmem, htest.2, fun hne => absurd htest.1 hne⟩
    · obtain ⟨hmem, htest⟩ := of_memtypeMatch hend
      simp only [MatchType.test, decide_eq_true_eq] at htest
      exact ⟨hmem, htest.2, fun _ => htest.1⟩
  obtain ⟨hmem, hstop, hstart⟩ := hmatch
  have hmeets : loc.entry ∈ t.entries.filter (memtypeEndpoints.Meets start (stop - 1)) := by
    rw [← t.visits_entries]
    exact mem_map_of_mem hmem
  rw [mem_filter, decide_eq_true_iff] at hmeets
  have hlast : start ≤ loc.entry.stop - 1 := hmeets.2.2
  have hne := loc.entry.nonempty
  exact ⟨Intervals.zip_of_mem_visits hmem, hstop, hstart, by omega⟩

def memtypeErase (t : MemtypeTree) (start stop : Nat) : MemtypeTree × EraseResult :=
  match h : memtypeEraseMatch t start stop with
  | none => (t, .error (-EINVAL))
  | some loc =>
    let rest := t.remove R loc (of_memtypeEraseMatch h).1
    if hs : loc.entry.start = start then (rest, .erased loc.entry)
    else
      (rest.insert R
        { loc.entry with stop := start, nonempty := (of_memtypeEraseMatch h).2.2.1 hs }, .shrunk)

inductive MemtypeOp
  | insert (new : Memtype) (retType : Bool)
  | erase (start stop : Nat)
  deriving DecidableEq, Repr

def MemtypeOp.apply (t : MemtypeTree) : MemtypeOp → MemtypeTree
  | .insert new retType => (memtypeCheckInsert R t new retType).1
  | .erase start stop => (memtypeErase R t start stop).1

/-- A run of calls, each with the rebalancing it does. -/
def memtypeRun (ops : List (Rebalancing memtypeEndpoints × MemtypeOp)) : MemtypeTree :=
  ops.foldl (fun t op => op.2.apply op.1 t) Intervals.empty

/-! ## Overlapping entries agree -/

def Consistent (entries : List Memtype) : Prop :=
  ∀ a ∈ entries, ∀ b ∈ entries, a.Overlaps b → a.type = b.type

variable {l : List Memtype}

theorem Consistent.perm {l' : List Memtype} (h : Consistent l) (hperm : l.Perm l') :
    Consistent l' :=
  fun a ha b hb => h a (hperm.mem_iff.2 ha) b (hperm.mem_iff.2 hb)

theorem Consistent.cons {new : Memtype} (h : Consistent l)
    (hnew : ∀ e ∈ l, new.Overlaps e → new.type = e.type) : Consistent (new :: l) := by
  simp only [Consistent, forall_mem_cons]
  refine ⟨⟨fun _ => trivial, hnew⟩, fun a ha => ⟨fun hab => ?_, h a ha⟩⟩
  exact (hnew a ha ⟨hab.2, hab.1⟩).symm

theorem Consistent.shrink {e e' : Memtype} (h : Consistent (e :: l)) (htype : e'.type = e.type)
    (hstart : e'.start = e.start) (hstop : e'.stop ≤ e.stop) : Consistent (e' :: l) := by
  have hl : Consistent l := fun a ha b hb => h a (mem_cons_of_mem _ ha) b (mem_cons_of_mem _ hb)
  apply hl.cons
  intro a ha hover
  rw [htype]
  apply h e mem_cons_self a (mem_cons_of_mem _ ha)
  obtain ⟨h1, h2⟩ := hover
  exact ⟨by omega, by omega⟩

/-- The type that the check settles on is that of every entry the range overlaps, and without a
`newtype` it is the requested one. -/
theorem memtypeCheckConflict_ok {reqtype type : PageCacheMode}
    {newtype : Bool} (h : memtypeCheckConflict t start stop reqtype newtype = .ok type) :
    (∀ e ∈ t.entries, start < e.stop → e.start < stop → e.type = type) ∧
      (newtype = false → type = reqtype) := by
  have hvisit : ∀ e ∈ t.entries, start < e.stop → e.start < stop →
      e ∈ (t.visits start (stop - 1)).map (·.entry) := by
    intro e he h1 h2
    rw [t.visits_entries, mem_filter]
    refine ⟨he, ?_⟩
    rw [decide_eq_true_iff]
    exact ⟨Nat.le_sub_one_of_lt h2, Nat.le_sub_one_of_lt h1⟩
  unfold memtypeCheckConflict at h
  cases hvisits : t.visits start (stop - 1) with
  | nil =>
    rw [hvisits] at h hvisit
    refine ⟨fun e he h1 h2 => ?_, fun _ => (Except.ok.inj h).symm⟩
    simpa using hvisit e he h1 h2
  | cons first rest =>
    rw [hvisits] at h hvisit
    simp only at h
    split at h
    · simp at h
    next hreq =>
      split at h
      · rename_i hall
        have htype := Except.ok.inj h
        simp only [all_eq_true, decide_eq_true_eq] at hall
        refine ⟨fun e he h1 h2 => ?_, fun hnew => ?_⟩
        · have hmem := hvisit e he h1 h2
          simp only [map_cons, mem_cons, mem_map] at hmem
          rcases hmem with rfl | ⟨loc, hloc, rfl⟩
          · exact htype
          · exact (hall loc hloc).trans htype
        · rw [← htype]
          by_contra hne'
          exact hreq ⟨hne', hnew⟩
      · simp at h

/-! ## One call -/

/-- What `memtype_check_insert` does: an error leaves the tree alone, and a success adds one entry
that agrees with all entries it overlaps. -/
theorem memtypeCheckInsert_spec (t : MemtypeTree) (new : Memtype) (retType : Bool) :
    match memtypeCheckInsert R t new retType with
    | (t', .error _) => t' = t
    | (t', .ok e) => e.start = new.start ∧ e.stop = new.stop ∧ (retType = false → e = new) ∧
        t'.entries.Perm (e :: t.entries) ∧ ∀ b ∈ t.entries, e.Overlaps b → e.type = b.type := by
  unfold memtypeCheckInsert
  cases hcheck : memtypeCheckConflict t new.start new.stop new.type retType with
  | error err => rfl
  | ok type =>
    obtain ⟨hagree, hreq⟩ := memtypeCheckConflict_ok hcheck
    cases retType with
    | true =>
      refine ⟨rfl, rfl, by simp, t.entries_insert R _, fun b hb hover => ?_⟩
      exact (hagree b hb hover.1 hover.2).symm
    | false =>
      refine ⟨rfl, rfl, fun _ => rfl, t.entries_insert R _, fun b hb hover => ?_⟩
      exact (hreq rfl).symm.trans (hagree b hb hover.1 hover.2).symm

/-- What `memtype_erase` does: an error leaves the tree alone; otherwise one entry with the end of
the range loses the range, and goes away if it starts with it. -/
theorem memtypeErase_spec (t : MemtypeTree) (start stop : Nat) :
    match memtypeErase R t start stop with
    | (t', .error _) => t' = t
    | (t', .erased e) => e.start = start ∧ e.stop = stop ∧ t.entries.Perm (e :: t'.entries)
    | (t', .shrunk) => ∃ e e' rest, e.start < start ∧ start < stop ∧ e.stop = stop ∧
        e'.start = e.start ∧ e'.stop = start ∧ e'.type = e.type ∧ t.entries.Perm (e :: rest) ∧
        t'.entries.Perm (e' :: rest) := by
  cases hresult : memtypeErase R t start stop with
  | mk t' result =>
    unfold memtypeErase at hresult
    split at hresult
    · cases hresult
      rfl
    next loc h =>
      obtain ⟨hzip, hstop, hstart, hlt⟩ := of_memtypeEraseMatch h
      have hremove := t.entries_remove R loc hzip
      dsimp only at hresult
      split at hresult
      next hs =>
        cases hresult
        exact ⟨hs, hstop, hremove⟩
      next hs =>
        cases hresult
        exact ⟨loc.entry, { loc.entry with stop := start, nonempty := hstart hs }, _,
          hstart hs, hlt,
          hstop, rfl, rfl, rfl, hremove, Intervals.entries_insert R _ _⟩

theorem consistent_apply (h : Consistent t.entries) (op : MemtypeOp) :
    Consistent (op.apply R t).entries := by
  cases op with
  | insert new retType =>
    have hspec := memtypeCheckInsert_spec R t new retType
    rw [MemtypeOp.apply]
    generalize memtypeCheckInsert R t new retType = result at hspec
    obtain ⟨t', result⟩ := result
    cases result with
    | error err => rwa [show t' = t from hspec]
    | ok e => exact (h.cons hspec.2.2.2.2).perm hspec.2.2.2.1.symm
  | erase start stop =>
    have hspec := memtypeErase_spec R t start stop
    rw [MemtypeOp.apply]
    generalize memtypeErase R t start stop = result at hspec
    obtain ⟨t', result⟩ := result
    cases result with
    | error err => rwa [show t' = t from hspec]
    | erased e =>
      have hall := h.perm hspec.2.2
      exact fun a ha b hb => hall a (mem_cons_of_mem _ ha) b (mem_cons_of_mem _ hb)
    | shrunk =>
      obtain ⟨e, e', rest, -, hlt, hstop, hstart', hstop', htype, hperm, hperm'⟩ := hspec
      exact ((h.perm hperm).shrink htype hstart' (by omega)).perm hperm'.symm

/-- After every sequence of calls overlapping entries have the same type. A further call that
fails leaves the tree as it is, and a removal takes its range from one entry that equals it or ends
with it. -/
theorem memtypeRun_consistent (ops : List (Rebalancing memtypeEndpoints × MemtypeOp)) :
    let t := memtypeRun ops
    Consistent t.entries ∧
      (∀ new retType, match memtypeCheckInsert R t new retType with
        | (t', .error _) => t' = t
        | (t', .ok e) => t'.entries.Perm (e :: t.entries)) ∧
      ∀ start stop, match memtypeErase R t start stop with
        | (t', .error _) => t' = t
        | (t', .erased e) => e.start = start ∧ e.stop = stop ∧ t.entries.Perm (e :: t'.entries)
        | (t', .shrunk) => ∃ e e' rest, e.start < start ∧ start < stop ∧ e.stop = stop ∧
            e'.start = e.start ∧ e'.stop = start ∧ e'.type = e.type ∧ t.entries.Perm (e :: rest) ∧
            t'.entries.Perm (e' :: rest) := by
  refine ⟨?_, fun new retType => ?_, memtypeErase_spec R _⟩
  · have hfold : ∀ t : MemtypeTree, Consistent t.entries →
        Consistent (ops.foldl (fun t op => op.2.apply op.1 t) t).entries := by
      induction ops with
      | nil => exact fun t h => h
      | cons op ops ih => exact fun t h => ih _ (consistent_apply op.1 h op.2)
    exact hfold Intervals.empty fun a ha => by simp [Intervals.empty, Intervals.entries,
      Tree.inorder] at ha
  · have hspec := memtypeCheckInsert_spec R (memtypeRun ops) new retType
    generalize memtypeCheckInsert R (memtypeRun ops) new retType = result at hspec ⊢
    obtain ⟨t', result⟩ := result
    cases result with
    | error err => exact hspec
    | ok e => exact hspec.2.2.2.1

/-- A request that takes the type of the range it overlaps, one that does not, and a cut. -/
example : (memtypeRun ([.insert ⟨0, 8, .wb, by decide⟩ false, .insert ⟨4, 12, .uc, by decide⟩ true,
      .insert ⟨6, 7, .uc, by decide⟩ false, .erase 6 12].map (Rebalancing.none _, ·))).entries =
      [⟨0, 8, .wb, by decide⟩, ⟨4, 6, .wb, by decide⟩] := by
  decide

end LinuxKernel.X86
