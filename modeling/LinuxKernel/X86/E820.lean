import Mathlib

/-!
# The E820 memory map

`arch/x86/kernel/e820.c`. A table holds the entries the firmware reported; its
array has room for `maxEntries` of them (`E820_MAX_ENTRIES`, which depends on
the number of NUMA nodes the kernel is built for). A pointer into the array is
the index of the entry it points to.
-/

namespace LinuxKernel.X86

/-- `struct e820_entry`. The type is a number the firmware chose, not only one
of the named values of `enum e820_type`. -/
structure E820Entry where
  addr : BitVec 64
  size : BitVec 64
  type : BitVec 32
deriving Repr, DecidableEq

structure E820Table (maxEntries : Nat) where
  entries : List E820Entry
  nrEntries_le : entries.length ≤ maxEntries

def E820_TYPE_PRAM : BitVec 32 := 12
def E820_TYPE_SOFT_RESERVED : BitVec 32 := 0xefffffff

/-- The entry describes the addresses from `addr` to `addr + size - 1`. -/
def E820Entry.Contains (e : E820Entry) (a : BitVec 64) : Prop :=
  e.addr.toNat ≤ a.toNat ∧ a.toNat < e.addr.toNat + e.size.toNat

instance (e : E820Entry) (a : BitVec 64) : Decidable (e.Contains a) :=
  inferInstanceAs (Decidable (_ ∧ _))

/-! ## Change points -/

structure ChangeMember (n : Nat) where
  entry : Fin n
  addr : BitVec 64
deriving Repr, DecidableEq

def isStart (entries : List E820Entry) (cp : ChangeMember entries.length) : Bool :=
  cp.addr == (entries.get cp.entry).addr

def cpcompare (entries : List E820Entry) (ap bp : ChangeMember entries.length) : Int :=
  if ap.addr ≠ bp.addr then
    if bp.addr < ap.addr then 1 else -1
  else
    (!isStart entries ap).toInt - (!isStart entries bp).toInt

def changePoints (entries : List E820Entry) : List (ChangeMember entries.length) :=
  (List.finRange entries.length).flatMap fun i =>
    let e := entries.get i
    if e.size ≠ 0 then [⟨i, e.addr⟩, ⟨i, e.addr + e.size⟩] else []

/-! ## The sweep over the change points -/

def e820Nomerge (type : BitVec 32) : Bool :=
  type == E820_TYPE_PRAM || type == E820_TYPE_SOFT_RESERVED

/-- Remove an entry from the overlap list, order independent: each slot that
holds it gets the last slot, and the list loses its last slot. -/
def removeOverlap {n : Nat} (overlap : List (Fin n)) (entry : Fin n) : List (Fin n) :=
  ((List.range overlap.length).foldl (fun list i =>
      if list[i]? = some entry then list.set i (list.getLast?.getD entry) else list)
    overlap).dropLast

def trackOverlap (entries : List E820Entry) (cp : ChangeMember entries.length)
    (overlap : List (Fin entries.length)) : List (Fin entries.length) :=
  if isStart entries cp then overlap ++ [cp.entry] else removeOverlap overlap cp.entry

def currentType (entries : List E820Entry) (overlap : List (Fin entries.length)) : BitVec 32 :=
  overlap.foldl (fun current i =>
    if current < (entries.get i).type then (entries.get i).type else current) 0

/-- The new map under construction: the finished entries, the slot behind them
(`new_entries[new_nr_entries]`), `last_type` and `last_addr`. -/
structure NewMap where
  entries : List E820Entry
  slot : E820Entry
  lastType : BitVec 32
  lastAddr : BitVec 64
deriving Repr, DecidableEq

def NewMap.init : NewMap := ⟨[], ⟨0, 0, 0⟩, 0, 0⟩

/-- Close the slot at `addr`, and move forward only if its size is not zero. -/
def NewMap.close (m : NewMap) (addr : BitVec 64) : NewMap :=
  if m.lastType ≠ 0 then
    let slot := { m.slot with size := addr - m.lastAddr }
    if slot.size ≠ 0 then { m with entries := m.entries ++ [slot], slot := ⟨0, 0, 0⟩ }
    else { m with slot := slot }
  else m

def NewMap.start (m : NewMap) (addr : BitVec 64) (current : BitVec 32) : NewMap :=
  if current ≠ 0 then
    { m with slot := { m.slot with addr := addr, type := current }
             lastAddr := addr, lastType := current }
  else { m with lastType := current }

/-- The loop over the sorted change points. `maxEntries` is where the loop
breaks because the new map is full; `none` is a map without that limit. -/
def sweep (entries : List E820Entry) (maxEntries : Option Nat) :
    List (ChangeMember entries.length) → List (Fin entries.length) → NewMap → NewMap
  | [], _, m => m
  | cp :: cps, overlap, m =>
    let overlap := trackOverlap entries cp overlap
    let current := currentType entries overlap
    if current ≠ m.lastType ∨ e820Nomerge current then
      let closed := m.close cp.addr
      if m.entries.length < closed.entries.length ∧
          maxEntries.any fun max => max ≤ closed.entries.length then closed
      else sweep entries maxEntries cps overlap (closed.start cp.addr current)
    else sweep entries maxEntries cps overlap m

variable (entries : List E820Entry)

section

abbrev SortFn (n : Nat) : Type :=
  (ChangeMember n → ChangeMember n → Int) → List (ChangeMember n) → List (ChangeMember n)

def SortedBy {n : Nat} (cmp : ChangeMember n → ChangeMember n → Int)
    (l sorted : List (ChangeMember n)) : Prop :=
  sorted.Perm l ∧ sorted.Pairwise fun a b => cmp a b ≤ 0

def newEntries (entries : List E820Entry) (sort : SortFn entries.length)
    (maxEntries : Option Nat) : List E820Entry :=
  (sweep entries maxEntries (sort (cpcompare entries) (changePoints entries)) []
    NewMap.init).entries

theorem NewMap.length_close_le (m : NewMap) (addr : BitVec 64) :
    (m.close addr).entries.length ≤ m.entries.length + 1 := by
  unfold NewMap.close
  split
  · dsimp only
    split <;> simp
  · omega

@[simp] theorem NewMap.start_entries (m : NewMap) (addr : BitVec 64) (current : BitVec 32) :
    (m.start addr current).entries = m.entries := by
  unfold NewMap.start
  split <;> rfl

theorem length_sweep_le (max : Nat)
    (cps : List (ChangeMember entries.length)) (overlap : List (Fin entries.length))
    (m : NewMap) (hm : m.entries.length < max) :
    (sweep entries (some max) cps overlap m).entries.length ≤ max := by
  induction cps generalizing overlap m with
  | nil => exact hm.le
  | cons cp cps ih =>
    have hclose := m.length_close_le cp.addr
    simp only [sweep]
    split
    · split
      · omega
      next hfull =>
        simp only [Option.any_some, decide_eq_true_eq, not_and, not_le] at hfull
        apply ih
        rw [NewMap.start_entries]
        by_cases hgrow : m.entries.length < (m.close cp.addr).entries.length
        · exact hfull hgrow
        · omega
    · exact ih _ _ hm

theorem length_newEntries_le (sort : SortFn entries.length)
    (max : Nat) (hlen : 2 ≤ entries.length) (hle : entries.length ≤ max) :
    (newEntries entries sort (some max)).length ≤ max :=
  length_sweep_le entries max _ _ _ (by simp [NewMap.init]; omega)

def e820UpdateTable {maxEntries : Nat} (table : E820Table maxEntries)
    (sort : SortFn table.entries.length) : Int × E820Table maxEntries :=
  if hlen : table.entries.length < 2 then (-1, table)
  else if table.entries.any fun e => e.addr + e.size < e.addr then (-1, table)
  else
    (0, ⟨newEntries table.entries sort (some maxEntries),
      length_newEntries_le _ _ _ (by omega) table.nrEntries_le⟩)

end

end LinuxKernel.X86
