import Mathlib

/-!
# The ORC lookup table

`arch/x86/kernel/unwind_orc.c` finds the unwind entry of an address by a binary search in the table
of entry addresses. `orc_lookup` holds the result of that search for the start of every block of
the text; `orc_find` searches between the values of two neighbouring blocks only.
-/

namespace LinuxKernel.X86.Orc

open BitVec Function Nat

def LOOKUP_BLOCK_SIZE : Nat := 256

/-- `.orc_unwind_ip`: the address of the first entry, and the offset each entry holds. -/
structure OrcIpTable where
  ipTable : BitVec 64
  offsets : List (BitVec 32)
  deriving DecidableEq, Repr

namespace OrcIpTable

def numEntries (t : OrcIpTable) : Nat := t.offsets.length

/-- `orc_ip` of the entry at position `i`: the entry's own address plus what it holds. -/
def orcIp (t : OrcIpTable) (i : Nat) : Nat :=
  (t.ipTable + BitVec.ofNat 64 (4 * i) + (t.offsets.getD i 0).signExtend 64).toNat

def Sorted (t : OrcIpTable) : Prop :=
  ∀ i j, i ≤ j → j < t.numEntries → t.orcIp i ≤ t.orcIp j

end OrcIpTable

/-! ## The search -/

/-- The loop of `__orc_find`; pointers are positions in the table, and `last` may point in front of
it. -/
def orcFindLoop (t : OrcIpTable) (ip : Nat) (first last : Int) (found : Nat) : Nat :=
  if first ≤ last then
    let mid := first + (last - first) / 2
    if t.orcIp mid.toNat ≤ ip then orcFindLoop t ip (mid + 1) last mid.toNat
    else orcFindLoop t ip first (mid - 1) found
  else found
termination_by (last - first + 1).toNat

/-- `__orc_find` in the part of the table that starts at `base`; the position of the entry. -/
def orcFindIn (t : OrcIpTable) (base : Nat) (numEntries : BitVec 32) (ip : Nat) : Option Nat :=
  if numEntries = 0 then none
  else some (orcFindLoop t ip base (base + numEntries.toNat - 1) base)

/-- `r` is the last of the `n` entries from `base` on whose address is at most `ip`, or the first of
them if there is none. -/
structure OrcIpTable.Finds (t : OrcIpTable) (base n ip r : Nat) : Prop where
  ge : base ≤ r
  lt : r < base + n
  after : ∀ k, r < k → k < base + n → ip < t.orcIp k
  at_le : t.orcIp r ≤ ip ∨ r = base

variable {t : OrcIpTable} {n ip r : Nat}

/-- A later entry lies after the one found, so its address is above `ip`. -/
theorem OrcIpTable.Finds.mono {base lo hi a b : Nat} (hle : lo ≤ hi) (ha : t.Finds base n lo a)
    (hb : t.Finds base n hi b) : a ≤ b := by
  by_contra hab
  have hgt := hb.after a (by omega) ha.lt
  have hge := hb.ge
  cases ha.at_le with
  | inl h => omega
  | inr h => omega

theorem OrcIpTable.Finds.unique {base r' : Nat} (h : t.Finds base n ip r)
    (h' : t.Finds base n ip r') : r = r' :=
  le_antisymm (mono (le_refl ip) h h') (mono (le_refl ip) h' h)

/-- What the loop keeps: the entries after `last` are above `ip`, and `found` is the entry in front
of `first`. -/
theorem orcFindLoop_spec (ht : t.Sorted) {base : Nat} (hn : base + n ≤ t.numEntries)
    (first last : Int) (found : Nat) (hfirst : (base : Int) ≤ first) (hlast : last < base + n)
    (hfl : first ≤ last + 1) (hafter : ∀ k : Nat, last < k → k < base + n → ip < t.orcIp k)
    (hge : base ≤ found) (hlt : found < base + n)
    (hfound : ((found : Int) + 1 = first ∧ t.orcIp found ≤ ip) ∨ found = base ∧ first = base) :
    t.Finds base n ip (orcFindLoop t ip first last found) := by
  induction first, last, found using orcFindLoop.induct t ip with
  | case1 first last found hle mid hmid ih =>
    rw [orcFindLoop, if_pos hle]
    rw [if_pos hmid]
    exact ih (by omega) hlast (by omega) hafter (by omega) (by omega) (.inl ⟨by omega, hmid⟩)
  | case2 first last found hle mid hmid ih =>
    rw [orcFindLoop, if_pos hle]
    rw [if_neg hmid]
    refine ih hfirst (by omega) (by omega) (fun k hk hkn => ?_) hge hlt hfound
    -- the table is sorted, so every entry from `mid` on is above `ip`
    have hsorted := ht mid.toNat k (by omega) (by omega)
    exact Nat.lt_of_lt_of_le (Nat.lt_of_not_le hmid) hsorted
  | case3 first last found hle =>
    rw [orcFindLoop, if_neg hle]
    refine ⟨hge, hlt, fun k hk hkn => hafter k (by omega) hkn, ?_⟩
    cases hfound with
    | inl h => exact .inl h.2
    | inr h => exact .inr h.1

theorem orcFindIn_spec (ht : t.Sorted) (base : Nat) (n : BitVec 32) (ip : Nat)
    (hn : base + n.toNat ≤ t.numEntries) (hpos : 0 < n.toNat) :
    ∃ r, orcFindIn t base n ip = some r ∧ t.Finds base n.toNat ip r := by
  have hne : n ≠ 0 := by
    intro h
    simp [h] at hpos
  refine ⟨_, if_neg hne, ?_⟩
  exact orcFindLoop_spec ht hn _ _ _ (by omega) (by omega) (by omega)
    (fun k hk hkn => by omega) (le_refl base) (by omega)
    (.inr ⟨rfl, rfl⟩)

theorem orcFindIn_one (ht : t.Sorted) (ip : Nat) (hpos : 0 < t.numEntries) :
    orcFindIn t 0 1 ip = some 0 := by
  obtain ⟨r, hr, hfinds⟩ := orcFindIn_spec ht 0 1 ip ((zero_add 1).trans_le hpos) (by decide)
  have hlt : r < 1 := by simpa using hfinds.lt
  rw [hr, lt_one_iff.mp hlt]

/-! ## The lookup table -/

/-- `LOOKUP_START_IP + (LOOKUP_BLOCK_SIZE * i)`; the product is an `int`. -/
def blockIp (startIp i : Nat) : Nat :=
  (BitVec.ofNat 64 startIp + (BitVec.ofNat 32 (LOOKUP_BLOCK_SIZE * i)).signExtend 64).toNat

/-- The loop of `unwind_init`, over the first `n` blocks. -/
def fillLookup (t : OrcIpTable) (numEntries : BitVec 32) (startIp : Nat) :
    Nat → (Nat → BitVec 32) → Option (Nat → BitVec 32)
  | 0, lookup => some lookup
  | n + 1, lookup => do
      let lookup ← fillLookup t numEntries startIp n lookup
      let orc ← orcFindIn t 0 numEntries (blockIp startIp n)
      return Function.update lookup n (BitVec.ofNat 32 orc)

/-- `unwind_init`, from an `orc_lookup` of `lookupNumBlocks` entries; `none` if the unwinder is
disabled. -/
def unwindInit (t : OrcIpTable) (startIp stopIp lookupNumBlocks : Nat) (lookup : Nat → BitVec 32) :
    Option (Nat → BitVec 32) :=
  if t.numEntries = 0 then none
  else do
    let numEntries := BitVec.ofNat 32 t.numEntries
    let lookup ← fillLookup t numEntries startIp (lookupNumBlocks - 1) lookup
    let orc ← orcFindIn t 0 numEntries stopIp
    return Function.update lookup (lookupNumBlocks - 1) (BitVec.ofNat 32 orc)

/-- What `orc_find` points to: `null_orc_entry`, an entry of the table, or one found elsewhere. -/
inductive OrcEntry (M : Type) where
  | null
  | table (i : Nat)
  | other (entry : M)
  deriving DecidableEq, Repr

inductive OrcWarning where
  | badLookupIdx
  | badLookupValue
  deriving DecidableEq, Repr

/-- `orc_find`; addresses outside of the text between `startIp` and `stopIp` are looked up by
`isInittext` and `other`. -/
def orcFind {M : Type} (t : OrcIpTable) (startIp stopIp : Nat) (lookupNumBlocks : BitVec 32)
    (lookup : Nat → BitVec 32) (isInittext : Nat → Bool) (other : Nat → Option M) (ip : Nat) :
    Except OrcWarning (Option (OrcEntry M)) :=
  if ip = 0 then .ok (some .null)
  else if startIp ≤ ip ∧ ip < stopIp then
    let idx := BitVec.ofNat 32 ((ip - startIp) / LOOKUP_BLOCK_SIZE)
    if lookupNumBlocks - 1 ≤ idx then .error .badLookupIdx
    else
      let start := lookup idx.toNat
      let stop := lookup (idx + 1).toNat + 1
      if t.numEntries ≤ start.toNat ∨ t.numEntries < stop.toNat then .error .badLookupValue
      else
        .ok ((orcFindIn t start.toNat (stop - start) ip).map .table)
  else if isInittext ip then
    .ok ((orcFindIn t 0 (BitVec.ofNat 32 t.numEntries) ip).map .table)
  else .ok ((other ip).map .other)

/-! ## The table brackets every search -/

theorem blockIp_eq {startIp i : Nat} (hi : LOOKUP_BLOCK_SIZE * i < 2 ^ 31)
    (hlt : startIp + LOOKUP_BLOCK_SIZE * i < 2 ^ 64) :
    blockIp startIp i = startIp + LOOKUP_BLOCK_SIZE * i := by
  have hoff : (BitVec.ofNat 32 (LOOKUP_BLOCK_SIZE * i)).signExtend 64 =
      BitVec.ofNat 64 (LOOKUP_BLOCK_SIZE * i) := by
    have hmsb : (BitVec.ofNat 32 (LOOKUP_BLOCK_SIZE * i)).msb = false := by
      rw [msb_eq_false_iff_two_mul_lt, toNat_ofNat]
      omega
    rw [signExtend_eq_setWidth_of_msb_false hmsb]
    apply eq_of_toNat_eq
    simp only [toNat_setWidth, toNat_ofNat]
    omega
  rw [blockIp, hoff, toNat_add, toNat_ofNat, toNat_ofNat]
  omega

section
variable {t : OrcIpTable} (ht : t.Sorted) (hpos : 0 < t.numEntries) (hsize : t.numEntries < 2 ^ 32)
include ht hpos hsize

theorem orcFindIn_whole (ip : Nat) :
    ∃ r : BitVec 32, orcFindIn t 0 (BitVec.ofNat 32 t.numEntries) ip = some r.toNat ∧
      t.Finds 0 t.numEntries ip r.toNat := by
  have hnum : (BitVec.ofNat 32 t.numEntries).toNat = t.numEntries := by
    rw [toNat_ofNat]
    omega
  obtain ⟨r, hr, hfinds⟩ := orcFindIn_spec ht 0 (BitVec.ofNat 32 t.numEntries) ip (by omega)
    (by omega)
  rw [hnum] at hfinds
  have hlt := hfinds.lt
  obtain ⟨v, rfl⟩ : ∃ v : BitVec 32, v.toNat = r := ⟨.ofNat 32 r, mod_eq_of_lt (by omega)⟩
  exact ⟨v, hr, hfinds⟩

theorem fillLookup_spec (startIp : Nat) (lookup : Nat → BitVec 32) (n : Nat) :
    ∃ lookup', fillLookup t (BitVec.ofNat 32 t.numEntries) startIp n lookup = some lookup' ∧
      ∀ i, i < n → t.Finds 0 t.numEntries (blockIp startIp i) (lookup' i).toNat := by
  induction n with
  | zero => exact ⟨lookup, rfl, fun i hi => absurd hi (by omega)⟩
  | succ n ih =>
    obtain ⟨filled, hfilled, hblocks⟩ := ih
    obtain ⟨orc, horc, hfinds⟩ := orcFindIn_whole ht hpos hsize (blockIp startIp n)
    refine ⟨update filled n orc, by simp [fillLookup, hfilled, horc], ?_⟩
    intro i hi
    by_cases hin : i = n
    · subst hin
      rwa [update_self]
    · rw [update_of_ne hin]
      exact hblocks i (by omega)

theorem unwindInit_spec (startIp stopIp blocks : Nat) (lookup : Nat → BitVec 32) :
    ∃ lookup', unwindInit t startIp stopIp (blocks + 1) lookup = some lookup' ∧
      (∀ i, i < blocks → t.Finds 0 t.numEntries (blockIp startIp i) (lookup' i).toNat) ∧
      t.Finds 0 t.numEntries stopIp (lookup' blocks).toNat := by
  obtain ⟨filled, hfilled, hblocks⟩ := fillLookup_spec ht hpos hsize startIp lookup blocks
  obtain ⟨orc, horc, hfinds⟩ := orcFindIn_whole ht hpos hsize stopIp
  refine ⟨update filled blocks orc, ?_, ?_, ?_⟩
  · simp [unwindInit, hfilled, horc, pos_iff_ne_zero.mp hpos]
  · intro i hi
    rw [update_of_ne (by omega)]
    exact hblocks i hi
  · rwa [update_self]

end

/-- The entry of `ip` lies between the entries of two addresses around it. -/
theorem OrcIpTable.Finds.bracket {lo hi a b : Nat} (hlo : lo ≤ ip)
    (hhi : ip ≤ hi) (ha : t.Finds 0 n lo a) (hb : t.Finds 0 n hi b)
    (hr : t.Finds a (b + 1 - a) ip r) : t.Finds 0 n ip r := by
  have hrlt := hr.lt
  have hrge := hr.ge
  have hblt := hb.lt
  refine ⟨by omega, by omega, ?_, ?_⟩
  · intro k hk hkn
    by_cases hkb : k ≤ b
    · exact hr.after k hk (by omega)
    · have := hb.after k (by omega) hkn
      omega
  · cases hr.at_le with
    | inl h => exact .inl h
    | inr h =>
      subst h
      exact ha.at_le.imp_left fun h => by omega

/-- The number of `orc_lookup` entries the linker script reserves for the text. -/
def lookupNumBlocks (startIp stopIp : Nat) : Nat :=
  (stopIp - startIp + (LOOKUP_BLOCK_SIZE - 1)) / LOOKUP_BLOCK_SIZE + 1

theorem toNat_add_one {v : BitVec 32} (hv : v.toNat < n) (hn : n < 2 ^ 32) :
    (v + 1).toNat = v.toNat + 1 := by
  rw [toNat_add]
  simp only [ofNat_eq_ofNat, toNat_ofNat]
  omega

section
variable {t : OrcIpTable} {startIp stopIp blocks : Nat} {lookup : Nat → BitVec 32}

/-- Where the entries of two addresses bracket `ip`, `orc_find` passes both checks and finds its
entry. -/
theorem orcFind_of_brackets {M : Type} (ht : t.Sorted) (hsize : t.numEntries < 2 ^ 32)
    (isInittext : Nat → Bool) (other : Nat → Option M) {ip i : Nat} (hip : ip ≠ 0)
    (hge : startIp ≤ ip) (hlt : ip < stopIp) (hi : i = (ip - startIp) / 256)
    (hib : i < blocks) (hblocks : blocks + 1 < 2 ^ 32) {lo hi' : Nat} (hlole : lo ≤ ip)
    (hhile : ip ≤ hi') (hlo : t.Finds 0 t.numEntries lo (lookup i).toNat)
    (hhi : t.Finds 0 t.numEntries hi' (lookup (i + 1)).toNat) :
    ∃ r, orcFind t startIp stopIp (BitVec.ofNat 32 (blocks + 1)) lookup isInittext other ip =
        .ok (some (.table r)) ∧ t.Finds 0 t.numEntries ip r := by
  have hhilt := hhi.lt
  have hmono := hlo.mono (by omega) hhi
  have hidx : (BitVec.ofNat 32 i).toNat = i := by
    rw [toNat_ofNat]
    omega
  have hidx' : (BitVec.ofNat 32 i + 1).toNat = i + 1 := by
    rw [toNat_add_one (n := blocks) (by omega) (by omega), hidx]
  have hlast : (BitVec.ofNat 32 (blocks + 1) - 1).toNat = blocks := by
    rw [toNat_sub]
    simp only [ofNat_eq_ofNat, toNat_ofNat]
    omega
  have hstopNat := toNat_add_one (v := lookup (i + 1)) (by omega) hsize
  have hnumNat : (lookup (i + 1) + 1 - lookup i).toNat =
      (lookup (i + 1)).toNat + 1 - (lookup i).toNat := by
    rw [toNat_sub]
    omega
  obtain ⟨r, hfound, hfinds⟩ := orcFindIn_spec ht (lookup i).toNat
    (lookup (i + 1) + 1 - lookup i) ip (by omega) (by omega)
  rw [hnumNat] at hfinds
  refine ⟨r, ?_, OrcIpTable.Finds.bracket hlole hhile hlo hhi hfinds⟩
  have hidxOk : ¬BitVec.ofNat 32 (blocks + 1) - 1 ≤ BitVec.ofNat 32 i := by
    rw [le_def, hlast]
    omega
  have hvalueOk : ¬(t.numEntries ≤ (lookup i).toNat ∨
      t.numEntries < (lookup (i + 1) + 1).toNat) := by omega
  simp only [orcFind, LOOKUP_BLOCK_SIZE, ← hi, if_neg hip, if_pos (And.intro hge hlt),
    if_neg hidxOk, hidx, hidx', if_neg hvalueOk, hfound, Option.map_some]

end

/-- For a sorted table and a text of at most two gigabytes, the fast lookup of every address of the
text other than 0 is the full search, and no warning is reached. -/
theorem orcFind_fast {M : Type} {t : OrcIpTable} (ht : t.Sorted) (hpos : 0 < t.numEntries)
    (hsize : t.numEntries < 2 ^ 32) {startIp stopIp : Nat} (hstop : stopIp < 2 ^ 64)
    (hrange : stopIp ≤ startIp + 2 ^ 31) (old : Nat → BitVec 32) (isInittext : Nat → Bool)
    (other : Nat → Option M) :
    ∃ lookup, unwindInit t startIp stopIp (lookupNumBlocks startIp stopIp) old = some lookup ∧
      ∀ ip, ip ≠ 0 → startIp ≤ ip → ip < stopIp →
        ∃ r, orcFind t startIp stopIp (BitVec.ofNat 32 (lookupNumBlocks startIp stopIp)) lookup
            isInittext other ip = .ok (some (.table r)) ∧
          orcFindIn t 0 (BitVec.ofNat 32 t.numEntries) ip = some r ∧
          t.Finds 0 t.numEntries ip r := by
  obtain ⟨blocks, hblocks⟩ : ∃ blocks, blocks = (stopIp - startIp + 255) / 256 := ⟨_, rfl⟩
  have hnum : lookupNumBlocks startIp stopIp = blocks + 1 := by rw [hblocks]; rfl
  rw [hnum]
  obtain ⟨lookup, hinit, hblock, hend⟩ := unwindInit_spec ht hpos hsize startIp stopIp blocks old
  refine ⟨lookup, hinit, fun ip hip hge hlt => ?_⟩
  obtain ⟨i, hi⟩ : ∃ i, i = (ip - startIp) / 256 := ⟨_, rfl⟩
  have hstart : ∀ j, j < blocks → blockIp startIp j = startIp + 256 * j := fun j hj =>
    blockIp_eq (by simp only [LOOKUP_BLOCK_SIZE]; omega) (by simp only [LOOKUP_BLOCK_SIZE]; omega)
  have hib : i < blocks := by omega
  have hlo := hblock i hib
  rw [hstart i hib] at hlo
  -- the entry behind the last block is that of the end of the text
  obtain ⟨hi', hhile, hhi⟩ : ∃ hi', ip ≤ hi' ∧ t.Finds 0 t.numEntries hi'
    (lookup (i + 1)).toNat := by
    by_cases hnext : i + 1 < blocks
    · exact ⟨_, by rw [hstart _ hnext]; omega, hblock (i + 1) hnext⟩
    · rw [show i + 1 = blocks by omega]
      exact ⟨stopIp, le_of_lt hlt, hend⟩
  obtain ⟨r, hfast, hfinds⟩ := orcFind_of_brackets ht hsize isInittext other hip hge hlt hi hib
    (by omega) (by omega) hhile hlo hhi
  obtain ⟨r', hfull, hfinds'⟩ := orcFindIn_whole ht hpos hsize ip
  obtain rfl := hfinds.unique hfinds'
  exact ⟨_, hfast, hfull, hfinds⟩

def farTable : OrcIpTable where
  ipTable := 0x140000000
  offsets := [0xc0000000, 0x3ffffffc]

theorem farTable_sorted : farTable.Sorted := by
  intro i j hij hj
  have hj' : j < 2 := hj
  interval_cases j <;> interval_cases i <;> decide

theorem orcFind_fast_farTable :
    ∃ lookup, unwindInit farTable 0x100000000 0x180000000
        (lookupNumBlocks 0x100000000 0x180000000) (fun _ => 0) = some lookup ∧
      ∀ ip, ip ≠ 0 → 0x100000000 ≤ ip → ip < 0x180000000 →
        ∃ r, orcFind (M := Unit) farTable 0x100000000 0x180000000
            (BitVec.ofNat 32 (lookupNumBlocks 0x100000000 0x180000000)) lookup (fun _ => false)
            (fun _ => none) ip = .ok (some (.table r)) ∧
          orcFindIn farTable 0 (BitVec.ofNat 32 farTable.numEntries) ip = some r ∧
          farTable.Finds 0 farTable.numEntries ip r :=
  orcFind_fast farTable_sorted (by decide) (by decide) (by decide) (by decide) _ _ _

theorem farTable_finds_low (hip : ip < 0x180000000) (h : farTable.Finds 0 2 ip r) : r = 0 := by
  have hr : r < 2 := by simpa using h.lt
  interval_cases r
  · rfl
  · have hle := h.at_le
    have hval : farTable.orcIp 1 = 0x180000000 := by decide
    omega

/-- Address 0 never reaches the table, and in a text of more than two gigabytes the block offsets
wrap: the entry two gigabytes behind the start is not found. -/
theorem orcFind_misses :
    (∃ lookup, unwindInit ⟨0, [0]⟩ 0 0x100 (lookupNumBlocks 0 0x100) (fun _ => 0) = some lookup ∧
      orcFind (M := Unit) ⟨0, [0]⟩ 0 0x100 (BitVec.ofNat 32 (lookupNumBlocks 0 0x100)) lookup
        (fun _ => false) (fun _ => none) 0 = .ok (some .null) ∧
      orcFindIn ⟨0, [0]⟩ 0 1 0 = some 0) ∧
    ∃ lookup, unwindInit farTable 0x100000000 0x180000200
        (lookupNumBlocks 0x100000000 0x180000200) (fun _ => 0) = some lookup ∧
      orcFind (M := Unit) farTable 0x100000000 0x180000200
        (BitVec.ofNat 32 (lookupNumBlocks 0x100000000 0x180000200)) lookup (fun _ => false)
        (fun _ => none) 0x180000000 = .ok (some (.table 0)) ∧
      orcFindIn farTable 0 2 0x180000000 = some 1 := by
  constructor
  · have hsorted : (OrcIpTable.mk 0 [0]).Sorted := by
      intro i j hij hj
      have hj' : j < 1 := hj
      interval_cases j
      interval_cases i
      decide
    obtain ⟨lookup, hinit, -, -⟩ :=
      unwindInit_spec hsorted (by decide) (by decide) 0 0x100 1 (fun _ => 0)
    exact ⟨lookup, hinit, rfl, orcFindIn_one hsorted 0 (by decide)⟩
  · obtain ⟨lookup, hinit, hblock, -⟩ := unwindInit_spec farTable_sorted (by decide) (by decide)
      0x100000000 0x180000200 (2 ^ 23 + 2) (fun _ => 0)
    -- the offsets of these two blocks are negative as an `int`
    have hlo : lookup (2 ^ 23) = 0 := by
      apply BitVec.eq_of_toNat_eq
      exact farTable_finds_low (by decide) (hblock (2 ^ 23) (by decide))
    have hhi : lookup (2 ^ 23 + 1) = 0 := by
      apply BitVec.eq_of_toNat_eq
      exact farTable_finds_low (by decide) (hblock (2 ^ 23 + 1) (by decide))
    refine ⟨lookup, hinit, ?_, ?_⟩
    · have hone := orcFindIn_one farTable_sorted 0x180000000 (by decide)
      have hidx : BitVec.ofNat 32 ((0x180000000 - 0x100000000) / LOOKUP_BLOCK_SIZE) =
          BitVec.ofNat 32 (2 ^ 23) := by decide
      have hidx' : (BitVec.ofNat 32 (2 ^ 23)).toNat = 2 ^ 23 := by decide
      have hnext : (BitVec.ofNat 32 (2 ^ 23) + 1).toNat = 2 ^ 23 + 1 := by decide
      have hin : ¬BitVec.ofNat 32 (lookupNumBlocks 0x100000000 0x180000200) - 1 ≤
          BitVec.ofNat 32 (2 ^ 23) := by decide
      have hsub : (0 : BitVec 32) + 1 - 0 = 1 := by decide
      have hzero : (0 : BitVec 32).toNat = 0 := rfl
      rw [orcFind, if_neg (by decide), if_pos (by decide)]
      simp only [hidx, if_neg hin, hidx', hnext, hlo, hhi, hsub, hzero, hone]
      rfl
    · obtain ⟨r, hr, hfinds⟩ :=
        orcFindIn_spec farTable_sorted 0 2 0x180000000 (by decide) (by decide)
      have hlt : r < 2 := by simpa using hfinds.lt
      have hafter := hfinds.after 1
      have hval : farTable.orcIp 1 = 0x180000000 := by decide
      have htwo : (2 : BitVec 32).toNat = 2 := rfl
      have hone : r = 1 := by omega
      rw [hr, hone]

end LinuxKernel.X86.Orc
