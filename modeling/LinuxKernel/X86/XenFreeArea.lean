import LinuxKernel.X86.E820

/-!
# Finding a free area under Xen

`xen_find_free_area` of `arch/x86/xen/setup.c` looks for `size` bytes of RAM that memblock has not
reserved. In each RAM entry of the table it moves a window behind every reserved page it meets,
until the window is free or leaves the entry. The sums wrap as the source's do; the search is
followed where the table leaves room for them.
-/

namespace LinuxKernel.X86.Xen

def PAGE_SIZE : Nat := 4096

def E820_TYPE_RAM : BitVec 32 := 1

/-- The reserved memory, by page number. -/
structure Memblock where
  reserved : Nat → Bool

def Memblock.isReserved (mem : Memblock) (addr : Nat) : Bool := mem.reserved (addr / PAGE_SIZE)

def Memblock.reserve (mem : Memblock) (base size : Nat) : Memblock where
  reserved page := mem.reserved page ||
    (decide (base / PAGE_SIZE ≤ page) && decide (page * PAGE_SIZE < base + size))

/-- The inner loop: `addr` and `start` as they are when it is left. -/
def scanEntry (mem : Memblock) (size : BitVec 64) (entry : E820Entry) :
    Nat → BitVec 64 → BitVec 64 → Option (BitVec 64 × BitVec 64)
  | 0, _, _ => none
  | fuel + 1, addr, start =>
    if addr < start + size then
      let next := addr + .ofNat 64 PAGE_SIZE
      if mem.isReserved addr.toNat then
        -- The `break` leaves `addr` at the reserved page, below the new `start`.
        if entry.addr + entry.size < next + size then some (addr, next)
        else scanEntry mem size entry fuel next next
      else scanEntry mem size entry fuel next start
    else some (addr, start)

def xenFindFreeArea (mem : Memblock) (size : BitVec 64) (fuel : Nat) :
    List E820Entry → Option (BitVec 64 × Memblock)
  | [] => some (0, mem)
  | entry :: entries =>
    if entry.type ≠ E820_TYPE_RAM ∨ entry.size < size then xenFindFreeArea mem size fuel entries
    else
      match scanEntry mem size entry fuel entry.addr entry.addr with
      | none => none
      | some (addr, start) =>
        if start + size ≤ addr then some (start, mem.reserve start.toNat size.toNat)
        else xenFindFreeArea mem size fuel entries

/-! ## The window -/

/-- The `size` bytes at `w` lie in `entry` and none of them is reserved. -/
structure FreeRun (mem : Memblock) (entry : E820Entry) (size w : Nat) : Prop where
  lo : entry.addr.toNat ≤ w
  hi : w + size ≤ entry.addr.toNat + entry.size.toNat
  free : ∀ a, w ≤ a → a < w + size → mem.isReserved a = false

/-- No sum of the search in `entry` wraps. -/
def Room (entry : E820Entry) (size : Nat) : Prop :=
  entry.addr.toNat + entry.size.toNat + PAGE_SIZE + size < 2 ^ 64

/-- At the head of the inner loop, the window is free up to `addr` and every earlier one is not. -/
structure Scanned (mem : Memblock) (entry : E820Entry) (size addr start : Nat) : Prop where
  aligned : PAGE_SIZE ∣ addr
  lo : entry.addr.toNat ≤ start
  le : start ≤ addr
  free : ∀ a, start ≤ a → a < addr → mem.isReserved a = false
  blocked : ∀ w, entry.addr.toNat ≤ w → w < start →
    ∃ a, w ≤ a ∧ a < w + size ∧ mem.isReserved a = true

theorem isReserved_page (mem : Memblock) {addr a : Nat} (haligned : PAGE_SIZE ∣ addr)
    (hlo : addr ≤ a) (hhi : a < addr + PAGE_SIZE) : mem.isReserved a = mem.isReserved addr := by
  obtain ⟨page, rfl⟩ := haligned
  have hpage : a / PAGE_SIZE = PAGE_SIZE * page / PAGE_SIZE := by
    simp only [PAGE_SIZE] at *
    omega
  rw [Memblock.isReserved, hpage, Memblock.isReserved]

section
variable {mem : Memblock} {entry : E820Entry} {size addr start : Nat}

theorem Scanned.init (haligned : PAGE_SIZE ∣ entry.addr.toNat) :
    Scanned mem entry size entry.addr.toNat entry.addr.toNat where
  aligned := haligned
  lo := Nat.le_refl _
  le := Nat.le_refl _
  free a hlo hhi := absurd hhi (by omega)
  blocked w hlo hhi := absurd hhi (by omega)

section
variable (h : Scanned mem entry size addr start)
include h

theorem Scanned.advance
    (hfree : mem.isReserved addr = false) : Scanned mem entry size (addr + PAGE_SIZE) start where
  aligned := Nat.dvd_add h.aligned (Nat.dvd_refl _)
  lo := h.lo
  le := Nat.le_add_right_of_le h.le
  free a hlo hhi := by
    by_cases ha : a < addr
    · exact h.free a hlo ha
    · rw [isReserved_page mem h.aligned (by omega) hhi]
      exact hfree
  blocked := h.blocked

theorem Scanned.restart (hsize : 0 < size)
    (hin : addr < start + size) (hres : mem.isReserved addr = true) :
    Scanned mem entry size (addr + PAGE_SIZE) (addr + PAGE_SIZE) where
  aligned := Nat.dvd_add h.aligned (Nat.dvd_refl _)
  lo := Nat.le_add_right_of_le (Nat.le_trans h.lo h.le)
  le := Nat.le_refl _
  free a hlo hhi := absurd hhi (by omega)
  blocked w hlo hhi := by
    by_cases hw : w < start
    · exact h.blocked w hlo hw
    -- A window from `start` on meets the reserved page at `addr` or begins inside it.
    · by_cases hwa : w ≤ addr
      · exact ⟨addr, hwa, by omega, hres⟩
      · refine ⟨w, Nat.le_refl _, by omega, ?_⟩
        rw [isReserved_page mem h.aligned (by omega) hhi]
        exact hres

theorem Scanned.not_freeRun
    (hout : entry.addr.toNat + entry.size.toNat < start + size) (w : Nat) :
    ¬ FreeRun mem entry size w := by
  intro hw
  have hhi := hw.hi
  obtain ⟨a, hlo, hlt, hres⟩ := h.blocked w hw.lo (by omega)
  rw [hw.free a hlo hlt] at hres
  exact absurd hres (by decide)

end

/-- The sums of one round of the inner loop, where there is room for them. -/
theorem toNat_next_add {x size : BitVec 64} (h : x.toNat + PAGE_SIZE + size.toNat < 2 ^ 64) :
    (x + .ofNat 64 PAGE_SIZE).toNat = x.toNat + PAGE_SIZE ∧
      (x + .ofNat 64 PAGE_SIZE + size).toNat = x.toNat + PAGE_SIZE + size.toNat := by
  have hnext : (x + .ofNat 64 PAGE_SIZE).toNat = x.toNat + PAGE_SIZE :=
    BitVec.toNat_add_of_lt (Nat.lt_of_le_of_lt (Nat.le_add_right _ _) h)
  refine ⟨hnext, ?_⟩
  rw [BitVec.toNat_add_of_lt (by omega), hnext]

theorem scanEntry_spec {size addr start : BitVec 64} (hroom : Room entry size.toNat)
    (hsize : 0 < size.toNat) (fuel : Nat)
    (h : Scanned mem entry size.toNat addr.toNat start.toNat)
    (hin : start.toNat + size.toNat ≤ entry.addr.toNat + entry.size.toNat)
    (hfuel : entry.addr.toNat + entry.size.toNat - addr.toNat < fuel) :
    ∃ addr' start', scanEntry mem size entry fuel addr start = some (addr', start') ∧
      (if start' + size ≤ addr' then FreeRun mem entry size.toNat start'.toNat
        else ∀ w, ¬ FreeRun mem entry size.toNat w) := by
  unfold Room at hroom
  -- `addr` grows and stays below the end of the entry while the loop goes on.
  induction fuel generalizing addr start with
  | zero => exact absurd hfuel (Nat.not_lt_zero _)
  | succ fuel ih =>
    have hpage : 0 < PAGE_SIZE := by decide
    have hend : (start + size).toNat = start.toNat + size.toNat :=
      BitVec.toNat_add_of_lt (by omega)
    rw [scanEntry]
    simp only [BitVec.lt_def, hend]
    split
    · rename_i hlt
      have hstop : (entry.addr + entry.size).toNat = entry.addr.toNat + entry.size.toNat :=
        BitVec.toNat_add_of_lt (by omega)
      obtain ⟨hnext, hnextEnd⟩ :=
        toNat_next_add (show addr.toNat + PAGE_SIZE + size.toNat < 2 ^ 64 by omega)
      simp only [hstop, hnextEnd]
      split
      · rename_i hres
        have hrestart := h.restart hsize hlt hres
        split
        · rename_i hout
          refine ⟨_, _, rfl, ?_⟩
          rw [if_neg (by rw [BitVec.le_def, hnextEnd]; omega)]
          exact hrestart.not_freeRun hout
        · rename_i hfits
          rw [← hnext] at hrestart hfits
          exact ih hrestart (by omega) (by omega)
      · rename_i hfree
        have hadvance := h.advance (Bool.eq_false_iff.mpr hfree)
        rw [← hnext] at hadvance
        exact ih hadvance hin (by omega)
    · rename_i hdone
      refine ⟨_, _, rfl, ?_⟩
      rw [if_pos (by rw [BitVec.le_def, hend]; omega)]
      exact ⟨h.lo, hin, fun a hlo hhi => h.free a hlo (by omega)⟩

end

/-! ## The table -/

/-- Where page 0 is reserved, 0 is not the start of a free run: the result 0 means that there is
none. -/
theorem FreeRun.ne_zero {mem : Memblock} {entry : E820Entry} {size w : Nat}
    (h : FreeRun mem entry size w) (hsize : 0 < size) (hzero : mem.reserved 0 = true) : w ≠ 0 := by
  rintro rfl
  have hfree : mem.reserved 0 = false := h.free 0 (Nat.le_refl 0) (by omega)
  rw [hfree] at hzero
  exact absurd hzero (by decide)

/-- One entry of the table: its free run is taken, or it has none and the next entry is tried. -/
theorem xenFindFreeArea_cons {mem : Memblock} {entry : E820Entry} {size : BitVec 64} {fuel : Nat}
    (entries : List E820Entry) (hsize : 0 < size.toNat) (haligned : PAGE_SIZE ∣ entry.addr.toNat)
    (hroom : entry.type = E820_TYPE_RAM → Room entry size.toNat)
    (hfuel : entry.addr.toNat + entry.size.toNat < fuel) :
    (∃ start, entry.type = E820_TYPE_RAM ∧ FreeRun mem entry size.toNat start.toNat ∧
      xenFindFreeArea mem size fuel (entry :: entries) =
        some (start, mem.reserve start.toNat size.toNat)) ∨
    ((entry.type = E820_TYPE_RAM → ∀ w, ¬ FreeRun mem entry size.toNat w) ∧
      xenFindFreeArea mem size fuel (entry :: entries) =
        xenFindFreeArea mem size fuel entries) := by
  rw [xenFindFreeArea]
  split
  · rename_i hno
    refine .inr ⟨fun hram w hw => ?_, rfl⟩
    have hlo := hw.lo
    have hhi := hw.hi
    rcases hno with htype | hsmall
    · exact htype hram
    · rw [BitVec.lt_def] at hsmall
      omega
  · rename_i hyes
    obtain ⟨hram, hfits⟩ : entry.type = E820_TYPE_RAM ∧ size.toNat ≤ entry.size.toNat := by
      simpa only [not_or, not_not, BitVec.lt_def, Nat.not_lt, ne_eq] using hyes
    have hinit : Scanned mem entry size.toNat entry.addr.toNat entry.addr.toNat := .init haligned
    obtain ⟨addr, start, hscan, hpost⟩ :=
      scanEntry_spec (hroom hram) hsize fuel hinit (by omega) (by omega)
    simp only [hscan]
    split at hpost
    · rename_i hdone
      exact .inl ⟨start, hram, hpost, if_pos hdone⟩
    · rename_i hdone
      exact .inr ⟨fun _ => hpost, if_neg hdone⟩

theorem xenFindFreeArea_finds (mem : Memblock) (table : List E820Entry) (size : BitVec 64)
    (haligned : ∀ entry ∈ table, PAGE_SIZE ∣ entry.addr.toNat) (hzero : mem.reserved 0 = true)
    (hsize : 0 < size.toNat)
    (hroom : ∀ entry ∈ table, entry.type = E820_TYPE_RAM → Room entry size.toNat) :
    ∃ bound, ∀ fuel ≥ bound, ∃ start mem',
      xenFindFreeArea mem size fuel table = some (start, mem') ∧
      (start ≠ 0 → mem' = mem.reserve start.toNat size.toNat ∧
        ∃ entry ∈ table, entry.type = E820_TYPE_RAM ∧ FreeRun mem entry size.toNat start.toNat) ∧
      (start = 0 → mem' = mem ∧
        ∀ entry ∈ table, entry.type = E820_TYPE_RAM → ∀ w, ¬ FreeRun mem entry size.toNat w) := by
  induction table with
  | nil => exact ⟨0, fun _ _ => ⟨0, mem, rfl, by simp, by simp⟩⟩
  | cons entry entries ih =>
    rw [List.forall_mem_cons] at haligned hroom
    obtain ⟨bound, hbound⟩ := ih haligned.2 hroom.2
    refine ⟨bound + (entry.addr.toNat + entry.size.toNat + 1), fun fuel hfuel => ?_⟩
    have hturns : entry.addr.toNat + entry.size.toNat < fuel := by omega
    rcases xenFindFreeArea_cons entries hsize haligned.1 hroom.1 hturns with
      ⟨start, hram, hfree, hrun⟩ | ⟨hnone, hrun⟩
    · exact ⟨start, _, hrun, fun _ => ⟨rfl, entry, List.mem_cons_self, hram, hfree⟩,
        fun hs => absurd (congrArg BitVec.toNat hs) (hfree.ne_zero hsize hzero)⟩
    · obtain ⟨start, mem', hrest, hfound, hmiss⟩ := hbound fuel (by omega)
      refine ⟨start, mem', hrun.trans hrest, fun hs => ?_, fun hs => ?_⟩
      · obtain ⟨hmem, e, he, hfree⟩ := hfound hs
        exact ⟨hmem, e, List.mem_cons_of_mem _ he, hfree⟩
      · exact ⟨(hmiss hs).1, List.forall_mem_cons.mpr ⟨hnone, (hmiss hs).2⟩⟩

/-- Two reserved pages at the bottom of four pages of RAM: the area is found behind them. -/
theorem xenFindFreeArea_finds_behind_reserved :
    (xenFindFreeArea ⟨fun page => decide (page < 2)⟩ 8192 5 [⟨0, 16384, 1⟩]).map Prod.fst =
        some 8192 ∧
      ∃ bound, ∀ fuel ≥ bound, ∃ start mem',
        xenFindFreeArea ⟨fun page => decide (page < 2)⟩ 8192 fuel [⟨0, 16384, 1⟩] =
          some (start, mem') := by
  refine ⟨by decide, ?_⟩
  obtain ⟨bound, h⟩ := xenFindFreeArea_finds ⟨fun page => decide (page < 2)⟩ [⟨0, 16384, 1⟩] 8192
    (by simp) (by decide) (by decide) (by simp [Room, PAGE_SIZE])
  refine ⟨bound, fun fuel hfuel => ?_⟩
  obtain ⟨start, mem', hrun, -⟩ := h fuel hfuel
  exact ⟨start, mem', hrun⟩

end LinuxKernel.X86.Xen
