import LinuxKernel.X86.E820

/-!
# Searching the E820 memory map

`arch/x86/kernel/e820.c`, `__e820__mapped_all` and `e820_search_gap`: both walk a
sorted table, one forwards from the start of the range that is looked up, one
backwards from 4GB.
-/

namespace LinuxKernel.X86

open List

def E820Entry.NonWrapping (e : E820Entry) : Prop := e.addr.toNat + e.size.toNat < 2 ^ 64

def SortedByAddr (entries : List E820Entry) : Prop :=
  entries.Pairwise fun e e' => e.addr ≤ e'.addr

theorem E820Entry.NonWrapping.toNat_end {e : E820Entry} (h : e.NonWrapping) :
    (e.addr + e.size).toNat = e.addr.toNat + e.size.toNat := by
  rw [BitVec.toNat_add, Nat.mod_eq_of_lt h]

/-! ## Looking a range up -/

/-- `type` zero stands for any type. -/
def E820Entry.matches (type : BitVec 32) (e : E820Entry) : Prop := type = 0 ∨ e.type = type

/-- `__e820__mapped_all`: `start` moves forward to the end of each entry that
reaches over it. -/
def e820MappedAll (type : BitVec 32) («end» : BitVec 64) :
    List E820Entry → BitVec 64 → Option E820Entry
  | [], _ => none
  | entry :: entries, start =>
    if type ≠ 0 ∧ entry.type ≠ type then e820MappedAll type «end» entries start
    else if «end» ≤ entry.addr ∨ entry.addr + entry.size ≤ start then
      e820MappedAll type «end» entries start
    else
      let start := if entry.addr ≤ start then entry.addr + entry.size else start
      if «end» ≤ start then some entry else e820MappedAll type «end» entries start

/-- Every address of the range lies in an entry of a matching type. -/
def Mapped (type : BitVec 32) (entries : List E820Entry) (start «end» : BitVec 64) : Prop :=
  ∀ a, start ≤ a → a < «end» → ∃ e ∈ entries, e.matches type ∧ e.Contains a

section
variable {type : BitVec 32} {entry : E820Entry} {entries : List E820Entry}
  {start «end» : BitVec 64}

theorem mapped_cons_of_not_contains
    (h : ∀ a, start ≤ a → a < «end» → entry.matches type → ¬ entry.Contains a) :
    Mapped type (entry :: entries) start «end» ↔ Mapped type entries start «end» := by
  unfold Mapped
  refine forall₃_congr fun a hstart hend => ?_
  have := h a hstart hend
  simp only [exists_mem_cons_iff]
  tauto

/-- A range that begins in the entry is mapped if what follows the entry is. -/
theorem mapped_cons_of_contains_start (hwrap : entry.NonWrapping)
    (hmatch : entry.matches type) (haddr : entry.addr ≤ start)
    (hstart : start ≤ entry.addr + entry.size) : Mapped type (entry :: entries) start «end» ↔
      Mapped type entries (entry.addr + entry.size) «end» := by
  have hsize := hwrap.toNat_end
  constructor
  · intro h a ha hend
    obtain ⟨e, he, hm, hc⟩ := h a (BitVec.le_trans hstart ha) hend
    cases he with
    | head => exact absurd hc.2 (by rw [BitVec.le_def] at ha; omega)
    | tail _ he => exact ⟨e, he, hm, hc⟩
  · intro h a ha hend
    by_cases hin : a < entry.addr + entry.size
    · refine ⟨entry, mem_cons_self, hmatch, ?_, ?_⟩
      · exact BitVec.le_trans haddr ha
      · rwa [BitVec.lt_def, hsize] at hin
    · obtain ⟨e, he, hc⟩ := h a (BitVec.not_lt.mp hin) hend
      exact ⟨e, mem_cons_of_mem _ he, hc⟩

theorem not_mapped_of_start_lt (hend : start < «end»)
    (h : ∀ e ∈ entries, start < e.addr) : ¬ Mapped type entries start «end» := by
  intro hall
  obtain ⟨e, he, -, hc, -⟩ := hall start (BitVec.le_refl _) hend
  exact absurd hc (Nat.not_le.mpr (h e he))

/-- In a sorted table the search finds an entry exactly when the whole range is
mapped. -/
theorem e820MappedAll_isSome_iff (hsorted : SortedByAddr entries)
    (hwrap : ∀ e ∈ entries, e.NonWrapping) (hend : start < «end») :
    (e820MappedAll type «end» entries start).isSome ↔
      Mapped type entries start «end» := by
  induction entries generalizing start with
  | nil => simpa [e820MappedAll] using not_mapped_of_start_lt hend (by simp)
  | cons entry entries ih =>
    obtain ⟨hfirst, hsorted⟩ := pairwise_cons.mp hsorted
    obtain ⟨hw, hwrap⟩ := forall_mem_cons.mp hwrap
    have hsize := hw.toNat_end
    rw [e820MappedAll]
    split
    · -- an entry of another type
      rw [ih hsorted hwrap hend, mapped_cons_of_not_contains]
      rintro a - - hm
      exact absurd hm (by simp_all [E820Entry.matches])
    split
    · -- an entry outside the range
      rw [ih hsorted hwrap hend, mapped_cons_of_not_contains]
      rintro a ha hae - ⟨hlo, hhi⟩
      simp only [BitVec.le_def, BitVec.lt_def] at *
      omega
    have hmatch : entry.matches type := by unfold E820Entry.matches; tauto
    simp only [not_or, BitVec.not_le] at *
    by_cases haddr : entry.addr ≤ start
    · rw [if_pos haddr, mapped_cons_of_contains_start hw hmatch haddr (by bv_omega)]
      split
      · exact iff_of_true rfl fun a ha hae => absurd hae (by bv_omega)
      · exact ih hsorted hwrap (by bv_omega)
    · -- the first address is left out: every later entry begins behind it
      rw [if_neg haddr, if_neg (by bv_omega), ih hsorted hwrap hend]
      have hlt : ∀ e ∈ entry :: entries, start < e.addr := by
        refine forall_mem_cons.mpr ⟨by bv_omega, fun e he => ?_⟩
        have := hfirst e he
        bv_omega
      exact iff_of_false (not_mapped_of_start_lt hend (forall_mem_cons.mp hlt).2)
        (not_mapped_of_start_lt hend hlt)

theorem e820MappedAll_touching :
    Mapped 1 [⟨0, 0x1000, 1⟩, ⟨0x1000, 0x1000, 1⟩, ⟨0x2000, 0x1000, 2⟩] 0x800 0x1800 :=
  (e820MappedAll_isSome_iff (by simp [SortedByAddr]) (by simp [E820Entry.NonWrapping])
    (by decide)).mp (by decide)

end

/-! ## Searching a gap -/

def MAX_GAP_END : BitVec 64 := 0x100000000

structure GapSearch where
  last : BitVec 64
  gapstart : BitVec 64
  gapsize : BitVec 64
  found : Bool
deriving Repr, DecidableEq

def GapSearch.visit (entry : E820Entry) (s : GapSearch) : GapSearch :=
  let start := entry.addr
  let «end» := start + entry.size
  let s := if «end» < s.last ∧ s.gapsize ≤ s.last - «end» then
      { s with gapsize := s.last - «end», gapstart := «end», found := true }
    else s
  if start < s.last then { s with last := start } else s

def e820SearchGap (entries : List E820Entry) (gapstart gapsize : BitVec 64) : GapSearch :=
  entries.foldr GapSearch.visit ⟨MAX_GAP_END, gapstart, gapsize, false⟩

def DisjointEntries (entries : List E820Entry) : Prop :=
  entries.Pairwise fun e e' => ∀ a, e.Contains a → ¬ e'.Contains a

/-- The `n` addresses that follow `e` lie below 4GB and in no entry. -/
def FreeAfter (entries : List E820Entry) (e : E820Entry) (n : Nat) : Prop :=
  0 < n ∧ e.addr.toNat + e.size.toNat + n ≤ MAX_GAP_END.toNat ∧
    ∀ a : BitVec 64, e.addr.toNat + e.size.toNat ≤ a.toNat →
      a.toNat < e.addr.toNat + e.size.toNat + n → ∀ e' ∈ entries, ¬ e'.Contains a

/-- `last` is where the first of the entries below 4GB begins. -/
structure BeginAt (entries : List E820Entry) (last : BitVec 64) : Prop where
  le : last ≤ MAX_GAP_END
  le_addr : ∀ e ∈ entries, last ≤ e.addr
  eq : last = MAX_GAP_END ∨ ∃ e ∈ entries, last = e.addr

/-- The gap that is recorded is the largest that follows one of the entries. -/
structure GapSearch.Records (entries : List E820Entry) (gapsize : BitVec 64)
    (s : GapSearch) : Prop where
  le_gapsize : gapsize ≤ s.gapsize
  found : s.found = true →
    ∃ e ∈ entries, s.gapstart = e.addr + e.size ∧ FreeAfter entries e s.gapsize.toNat
  none : s.found = false → s.gapsize = gapsize
  largest : ∀ e ∈ entries, ∀ n, FreeAfter entries e n →
    n ≤ s.gapsize.toNat ∧ (s.found = false → n < s.gapsize.toNat)

section
variable {entry e : E820Entry} {entries : List E820Entry} {gapsize last : BitVec 64}
  {s : GapSearch} {n : Nat}

theorem GapSearch.visit_last (s : GapSearch) (entry : E820Entry) :
    (s.visit entry).last = if entry.addr < s.last then entry.addr else s.last := by
  unfold GapSearch.visit
  dsimp only
  split <;> split <;> simp_all

theorem BeginAt.visit (h : BeginAt entries s.last) (hsorted : ∀ e ∈ entries, entry.addr ≤ e.addr) :
    BeginAt (entry :: entries) (s.visit entry).last := by
  rw [GapSearch.visit_last]
  split
  next hlt =>
    exact ⟨BitVec.le_trans (BitVec.le_of_lt hlt) h.le,
      forall_mem_cons.mpr ⟨BitVec.le_refl _, hsorted⟩, .inr ⟨entry, by simp⟩⟩
  next hle =>
    refine ⟨h.le, forall_mem_cons.mpr ⟨BitVec.not_lt.mp hle, h.le_addr⟩, ?_⟩
    exact h.eq.imp_right fun ⟨e, he, hl⟩ => ⟨e, mem_cons_of_mem _ he, hl⟩

theorem freeAfter_cons_iff_of_le (h : entry.addr.toNat + entry.size.toNat ≤ e.addr.toNat) :
    FreeAfter (entry :: entries) e n ↔ FreeAfter entries e n := by
  refine and_congr_right' (and_congr_right' (forall₃_congr fun a hlo hhi => ?_))
  rw [forall_mem_cons, and_iff_right]
  exact fun hc => absurd hc.2 (by omega)

/-- The range that follows an entry below all others reaches up to `last`. -/
theorem BeginAt.freeAfter_iff (h : BeginAt entries last) (hne : ∀ e ∈ entries, e.size ≠ 0)
    (hbelow : ∀ e ∈ entries, entry.addr.toNat + entry.size.toNat ≤ e.addr.toNat) :
    FreeAfter (entry :: entries) entry n ↔
      0 < n ∧ entry.addr.toNat + entry.size.toNat + n ≤ last.toNat := by
  refine and_congr_right fun hn => ⟨fun hfree => ?_, fun hle => ⟨hle.trans h.le, ?_⟩⟩
  · obtain rfl | ⟨e, he, rfl⟩ := h.eq
    · exact hfree.1
    · by_contra hlt
      have := hne e he
      exact hfree.2 e.addr (hbelow e he) (by omega) e (mem_cons_of_mem _ he) ⟨le_rfl, by bv_omega⟩
  · rintro a hlo hhi e' he' ⟨hlo', hhi'⟩
    cases he' with
    | head => omega
    | tail _ he' =>
      have := BitVec.le_def.mp (h.le_addr e' he')
      omega

theorem GapSearch.Records.visit (hr : s.Records entries gapsize)
    (h : BeginAt entries s.last) (hwrap : entry.NonWrapping) (hne : ∀ e ∈ entries, e.size ≠ 0)
    (hbelow : ∀ e ∈ entries, entry.addr.toNat + entry.size.toNat ≤ e.addr.toNat) :
    (s.visit entry).Records (entry :: entries) gapsize := by
  have hend := hwrap.toNat_end
  have hhead : ∀ n, FreeAfter (entry :: entries) entry n ↔ _ := fun _ =>
    h.freeAfter_iff hne hbelow
  have htail : ∀ e ∈ entries, ∀ n, FreeAfter (entry :: entries) e n ↔ _ := fun e he _ =>
    freeAfter_cons_iff_of_le (hbelow e he)
  by_cases hgap : entry.addr + entry.size < s.last ∧ s.gapsize ≤ s.last - (entry.addr + entry.size)
  · have hsize : (s.visit entry).gapsize = s.last - (entry.addr + entry.size) ∧
        (s.visit entry).gapstart = entry.addr + entry.size ∧
        (s.visit entry).found = true := by
      unfold GapSearch.visit
      simp only [if_pos hgap]
      split <;> simp
    obtain ⟨hlt, hle⟩ := hgap
    refine ⟨?_, fun _ => ?_, by simp [hsize], ?_⟩
    · rw [hsize.1]
      exact BitVec.le_trans hr.le_gapsize hle
    · refine ⟨entry, mem_cons_self, hsize.2.1, (hhead _).mpr ?_⟩
      rw [hsize.1]
      constructor <;> bv_omega
    rw [forall_mem_cons, hsize.1]
    refine ⟨fun n hn => ?_, fun e he n hn => ?_⟩
    · have := ((hhead n).mp hn).2
      exact ⟨by bv_omega, by simp [hsize]⟩
    · have := (hr.largest e he n ((htail e he n).mp hn)).1
      exact ⟨by bv_omega, by simp [hsize]⟩
  · have hsame : (s.visit entry).gapsize = s.gapsize ∧
        (s.visit entry).gapstart = s.gapstart ∧ (s.visit entry).found = s.found := by
      unfold GapSearch.visit
      simp only [if_neg hgap]
      split <;> simp
    obtain ⟨hsize, hstart, hfound⟩ := hsame
    refine ⟨hsize ▸ hr.le_gapsize, fun hf => ?_, by rw [hsize, hfound]; exact hr.none, ?_⟩
    · obtain ⟨e, he, hs, hfree⟩ := hr.found (hfound ▸ hf)
      exact ⟨e, mem_cons_of_mem _ he, hstart ▸ hs, (htail e he _).mpr (hsize ▸ hfree)⟩
    rw [forall_mem_cons, hsize, hfound]
    refine ⟨fun n hn => ?_, fun e he n hn => hr.largest e he n ((htail e he n).mp hn)⟩
    have := (hhead n).mp hn
    have : n < s.gapsize.toNat := by bv_omega
    exact ⟨this.le, fun _ => this⟩

theorem e820SearchGap_spec (gapstart gapsize : BitVec 64) (hsorted : SortedByAddr entries)
    (hdisj : DisjointEntries entries) (hwrap : ∀ e ∈ entries, e.NonWrapping)
    (hne : ∀ e ∈ entries, e.size ≠ 0) :
    BeginAt entries (e820SearchGap entries gapstart gapsize).last ∧
      (e820SearchGap entries gapstart gapsize).Records entries gapsize := by
  induction entries with
  | nil =>
    exact ⟨⟨BitVec.le_refl _, by simp, .inl rfl⟩,
      ⟨BitVec.le_refl _, by simp [e820SearchGap], fun _ => rfl, by simp⟩⟩
  | cons entry entries ih =>
    obtain ⟨hfirst, hsorted⟩ := pairwise_cons.mp hsorted
    obtain ⟨hapart, hdisj⟩ := pairwise_cons.mp hdisj
    obtain ⟨hw, hwrap⟩ := forall_mem_cons.mp hwrap
    obtain ⟨-, hne⟩ := forall_mem_cons.mp hne
    obtain ⟨hb, hr⟩ := ih hsorted hdisj hwrap hne
    refine ⟨hb.visit hfirst, hr.visit hb hw hne fun e he => ?_⟩
    by_contra hlt
    have hpos := hne e he
    exact hapart e he e.addr ⟨hfirst e he, by omega⟩ ⟨le_rfl, by bv_omega⟩

/-- In a sorted table of disjoint entries none of which is empty, the search reports
the largest gap that follows an entry, and reports one if there is one of the size
that was asked for. -/
theorem e820SearchGap_largest (gapstart gapsize : BitVec 64)
    (hsorted : SortedByAddr entries) (hdisj : DisjointEntries entries)
    (hwrap : ∀ e ∈ entries, e.NonWrapping) (hne : ∀ e ∈ entries, e.size ≠ 0) :
    let s := e820SearchGap entries gapstart gapsize
    (s.found = true → gapsize ≤ s.gapsize ∧
      (∃ e ∈ entries, s.gapstart = e.addr + e.size ∧ FreeAfter entries e s.gapsize.toNat) ∧
      ∀ e ∈ entries, ∀ n, FreeAfter entries e n → n ≤ s.gapsize.toNat) ∧
    (s.found = false → ∀ e ∈ entries, ∀ n, FreeAfter entries e n → n < gapsize.toNat) := by
  intro s
  have hr : s.Records entries gapsize :=
    (e820SearchGap_spec gapstart gapsize hsorted hdisj hwrap hne).2
  refine ⟨fun hf => ⟨hr.le_gapsize, hr.found hf, fun e he n hn => (hr.largest e he n hn).1⟩,
    fun hf e he n hn => ?_⟩
  rw [← hr.none hf]
  exact (hr.largest e he n hn).2 hf

/-- The gap behind the second of three entries is the largest. -/
theorem e820SearchGap_second :
    let entries : List E820Entry :=
      [⟨0, 0x1000, 1⟩, ⟨0x100000, 0x1000, 1⟩, ⟨0xf0000000, 0x1000, 2⟩]
    (e820SearchGap entries 0 0x400000).gapstart = 0x101000 ∧
      ∀ e ∈ entries, ∀ n, FreeAfter entries e n → n ≤ 0xefeff000 := by
  intro entries
  have hdisj : DisjointEntries entries := by
    simp only [entries, DisjointEntries, E820Entry.Contains, pairwise_cons]
    grind
  have hsorted : SortedByAddr entries := by simp [entries, SortedByAddr]
  have hlargest := e820SearchGap_largest 0 0x400000 hsorted hdisj
    (by simp [entries, E820Entry.NonWrapping]) (by simp [entries])
  exact ⟨rfl, (hlargest.1 rfl).2.2⟩

/-- An empty entry inside another: the range that is reported begins there and
meets the other. -/
theorem e820SearchGap_empty_entry :
    let inner : E820Entry := ⟨0x2000, 0, 1⟩
    let outer : E820Entry := ⟨0, 0x3000, 1⟩
    SortedByAddr [outer, inner] ∧ DisjointEntries [outer, inner] ∧
      (∀ e ∈ [outer, inner], e.NonWrapping) ∧
      (e820SearchGap [outer, inner] 0 0x400000).found = true ∧
      outer.Contains (e820SearchGap [outer, inner] 0 0x400000).gapstart := by
  refine ⟨by simp [SortedByAddr], ?_, by simp [E820Entry.NonWrapping], by decide, by decide⟩
  simp [DisjointEntries, E820Entry.Contains]

end

end LinuxKernel.X86
