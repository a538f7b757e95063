import LinuxKernel.Foundation.Clashes
import LinuxKernel.X86.Memtype

/-!
# Cleaning up the table of NUMA memory blocks

`numa_cleanup_meminfo` of `arch/x86/mm/numa.c`. The blocks of the table are trimmed to memory that
exists; blocks of one node are then joined across holes that no other node has memory in, and blocks
of different nodes that overlap are an error.
-/

namespace LinuxKernel.X86

open Foundation.Segments List Nat

/-! ## The code -/

structure NumaMemblk where
  start : Nat
  stop : Nat
  nid : Int
  deriving DecidableEq, Repr

/-- What the functions read besides the tables. `memblockOverlapsRegion` is the test on
`memblock.memory`. -/
structure NumaConfig where
  maxNumnodes : Nat
  maxPfn : Nat
  memblockOverlapsRegion : Nat → Nat → Bool

def NumaConfig.nrNodeMemblks (cfg : NumaConfig) : Nat := cfg.maxNumnodes * 2

def NumaConfig.high (cfg : NumaConfig) : Nat := cfg.maxPfn * 2 ^ 12 % 2 ^ 64

/-- The table afterwards, or the error. -/
def numaAddMemblkTo (cfg : NumaConfig) (nid : Int) (start stop : Nat) (mi : List NumaMemblk) :
    Except Int (List NumaMemblk) :=
  if start = stop then .ok mi
  else if stop < start ∨ nid < 0 ∨ cfg.maxNumnodes ≤ nid then .ok mi
  else if cfg.nrNodeMemblks ≤ mi.length then .error (-EINVAL)
  else .ok (mi ++ [⟨start, stop, nid⟩])

/-- The first loop of `numa_cleanup_meminfo`: the blocks that stay, and the table of reserved
blocks. The error of `numa_add_memblk_to` is ignored. -/
def trimBlks (cfg : NumaConfig) : List NumaMemblk → List NumaMemblk →
    List NumaMemblk × List NumaMemblk
  | [], reserved => ([], reserved)
  | bi :: rest, reserved =>
    if !cfg.memblockOverlapsRegion bi.start (bi.stop - bi.start) then
      trimBlks cfg rest (reserved ++ [bi])
    else
      let bi := { bi with start := max bi.start 0 }
      let reserved :=
        if cfg.high < bi.stop then
          match numaAddMemblkTo cfg bi.nid cfg.high bi.stop reserved with
          | .ok reserved => reserved
          | .error _ => reserved
        else reserved
      let bi := if cfg.high < bi.stop then { bi with stop := cfg.high } else bi
      if bi.stop ≤ bi.start then trimBlks cfg rest reserved
      else
        let (kept, reserved) := trimBlks cfg rest reserved
        (bi :: kept, reserved)

/-- The loop over `k`: a block of another node lies between. -/
def crossesOther (mi : List NumaMemblk) (nid : Int) (start stop : Nat) : Bool :=
  mi.any fun bk => nid ≠ bk.nid && (start < bk.stop && bk.start < stop)

/-- The loop over `j`. The table is `front ++ bi :: mid ++ rest`, and `j` is the index of the first
block of `rest`. -/
def joinBlk (front : List NumaMemblk) (bi : NumaMemblk) (mid : List NumaMemblk) :
    List NumaMemblk → Except Int (NumaMemblk × List NumaMemblk)
  | [] => .ok (bi, mid)
  | bj :: rest =>
    if (bj.start < bi.stop ∧ bi.start < bj.stop) ∧ bi.nid ≠ bj.nid then .error (-EINVAL)
    else if bi.nid ≠ bj.nid then joinBlk front bi (mid ++ [bj]) rest
    else
      let start := min bi.start bj.start
      let stop := max bi.stop bj.stop
      if crossesOther (front ++ bi :: mid ++ bj :: rest) bi.nid start stop then
        joinBlk front bi (mid ++ [bj]) rest
      else joinBlk front { bi with start := start, stop := stop } mid rest

theorem joinBlk_length {front mid rest : List NumaMemblk} {bi : NumaMemblk}
    {joined : NumaMemblk × List NumaMemblk} (h : joinBlk front bi mid rest = .ok joined) :
    joined.2.length ≤ mid.length + rest.length := by
  induction rest generalizing bi mid with
  | nil =>
    cases h
    exact le_add_right _ _
  | cons bj rest ih =>
    have hlen : (mid ++ [bj]).length + rest.length = mid.length + (bj :: rest).length := by
      simp only [length_append, length_cons, length_nil]
      omega
    simp only [joinBlk] at h
    split at h
    · cases h
    split at h
    · exact hlen ▸ ih h
    · split at h
      · exact hlen ▸ ih h
      · exact (ih h).trans (Nat.add_le_add_left (Nat.le_succ _) _)

def joinBlks (front : List NumaMemblk) : List NumaMemblk → Except Int (List NumaMemblk)
  | [] => .ok front
  | bi :: rest =>
    match _hjoin : joinBlk front bi [] rest with
    | .error err => .error err
    | .ok joined => joinBlks (front ++ [joined.1]) joined.2
termination_by rest => rest.length
decreasing_by
  have hlen := joinBlk_length _hjoin
  simp only [List.length_nil, List.length_cons] at hlen ⊢
  omega

def numaCleanupMeminfo (cfg : NumaConfig) (mi reserved : List NumaMemblk) :
    Except Int (List NumaMemblk) × List NumaMemblk :=
  let (kept, reserved) := trimBlks cfg mi reserved
  (joinBlks [] kept, reserved)

/-! ## Trimming -/

def numaLayout : Layout NumaMemblk Nat Int where
  start := NumaMemblk.start
  stop := NumaMemblk.stop
  value := NumaMemblk.nid

def trimBlk (cfg : NumaConfig) (b : NumaMemblk) : Option NumaMemblk :=
  if cfg.memblockOverlapsRegion b.start (b.stop - b.start) ∧ b.start < min b.stop cfg.high then
    some { b with stop := min b.stop cfg.high }
  else none

theorem trimBlks_fst (cfg : NumaConfig) (mi reserved : List NumaMemblk) :
    (trimBlks cfg mi reserved).1 = mi.filterMap (trimBlk cfg) := by
  induction mi generalizing reserved with
  | nil => rfl
  | cons b mi ih =>
    simp only [trimBlks, Nat.max_zero, filterMap_cons, trimBlk]
    cases hoverlaps : cfg.memblockOverlapsRegion b.start (b.stop - b.start) with
    | false => simp [ih]
    | true =>
      by_cases hhigh : cfg.high < b.stop
      · have hmin : min b.stop cfg.high = cfg.high := min_eq_right hhigh.le
        by_cases hempty : cfg.high ≤ b.start
        · simp [hhigh, hmin, hempty, not_lt.2 hempty, ih]
        · simp [hhigh, hmin, hempty, Nat.lt_of_not_le hempty, ih]
      · have hmin : min b.stop cfg.high = b.stop := min_eq_left (by omega)
        by_cases hempty : b.stop ≤ b.start
        · simp [hhigh, hmin, hempty, not_lt.2 hempty, ih]
        · simp [hhigh, hmin, hempty, Nat.lt_of_not_le hempty, ih]

/-- A block is not empty and ends at the last page frame at the latest. -/
def NumaMemblk.Proper (cfg : NumaConfig) (b : NumaMemblk) : Prop :=
  b.start < b.stop ∧ b.stop ≤ cfg.high

theorem proper_of_trimBlk {cfg : NumaConfig} {b b' : NumaMemblk} (h : trimBlk cfg b = some b') :
    b'.Proper cfg := by
  simp only [trimBlk] at h
  split at h
  next hkept =>
    cases h
    exact ⟨hkept.2, min_le_right _ _⟩
  · cases h

/-! ## Joining -/

section
variable {cfg : NumaConfig} {trimmed mi mi' front mid rest : List NumaMemblk} {bi bj : NumaMemblk}

/-- The table stands for the trimmed blocks: each of them lies within a block of its node, and
blocks of different nodes overlap in the table if they do among the trimmed blocks. -/
structure StandsFor (cfg : NumaConfig) (trimmed mi : List NumaMemblk) : Prop where
  proper : ∀ b ∈ mi, b.Proper cfg
  within : ∀ x ∈ trimmed, ∃ b ∈ mi, numaLayout.Within x b
  clashes : numaLayout.Clashes mi ↔ numaLayout.Clashes trimmed

theorem StandsFor.congr (h : StandsFor cfg trimmed mi) (hmem : ∀ b, b ∈ mi' ↔ b ∈ mi) :
    StandsFor cfg trimmed mi' := by
  refine ⟨fun b hb => h.proper b ((hmem b).1 hb), ?_, ?_⟩
  · intro x hx
    obtain ⟨b, hb, hwithin⟩ := h.within x hx
    exact ⟨b, (hmem b).2 hb, hwithin⟩
  · rw [← h.clashes]
    simp only [Layout.Clashes, hmem]

def join (bi bj : NumaMemblk) : NumaMemblk :=
  { bi with start := min bi.start bj.start, stop := max bi.stop bj.stop }

theorem joinBlk_cons : joinBlk front bi mid (bj :: rest) =
      if (bj.start < bi.stop ∧ bi.start < bj.stop) ∧ bi.nid ≠ bj.nid then .error (-EINVAL)
      else if bi.nid ≠ bj.nid ∨ crossesOther (front ++ bi :: mid ++ bj :: rest) bi.nid
          (join bi bj).start (join bi bj).stop = true then
        joinBlk front bi (mid ++ [bj]) rest
      else joinBlk front (join bi bj) mid rest := by
  rw [joinBlk]
  by_cases hnid : bi.nid ≠ bj.nid
  · simp only [if_pos hnid, if_pos (Or.inl hnid : _ ∨ _ = true)]
  · simp only [false_or, hnid]
    rfl

theorem crossesOther_eq_false :
    crossesOther mi bi.nid (join bi bj).start (join bi bj).stop = false ↔
      ∀ b ∈ mi, ¬ numaLayout.Clash (join bi bj) b := by
  simp only [crossesOther, any_eq_false]
  simp [Layout.Clash, Layout.Overlaps, numaLayout, join]

theorem within_join_left : numaLayout.Within bi (join bi bj) :=
  ⟨min_le_left _ _, le_max_left _ _, rfl⟩

theorem within_join_right (hnid : bi.nid = bj.nid) : numaLayout.Within bj (join bi bj) :=
  ⟨min_le_right _ _, le_max_right _ _, hnid.symm⟩

/-- Joining two blocks of a node when no other node has memory between them. -/
theorem StandsFor.join (h : StandsFor cfg trimmed (front ++ bi :: mid ++ bj :: rest))
    (hnid : bi.nid = bj.nid)
    (hfree : ∀ b ∈ front ++ bi :: mid ++ bj :: rest, ¬ numaLayout.Clash (join bi bj) b) :
    StandsFor cfg trimmed (front ++ X86.join bi bj :: mid ++ rest) := by
  have hbi := h.proper bi (by simp)
  have hbj := h.proper bj (by simp)
  have hnew : ∀ x ∈ front ++ X86.join bi bj :: mid ++ rest,
      x = X86.join bi bj ∨ x ∈ front ++ bi :: mid ++ bj :: rest := by
    intro x hx
    simp only [mem_append, mem_cons] at hx ⊢
    tauto
  have hold : ∀ x ∈ front ++ bi :: mid ++ bj :: rest,
      numaLayout.Within x (X86.join bi bj) ∨ x ∈ front ++ X86.join bi bj :: mid ++ rest := by
    intro x hx
    simp only [mem_append, mem_cons] at hx ⊢
    rcases hx with (hx | rfl | hx) | rfl | hx
    · exact .inr (.inl (.inl hx))
    · exact .inl within_join_left
    · exact .inr (.inl (.inr (.inr hx)))
    · exact .inl (within_join_right hnid)
    · exact .inr (.inr hx)
  refine ⟨?_, ?_, (Layout.clashes_iff_of_absorb hfree hnew hold).trans h.clashes⟩
  · intro b hb
    rcases hnew b hb with rfl | hb
    · exact ⟨(min_le_left _ _).trans_lt (hbi.1.trans_le (le_max_left _ _)),
        Nat.max_le.2 ⟨hbi.2, hbj.2⟩⟩
    · exact h.proper b hb
  · intro x hx
    obtain ⟨b, hb, hwithin⟩ := h.within x hx
    rcases hold b hb with hjoin | hb
    · exact ⟨X86.join bi bj, by simp, hwithin.trans hjoin⟩
    · exact ⟨b, hb, hwithin⟩

/-- The loop over `j`: it finds a clash, or the block clashes with no other afterwards. -/
theorem joinBlk_spec (h : StandsFor cfg trimmed (front ++ bi :: mid ++ rest))
    (hclear : ∀ b ∈ front ++ mid, ¬ numaLayout.Clash bi b) :
    (joinBlk front bi mid rest = .error (-EINVAL) ∧ numaLayout.Clashes trimmed) ∨
      ∃ bi' mid', joinBlk front bi mid rest = .ok (bi', mid') ∧
        StandsFor cfg trimmed (front ++ bi' :: mid') ∧
        (∀ b ∈ front ++ mid', ¬ numaLayout.Clash bi' b) ∧
        ∀ b ∈ mid', b ∈ mid ∨ b ∈ rest := by
  induction rest generalizing bi mid with
  | nil =>
    rw [append_nil] at h
    exact .inr ⟨bi, mid, rfl, h, hclear, fun b hb => .inl hb⟩
  | cons bj rest ih =>
    by_cases hover : (bj.start < bi.stop ∧ bi.start < bj.stop) ∧ bi.nid ≠ bj.nid
    · refine .inl ⟨by rw [joinBlk_cons, if_pos hover], h.clashes.1 ⟨bi, by simp, bj, by simp, ?_⟩⟩
      exact ⟨hover.2, hover.1.2, hover.1.1⟩
    have hbj : ¬ numaLayout.Clash bi bj := fun hclash =>
      hover ⟨⟨hclash.2.2, hclash.2.1⟩, hclash.1⟩
    rw [joinBlk_cons, if_neg hover]
    split
    · -- The loop goes on without a change to the table.
      have hclear' : ∀ b ∈ front ++ (mid ++ [bj]), ¬ numaLayout.Clash bi b := by
        rw [← append_assoc]
        exact forall_mem_append.2 ⟨hclear, forall_mem_singleton.2 hbj⟩
      rcases ih (h.congr (by simp)) hclear' with
        herror | ⟨bi', mid', hjoin, hstands, hfree, hsub⟩
      · exact .inl herror
      · refine .inr ⟨bi', mid', hjoin, hstands, hfree, fun b hb => ?_⟩
        have hb' := hsub b hb
        simp only [mem_append, mem_cons, not_mem_nil, or_false] at hb' ⊢
        tauto
    next hskips =>
      obtain ⟨hnid, hcross⟩ := not_or.1 hskips
      have hfree := crossesOther_eq_false.1 (Bool.eq_false_of_not_eq_true hcross)
      have hclear'' : ∀ b ∈ front ++ mid, ¬ numaLayout.Clash (join bi bj) b := by
        intro b hb
        apply hfree
        simp only [mem_append, mem_cons] at hb ⊢
        tauto
      rcases ih (h.join (not_not.1 hnid) hfree) hclear'' with
        herror | ⟨bi', mid', hjoin, hstands, hfree', hsub⟩
      · exact .inl herror
      · refine .inr ⟨bi', mid', hjoin, hstands, hfree', ?_⟩
        exact fun b hb => (hsub b hb).imp_right (mem_cons_of_mem _)

theorem joinBlks_cons : joinBlks front (bi :: rest) =
    (joinBlk front bi [] rest).bind fun joined => joinBlks (front ++ [joined.1]) joined.2 := by
  rw [joinBlks]
  split <;> rename_i hjoin <;> rw [hjoin] <;> rfl

theorem joinBlks_spec (h : StandsFor cfg trimmed (front ++ rest))
    (hclear : ∀ x ∈ front, ∀ y ∈ front ++ rest, ¬ numaLayout.Clash x y) :
    (joinBlks front rest = .error (-EINVAL) ∧ numaLayout.Clashes trimmed) ∨
      ∃ mi', joinBlks front rest = .ok mi' ∧ StandsFor cfg trimmed mi' ∧
        ¬ numaLayout.Clashes mi' := by
  induction hlen : rest.length using Nat.strong_induction_on generalizing front rest with
  | _ len ih =>
    cases rest with
    | nil =>
      rw [append_nil] at h hclear
      refine .inr ⟨front, by rw [joinBlks], h, ?_⟩
      rintro ⟨x, hx, y, hy, hclash⟩
      exact hclear x hx y hy hclash
    | cons bi rest =>
      have hbi : ∀ b ∈ front ++ [], ¬ numaLayout.Clash bi b := by
        intro b hb hclash
        rw [append_nil] at hb
        exact hclear b hb bi (by simp) (Layout.Clash.symm hclash)
      have hsplit : StandsFor cfg trimmed (front ++ bi :: [] ++ rest) := h.congr (by simp)
      rcases joinBlk_spec hsplit hbi with ⟨hjoin, hclashes⟩ | ⟨bi', mid', hjoin, hstands,
        hfree, hsub⟩
      · exact .inl ⟨by rw [joinBlks_cons, hjoin]; rfl, hclashes⟩
      · have hshorter := joinBlk_length hjoin
        simp only [joinBlks_cons, hjoin, Except.bind]
        refine ih mid'.length ?_ (hstands.congr (by simp)) ?_ rfl
        · simp only [length_nil, length_cons] at hshorter hlen
          omega
        intro x hx y hy
        simp only [mem_append, mem_singleton] at hx hy
        rcases hx with hx | rfl
        · rcases hy with (hy | rfl) | hy
          · exact hclear x hx y (by simp [hy])
          · exact fun hclash => hfree x (by simp [hx]) (Layout.Clash.symm hclash)
          · have hy' := hsub y hy
            exact hclear x hx y (by simp at hy'; simp [hy'])
        · rcases hy with (hy | rfl) | hy
          · exact hfree y (by simp [hy])
          · exact fun hclash => hclash.1 rfl
          · exact hfree y (by simp [hy])

end

/-! ## The result -/

theorem standsFor_trimmed (cfg : NumaConfig) (mi reserved : List NumaMemblk) :
    StandsFor cfg (trimBlks cfg mi reserved).1 (trimBlks cfg mi reserved).1 := by
  refine ⟨?_, fun x hx => ⟨x, hx, Layout.Within.refl x⟩, Iff.rfl⟩
  intro b hb
  rw [trimBlks_fst] at hb
  obtain ⟨b', -, htrim⟩ := mem_filterMap.1 hb
  exact proper_of_trimBlk htrim

/-- `numa_cleanup_meminfo` fails exactly when blocks of different nodes overlap after trimming.
Otherwise the blocks it leaves are not empty, lie below `max_pfn`, do not overlap across nodes and
give every address of a trimmed block to the node of that block and to no other. -/
theorem numaCleanupMeminfo_spec (cfg : NumaConfig) (mi reserved : List NumaMemblk) :
    ((numaCleanupMeminfo cfg mi reserved).1 = .error (-EINVAL) ↔
        ∃ x ∈ (trimBlks cfg mi reserved).1, ∃ y ∈ (trimBlks cfg mi reserved).1,
          x.nid ≠ y.nid ∧ x.start < y.stop ∧ y.start < x.stop) ∧
      ((numaCleanupMeminfo cfg mi reserved).1 ≠ .error (-EINVAL) →
        ∃ out, (numaCleanupMeminfo cfg mi reserved).1 = .ok out ∧
          (∀ b ∈ out, b.start < b.stop ∧ b.stop ≤ cfg.high) ∧
          (∀ b ∈ out, ∀ b' ∈ out, b.nid ≠ b'.nid → b.stop ≤ b'.start ∨ b'.stop ≤ b.start) ∧
          (∀ x ∈ (trimBlks cfg mi reserved).1, ∀ a, x.start ≤ a → a < x.stop →
            ∃ b ∈ out, b.nid = x.nid ∧ b.start ≤ a ∧ a < b.stop) ∧
          ∀ x ∈ (trimBlks cfg mi reserved).1, ∀ b ∈ out, ∀ a,
            x.start ≤ a → a < x.stop → b.start ≤ a → a < b.stop → b.nid = x.nid) := by
  have hstands : StandsFor cfg (trimBlks cfg mi reserved).1 ([] ++ (trimBlks cfg mi reserved).1) :=
    standsFor_trimmed cfg mi reserved
  rcases joinBlks_spec hstands (by simp) with ⟨herror, hclashes⟩ | ⟨out, hok, hout, hclear⟩
  · exact ⟨⟨fun _ => hclashes, fun _ => herror⟩, fun hne => absurd herror hne⟩
  have hiff : joinBlks [] (trimBlks cfg mi reserved).1 = .error (-EINVAL) ↔
      numaLayout.Clashes (trimBlks cfg mi reserved).1 := by
    rw [hok, ← hout.clashes]
    exact ⟨fun herror => (by cases herror), fun hclashes => absurd hclashes hclear⟩
  refine ⟨hiff, fun _ => ⟨out, hok, hout.proper, ?_, ?_, ?_⟩⟩
  · intro b hb b' hb' hnid
    have hno : ¬ (b.start < b'.stop ∧ b'.start < b.stop) := fun hover =>
      hclear ⟨b, hb, b', hb', hnid, hover⟩
    omega
  · intro x hx a hlo hhi
    obtain ⟨b, hb, hwithin⟩ := hout.within x hx
    exact ⟨b, hb, hwithin.value.symm, hwithin.covers ⟨hlo, hhi⟩⟩
  · intro x hx b hb a hlo hhi hlo' hhi'
    obtain ⟨b', hb', hwithin⟩ := hout.within x hx
    by_contra hnid
    refine hclear ⟨b, hb, b', hb', fun hsame => hnid (hsame.trans hwithin.value.symm), ?_⟩
    exact Layout.overlaps_of_covers ⟨hlo', hhi'⟩ (hwithin.covers ⟨hlo, hhi⟩)

end LinuxKernel.X86
