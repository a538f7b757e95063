import Mathlib

/-!
# The TDP iterator

`arch/x86/kvm/mmu/tdp_iter.c` walks the page tables of a guest. The iterator keeps one table per
level, the entry it stands at and the guest frame it goes to. It descends towards that frame,
steps to the next entry of a table and, at the end of a table, goes up and on from there.
-/

namespace LinuxKernel.X86.TdpIter

open List Nat Function

/-! ## The paging structure -/

def pagesPerHpage (level : Nat) : Nat := 2 ^ ((level - 1) * 9)

def SPTE_ENT_PER_PAGE : Nat := 512

def spteIndex (gfn level : Nat) : Nat :=
  gfn * 2 ^ 12 % 2 ^ 64 / 2 ^ (12 + (level - 1) * 9) % SPTE_ENT_PER_PAGE

def gfnRoundForLevel (gfn level : Nat) : Nat := gfn / pagesPerHpage level * pagesPerHpage level

/-- The page tables in memory: the entries of the table at an address, the mask of the address in an
entry, and `__va`. -/
structure Memory where
  spte : Nat → Nat → BitVec 64
  spteBaseAddrMask : BitVec 64
  va : BitVec 64 → Nat

def isShadowPresentPte (spte : BitVec 64) : Bool := spte.getLsbD 11

def isLargePte (spte : BitVec 64) : Bool := spte.getLsbD 7

def isLastSpte (spte : BitVec 64) (level : Nat) : Bool := level == 1 || isLargePte spte

def Memory.spteToChildPt (m : Memory) (spte : BitVec 64) (level : Nat) : Option Nat :=
  if !isShadowPresentPte spte || isLastSpte spte level then none
  else some (m.va (((spte &&& m.spteBaseAddrMask) >>> 12) <<< 12))

/-! ## The iterator -/

structure Sptep where
  table : Nat
  index : Nat
  deriving DecidableEq, Repr

def Memory.readSpte (m : Memory) (sptep : Sptep) : BitVec 64 := m.spte sptep.table sptep.index

structure Iter where
  nextLastLevelGfn : Nat
  yieldedGfn : Nat
  ptPath : Nat → Nat
  sptep : Sptep
  gfn : Nat
  rootLevel : Nat
  minLevel : Nat
  level : Nat
  oldSpte : BitVec 64
  valid : Bool
  yielded : Bool

def tdpIterRefreshSptep (m : Memory) (iter : Iter) : Iter :=
  let sptep : Sptep := ⟨iter.ptPath (iter.level - 1), spteIndex iter.gfn iter.level⟩
  { iter with sptep := sptep, oldSpte := m.readSpte sptep }

def tdpIterRestart (m : Memory) (iter : Iter) : Iter :=
  let iter := { iter with
    yielded := false
    yieldedGfn := iter.nextLastLevelGfn
    level := iter.rootLevel
    gfn := gfnRoundForLevel iter.nextLastLevelGfn iter.rootLevel }
  { tdpIterRefreshSptep m iter with valid := true }

def PT64_ROOT_MAX_LEVEL : Nat := 5

def tdpIterStart (m : Memory) (iter : Iter) (root rootLevel minLevel nextLastLevelGfn : Nat) :
    Iter :=
  if rootLevel < 1 ∨ PT64_ROOT_MAX_LEVEL < rootLevel then { iter with valid := false }
  else
    tdpIterRestart m { iter with
      nextLastLevelGfn := nextLastLevelGfn
      rootLevel := rootLevel
      minLevel := minLevel
      ptPath := Function.update iter.ptPath (rootLevel - 1) root }

/-- `try_step_down`; `none` if there is no level to step down to. -/
def tryStepDown (m : Memory) (iter : Iter) : Option Iter :=
  if iter.level = iter.minLevel then none
  else
    let oldSpte := m.readSpte iter.sptep
    (m.spteToChildPt oldSpte iter.level).map fun childPt =>
      let level := iter.level - 1
      tdpIterRefreshSptep m { iter with
        oldSpte := oldSpte
        level := level
        ptPath := Function.update iter.ptPath (level - 1) childPt
        gfn := gfnRoundForLevel iter.nextLastLevelGfn level }

def tryStepSide (m : Memory) (iter : Iter) : Option Iter :=
  if spteIndex iter.gfn iter.level = SPTE_ENT_PER_PAGE - 1 then none
  else
    let gfn := (iter.gfn + pagesPerHpage iter.level) % 2 ^ 64
    let sptep : Sptep := ⟨iter.sptep.table, iter.sptep.index + 1⟩
    some { iter with
      gfn := gfn
      nextLastLevelGfn := gfn
      sptep := sptep
      oldSpte := m.readSpte sptep }

def tryStepUp (m : Memory) (iter : Iter) : Option Iter :=
  if iter.level = iter.rootLevel then none
  else
    let level := iter.level + 1
    some (tdpIterRefreshSptep m { iter with
      level := level
      gfn := gfnRoundForLevel iter.gfn level })

/-- The loop of `tdp_iter_next`; every turn goes up one level. -/
def stepSideOrUp (m : Memory) : Nat → Iter → Iter
  | 0, iter => { iter with valid := false }
  | turns + 1, iter =>
    match tryStepSide m iter with
    | some iter => iter
    | none =>
      match tryStepUp m iter with
      | some iter => stepSideOrUp m turns iter
      | none => { iter with valid := false }

def tdpIterNext (m : Memory) (iter : Iter) : Iter :=
  if iter.yielded then tdpIterRestart m iter
  else
    -- the value read is kept also where the step down fails
    let iter' :=
      if iter.level = iter.minLevel then iter
      else { iter with oldSpte := m.readSpte iter.sptep }
    match tryStepDown m iter with
    | some iter => iter
    | none => stepSideOrUp m (iter.rootLevel - iter.level + 1) iter'

structure Entry where
  level : Nat
  gfn : Nat
  sptep : Sptep
  deriving DecidableEq, Repr

def Iter.entry (iter : Iter) : Entry := ⟨iter.level, iter.gfn, iter.sptep⟩

/-- The entries at which `tdp_iter_next` stops until the iterator is no longer valid. -/
def tdpVisits (m : Memory) : Nat → Iter → Option (List Entry)
  | 0, _ => none
  | fuel + 1, iter =>
    if iter.valid then (tdpVisits m fuel (tdpIterNext m iter)).map (iter.entry :: ·)
    else some []

/-! ## Frames -/

theorem pages_pos (level : Nat) : 0 < pagesPerHpage level := Nat.two_pow_pos _

theorem pages_succ {level : Nat} (h : 1 ≤ level) :
    pagesPerHpage (level + 1) = 512 * pagesPerHpage level := by
  obtain ⟨l, rfl⟩ : ∃ l, level = l + 1 := ⟨level - 1, by omega⟩
  rw [pagesPerHpage, pagesPerHpage, Nat.add_sub_cancel, Nat.add_sub_cancel, Nat.add_mul,
    Nat.pow_add, Nat.mul_comm]

theorem pages_dvd {level level' : Nat} (h : level ≤ level') :
    pagesPerHpage level ∣ pagesPerHpage level' :=
  pow_dvd_pow 2 (mul_le_mul_right 9 (by omega))

theorem spteIndex_eq {gfn : Nat} (h : gfn < 2 ^ 52) (level : Nat) :
    spteIndex gfn level = gfn / pagesPerHpage level % 512 := by
  have hmod : gfn * 2 ^ 12 % 2 ^ 64 = 2 ^ 12 * gfn := by omega
  rw [spteIndex, hmod, Nat.pow_add, Nat.mul_div_mul_left _ _ (Nat.two_pow_pos 12)]
  rfl

theorem round_add_index {level : Nat} (h : 1 ≤ level) (gfn : Nat) :
    gfnRoundForLevel gfn (level + 1) + gfn / pagesPerHpage level % 512 * pagesPerHpage level =
      gfnRoundForLevel gfn level := by
  have hdiv : gfn / pagesPerHpage (level + 1) = gfn / pagesPerHpage level / 512 := by
    rw [pages_succ h, Nat.mul_comm, Nat.div_div_eq_div_mul]
  rw [gfnRoundForLevel, gfnRoundForLevel, hdiv, pages_succ h, ← mul_assoc, ← add_mul, div_add_mod']

theorem round_le (gfn level : Nat) : gfnRoundForLevel gfn level ≤ gfn := div_mul_le_self ..

theorem lt_round_add (gfn level : Nat) :
    gfn < gfnRoundForLevel gfn level + pagesPerHpage level := by
  have hdiv := div_add_mod' gfn (pagesPerHpage level)
  have hmod := mod_lt gfn (pages_pos level)
  rw [gfnRoundForLevel]
  omega

theorem dvd_round (gfn level : Nat) : pagesPerHpage level ∣ gfnRoundForLevel gfn level :=
  dvd_mul_left ..

theorem round_eq {gfn base level : Nat} (hbase : pagesPerHpage level ∣ base) (hle : base ≤ gfn)
    (hlt : gfn < base + pagesPerHpage level) : gfnRoundForLevel gfn level = base := by
  obtain ⟨q, rfl⟩ := hbase
  have hpos := pages_pos level
  have hq : gfn / pagesPerHpage level = q := by
    rw [Nat.div_eq_iff hpos]
    constructor
    · rwa [mul_comm]
    · rw [mul_comm] at hlt
      omega
  rw [gfnRoundForLevel, hq, mul_comm]

theorem round_round (gfn level : Nat) :
    gfnRoundForLevel (gfnRoundForLevel gfn level) level = gfnRoundForLevel gfn level :=
  round_eq (dvd_round gfn level) le_rfl (Nat.lt_add_of_pos_right (pages_pos level))

theorem add_le_of_dvd {a b n : Nat} (ha : n ∣ a) (hb : n ∣ b) (hlt : a < b) : a + n ≤ b := by
  have := le_of_dvd (by omega) (dvd_sub hb ha)
  omega

/-! ## The preorder list -/

/-- What a walk down to `minLevel` sees in a table from entry `i` on. -/
def tableFrom (m : Memory) (minLevel : Nat) : Nat → Nat → Nat → Nat → List Entry
  | 0, _, _, _ => []
  | l + 1, table, base, i =>
    (List.range' i (SPTE_ENT_PER_PAGE - i)).flatMap fun j =>
      let gfn := base + j * pagesPerHpage (l + 1)
      ⟨l + 1, gfn, ⟨table, j⟩⟩ ::
        if l + 1 = minLevel then []
        else
          match m.spteToChildPt (m.spte table j) (l + 1) with
          | none => []
          | some child => tableFrom m minLevel l child gfn 0

def below (m : Memory) (minLevel level table j gfn : Nat) : List Entry :=
  if level = minLevel then []
  else
    match m.spteToChildPt (m.spte table j) level with
    | none => []
    | some child => tableFrom m minLevel (level - 1) child gfn 0

variable {e : Entry}

section
variable {m : Memory} {minLevel level table base i : Nat}

theorem tableFrom_cons (hlevel : 1 ≤ level) (hi : i < 512) :
    tableFrom m minLevel level table base i = ⟨level, base + i * pagesPerHpage level, ⟨table, i⟩⟩ ::
        below m minLevel level table i (base + i * pagesPerHpage level) ++
        tableFrom m minLevel level table base (i + 1) := by
  obtain ⟨l, rfl⟩ : ∃ l, level = l + 1 := ⟨level - 1, by omega⟩
  have hlen : SPTE_ENT_PER_PAGE - i = (SPTE_ENT_PER_PAGE - (i + 1)) + 1 := by
    simp only [SPTE_ENT_PER_PAGE]
    omega
  rw [tableFrom, hlen, range'_succ]
  rfl

theorem tableFrom_end : tableFrom m minLevel level table base 512 = [] := by
  cases level <;> rfl

theorem mem_below {gfn : Nat} : e ∈ below m minLevel level table i gfn ↔ level ≠ minLevel ∧
      ∃ child, m.spteToChildPt (m.spte table i) level = some child ∧
        e ∈ tableFrom m minLevel (level - 1) child gfn 0 := by
  unfold below
  split
  · simp [*]
  · split <;> simp [*]

theorem mem_tableFrom_succ {l : Nat} :
    e ∈ tableFrom m minLevel (l + 1) table base i ↔ ∃ j, (i ≤ j ∧ j < 512) ∧
      (e = ⟨l + 1, base + j * pagesPerHpage (l + 1), ⟨table, j⟩⟩ ∨
        e ∈ below m minLevel (l + 1) table j (base + j * pagesPerHpage (l + 1))) := by
  rw [tableFrom, mem_flatMap]
  refine exists_congr fun j => and_congr ?_ mem_cons
  rw [mem_range'_1, SPTE_ENT_PER_PAGE]
  omega

/-- Entries of a list lie in the frames from `lo` to `hi`, at levels up to `level`. -/
def Within (lo hi level : Nat) (es : List Entry) : Prop :=
  ∀ e ∈ es, lo ≤ e.gfn ∧ e.gfn + pagesPerHpage e.level ≤ hi ∧ 1 ≤ e.level ∧ e.level ≤ level

theorem within_tableFrom (m : Memory) (minLevel level table base i : Nat) :
    Within (base + i * pagesPerHpage level) (base + 512 * pagesPerHpage level) level
      (tableFrom m minLevel level table base i) := by
  induction level generalizing table base i with
  | zero => exact fun e he => absurd he not_mem_nil
  | succ l ih =>
    intro e he
    obtain ⟨j, hj, he⟩ := mem_tableFrom_succ.1 he
    have hmono := mul_le_mul_right (pagesPerHpage (l + 1)) hj.1
    have hlast := mul_le_mul_right (pagesPerHpage (l + 1)) (succ_le_of_lt hj.2)
    rw [succ_mul] at hlast
    rcases he with rfl | he
    · dsimp only
      omega
    obtain ⟨-, child, -, he⟩ := mem_below.1 he
    have hsub := ih child (base + j * pagesPerHpage (l + 1)) 0 e he
    have hlevel : 1 ≤ l := by omega
    rw [← pages_succ hlevel] at hsub
    omega

theorem within_below {m : Memory} {minLevel level table j gfn : Nat} (hlevel : 1 ≤ level) :
    Within gfn (gfn + pagesPerHpage level) (level - 1) (below m minLevel level table j gfn) := by
  intro e he
  obtain ⟨-, child, -, he⟩ := mem_below.1 he
  have hsub := within_tableFrom m minLevel (level - 1) child gfn 0 e he
  have hpred : 1 ≤ level - 1 := by omega
  have hpages := pages_succ hpred
  rw [Nat.sub_add_cancel hlevel] at hpages
  omega

theorem filter_tableFrom (hlevel : 1 ≤ level) (hi : i ≤ 512) {goal : Nat}
    (hgoal : base + i * pagesPerHpage level ≤ goal) :
    (tableFrom m minLevel level table base 0).filter
        (fun e => goal < e.gfn + pagesPerHpage e.level) =
      (tableFrom m minLevel level table base i).filter
        (fun e => goal < e.gfn + pagesPerHpage e.level) := by
  induction i with
  | zero => rfl
  | succ i ih =>
    rw [succ_mul] at hgoal
    rw [ih (by omega) (by omega), tableFrom_cons hlevel hi, filter_append, append_left_eq_self,
      filter_eq_nil_iff]
    intro e he
    rw [decide_eq_true_eq]
    rcases mem_cons.mp he with rfl | he
    · dsimp only
      omega
    · have := within_below hlevel e he
      omega

end

/-! ## What is left of a walk -/

/-- What the walk sees behind the subtree of the entry for `gfn` at `level`, in the tables of
`ptPath` on the `k` levels above. -/
def restAt (m : Memory) (minLevel : Nat) (ptPath : Nat → Nat) : Nat → Nat → Nat → List Entry
  | 0, level, gfn =>
    tableFrom m minLevel level (ptPath (level - 1)) (gfnRoundForLevel gfn (level + 1))
      (gfn / pagesPerHpage level % 512 + 1)
  | k + 1, level, gfn =>
    tableFrom m minLevel level (ptPath (level - 1)) (gfnRoundForLevel gfn (level + 1))
      (gfn / pagesPerHpage level % 512 + 1) ++
    restAt m minLevel ptPath k (level + 1) (gfnRoundForLevel gfn (level + 1))

/-- The part of `restAt` above the table of `level`. -/
def restAbove (m : Memory) (minLevel : Nat) (ptPath : Nat → Nat) : Nat → Nat → Nat → List Entry
  | 0, _, _ => []
  | k + 1, level, gfn =>
    restAt m minLevel ptPath k (level + 1) (gfnRoundForLevel gfn (level + 1))

section
variable {m : Memory} {minLevel : Nat} {ptPath : Nat → Nat}

theorem restAt_eq (k level gfn : Nat) : restAt m minLevel ptPath k level gfn =
      tableFrom m minLevel level (ptPath (level - 1)) (gfnRoundForLevel gfn (level + 1))
        (gfn / pagesPerHpage level % 512 + 1) ++ restAbove m minLevel ptPath k level gfn := by
  cases k with
  | zero => rw [restAbove, append_nil, restAt]
  | succ k => rfl

theorem restAt_congr {ptPath' : Nat → Nat} {k level gfn : Nat}
    (h : ∀ l, level ≤ l + 1 → ptPath' l = ptPath l) :
    restAt m minLevel ptPath' k level gfn = restAt m minLevel ptPath k level gfn := by
  induction k generalizing level gfn with
  | zero => rw [restAt, restAt, h _ (by omega)]
  | succ k ih => rw [restAt, restAt, h _ (by omega), ih fun l hl => h l (by omega)]

theorem le_gfn_of_mem_tableFrom {level gfn table : Nat} (hlevel : 1 ≤ level)
    (he : e ∈ tableFrom m minLevel level table (gfnRoundForLevel gfn (level + 1))
      (gfn / pagesPerHpage level % 512 + 1)) :
    gfnRoundForLevel gfn level + pagesPerHpage level ≤ e.gfn := by
  have hround := round_add_index hlevel gfn
  have hwithin := within_tableFrom _ _ _ _ _ _ e he
  rw [add_mul] at hwithin
  omega

theorem le_gfn_of_mem_restAt {k level gfn : Nat} (hlevel : 1 ≤ level)
    (he : e ∈ restAt m minLevel ptPath k level gfn) :
    gfnRoundForLevel gfn level + pagesPerHpage level ≤ e.gfn := by
  induction k generalizing level gfn with
  | zero => exact le_gfn_of_mem_tableFrom hlevel he
  | succ k ih =>
    rw [restAt, mem_append] at he
    rcases he with he | he
    · exact le_gfn_of_mem_tableFrom hlevel he
    have habove := ih (by omega) he
    rw [round_round] at habove
    have hlt := lt_of_le_of_lt (round_le gfn level) (lt_round_add gfn (level + 1))
    have hdvd : pagesPerHpage level ∣ pagesPerHpage (level + 1) := pages_dvd (by omega)
    have hle := add_le_of_dvd (dvd_round gfn level)
      (Nat.dvd_add (hdvd.trans (dvd_round gfn (level + 1))) hdvd) hlt
    omega

end

/-! ## Steps of the iterator -/

/-- The iterator stands at an entry of the table it holds for its level. -/
structure Positioned (iter : Iter) : Prop where
  min_pos : 1 ≤ iter.minLevel
  min_le : iter.minLevel ≤ iter.level
  le_root : iter.level ≤ iter.rootLevel
  root_le : iter.rootLevel ≤ PT64_ROOT_MAX_LEVEL
  dvd : pagesPerHpage iter.level ∣ iter.gfn
  lt : iter.gfn < pagesPerHpage (iter.rootLevel + 1)
  sptep : iter.sptep = ⟨iter.ptPath (iter.level - 1), iter.gfn / pagesPerHpage iter.level % 512⟩
  valid : iter.valid = true
  yielded : iter.yielded = false

/-- The frame that the iterator goes to belongs to the entry. -/
structure AtGoal (iter : Iter) : Prop extends Positioned iter where
  gfn_le : iter.gfn ≤ iter.nextLastLevelGfn
  lt_gfn : iter.nextLastLevelGfn < iter.gfn + pagesPerHpage iter.level

/-- The entry, its subtree and all that comes behind. -/
def full (m : Memory) (iter : Iter) : List Entry :=
  iter.entry :: below m iter.minLevel iter.level iter.sptep.table iter.sptep.index iter.gfn ++
    restAt m iter.minLevel iter.ptPath (iter.rootLevel - iter.level) iter.level iter.gfn

/-- What comes behind the subtree of the entry. -/
abbrev behind (m : Memory) (iter : Iter) : List Entry :=
  restAt m iter.minLevel iter.ptPath (iter.rootLevel - iter.level) iter.level iter.gfn

variable {m : Memory} {iter : Iter}

namespace Positioned

section
variable (h : Positioned iter)
include h

theorem level_pos : 1 ≤ iter.level := le_trans h.min_pos h.min_le

theorem room : iter.gfn + pagesPerHpage iter.level ≤ pagesPerHpage (iter.rootLevel + 1) := by
  have hle := h.le_root
  exact add_le_of_dvd h.dvd (pages_dvd (by omega)) h.lt

theorem pages_le : pagesPerHpage (iter.rootLevel + 1) ≤ 2 ^ 45 := by
  have hle := h.root_le
  simp only [PT64_ROOT_MAX_LEVEL] at hle
  exact Nat.pow_le_pow_right Nat.two_pos (by omega)

theorem spteIndex_gfn :
    spteIndex iter.gfn iter.level = iter.gfn / pagesPerHpage iter.level % 512 := by
  have := h.room
  have := h.pages_le
  exact spteIndex_eq (by omega) iter.level

theorem round_gfn : gfnRoundForLevel iter.gfn iter.level = iter.gfn :=
  round_eq h.dvd le_rfl (Nat.lt_add_of_pos_right (pages_pos _))

end

theorem refresh (h : Positioned { iter with
      sptep := ⟨iter.ptPath (iter.level - 1), iter.gfn / pagesPerHpage iter.level % 512⟩ }) :
    Positioned (tdpIterRefreshSptep m iter) := by
  have hindex := h.spteIndex_gfn
  exact { h with
    sptep := by
      unfold tdpIterRefreshSptep
      rw [hindex] }

end Positioned

theorem full_eq (m : Memory) (h : Positioned iter) :
    full m iter = tableFrom m iter.minLevel iter.level (iter.ptPath (iter.level - 1))
        (gfnRoundForLevel iter.gfn (iter.level + 1)) (iter.gfn / pagesPerHpage iter.level % 512) ++
      restAbove m iter.minLevel iter.ptPath (iter.rootLevel - iter.level) iter.level iter.gfn := by
  have hindex : iter.gfn / pagesPerHpage iter.level % 512 < 512 := mod_lt _ (by decide)
  rw [full, restAt_eq, tableFrom_cons h.level_pos hindex, round_add_index h.level_pos,
    h.round_gfn, Iter.entry, h.sptep, append_assoc]

theorem index_side {level gfn : Nat} (hlevel : 1 ≤ level)
    (hlast : gfn / pagesPerHpage level % 512 ≠ 511) :
    (gfn + pagesPerHpage level) / pagesPerHpage level % 512 = gfn / pagesPerHpage level % 512 + 1 ∧
      gfnRoundForLevel (gfn + pagesPerHpage level) (level + 1) =
        gfnRoundForLevel gfn (level + 1) := by
  have hdiv : (gfn + pagesPerHpage level) / pagesPerHpage level = gfn / pagesPerHpage level + 1 :=
    add_div_right _ (pages_pos level)
  have hindex : (gfn + pagesPerHpage level) / pagesPerHpage level % 512 =
      gfn / pagesPerHpage level % 512 + 1 := by
    omega
  refine ⟨hindex, ?_⟩
  have h₁ := round_add_index hlevel gfn
  have h₂ := round_add_index hlevel (gfn + pagesPerHpage level)
  have h₃ : gfnRoundForLevel (gfn + pagesPerHpage level) level =
      gfnRoundForLevel gfn level + pagesPerHpage level := by
    rw [gfnRoundForLevel, hdiv, succ_mul, gfnRoundForLevel]
  rw [hindex, succ_mul] at h₂
  omega

theorem tryStepSide_spec (h : Positioned iter)
    (hlast : iter.gfn / pagesPerHpage iter.level % 512 ≠ 511) :
    ∃ iter', tryStepSide m iter = some iter' ∧ AtGoal iter' ∧ iter'.nextLastLevelGfn = iter'.gfn ∧
      full m iter' = behind m iter := by
  have hpos := pages_pos iter.level
  have hlevel := h.level_pos
  have hroot := h.le_root
  obtain ⟨hindex, hbase⟩ := index_side hlevel hlast
  have hgfn : gfnRoundForLevel iter.gfn (iter.level + 1) +
      (iter.gfn / pagesPerHpage iter.level % 512 + 1) * pagesPerHpage iter.level =
      iter.gfn + pagesPerHpage iter.level := by
    rw [succ_mul, ← add_assoc, round_add_index hlevel, h.round_gfn]
  have hlt : iter.gfn + pagesPerHpage iter.level < pagesPerHpage (iter.rootLevel + 1) := by
    have htable := add_le_of_dvd (dvd_round iter.gfn (iter.level + 1))
      (pages_dvd (show iter.level + 1 ≤ iter.rootLevel + 1 by omega))
      (lt_of_le_of_lt (round_le _ _) h.lt)
    have hmul : (iter.gfn / pagesPerHpage iter.level % 512 + 1) * pagesPerHpage iter.level <
        512 * pagesPerHpage iter.level := mul_lt_mul_of_pos_right (by omega) hpos
    rw [pages_succ hlevel] at htable
    omega
  have hword : (iter.gfn + pagesPerHpage iter.level) % 2 ^ 64 =
      iter.gfn + pagesPerHpage iter.level := by
    have := h.pages_le
    exact mod_eq_of_lt (by omega)
  have hne : spteIndex iter.gfn iter.level ≠ SPTE_ENT_PER_PAGE - 1 := by
    rw [h.spteIndex_gfn]
    exact hlast
  have hpos' : Positioned { iter with
      gfn := iter.gfn + pagesPerHpage iter.level
      nextLastLevelGfn := iter.gfn + pagesPerHpage iter.level
      sptep := ⟨iter.sptep.table, iter.sptep.index + 1⟩
      oldSpte := m.readSpte ⟨iter.sptep.table, iter.sptep.index + 1⟩ } := by
    refine ⟨h.min_pos, h.min_le, h.le_root, h.root_le, Nat.dvd_add h.dvd (Nat.dvd_refl _), hlt, ?_,
      h.valid, h.yielded⟩
    rw [h.sptep, hindex]
  refine ⟨_, ?_, ⟨hpos', le_rfl, Nat.lt_add_of_pos_right hpos⟩, rfl, ?_⟩
  · rw [tryStepSide, if_neg hne]
    simp only [hword]
  have habove : restAbove m iter.minLevel iter.ptPath (iter.rootLevel - iter.level) iter.level
      (iter.gfn + pagesPerHpage iter.level) =
      restAbove m iter.minLevel iter.ptPath (iter.rootLevel - iter.level) iter.level iter.gfn := by
    cases iter.rootLevel - iter.level with
    | zero => rfl
    | succ k => rw [restAbove, restAbove, hbase]
  rw [full_eq m hpos', behind, restAt_eq]
  simp only [hindex, hbase, habove]

theorem tryStepUp_spec (h : Positioned iter)
    (hlast : iter.gfn / pagesPerHpage iter.level % 512 = 511)
    (hroot : iter.level ≠ iter.rootLevel) :
    ∃ iter', tryStepUp m iter = some iter' ∧ Positioned iter' ∧
      iter'.rootLevel - iter'.level + 1 = iter.rootLevel - iter.level ∧
      behind m iter' = behind m iter := by
  have hle := h.le_root
  have hmin := h.min_le
  have hturns : iter.rootLevel - iter.level = (iter.rootLevel - (iter.level + 1)) + 1 := by omega
  refine ⟨_, if_neg hroot, Positioned.refresh ⟨h.min_pos, ?_, ?_, h.root_le, ?_, ?_, rfl, h.valid,
    h.yielded⟩, ?_, ?_⟩
  · dsimp only
    omega
  · dsimp only
    omega
  · exact dvd_round ..
  · exact lt_of_le_of_lt (round_le _ _) h.lt
  · exact hturns.symm
  · rw [behind, behind, hturns, restAt, hlast, tableFrom_end]
    rfl

/-- The loop of `tdp_iter_next` goes to the first entry of what is left, or ends the walk. -/
theorem stepSideOrUp_spec {turns : Nat} (h : Positioned iter)
    (hturns : iter.rootLevel - iter.level < turns) :
    ((stepSideOrUp m turns iter).valid = false ∧ behind m iter = []) ∨
    (AtGoal (stepSideOrUp m turns iter) ∧
      (stepSideOrUp m turns iter).nextLastLevelGfn = (stepSideOrUp m turns iter).gfn ∧
      full m (stepSideOrUp m turns iter) = behind m iter) := by
  induction turns generalizing iter with
  | zero => exact absurd hturns (not_lt_zero _)
  | succ turns ih =>
    by_cases hlast : iter.gfn / pagesPerHpage iter.level % 512 = 511
    · rw [stepSideOrUp, tryStepSide, h.spteIndex_gfn, hlast,
        if_pos (show 511 = SPTE_ENT_PER_PAGE - 1 from rfl)]
      by_cases hroot : iter.level = iter.rootLevel
      · rw [tryStepUp, if_pos hroot, behind, hroot, Nat.sub_self, restAt, ← hroot, hlast,
          tableFrom_end]
        exact .inl ⟨rfl, rfl⟩
      · obtain ⟨iter', hup, hpos, hlevels, hrest⟩ := @tryStepUp_spec m iter h hlast hroot
        rw [hup, ← hrest]
        exact ih hpos (by omega)
    · obtain ⟨iter', hside, hgoal, hnext, hfull⟩ := @tryStepSide_spec m iter h hlast
      rw [stepSideOrUp, hside]
      exact .inr ⟨hgoal, hnext, hfull⟩

/-! ## The walk -/

theorem round_below {l gfn goal : Nat} (hl : 1 ≤ l) (hdvd : pagesPerHpage (l + 1) ∣ gfn)
    (hle : gfn ≤ goal) (hlt : goal < gfn + pagesPerHpage (l + 1)) :
    gfnRoundForLevel (gfnRoundForLevel goal l) (l + 1) = gfn ∧
      gfn + gfnRoundForLevel goal l / pagesPerHpage l % 512 * pagesPerHpage l =
        gfnRoundForLevel goal l := by
  have hdvdl : pagesPerHpage l ∣ gfn := (pages_dvd (le_succ l)).trans hdvd
  have hge : gfn ≤ gfnRoundForLevel goal l := by
    have hround : gfnRoundForLevel gfn l ≤ gfnRoundForLevel goal l :=
      Nat.mul_le_mul_right _ (Nat.div_le_div_right hle)
    rwa [round_eq hdvdl le_rfl (Nat.lt_add_of_pos_right (pages_pos l))] at hround
  have hbase : gfnRoundForLevel (gfnRoundForLevel goal l) (l + 1) = gfn :=
    round_eq hdvd hge (lt_of_le_of_lt (round_le goal l) hlt)
  have hentry := round_add_index hl (gfnRoundForLevel goal l)
  rw [hbase, round_round] at hentry
  exact ⟨hbase, hentry⟩

/-- A step down goes to the entry for the goal in the table below. -/
theorem tryStepDown_spec {child : Nat} (h : AtGoal iter) (hmin : iter.level ≠ iter.minLevel)
    (hchild : m.spteToChildPt (m.readSpte iter.sptep) iter.level = some child) :
    ∃ iter', tryStepDown m iter = some iter' ∧ AtGoal iter' ∧
      iter'.nextLastLevelGfn = iter.nextLastLevelGfn ∧ iter'.level + 1 = iter.level ∧
      full m iter' = tableFrom m iter.minLevel iter'.level child iter.gfn
          (iter'.gfn / pagesPerHpage iter'.level % 512) ++ behind m iter ∧
      iter.gfn + iter'.gfn / pagesPerHpage iter'.level % 512 * pagesPerHpage iter'.level =
        iter'.gfn := by
  obtain ⟨l, hl⟩ : ∃ l, iter.level = l + 1 := ⟨iter.level - 1, by have := h.level_pos; omega⟩
  have hminle := h.min_le
  have hminpos := h.min_pos
  have hroot := h.le_root
  have hl1 : 1 ≤ l := by omega
  have hgoal := round_le iter.nextLastLevelGfn l
  have hroom := h.room
  have hlt := h.lt_gfn
  obtain ⟨hbase, hentry⟩ := round_below hl1 (hl ▸ h.dvd) h.gfn_le (hl ▸ h.lt_gfn)
  have hpos : Positioned (tdpIterRefreshSptep m { iter with
      oldSpte := m.readSpte iter.sptep
      level := l
      ptPath := update iter.ptPath (l - 1) child
      gfn := gfnRoundForLevel iter.nextLastLevelGfn l }) := by
    refine Positioned.refresh ⟨hminpos, ?_, ?_, h.root_le, dvd_round .., ?_, rfl, h.valid,
      h.yielded⟩
    · dsimp only
      omega
    · dsimp only
      omega
    · dsimp only
      omega
  refine ⟨_, ?_, ⟨hpos, hgoal, lt_round_add _ l⟩, rfl, hl.symm, ?_, hentry⟩
  · have hpred : iter.level - 1 = l := by omega
    rw [tryStepDown, if_neg hmin]
    simp only [hchild, Option.map_some, hpred]
  · have hlevels : iter.rootLevel - l = (iter.rootLevel - iter.level) + 1 := by omega
    rw [full_eq m hpos]
    simp only [tdpIterRefreshSptep, update_self, hbase, hlevels, restAbove]
    rw [← hl, restAt_congr fun l' hl' => update_of_ne (by omega) _ _]

/-- What the rest of a walk visits: all that does not end before the goal. -/
def todo (m : Memory) (iter : Iter) : List Entry :=
  (full m iter).filter fun e => iter.nextLastLevelGfn < e.gfn + pagesPerHpage e.level

theorem todo_eq_full (h : AtGoal iter)
    (hgoal : iter.nextLastLevelGfn = iter.gfn) : todo m iter = full m iter := by
  rw [todo, filter_eq_self]
  intro e he
  have hpages := pages_pos e.level
  have hbound : iter.gfn ≤ e.gfn := by
    rcases mem_cons.mp he with rfl | he
    · exact le_rfl
    rcases mem_append.mp he with he | he
    · exact (within_below h.level_pos e he).1
    · have hrest := le_gfn_of_mem_restAt h.level_pos he
      rw [h.round_gfn] at hrest
      omega
  rw [decide_eq_true_eq]
  omega

theorem todo_stepDown {iter' : Iter} (h : AtGoal iter) (hdown : tryStepDown m iter = some iter') :
    AtGoal iter' ∧ todo m iter = iter.entry :: todo m iter' := by
  have hmin : iter.level ≠ iter.minLevel := fun heq => by simp [tryStepDown, heq] at hdown
  obtain ⟨child, hchild, -⟩ := Option.map_eq_some_iff.1 ((if_neg hmin).symm.trans hdown)
  obtain ⟨iter₁, hdown₁, hgoal, hnext, hlevel, hfull, hentry⟩ := tryStepDown_spec h hmin hchild
  cases hdown.symm.trans hdown₁
  refine ⟨hgoal, ?_⟩
  have hpred : iter.level - 1 = iter'.level := by omega
  have hbelow : below m iter.minLevel iter.level iter.sptep.table iter.sptep.index iter.gfn =
      tableFrom m iter.minLevel iter'.level child iter.gfn 0 := by
    rw [below, if_neg hmin]
    rw [Memory.readSpte] at hchild
    rw [hchild, hpred]
  have hself : iter.nextLastLevelGfn < iter.entry.gfn + pagesPerHpage iter.entry.level := h.lt_gfn
  have hindex : iter'.gfn / pagesPerHpage iter'.level % 512 ≤ 512 :=
    le_of_lt (mod_lt _ (by decide))
  have hfront := @filter_tableFrom m iter.minLevel _ child _ _ hgoal.level_pos hindex
    iter.nextLastLevelGfn (by rw [hentry, ← hnext]; exact hgoal.gfn_le)
  rw [todo, todo, full, hbelow, hfull, hnext]
  simp only [cons_append, filter_cons, filter_append, hfront, decide_eq_true hself, if_true]

theorem below_of_tryStepDown_none (h : tryStepDown m iter = none) :
    below m iter.minLevel iter.level iter.sptep.table iter.sptep.index iter.gfn = [] := by
  unfold tryStepDown at h
  unfold below
  split at h
  next hmin => rw [if_pos hmin]
  next hmin =>
    have hchild := Option.map_eq_none_iff.mp h
    rw [Memory.readSpte] at hchild
    rw [if_neg hmin, hchild]

/-- Where there is nothing below the entry, what is left is all behind the goal. -/
theorem todo_of_below_nil (h : AtGoal iter)
    (hbelow : below m iter.minLevel iter.level iter.sptep.table iter.sptep.index iter.gfn = []) :
    todo m iter = iter.entry :: behind m iter := by
  rw [todo, full, hbelow, singleton_append, filter_eq_self]
  intro e he
  have hlt := h.lt_gfn
  rw [decide_eq_true_eq]
  rcases mem_cons.mp he with rfl | he
  · exact hlt
  · have hrest := le_gfn_of_mem_restAt h.level_pos he
    rw [h.round_gfn] at hrest
    omega

/-- One step visits the entry and leaves the rest to do, or ends the walk. -/
theorem tdpIterNext_spec (h : AtGoal iter) :
    ((tdpIterNext m iter).valid = false ∧ todo m iter = [iter.entry]) ∨
      (AtGoal (tdpIterNext m iter) ∧ todo m iter = iter.entry :: todo m (tdpIterNext m iter)) := by
  have hyield : ¬iter.yielded = true := by simp [h.yielded]
  rw [tdpIterNext, if_neg hyield]
  cases hdown : tryStepDown m iter with
  | some iter' => exact .inr (todo_stepDown h hdown)
  | none =>
    rw [todo_of_below_nil h (below_of_tryStepDown_none hdown)]
    -- reading the entry again changes nothing but the copy of its value
    have hread : ∃ spte, (if iter.level = iter.minLevel then iter
        else { iter with oldSpte := m.readSpte iter.sptep }) = { iter with oldSpte := spte } := by
      split
      · exact ⟨iter.oldSpte, rfl⟩
      · exact ⟨m.readSpte iter.sptep, rfl⟩
    obtain ⟨spte, hread⟩ := hread
    rw [hread]
    have hpos : Positioned { iter with oldSpte := spte } := { h.toPositioned with }
    rcases @stepSideOrUp_spec m _ _ hpos (lt_succ_self _) with
      ⟨hinvalid, hrest⟩ | ⟨hgoal, hnext, hfull⟩
    · exact .inl ⟨hinvalid, congrArg (iter.entry :: ·) hrest⟩
    · refine .inr ⟨hgoal, congrArg (iter.entry :: ·) ?_⟩
      rw [todo_eq_full hgoal hnext]
      exact hfull.symm

theorem tdpVisits_eq {fuel : Nat} (h : AtGoal iter)
    (hfuel : (todo m iter).length < fuel) : tdpVisits m fuel iter = some (todo m iter) := by
  induction fuel generalizing iter with
  | zero => exact absurd hfuel (not_lt_zero _)
  | succ fuel ih =>
    rw [tdpVisits, if_pos h.valid]
    rcases @tdpIterNext_spec m iter h with ⟨hinvalid, htodo⟩ | ⟨hgoal, htodo⟩
    · rw [htodo] at hfuel ⊢
      obtain ⟨fuel, rfl⟩ : ∃ f, fuel = f + 1 :=
        ⟨fuel - 1, by rw [length_singleton] at hfuel; omega⟩
      rw [tdpVisits, if_neg (by simp [hinvalid])]
      rfl
    · rw [htodo] at hfuel ⊢
      rw [ih hgoal (lt_of_succ_lt_succ hfuel)]
      rfl

/-! ## The entries of the paging structure -/

/-- The entries that are reachable from a table at `level` whose first frame is `base`. -/
inductive Reachable (m : Memory) : Nat → Nat → Nat → Entry → Prop
  | entry {level table base i : Nat} : i < 512 →
      Reachable m level table base ⟨level, base + i * pagesPerHpage level, ⟨table, i⟩⟩
  | child {level table base i child : Nat} {e : Entry} : i < 512 →
      m.spteToChildPt (m.spte table i) (level + 1) = some child →
      Reachable m level child (base + i * pagesPerHpage (level + 1)) e →
      Reachable m (level + 1) table base e

/-- Ancestors come before descendants, and lower frames before higher ones. -/
def Entry.Before (e f : Entry) : Prop := e.gfn < f.gfn ∨ e.gfn = f.gfn ∧ f.level < e.level

theorem Reachable.level_le {level table base : Nat}
    (h : Reachable m level table base e) : e.level ≤ level := by
  induction h with
  | entry _ => exact le_rfl
  | child _ _ _ ih => exact le_succ_of_le ih

theorem mem_tableFrom_iff {minLevel level table base : Nat} (hmin : 1 ≤ minLevel)
    (hlevel : minLevel ≤ level) : e ∈ tableFrom m minLevel level table base 0 ↔
      Reachable m level table base e ∧ minLevel ≤ e.level := by
  induction level generalizing table base with
  | zero => omega
  | succ l ih =>
    rw [mem_tableFrom_succ]
    constructor
    · rintro ⟨j, hj, rfl | he⟩
      · exact ⟨.entry hj.2, hlevel⟩
      · obtain ⟨hne, child, hchild, he⟩ := mem_below.1 he
        obtain ⟨hreach, hle⟩ := (ih (by omega)).mp he
        exact ⟨.child hj.2 hchild hreach, hle⟩
    · rintro ⟨hreach, hle⟩
      cases hreach with
      | @entry _ _ _ i hi => exact ⟨i, ⟨zero_le _, hi⟩, .inl rfl⟩
      | @child _ _ _ i child _ hi hchild hreach =>
        have hne : l + 1 ≠ minLevel := by
          have := hreach.level_le
          omega
        exact ⟨i, ⟨zero_le _, hi⟩,
          .inr (mem_below.2 ⟨hne, child, hchild, (ih (by omega)).mpr ⟨hreach, hle⟩⟩)⟩

theorem pairwise_tableFrom (m : Memory) (minLevel level table base : Nat) {i : Nat} (hi : i ≤ 512) :
    (tableFrom m minLevel level table base i).Pairwise Entry.Before := by
  induction level generalizing table base i with
  | zero => exact Pairwise.nil
  | succ l ih =>
    -- from the last entry of the table backwards
    induction hn : 512 - i generalizing i with
    | zero =>
      obtain rfl : i = 512 := by omega
      exact Pairwise.nil
    | succ n ihn =>
      have hlt : i < 512 := by omega
      have hlevel : 1 ≤ l + 1 := le_add_left 1 l
      rw [tableFrom_cons hlevel hlt]
      have hbelow := @within_below m minLevel (l + 1) table i
        (base + i * pagesPerHpage (l + 1)) hlevel
      have hrest := within_tableFrom m minLevel (l + 1) table base (i + 1)
      rw [succ_mul] at hrest
      have hpages := pages_pos (l + 1)
      refine pairwise_append.mpr ⟨pairwise_cons.mpr ⟨fun e he => ?_, ?_⟩,
        ihn (by omega) (by omega), fun e he f hf => ?_⟩
      · have := hbelow e he
        unfold Entry.Before
        dsimp only
        omega
      · unfold below
        split
        · exact Pairwise.nil
        · split
          · exact Pairwise.nil
          · exact ih _ _ (zero_le _)
      · have hf' := hrest f hf
        refine .inl (lt_of_lt_of_le ?_ hf'.1)
        rcases mem_cons.mp he with rfl | he
        · dsimp only
          omega
        · have := hbelow e he
          have := pages_pos e.level
          omega

/-- The iterator at the root, before it has read the entry. -/
def atRoot (iter : Iter) (root rootLevel minLevel start : Nat) : Iter :=
  { iter with
    nextLastLevelGfn := start
    yieldedGfn := start
    yielded := false
    rootLevel := rootLevel
    minLevel := minLevel
    ptPath := Function.update iter.ptPath (rootLevel - 1) root
    level := rootLevel
    gfn := gfnRoundForLevel start rootLevel
    valid := true }

theorem tdpIterStart_spec (m : Memory) (iter : Iter) (root : Nat) {rootLevel minLevel start : Nat}
    (hroot : rootLevel ≤ PT64_ROOT_MAX_LEVEL) (hmin : 1 ≤ minLevel) (hle : minLevel ≤ rootLevel)
    (hstart : start < pagesPerHpage (rootLevel + 1)) :
    AtGoal (tdpIterStart m iter root rootLevel minLevel start) ∧
      todo m (tdpIterStart m iter root rootLevel minLevel start) =
        (tableFrom m minLevel rootLevel root 0 0).filter
          fun e => start < e.gfn + pagesPerHpage e.level := by
  have hlevel : 1 ≤ rootLevel := le_trans hmin hle
  have hgfn : gfnRoundForLevel start rootLevel < pagesPerHpage (rootLevel + 1) :=
    lt_of_le_of_lt (round_le _ _) hstart
  have hpos : Positioned (tdpIterRefreshSptep m (atRoot iter root rootLevel minLevel start)) :=
    Positioned.refresh ⟨hmin, hle, le_rfl, hroot, dvd_round .., hgfn, rfl, rfl, rfl⟩
  have hgoal := AtGoal.mk hpos (round_le start rootLevel) (lt_round_add start rootLevel)
  have heq : tdpIterStart m iter root rootLevel minLevel start =
      tdpIterRefreshSptep m (atRoot iter root rootLevel minLevel start) := if_neg (by omega)
  rw [heq]
  refine ⟨hgoal, ?_⟩
  have hbase : gfnRoundForLevel (gfnRoundForLevel start rootLevel) (rootLevel + 1) = 0 :=
    round_eq (Nat.dvd_zero _) (Nat.zero_le _) (by rwa [Nat.zero_add])
  have hentry := round_add_index hlevel (gfnRoundForLevel start rootLevel)
  rw [hbase, round_round, zero_add] at hentry
  have hindex : gfnRoundForLevel start rootLevel / pagesPerHpage rootLevel % 512 ≤ 512 :=
    le_of_lt (mod_lt _ (by decide))
  rw [todo, full_eq m hpos, filter_tableFrom hlevel hindex (by
    rw [zero_add, hentry]
    exact round_le start rootLevel)]
  simp only [tdpIterRefreshSptep, atRoot, update_self, hbase, Nat.sub_self, restAbove, append_nil]

/-- For every paging structure, `tdp_iter_start` and repeated `tdp_iter_next` visit the reachable
entries at `minLevel` or above that end behind the first frame, once and in preorder. -/
theorem tdpIter_preorder (m : Memory) (iter : Iter) (root : Nat) {rootLevel minLevel start : Nat}
    (hroot : rootLevel ≤ PT64_ROOT_MAX_LEVEL) (hmin : 1 ≤ minLevel) (hle : minLevel ≤ rootLevel)
    (hstart : start < pagesPerHpage (rootLevel + 1)) :
    ∃ visits : List Entry,
      (∀ fuel, visits.length < fuel →
        tdpVisits m fuel (tdpIterStart m iter root rootLevel minLevel start) = some visits) ∧
      (∀ e, e ∈ visits ↔ Reachable m rootLevel root 0 e ∧ minLevel ≤ e.level ∧
        start < e.gfn + pagesPerHpage e.level) ∧
      visits.Pairwise Entry.Before := by
  obtain ⟨hgoal, htodo⟩ := tdpIterStart_spec m iter root hroot hmin hle hstart
  refine ⟨_, fun fuel hfuel => tdpVisits_eq hgoal hfuel, fun e => ?_, ?_⟩
  · rw [htodo, List.mem_filter, mem_tableFrom_iff hmin hle, decide_eq_true_eq, and_assoc]
  · rw [htodo]
    exact (pairwise_tableFrom m minLevel rootLevel root 0 (zero_le _)).filter _

/-- A table at `0x1000` whose fourth entry points to a table of zeros at `0x2000`. -/
def twoTables : Memory :=
  ⟨fun table i => if table = 0x1000 ∧ i = 3 then 0x2800 else 0, 0xffffffffff000, BitVec.toNat⟩

theorem tdpIter_preorder_twoTables :
    ∃ visits : List Entry,
      (∀ fuel, visits.length < fuel →
        tdpVisits twoTables fuel (tdpIterStart twoTables
            ⟨0, 0, fun _ => 0, ⟨0, 0⟩, 0, 0, 0, 0, 0, false, false⟩ 0x1000 2 1 1541) =
          some visits) ∧
      ⟨2, 1536, ⟨0x1000, 3⟩⟩ ∈ visits ∧ ⟨1, 1541, ⟨0x2000, 5⟩⟩ ∈ visits ∧
      visits.Pairwise Entry.Before := by
  obtain ⟨visits, hrun, hmem, horder⟩ := tdpIter_preorder twoTables
    ⟨0, 0, fun _ => 0, ⟨0, 0⟩, 0, 0, 0, 0, 0, false, false⟩ 0x1000 (show 2 ≤ _ by decide)
    (show 1 ≤ 1 by decide) (by decide) (show 1541 < _ by decide)
  refine ⟨visits, hrun, (hmem _).2 ⟨.entry (i := 3) (by decide), by decide⟩,
    (hmem _).2 ⟨.child (i := 3) (by decide) rfl (.entry (i := 5) (by decide)), by decide⟩, horder⟩

end LinuxKernel.X86.TdpIter
