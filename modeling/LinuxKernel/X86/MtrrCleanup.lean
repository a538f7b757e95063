import Mathlib

/-!
# Cutting a range into variable MTRRs

`arch/x86/kernel/cpu/mtrr/cleanup.c`, `range_to_mtrr`. Addresses and sizes count
kilobytes, the saved registers count pages.
-/

namespace LinuxKernel.X86

open Nat

structure VarMtrrRangeState where
  basePfn : BitVec 64
  sizePfn : BitVec 64
  type : BitVec 8
deriving Repr, DecidableEq

def saveVarMtrr (basek sizek : BitVec 64) (type : BitVec 8) : VarMtrrRangeState :=
  ⟨basek >>> 2, sizek >>> 2, type⟩

/-- The exponent of the largest block that may start at `startk` and fits. -/
def blockAlign (startk sizek : BitVec 64) : Nat :=
  min sizek.toNat.log2 (if startk ≠ 0 then startk.ctz.toNat else 63)

/-- The loop of `range_to_mtrr`: the registers it saves while there are free ones. -/
def rangeToMtrrLoop (type : BitVec 8) : Nat → BitVec 64 → BitVec 64 → List VarMtrrRangeState
  | 0, _, _ => []
  | free + 1, startk, sizek =>
    if sizek = 0 then []
    else
      let blockk := 1#64 <<< blockAlign startk sizek
      saveVarMtrr startk blockk type :: rangeToMtrrLoop type free (startk + blockk) (sizek - blockk)

/-- The next register, and what is saved in `range_state` from
`reg` on. -/
def rangeToMtrr (numVarRanges reg : Nat) (startk sizek : BitVec 64) (type : BitVec 8) :
    Nat × List VarMtrrRangeState :=
  let saved := rangeToMtrrLoop type (numVarRanges - reg) startk sizek
  (reg + saved.length, saved)

namespace VarMtrrRangeState

def basek (r : VarMtrrRangeState) : Nat := r.basePfn.toNat * 4

def sizek (r : VarMtrrRangeState) : Nat := r.sizePfn.toNat * 4

def Aligned (r : VarMtrrRangeState) : Prop := (∃ k, r.sizek = 2 ^ k) ∧ r.sizek ∣ r.basek

end VarMtrrRangeState

/-- The registers lie one behind the other and cover just the range from `a` to `b`. -/
def TilesRange : List VarMtrrRangeState → Nat → Nat → Prop
  | [], a, b => a = b
  | r :: rs, a, b => r.basek = a ∧ TilesRange rs (a + r.sizek) b

theorem two_pow_ctz_dvd (x : BitVec 64) : 2 ^ x.ctz.toNat ∣ x.toNat := by
  apply dvd_of_mod_eq_zero
  apply eq_of_testBit_eq
  intro i
  rw [testBit_mod_two_pow, zero_testBit, Bool.and_eq_false_imp, decide_eq_true_eq]
  exact BitVec.getLsbD_false_of_lt_ctz

section
variable {startk sizek : BitVec 64}

theorem two_pow_blockAlign_dvd (startk sizek : BitVec 64) :
    2 ^ blockAlign startk sizek ∣ startk.toNat := by
  by_cases h : startk = 0
  · simp [h]
  · refine (pow_dvd_pow 2 (min_le_right _ _)).trans ?_
    rw [if_pos h]
    exact two_pow_ctz_dvd startk

theorem two_pow_blockAlign_le (startk : BitVec 64) (h : sizek ≠ 0) :
    2 ^ blockAlign startk sizek ≤ sizek.toNat := by
  have hpos : sizek.toNat ≠ 0 := by simpa [BitVec.toNat_eq] using h
  exact (Nat.pow_le_pow_right (by omega) (Nat.min_le_left _ _)).trans (Nat.log2_self_le hpos)

theorem two_le_blockAlign (hstart : 4 ∣ startk.toNat) (hsize : 4 ∣ sizek.toNat)
    (h : sizek ≠ 0) : 2 ≤ blockAlign startk sizek := by
  have hpos : sizek.toNat ≠ 0 := by simpa [BitVec.toNat_eq] using h
  refine Nat.le_min.mpr ⟨(Nat.le_log2 hpos).mpr (Nat.le_of_dvd (by omega) hsize), ?_⟩
  split
  next h0 =>
    by_contra hlt
    have hbit := BitVec.getLsbD_true_ctz_of_ne_zero h0
    obtain ⟨m, hm⟩ := hstart
    rw [BitVec.getLsbD, hm, show 4 * m = 2 ^ 2 * m from rfl, testBit_two_pow_mul] at hbit
    simp at hbit
    omega
  next => omega

theorem toNat_block (startk : BitVec 64) (h : sizek ≠ 0) :
    (1#64 <<< blockAlign startk sizek).toNat = 2 ^ blockAlign startk sizek := by
  have := two_pow_blockAlign_le startk h
  rw [BitVec.toNat_shiftLeft, shiftLeft_eq, BitVec.toNat_ofNat, mod_eq_of_lt] <;> omega

end

theorem rangeToMtrrLoop_zero (type : BitVec 8) (free : Nat) (startk : BitVec 64) :
    rangeToMtrrLoop type free startk 0#64 = [] := by
  cases free <;> rfl

/-- The registers are aligned and cover the range from `a` to `b`. -/
def Covers (rs : List VarMtrrRangeState) (a b : Nat) : Prop :=
  TilesRange rs a b ∧ ∀ r ∈ rs, r.Aligned

theorem rangeToMtrrLoop_covers (type : BitVec 8) (startk sizek : BitVec 64)
    (hstart : 4 ∣ startk.toNat) (hsize : 4 ∣ sizek.toNat)
    (hend : startk.toNat + sizek.toNat ≤ 2 ^ 64) :
    ∃ needed, ∀ free, needed ≤ free → (rangeToMtrrLoop type free startk sizek).length = needed ∧
      Covers (rangeToMtrrLoop type free startk sizek) startk.toNat
        (startk.toNat + sizek.toNat) := by
  -- on the size that is left
  induction hn : sizek.toNat using Nat.strongRecOn generalizing startk sizek with
  | _ n ih =>
  subst hn
  by_cases h : sizek = 0
  · exact ⟨0, by simp [h, rangeToMtrrLoop_zero, Covers, TilesRange]⟩
  have hle := two_pow_blockAlign_le startk h
  have hdvd := two_pow_blockAlign_dvd startk sizek
  have h4 : 4 ∣ 2 ^ blockAlign startk sizek := pow_dvd_pow 2 (two_le_blockAlign hstart hsize h)
  have hpos := Nat.two_pow_pos (blockAlign startk sizek)
  have hblock := toNat_block startk h
  generalize hb : 1#64 <<< blockAlign startk sizek = block at *
  have hrest := BitVec.toNat_sub_of_le (x := sizek) (y := block) (by rwa [BitVec.le_def, hblock])
  have hnext : ∃ needed, ∀ free, needed ≤ free →
      (rangeToMtrrLoop type free (startk + block) (sizek - block)).length = needed ∧
      Covers (rangeToMtrrLoop type free (startk + block) (sizek - block))
        (startk.toNat + block.toNat) (startk.toNat + sizek.toNat) := by
    by_cases hlast : sizek = block
    · -- the next start may be past the last address
      exact ⟨0, by simp [hlast, rangeToMtrrLoop_zero, Covers, TilesRange]⟩
    have hadd : (startk + block).toNat = startk.toNat + block.toNat := by bv_omega
    have := ih _ (by omega) (startk + block) (sizek - block) (by omega) (by omega) (by omega) rfl
    rwa [hadd, show startk.toNat + block.toNat + (sizek - block).toNat =
      startk.toNat + sizek.toNat by omega] at this
  have hbase : (saveVarMtrr startk block type).basek = startk.toNat := by
    simp only [saveVarMtrr, VarMtrrRangeState.basek, BitVec.toNat_ushiftRight,
      Nat.shiftRight_eq_div_pow]
    omega
  have hsizek : (saveVarMtrr startk block type).sizek = block.toNat := by
    simp only [saveVarMtrr, VarMtrrRangeState.sizek, BitVec.toNat_ushiftRight,
      Nat.shiftRight_eq_div_pow]
    omega
  obtain ⟨needed, hneeded⟩ := hnext
  refine ⟨needed + 1, fun free hfree => ?_⟩
  obtain ⟨free, rfl⟩ := Nat.exists_eq_add_of_le' (Nat.one_le_of_lt hfree)
  obtain ⟨hlen, htiles, haligned⟩ := hneeded free (by omega)
  rw [rangeToMtrrLoop, if_neg h, hb]
  refine ⟨by rw [List.length_cons, hlen], ⟨hbase, by rwa [hsizek]⟩,
    List.forall_mem_cons.mpr ⟨⟨⟨_, hsizek.trans hblock⟩, ?_⟩, haligned⟩⟩
  rwa [hsizek, hbase, hblock]

/-- A range of whole pages that ends within the address space is cut into aligned
registers that lie one behind the other, given enough of them. -/
theorem rangeToMtrr_tiles (startk sizek : BitVec 64) (type : BitVec 8)
    (hstart : 4 ∣ startk.toNat) (hsize : 4 ∣ sizek.toNat)
    (hend : startk.toNat + sizek.toNat ≤ 2 ^ 64) :
    ∃ needed, ∀ reg numVarRanges, reg + needed ≤ numVarRanges →
      let r := rangeToMtrr numVarRanges reg startk sizek type
      r.1 = reg + needed ∧ Covers r.2 startk.toNat (startk.toNat + sizek.toNat) := by
  obtain ⟨needed, h⟩ := rangeToMtrrLoop_covers type startk sizek hstart hsize hend
  refine ⟨needed, fun reg numVarRanges hle => ?_⟩
  obtain ⟨hlen, hcovers⟩ := h (numVarRanges - reg) (by omega)
  exact ⟨by rw [rangeToMtrr, hlen], hcovers⟩

theorem rangeToMtrr_three_pages : ∃ needed, ∀ reg numVarRanges, reg + needed ≤ numVarRanges →
    let r := rangeToMtrr numVarRanges reg 4 12 6
    r.1 = reg + needed ∧ Covers r.2 4 16 :=
  rangeToMtrr_tiles 4 12 6 (by decide) (by decide) (by decide)

/-- Half a page is saved as an empty register. -/
theorem rangeToMtrr_half_page : ¬ Covers (rangeToMtrr 8 0 0 2 6).2 0 2 := by
  have hsaved : (rangeToMtrr 8 0 0 2 6).2 = [⟨0, 0, 6⟩] := by decide
  rw [hsaved]
  simp [Covers, TilesRange, VarMtrrRangeState.sizek]

end LinuxKernel.X86
