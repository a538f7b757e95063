import Mathlib

/-!
# Rounding words to a power of two

`round_up` and `round_down` of `include/linux/math.h`, which work on the bits of a word, as
multiples of a power of two.
-/

namespace LinuxKernel.Foundation

open BitVec Nat

variable {w : Nat}

def roundUp (x y : BitVec w) : BitVec w := ((x - 1) ||| (y - 1)) + 1

def roundDown (x y : BitVec w) : BitVec w := x &&& ~~~(y - 1)

variable {k : Nat}

theorem toNat_two_pow_sub_one (hk : k < w) : (BitVec.ofNat w (2 ^ k) - 1).toNat = 2 ^ k - 1 := by
  have hlt : 2 ^ k < 2 ^ w := Nat.pow_lt_pow_right (by omega) hk
  have hpos := Nat.two_pow_pos k
  have hone : (1 : BitVec w).toNat = 1 := toNat_one (by omega)
  have hpow : (BitVec.ofNat w (2 ^ k)).toNat = 2 ^ k := by rw [toNat_ofNat, mod_eq_of_lt hlt]
  rw [toNat_sub_of_le (by rw [le_def, hone]; omega), hone, hpow]

theorem roundDown_eq_shift (hk : k < w) (x : BitVec w) :
    roundDown x (BitVec.ofNat w (2 ^ k)) = (x >>> k) <<< k := by
  apply eq_of_getLsbD_eq
  intro i hi
  have hmask : (BitVec.ofNat w (2 ^ k) - 1).getLsbD i = decide (i < k) := by
    rw [BitVec.getLsbD, toNat_two_pow_sub_one hk, testBit_two_pow_sub_one]
  rw [roundDown, getLsbD_and, getLsbD_not, hmask, getLsbD_shiftLeft]
  by_cases hik : i < k
  · simp [hik]
  · simp [hik, hi, Nat.add_sub_of_le (Nat.le_of_not_lt hik)]

theorem toNat_roundDown (hk : k < w) (x : BitVec w) :
    (roundDown x (BitVec.ofNat w (2 ^ k))).toNat = x.toNat / 2 ^ k * 2 ^ k := by
  have hle : x.toNat / 2 ^ k * 2 ^ k ≤ x.toNat := div_mul_le_self _ _
  rw [roundDown_eq_shift hk, toNat_shiftLeft, toNat_ushiftRight, Nat.shiftLeft_eq,
    shiftRight_eq_div_pow, mod_eq_of_lt (by omega)]

theorem roundUp_eq (x y : BitVec w) : roundUp x y = roundDown (x - 1) y + y := by
  have hsplit : (x - 1) ||| (y - 1) = roundDown (x - 1) y + (y - 1) := by
    rw [roundDown, add_eq_or_of_and_eq_zero]
    · ext i hi
      simp only [getElem_or, getElem_and, getElem_not]
      cases (x - 1)[i] <;> cases (y - 1)[i] <;> rfl
    · ext i hi
      simp only [getElem_and, getElem_not, getElem_zero]
      cases (x - 1)[i] <;> cases (y - 1)[i] <;> rfl
  rw [roundUp, hsplit, BitVec.add_assoc, BitVec.sub_add_cancel]

@[simp] theorem roundUp_zero (y : BitVec w) : roundUp 0 y = 0 := by
  have hall : (0 : BitVec w) - 1 = allOnes w := by simp [neg_one_eq_allOnes]
  rw [roundUp, hall, allOnes_or, ← hall, sub_add_cancel]

theorem toNat_roundUp (hk : k < w) {x : BitVec w} (hx : x.toNat + 2 ^ k ≤ 2 ^ w) :
    (roundUp x (BitVec.ofNat w (2 ^ k))).toNat = (x.toNat + (2 ^ k - 1)) / 2 ^ k * 2 ^ k := by
  have hlt : 2 ^ k < 2 ^ w := Nat.pow_lt_pow_right (by omega) hk
  have hpos := Nat.two_pow_pos k
  have hone : (1 : BitVec w).toNat = 1 := toNat_one (by omega)
  rcases Nat.eq_zero_or_pos x.toNat with h0 | hxpos
  · obtain rfl : x = 0 := eq_of_toNat_eq (by simpa using h0)
    rw [roundUp_zero, h0, Nat.div_eq_of_lt (by omega), Nat.zero_mul]
  have hsub : (x - 1).toNat = x.toNat - 1 := by rw [toNat_sub_of_le (by rw [le_def]; omega), hone]
  have hnext : (x.toNat + (2 ^ k - 1)) / 2 ^ k = (x.toNat - 1) / 2 ^ k + 1 := by
    rw [← add_div_right _ hpos]
    congr 1
    omega
  have hle : (x.toNat - 1) / 2 ^ k * 2 ^ k ≤ x.toNat - 1 := div_mul_le_self _ _
  rw [roundUp_eq, toNat_add, toNat_roundDown hk, toNat_ofNat, hsub, hnext,
    Nat.add_mul, Nat.one_mul, Nat.mod_eq_of_lt hlt, Nat.mod_eq_of_lt (by omega)]

end LinuxKernel.Foundation
