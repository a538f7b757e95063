import Mathlib

/-!
# Memory bandwidth counters of resctrl

The reads of `arch/x86/kernel/cpu/resctrl/monitor.c` add up what a narrow counter has counted. The
sum is exact over any number of wrap-arounds, but its product with a correction factor has 64 bits.
-/

namespace LinuxKernel.X86.Resctrl

open List Nat

/-! ## The code -/

def EIO : Int := 5

def EINVAL : Int := 22

def RMID_VAL_ERROR : BitVec 64 := 1 <<< 63

def RMID_VAL_UNAVAIL : BitVec 64 := 1 <<< 62

structure ArchMbmState where
  chunks : BitVec 64
  prevMsr : BitVec 64

/-- `mbm_width` and `mon_scale` of the resource, and the correction for RMIDs above a threshold. -/
structure MbmConfig where
  mbmWidth : Nat
  monScale : BitVec 32
  mbmCfRmidthreshold : BitVec 32
  mbmCf : BitVec 64
  width_pos : 0 < mbmWidth
  width_le : mbmWidth ≤ 64

/-- `__rmid_read`, given the value of `MSR_IA32_QM_CTR` -/
def rmidRead (msrVal : BitVec 64) : Except Int (BitVec 64) :=
  if msrVal &&& RMID_VAL_ERROR ≠ 0 then .error (- EIO)
  else if msrVal &&& RMID_VAL_UNAVAIL ≠ 0 then .error (-EINVAL)
  else .ok msrVal

/-- `resctrl_arch_reset_rmid`; a read that fails leaves the zeroed `prev_msr`. -/
def resctrlArchResetRmid (msrVal : BitVec 64) : ArchMbmState :=
  match rmidRead msrVal with
  | .ok val => ⟨0, val⟩
  | .error _ => ⟨0, 0⟩

def mbmOverflowCount (prevMsr curMsr : BitVec 64) (width : Nat) : BitVec 64 :=
  let shift := 64 - width
  let chunks := (curMsr <<< shift) - (prevMsr <<< shift)
  chunks >>> shift

namespace MbmConfig

variable (c : MbmConfig) (rmid : BitVec 32)

def getCorrectedMbmCount (val : BitVec 64) : BitVec 64 :=
  if rmid > c.mbmCfRmidthreshold then (val * c.mbmCf) >>> 20 else val

/-- `thisCpu` says whether the CPU is one of the domain; there is no state for LLC occupancy. -/
def resctrlArchRmidRead (thisCpu : Bool) (msrVal : BitVec 64) (am : Option ArchMbmState) :
    Except Int (BitVec 64 × Option ArchMbmState) :=
  if !thisCpu then .error (-EINVAL)
  else
    match rmidRead msrVal with
    | .error ret => .error ret
    | .ok msrVal =>
      match am with
      | some am =>
        let total := am.chunks + mbmOverflowCount am.prevMsr msrVal c.mbmWidth
        let chunks := c.getCorrectedMbmCount rmid total
        .ok (chunks * c.monScale.setWidth 64, some ⟨total, msrVal⟩)
      | none => .ok (msrVal * c.monScale.setWidth 64, none)

/-- What successive reads return. -/
def reads (am : Option ArchMbmState) : List (BitVec 64) → List (Except Int (BitVec 64))
  | [] => []
  | msrVal :: msrVals =>
    match c.resctrlArchRmidRead rmid true msrVal am with
    | .error ret => .error ret :: reads am msrVals
    | .ok (val, am) => .ok val :: reads am msrVals

/-! ## What is counted -/

/-- A value of the MSR that is no error, and the number of chunks that were counted by then; the
counter has the low bits of that number. -/
structure Sample where
  count : Nat
  msrVal : BitVec 64
  valid : rmidRead msrVal = .ok msrVal
  counter : msrVal.toNat % 2 ^ c.mbmWidth = count % 2 ^ c.mbmWidth

/-- The counter advances by less than its range. -/
def Advances (s s' : c.Sample) : Prop := s.count ≤ s'.count ∧ s'.count < s.count + 2 ^ c.mbmWidth

/-- The bytes of a number of chunks. -/
def bytes (chunks : Nat) : Nat :=
  (if rmid > c.mbmCfRmidthreshold then chunks * c.mbmCf.toNat / 2 ^ 20 else chunks) *
    c.monScale.toNat

/-- What is reported for them. -/
def value (chunks : Nat) : BitVec 64 :=
  c.getCorrectedMbmCount rmid (BitVec.ofNat 64 chunks) * c.monScale.setWidth 64

/-- The product with the correction factor does not need more than 64 bits. -/
def ProductFits (chunks : Nat) : Prop :=
  rmid ≤ c.mbmCfRmidthreshold ∨ c.monScale.toNat = 0 ∨ chunks * c.mbmCf.toNat < 2 ^ 64

variable {c rmid}

theorem shifted_sub {W S p q : Nat} (hS : 0 < S) (hle : p ≤ q) (hlt : q < p + W) :
    (W * S - p % W * S + q % W * S) % (W * S) / S = q - p := by
  obtain ⟨d, rfl⟩ := Nat.exists_eq_add_of_le hle
  have hmod := Nat.mod_lt p (show 0 < W by omega)
  have hdiv := Nat.div_add_mod p W
  have hsum : W - p % W + (p + d) = d + W * (p / W) + W := by omega
  rw [← Nat.sub_mul, ← Nat.add_mul, Nat.mul_mod_mul_right, Nat.mul_div_cancel _ hS, Nat.add_mod_mod,
    hsum, Nat.add_mod_right, Nat.add_mul_mod_self_left, Nat.mod_eq_of_lt (by omega),
    Nat.add_sub_cancel_left]

theorem mbmOverflowCount_eq {s s' : c.Sample} (h : c.Advances s s') :
    mbmOverflowCount s.msrVal s'.msrVal c.mbmWidth = BitVec.ofNat 64 (s'.count - s.count) := by
  have hspan : 2 ^ 64 = 2 ^ c.mbmWidth * 2 ^ (64 - c.mbmWidth) := by
    rw [← Nat.pow_add, Nat.add_sub_cancel' c.width_le]
  have hshift : ∀ x : BitVec 64, (x <<< (64 - c.mbmWidth)).toNat =
      x.toNat % 2 ^ c.mbmWidth * 2 ^ (64 - c.mbmWidth) := by
    intro x
    rw [BitVec.toNat_shiftLeft, shiftLeft_eq, ← mul_mod_mul_right, ← hspan]
  have hpow : 2 ^ c.mbmWidth ≤ 2 ^ 64 := Nat.pow_le_pow_right (by decide) c.width_le
  have hlt := h.2
  apply BitVec.eq_of_toNat_eq
  rw [mbmOverflowCount, BitVec.toNat_ushiftRight, shiftRight_eq_div_pow, BitVec.toNat_sub,
    hshift, hshift, s.counter, s'.counter, hspan, shifted_sub (Nat.two_pow_pos _) h.1 h.2,
    BitVec.toNat_ofNat, mod_eq_of_lt (by omega)]

/-- The state holds what was counted since the reset, however often the counter has wrapped. -/
theorem reads_eq (s0 : c.Sample) {s : c.Sample} {samples : List c.Sample}
    (hle : s0.count ≤ s.count) (h : (s :: samples).IsChain c.Advances) :
    c.reads rmid (some ⟨BitVec.ofNat 64 (s.count - s0.count), s.msrVal⟩) (samples.map (·.msrVal)) =
      samples.map fun s' => .ok (c.value rmid (s'.count - s0.count)) := by
  induction samples generalizing s with
  | nil => rfl
  | cons s' samples ih =>
    obtain ⟨hadv, hrest⟩ := isChain_cons_cons.1 h
    have htotal : BitVec.ofNat 64 (s.count - s0.count) +
        mbmOverflowCount s.msrVal s'.msrVal c.mbmWidth = BitVec.ofNat 64 (s'.count - s0.count) := by
      rw [mbmOverflowCount_eq hadv, ← BitVec.ofNat_add, add_comm, Nat.sub_add_sub_cancel hadv.1 hle]
    rw [map_cons, map_cons, reads]
    simp only [resctrlArchRmidRead, s'.valid, htotal, Bool.not_true, Bool.false_eq_true, if_false]
    rw [ih (hle.trans hadv.1) hrest]
    rfl

theorem toNat_value (chunks : Nat) :
    (c.value rmid chunks).toNat ≤ c.bytes rmid chunks ∧ (c.bytes rmid chunks < 2 ^ 64 →
      ((c.value rmid chunks).toNat = c.bytes rmid chunks ↔ c.ProductFits rmid chunks)) := by
  unfold value bytes ProductFits getCorrectedMbmCount
  rw [BitVec.toNat_mul, BitVec.toNat_setWidth_of_le (by decide)]
  split
  next hrmid =>
    rw [or_iff_right (BitVec.not_le.2 hrmid), BitVec.toNat_ushiftRight,
      shiftRight_eq_div_pow, BitVec.toNat_mul, BitVec.toNat_ofNat, mod_mul_mod]
    generalize chunks * c.mbmCf.toNat = product
    have hle : product % 2 ^ 64 / 2 ^ 20 * c.monScale.toNat ≤ product / 2 ^ 20 * c.monScale.toNat :=
      Nat.mul_le_mul_right _ (Nat.div_le_div_right (Nat.mod_le _ _))
    refine ⟨(mod_le _ _).trans hle, fun hfits => ?_⟩
    rw [mod_eq_of_lt (hle.trans_lt hfits), mul_eq_mul_right_iff, or_comm]
    -- a product of more than 64 bits loses its high part, which the quotient needs
    have hquot : product % 2 ^ 64 / 2 ^ 20 = product / 2 ^ 20 ↔ product < 2 ^ 64 := by omega
    rw [hquot]
  next hrmid =>
    rw [BitVec.toNat_ofNat, mod_mul_mod]
    exact ⟨mod_le _ _, fun hfits => iff_of_true (mod_eq_of_lt hfits) (.inl (BitVec.not_lt.1 hrmid))⟩

theorem bytes_mono {chunks chunks' : Nat} (h : chunks ≤ chunks') :
    c.bytes rmid chunks ≤ c.bytes rmid chunks' := by
  unfold bytes
  split
  · exact Nat.mul_le_mul_right _ (Nat.div_le_div_right (Nat.mul_le_mul_right _ h))
  · exact mul_le_mul_right _ h

/-- Every read returns a value. If the number of bytes fits in 64 bits, the value is that number if
and only if the product fits as well, and it is then not below any value before it. -/
theorem reads_exact_iff (c : MbmConfig) (rmid : BitVec 32) (s0 : c.Sample) (samples : List c.Sample)
    (h : (s0 :: samples).IsChain c.Advances) :
    let vals := c.reads rmid (some (resctrlArchResetRmid s0.msrVal)) (samples.map (·.msrVal))
    ∀ (i : Nat) s, samples[i]? = some s → c.bytes rmid (s.count - s0.count) < 2 ^ 64 →
      ∃ v, vals[i]? = some (.ok v) ∧
        (v.toNat = c.bytes rmid (s.count - s0.count) ↔ c.ProductFits rmid (s.count - s0.count)) ∧
        (c.ProductFits rmid (s.count - s0.count) →
          ∀ j ≤ i, ∃ v', vals[j]? = some (.ok v') ∧ v' ≤ v) := by
  have hreset : resctrlArchResetRmid s0.msrVal =
      ⟨BitVec.ofNat 64 (s0.count - s0.count), s0.msrVal⟩ := by
    rw [resctrlArchResetRmid, s0.valid, Nat.sub_self]
    rfl
  have : IsTrans c.Sample (fun s s' => s.count ≤ s'.count) := ⟨fun _ _ _ => le_trans⟩
  have hsorted := isChain_iff_pairwise.1 (h.tail.imp fun _ _ hadv => hadv.1)
  intro vals i s hs hfits
  simp only [vals, hreset, reads_eq s0 le_rfl h, getElem?_map, hs]
  obtain ⟨hi, rfl⟩ := List.getElem?_eq_some_iff.1 hs
  refine ⟨_, rfl, (toNat_value _).2 hfits, fun hproduct j hj => ?_⟩
  refine ⟨_, by rw [getElem?_eq_getElem (hj.trans_lt hi)]; rfl, ?_⟩
  rw [BitVec.le_def, ((toNat_value _).2 hfits).2 hproduct]
  refine (toNat_value _).1.trans (bytes_mono (Nat.sub_le_sub_right ?_ _))
  rcases hj.lt_or_eq with hlt | rfl
  · exact pairwise_iff_getElem.1 hsorted j i _ hi hlt
  · exact le_rfl

/-- RMIDs above 191 are corrected by 1.280246. -/
def sampleConfig (mbmWidth : Nat) (h : 0 < mbmWidth ∧ mbmWidth ≤ 64) : MbmConfig :=
  ⟨mbmWidth, 65536, 191, 1342435, h.1, h.2⟩

/-- A counter of three bits wraps around before each of two reads. -/
theorem reads_exact_wrapped :
    let c := sampleConfig 3 (by decide)
    let vals := c.reads 192 (some (resctrlArchResetRmid 6)) [3, 1]
    ∃ v v', vals[0]? = some (.ok v) ∧ vals[1]? = some (.ok v') ∧ v'.toNat = c.bytes 192 11 ∧
      v ≤ v' := by
  intro c vals
  let s0 : c.Sample := ⟨6, 6, by decide, by decide⟩
  let s1 : c.Sample := ⟨11, 3, by decide, by decide⟩
  let s2 : c.Sample := ⟨17, 1, by decide, by decide⟩
  have hchain : [s0, s1, s2].IsChain c.Advances :=
    .cons_cons ⟨by decide, by decide⟩ (.cons_cons ⟨by decide, by decide⟩ (.singleton s2))
  obtain ⟨v', hv', hexact, hmono⟩ := reads_exact_iff c 192 s0 [s1, s2] hchain 1 s2 rfl (by decide)
  have hfits : c.ProductFits 192 (s2.count - s0.count) := by
    unfold ProductFits
    decide
  obtain ⟨v, hv, hle⟩ := hmono hfits 0 (by decide)
  exact ⟨v, v', hv, hv', hexact.2 hfits, hle⟩

/-- The product needs 65 bits, the number of bytes 61. -/
theorem reads_product_wraps :
    (sampleConfig 62 (by decide)).reads 192 (some (resctrlArchResetRmid 0)) [1 <<< 44] =
        [.ok (293859 <<< 40)] ∧
      (sampleConfig 62 (by decide)).bytes 192 (2 ^ 44) = 1342435 * 2 ^ 40 := by
  exact ⟨rfl, by decide⟩

end MbmConfig

end LinuxKernel.X86.Resctrl
