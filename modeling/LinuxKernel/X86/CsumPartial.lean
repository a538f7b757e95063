import LinuxKernel.Foundation.CString

/-!
# The Internet checksum

`csum_partial` of `arch/x86/lib/csum-partial_64.c`. It adds 64-bit words in chains of `adcq`, with
the last carry added at the end, and folds the sum to 32 bits. As `2 ^ 16` is 1 modulo 65535, the
64-bit words count as the 16-bit words they consist of; no chain loses a carry because a register
with the carry set is never all ones.
-/

namespace LinuxKernel.X86.Csum

open Foundation List Nat
open BitVec hiding and_assoc cons_append toNat

abbrev U64 := BitVec 64

/-! ## The code -/

def leNat : List Byte → Nat
  | [] => 0
  | b :: bs => b.toNat + 256 * leNat bs

/-- The 64-bit word at the start of the memory; where nothing is mapped, `load_unaligned_zeropad`
reads zeros. -/
def quad (mem : List Byte) : U64 := BitVec.ofNat 64 (leNat (mem.take 8))

def quads : Nat → List Byte → List U64
  | 0, _ => []
  | n + 1, mem => quad mem :: quads n (mem.drop 8)

def adcq (s : U64 × Bool) (src : U64) : U64 × Bool :=
  (s.1 + src + BitVec.ofNat 64 s.2.toNat, 2 ^ 64 ≤ s.1.toNat + src.toNat + s.2.toNat)

/-- `addq`, which ignores the carry, `adcq` for the other operands, and `adcq $0`. -/
def addChain (res : U64) (ops : List U64) : U64 := (adcq (ops.foldl adcq (res, false)) 0).1

def csumFinalizeSum (temp64 : U64) : BitVec 32 :=
  ((temp64 + temp64.rotateRight 32) >>> 32).setWidth 32

def updateCsum40b (sum : U64) (m : List Byte) : U64 := addChain sum (quads 5 m)

def csumLoop (temp64 temp64₂ : U64) (buff : List Byte) : U64 × U64 × List Byte :=
  if 80 ≤ buff.length then
    csumLoop (updateCsum40b temp64 buff) (updateCsum40b temp64₂ (buff.drop 40)) (buff.drop 80)
  else (temp64, temp64₂, buff)
termination_by buff.length

def csumStep (len n : Nat) (s : U64 × List Byte) : U64 × List Byte :=
  if len &&& 8 * n ≠ 0 then (addChain s.1 (quads n s.2), s.2.drop (8 * n)) else s

def csumShift (len : Nat) : Nat := ((-BitVec.ofNat 32 len) <<< 3 &&& 63#32).toNat

/-- The bytes behind the last whole word; `behind` is what follows the buffer. -/
def csumTrail (len : Nat) (behind : List Byte) (s : U64 × List Byte) : U64 :=
  if len &&& 7 ≠ 0 then
    addChain s.1 [(quad (s.2 ++ behind) <<< csumShift len) >>> csumShift len]
  else s.1

/-- What is left when there are less than 80 bytes. -/
def csumRest (temp64 : U64) (buff behind : List Byte) : BitVec 32 :=
  let tail temp64 buff :=
    let len := buff.length
    csumFinalizeSum (csumTrail len behind
      (csumStep len 1 (csumStep len 2 (csumStep len 4 (temp64, buff)))))
  if 40 ≤ buff.length then
    let temp64 := updateCsum40b temp64 buff
    if buff.length - 40 = 0 then csumFinalizeSum temp64 else tail temp64 (buff.drop 40)
  else tail temp64 buff

def csumPartial (buff behind : List Byte) (sum : BitVec 32) : BitVec 32 :=
  let temp64 : U64 := sum.setWidth 64
  if 80 ≤ buff.length then
    let (temp64, temp64₂, buff) := csumLoop temp64 0 buff
    csumRest (addChain temp64 [temp64₂]) buff behind
  else csumRest temp64 buff behind

/-! ## Sums of words -/

def wordSum : List Byte → Nat
  | [] => 0
  | [b] => b.toNat
  | b₀ :: b₁ :: bs => b₀.toNat + 256 * b₁.toNat + wordSum bs

variable (bs : List Byte)

theorem wordSum_append {as : List Byte} (heven : as.length % 2 = 0) :
    wordSum (as ++ bs) = wordSum as + wordSum bs := by
  induction as using wordSum.induct with
  | case1 => simp [wordSum]
  | case2 b => simp at heven
  | case3 b₀ b₁ as ih =>
    have hrest : as.length % 2 = 0 := by
      simp only [length_cons] at heven
      omega
    simp only [cons_append, wordSum, ih hrest, add_assoc]

theorem wordSum_eq_zero : wordSum bs = 0 ↔ ∀ b ∈ bs, b = 0 := by
  have hbyte : ∀ b : Byte, b.toNat = 0 ↔ b = 0 := fun b => by
    rw [← toNat_inj]
    rfl
  induction bs using wordSum.induct with
  | case1 => simp [wordSum]
  | case2 b => simp [wordSum, hbyte]
  | case3 b₀ b₁ bs ih =>
    simp only [wordSum, Nat.add_eq_zero_iff, Nat.mul_eq_zero, ih, forall_mem_cons, hbyte, and_assoc]
    simp

theorem leNat_modEq : leNat bs ≡ wordSum bs [MOD 65535] := by
  induction bs using wordSum.induct with
  | case1 => rfl
  | case2 b => rfl
  | case3 b₀ b₁ bs ih =>
    simp only [leNat, wordSum]
    unfold ModEq at ih ⊢
    omega

theorem leNat_eq_zero : leNat bs = 0 ↔ wordSum bs = 0 := by
  induction bs using wordSum.induct with
  | case1 => rfl
  | case2 b => simp [leNat, wordSum]
  | case3 b₀ b₁ bs ih => simp [leNat, wordSum, ih, and_assoc]

theorem leNat_lt : leNat bs < 256 ^ bs.length := by
  induction bs with
  | nil => simp [leNat]
  | cons b bs ih =>
    rw [leNat, length_cons]
    omega

theorem toNat_quad (mem : List Byte) : (quad mem).toNat = leNat (mem.take 8) := by
  have hlt := leNat_lt (mem.take 8)
  have hpow : 256 ^ (mem.take 8).length ≤ 256 ^ 8 :=
    Nat.pow_le_pow_right (by decide) (length_take_le 8 mem)
  exact mod_eq_of_lt (by omega)

/-! ## Chains of additions -/

/-- `n` counts as much as `v` in the checksum. -/
structure Weighs (v n : Nat) : Prop where
  modEq : n ≡ v [MOD 65535]
  zero : n = 0 ↔ v = 0

variable {u v n : Nat}

theorem Weighs.trans (h : Weighs v n) (h' : Weighs u v) : Weighs u n :=
  ⟨h.modEq.trans h'.modEq, h.zero.trans h'.zero⟩

theorem Weighs.add {m : Nat} (h : Weighs u m) (h' : Weighs v n) : Weighs (u + v) (m + n) :=
  ⟨h.modEq.add h'.modEq, by simp [h.zero, h'.zero]⟩

theorem weighs_refl (v : Nat) : Weighs v v := ⟨rfl, Iff.rfl⟩

/-- The register and the carry weigh `v`, and adding the carry does not overflow. -/
structure Chain (v : Nat) (s : U64 × Bool) : Prop where
  weighs : Weighs v (s.1.toNat + s.2.toNat)
  carry : s.1.toNat + s.2.toNat < 2 ^ 64

variable {s : U64 × Bool}

theorem Chain.adcq (h : Chain v s) (src : U64) : Chain (v + src.toNat) (adcq s src) := by
  obtain ⟨⟨hmod, hzero⟩, hcarry⟩ := h
  have hreg : (Csum.adcq s src).1.toNat = (s.1.toNat + src.toNat + s.2.toNat) % 2 ^ 64 := by
    have hc : s.2.toNat < 2 ^ 64 := by omega
    simp only [Csum.adcq, toNat_add, toNat_ofNat, mod_eq_of_lt hc, mod_add_mod]
  have hflag : (Csum.adcq s src).2.toNat = (s.1.toNat + src.toNat + s.2.toNat) / 2 ^ 64 := by
    by_cases hc : 2 ^ 64 ≤ s.1.toNat + src.toNat + s.2.toNat
    · simp only [Csum.adcq, hc, decide_true, Bool.toNat_true]
      omega
    · simp only [Csum.adcq, hc, decide_false, Bool.toNat_false]
      omega
  unfold ModEq at hmod
  refine ⟨⟨?_, ?_⟩, ?_⟩ <;> rw [hreg]
  · unfold ModEq
    omega
  · omega
  · omega

theorem Chain.foldl (h : Chain v s) (ops : List U64) :
    Chain (v + (ops.map BitVec.toNat).sum) (ops.foldl Csum.adcq s) := by
  induction ops generalizing v s with
  | nil => exact h
  | cons op ops ih =>
    rw [map_cons, sum_cons, ← add_assoc]
    exact ih (h.adcq op)

theorem weighs_addChain (res : U64) (ops : List U64) :
    Weighs (res.toNat + (ops.map BitVec.toNat).sum) (addChain res ops).toNat := by
  have hchain : Chain res.toNat (res, false) := ⟨weighs_refl _, by simpa using res.isLt⟩
  obtain ⟨hweighs, hcarry⟩ := hchain.foldl ops
  have hlast : (addChain res ops).toNat =
      (ops.foldl adcq (res, false)).1.toNat + (ops.foldl adcq (res, false)).2.toNat := by
    have hc := lt_of_le_of_lt (le_add_left _ _) hcarry
    have hzero : (0 : U64).toNat = 0 := rfl
    simp only [addChain, adcq, toNat_add, toNat_ofNat, mod_eq_of_lt hc, hzero,
      add_zero, mod_eq_of_lt hcarry]
  rw [hlast]
  exact hweighs

/-- The upper half of the sum of a number and its rotation is the sum of the halves, with the carry
added. -/
theorem fold_halves {hi lo : Nat} (hhi : hi < 2 ^ 32) (hlo : lo < 2 ^ 32) :
    (2 ^ 32 * hi + lo + (2 ^ 32 * lo + hi)) % 2 ^ 64 / 2 ^ 32 =
      if hi + lo < 2 ^ 32 then hi + lo else hi + lo - 2 ^ 32 + 1 := by
  split
  · have hlt : 2 ^ 32 * hi + lo + (2 ^ 32 * lo + hi) < 2 ^ 64 := by omega
    rw [mod_eq_of_lt hlt]
    omega
  have hwrap : 2 ^ 32 * hi + lo + (2 ^ 32 * lo + hi) =
      2 ^ 32 * (hi + lo - 2 ^ 32 + 1) + (hi + lo - 2 ^ 32) + 2 ^ 64 := by omega
  have hlt : 2 ^ 32 * (hi + lo - 2 ^ 32 + 1) + (hi + lo - 2 ^ 32) < 2 ^ 64 := by omega
  rw [hwrap, add_mod_right, mod_eq_of_lt hlt]
  omega

theorem weighs_csumFinalizeSum (t : U64) : Weighs t.toNat (csumFinalizeSum t).toNat := by
  have hhi : t.toNat / 2 ^ 32 < 2 ^ 32 := by omega
  have hlo : t.toNat % 2 ^ 32 < 2 ^ 32 := by omega
  have hsplit : t.toNat = 2 ^ 32 * (t.toNat / 2 ^ 32) + t.toNat % 2 ^ 32 := by omega
  have hrot : (t.rotateRight 32).toNat = 2 ^ 32 * (t.toNat % 2 ^ 32) + t.toNat / 2 ^ 32 := by
    have hshift : t.toNat * 2 ^ 32 % 2 ^ 64 = 2 ^ 32 * (t.toNat % 2 ^ 32) := by omega
    rw [toNat_rotateRight, Nat.shiftRight_eq_div_pow, Nat.shiftLeft_eq, Nat.or_comm]
    exact (congrArg (· ||| t.toNat / 2 ^ 32) hshift).trans (two_pow_add_eq_or_of_lt hhi _).symm
  have hsum : (csumFinalizeSum t).toNat =
      if t.toNat / 2 ^ 32 + t.toNat % 2 ^ 32 < 2 ^ 32 then t.toNat / 2 ^ 32 + t.toNat % 2 ^ 32
      else t.toNat / 2 ^ 32 + t.toNat % 2 ^ 32 - 2 ^ 32 + 1 := by
    rw [← fold_halves hhi hlo, ← hsplit, ← hrot, csumFinalizeSum, toNat_setWidth,
      toNat_ushiftRight, shiftRight_eq_div_pow]
    exact mod_eq_of_lt (by omega)
  rw [hsum]
  refine ⟨?_, ?_⟩
  · unfold ModEq
    split <;> omega
  · split <;> omega

/-! ## The parts of the buffer -/

theorem weighs_leNat : Weighs (wordSum bs) (leNat bs) :=
  ⟨leNat_modEq bs, leNat_eq_zero bs⟩

theorem weighs_quads {mem : List Byte} (hlen : 8 * n ≤ mem.length) :
    Weighs (wordSum (mem.take (8 * n))) ((quads n mem).map BitVec.toNat).sum := by
  induction n generalizing mem with
  | zero => simpa [quads, wordSum] using weighs_refl 0
  | succ n ih =>
    have hsplit : mem.take (8 * (n + 1)) = mem.take 8 ++ (mem.drop 8).take (8 * n) := by
      rw [← take_add]
      congr 1
      omega
    have height : (mem.take 8).length % 2 = 0 := by rw [length_take_of_le (by omega)]
    rw [hsplit, wordSum_append _ height, quads, map_cons, toNat_quad]
    exact (weighs_leNat _).add (ih (by rw [length_drop]; omega))

/-- The bytes in front of what is left have been added to `s`, in whole 64-bit words. -/
def Summed (s : Nat) (buff : List Byte) (total : Nat) (rest : List Byte) : Prop :=
  ∃ done, buff = done ++ rest ∧ done.length % 8 = 0 ∧ Weighs (s + wordSum done) total

section
variable {s total : Nat} {buff rest : List Byte} {n : Nat}

theorem Summed.step (h : Summed s buff total rest) {total' : Nat} (hlen : 8 * n ≤ rest.length)
    (htotal : Weighs (total + ((quads n rest).map BitVec.toNat).sum) total') :
    Summed s buff total' (rest.drop (8 * n)) := by
  obtain ⟨done, rfl, hdone, hweighs⟩ := h
  refine ⟨done ++ rest.take (8 * n), by simp, ?_, ?_⟩
  · rw [length_append, length_take_of_le hlen]
    omega
  · rw [wordSum_append _ (by omega), ← add_assoc]
    exact htotal.trans (hweighs.add (weighs_quads hlen))

variable {t : U64}

theorem Summed.addQuads (h : Summed s buff t.toNat rest) (hlen : 8 * n ≤ rest.length) :
    Summed s buff (addChain t (quads n rest)).toNat (rest.drop (8 * n)) :=
  h.step hlen (weighs_addChain t _)

theorem csumLoop_spec {t₁ t₂ : U64} (h : Summed s buff (t₁.toNat + t₂.toNat) rest) :
    Summed s buff ((csumLoop t₁ t₂ rest).1.toNat + (csumLoop t₁ t₂ rest).2.1.toNat)
      (csumLoop t₁ t₂ rest).2.2 ∧ (csumLoop t₁ t₂ rest).2.2.length < 80 := by
  induction t₁, t₂, rest using csumLoop.induct with
  | case1 t₁ t₂ rest hlen ih =>
    rw [csumLoop, if_pos hlen]
    apply ih
    have hfirst := h.step (n := 5) (by omega)
      ((weighs_addChain t₁ (quads 5 rest)).add (weighs_refl t₂.toNat) |>.trans
        (by rw [add_right_comm]; exact weighs_refl _))
    have hsecond := hfirst.step (n := 5) (by rw [length_drop]; omega)
      ((weighs_refl (updateCsum40b t₁ rest).toNat).add (weighs_addChain t₂ (quads 5 (rest.drop 40)))
        |>.trans (by rw [add_assoc]; exact weighs_refl _))
    rwa [drop_drop] at hsecond
  | case2 t₁ t₂ rest hlen =>
    rw [csumLoop, if_neg hlen]
    exact ⟨h, Nat.lt_of_not_le hlen⟩

theorem and_two_pow_ne_zero (len k : Nat) : len &&& 2 ^ k ≠ 0 ↔ 2 ^ k ≤ len % 2 ^ (k + 1) := by
  have hpos : 0 < 2 ^ k := Nat.two_pow_pos k
  have hmod : len % 2 ^ (k + 1) = len % 2 ^ k + 2 ^ k * (len / 2 ^ k % 2) := by
    rw [pow_succ, mod_mul]
  have hlt := mod_lt len hpos
  rw [and_two_pow, testBit_eq_decide_div_mod_eq, hmod]
  rcases mod_two_eq_zero_or_one (len / 2 ^ k) with h | h
  · simpa [h] using hlt
  · simp [h]

variable {len : Nat} {k : Nat} {x : U64 × List Byte}

/-- One of the steps for 32, 16 and 8 bytes, when only the bits up to its own are left. -/
theorem csumStep_spec (hn : 8 * n = 2 ^ k)
    (h : Summed s buff x.1.toNat x.2) (hlen : x.2.length = len % 2 ^ (k + 1)) :
    Summed s buff (csumStep len n x).1.toNat (csumStep len n x).2 ∧
      (csumStep len n x).2.length = len % 2 ^ k := by
  have hmod : len % 2 ^ (k + 1) % 2 ^ k = len % 2 ^ k :=
    mod_mod_of_dvd len (pow_dvd_pow 2 (le_succ k))
  unfold csumStep
  rw [hn]
  split
  next hbit =>
    rw [and_two_pow_ne_zero] at hbit
    have hsub : len % 2 ^ (k + 1) % 2 ^ k = len % 2 ^ (k + 1) - 2 ^ k := by
      rw [mod_eq_sub_mod hbit, mod_eq_of_lt (by omega)]
    rw [← hn]
    refine ⟨h.addQuads (by omega), ?_⟩
    rw [length_drop, hlen, hn, ← hsub, hmod]
  next hbit =>
    rw [and_two_pow_ne_zero, not_le] at hbit
    exact ⟨h, by rw [hlen, ← hmod, mod_eq_of_lt hbit]⟩

theorem leNat_mod : leNat bs % 256 ^ k = leNat (bs.take k) := by
  induction k generalizing bs with
  | zero => simp [leNat, mod_one]
  | succ k ih =>
    cases bs with
    | nil => simp [leNat]
    | cons b bs =>
      rw [take_succ_cons, leNat, leNat, ← ih, pow_succ, mul_comm (256 ^ k), mod_mul]
      have hlow : (b.toNat + 256 * leNat bs) % 256 = b.toNat := by omega
      have hhigh : (b.toNat + 256 * leNat bs) / 256 = leNat bs := by omega
      rw [hlow, hhigh]

theorem csumShift_eq (hlen : len % 8 ≠ 0) : csumShift len = 64 - 8 * (len % 8) := by
  have hmask : ∀ x : BitVec 32, (x &&& 63#32).toNat = x.toNat % 2 ^ 6 := fun x => by
    exact and_two_pow_sub_one_eq_mod _ 6
  rw [csumShift, hmask, toNat_shiftLeft, toNat_neg, toNat_ofNat]
  omega

variable {behind : List Byte}

theorem toNat_trail (hrest : rest.length = len % 8) (hlen : len % 8 ≠ 0) :
    ((quad (rest ++ behind) <<< csumShift len) >>> csumShift len).toNat = leNat rest := by
  have hshift : ∀ k ≤ 64, ∀ x : U64, ((x <<< (64 - k)) >>> (64 - k)).toNat = x.toNat % 2 ^ k := by
    intro k hk x
    have hpow : 2 ^ 64 = 2 ^ (64 - k) * 2 ^ k := by
      rw [← Nat.pow_add]
      congr 1
      omega
    rw [toNat_ushiftRight, toNat_shiftLeft, Nat.shiftLeft_eq,
      Nat.shiftRight_eq_div_pow, Nat.mul_comm, hpow, Nat.mul_mod_mul_left,
      Nat.mul_div_cancel_left _ (Nat.two_pow_pos _)]
  have hbytes : (2 : Nat) ^ (8 * (len % 8)) = 256 ^ (len % 8) := by rw [Nat.pow_mul]
  rw [csumShift_eq hlen, hshift _ (by omega), toNat_quad, hbytes, leNat_mod, take_take,
    Nat.min_eq_left (by omega), ← hrest, take_left']
  rfl

theorem csumTrail_spec (h : Summed s buff x.1.toNat x.2) (hlen : x.2.length = len % 8) :
    Weighs (s + wordSum buff) (csumTrail len behind x).toNat := by
  obtain ⟨done, rfl, hdone, hweighs⟩ := h
  have hmask : len &&& 7 = len % 8 := and_two_pow_sub_one_eq_mod len 3
  unfold csumTrail
  rw [wordSum_append _ (by omega), ← add_assoc, hmask]
  split
  next hne =>
    apply (weighs_addChain _ _).trans
    rw [map_singleton, toNat_trail hlen hne]
    exact hweighs.add (weighs_leNat x.2)
  next heq =>
    have hnil : x.2 = [] := length_eq_zero_iff.1 (by omega)
    rw [hnil]
    exact hweighs

theorem csumRest_spec (h : Summed s buff t.toNat rest)
    (hlen : rest.length < 80) : Weighs (s + wordSum buff) (csumRest t rest behind).toNat := by
  have htail : ∀ (t : U64) (rest : List Byte), Summed s buff t.toNat rest → rest.length < 64 →
      Weighs (s + wordSum buff) (csumFinalizeSum (csumTrail rest.length behind
        (csumStep rest.length 1 (csumStep rest.length 2
        (csumStep rest.length 4 (t, rest)))))).toNat := by
    intro t rest h hlt
    obtain ⟨h₃₂, hlen₃₂⟩ := csumStep_spec (x := (t, rest)) (n := 4) (k := 5) rfl h
      (mod_eq_of_lt hlt).symm
    obtain ⟨h₁₆, hlen₁₆⟩ := csumStep_spec rfl h₃₂ hlen₃₂
    obtain ⟨h₈, hlen₈⟩ := csumStep_spec (n := 1) rfl h₁₆ hlen₁₆
    exact (weighs_csumFinalizeSum _).trans (csumTrail_spec h₈ hlen₈)
  unfold csumRest
  split
  next h40 =>
    have h' : Summed s buff (updateCsum40b t rest).toNat (rest.drop 40) := h.addQuads (by omega)
    split
    next hzero =>
      have hnil : rest.drop 40 = [] := drop_eq_nil_of_le (by omega)
      rw [hnil] at h'
      obtain ⟨done, hbuff, -, hweighs⟩ := h'
      rw [append_nil] at hbuff
      rw [hbuff]
      exact (weighs_csumFinalizeSum _).trans hweighs
    next => exact htail _ _ h' (by rw [length_drop]; omega)
  next h40 => exact htail _ _ h (by omega)

end

/-- `csum_partial` is the Internet checksum of the buffer, whatever lies behind it. -/
theorem csumPartial_spec (buff behind : List Byte) (sum : BitVec 32) :
    (csumPartial buff behind sum).toNat ≡ sum.toNat + wordSum buff [MOD 65535] ∧
      (csumPartial buff behind sum = 0 ↔ sum = 0 ∧ ∀ b ∈ buff, b = 0) := by
  have hstart : Summed sum.toNat buff (sum.setWidth 64 : U64).toNat buff := by
    refine ⟨[], rfl, rfl, ?_⟩
    exact weighs_refl _
  have hresult : Weighs (sum.toNat + wordSum buff) (csumPartial buff behind sum).toNat := by
    unfold csumPartial
    split
    next =>
      have hboth : Summed sum.toNat buff ((sum.setWidth 64 : U64).toNat + (0 : U64).toNat)
          buff := by
        exact hstart
      obtain ⟨⟨done, hbuff, hdone, hweighs⟩, hlen⟩ := csumLoop_spec hboth
      refine csumRest_spec ⟨done, hbuff, hdone, (weighs_addChain _ _).trans ?_⟩ hlen
      exact hweighs
    next hlen => exact csumRest_spec hstart (by omega)
  refine ⟨hresult.modEq, ?_⟩
  have hnat : ∀ x : BitVec 32, x = 0 ↔ x.toNat = 0 := fun x => by
    rw [← BitVec.toNat_inj]
    rfl
  rw [hnat, hresult.zero, Nat.add_eq_zero_iff, hnat sum, wordSum_eq_zero]

end LinuxKernel.X86.Csum
