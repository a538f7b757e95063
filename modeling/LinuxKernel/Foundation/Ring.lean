import LinuxKernel.Foundation.WordBytes

/-!
# Rings of bytes

A ring of `n` bytes is addressed by positions that only grow; position `p` is byte `p % n`. Two
regions do not share a byte if one starts behind the other and both lie within `n` positions.
-/

namespace LinuxKernel.Foundation

open Nat

def ringRegion (n pos len : Nat) : Set Nat := {i | ∃ j < len, (pos + j) % n = i}

def ringStore (n : Nat) (mem : Nat → Byte) (pos : Nat) (bs : List Byte) : Nat → Byte := fun i =>
  if i < n then bs[(i + (n - pos % n)) % n]?.getD (mem i) else mem i

def ringLoad32 (n : Nat) (mem : Nat → Byte) (pos : Nat) : BitVec 32 :=
  bytesWord (mem (pos % n)) (mem ((pos + 1) % n)) (mem ((pos + 2) % n)) (mem ((pos + 3) % n))

section
variable {n pos pos' len len' : Nat} {mem : Nat → Byte} {bs : List Byte}

theorem ringRegion_mod : ringRegion n (pos % n) len = ringRegion n pos len := by
  ext i
  simp only [ringRegion, Set.mem_ofPred_eq, mod_add_mod]

theorem ringRegion_mono (hle : pos ≤ pos') (hend : pos' + len' ≤ pos + len) :
    ringRegion n pos' len' ⊆ ringRegion n pos len := by
  rintro i ⟨j, hj, rfl⟩
  exact ⟨pos' + j - pos, by omega, by congr 1; omega⟩

theorem ringRegion_disjoint (hle : pos + len ≤ pos') (hend : pos' + len' ≤ pos + n) :
    Disjoint (ringRegion n pos len) (ringRegion n pos' len') := by
  rw [Set.disjoint_left]
  rintro i ⟨j, hj, rfl⟩ ⟨j', hj', heq⟩
  have hdvd : n ∣ (pos' + j') - (pos + j) := (modEq_iff_dvd' (by omega)).1 heq.symm
  have hle' := le_of_dvd (by omega) hdvd
  omega

theorem ring_shift (hn : 0 < n) (i : Nat) : (pos + i + (n - pos % n)) % n = i % n := by
  have hlt := mod_lt pos hn
  have hsplit : pos + i + (n - pos % n) = i + n + n * (pos / n) := by
    have := mod_add_div pos n
    omega
  rw [hsplit, add_mul_mod_self_left, add_mod_right]

theorem ring_offset {j : Nat} (hj : j < n) : ((pos + j) % n + (n - pos % n)) % n = j := by
  rw [mod_add_mod, ring_shift (by omega), mod_eq_of_lt hj]

theorem ringStore_at {j : Nat} (hj : j < n) :
    ringStore n mem pos bs ((pos + j) % n) = bs[j]?.getD (mem ((pos + j) % n)) := by
  rw [ringStore, if_pos (mod_lt _ (by omega)), ring_offset hj]

theorem ringStore_of_notMem {i : Nat} (h : i ∉ ringRegion n pos bs.length) :
    ringStore n mem pos bs i = mem i := by
  unfold ringStore
  split
  next hi =>
    cases hget : bs[(i + (n - pos % n)) % n]? with
    | none => rfl
    | some b =>
      refine absurd ⟨(i + (n - pos % n)) % n, ?_, ?_⟩ h
      · exact (List.getElem?_eq_some_iff.1 hget).1
      · rw [add_mod_mod, ← add_assoc, ring_shift (by omega), mod_eq_of_lt hi]
  · rfl

theorem ringLoad32_congr {mem' : Nat → Byte} (h : ∀ i ∈ ringRegion n pos 4, mem' i = mem i) :
    ringLoad32 n mem' pos = ringLoad32 n mem pos := by
  have hbyte : ∀ j < 4, mem' ((pos + j) % n) = mem ((pos + j) % n) :=
    fun j hj => h _ ⟨j, hj, rfl⟩
  have h0 := hbyte 0 (by omega)
  rw [add_zero] at h0
  rw [ringLoad32, ringLoad32, h0, hbyte 1 (by omega), hbyte 2 (by omega), hbyte 3 (by omega)]

theorem ringLoad32_store_disjoint
    (h : Disjoint (ringRegion n pos 4) (ringRegion n pos' bs.length)) :
    ringLoad32 n (ringStore n mem pos' bs) pos = ringLoad32 n mem pos :=
  ringLoad32_congr fun _ hi => ringStore_of_notMem (Set.disjoint_left.1 h hi)

theorem ringLoad32_store_behind (hle : pos + 4 ≤ pos') (hend : pos' + bs.length ≤ pos + n) :
    ringLoad32 n (ringStore n mem pos' bs) pos = ringLoad32 n mem pos :=
  ringLoad32_store_disjoint (ringRegion_disjoint hle hend)

theorem ringLoad32_store_before (hle : pos' + bs.length ≤ pos) (hend : pos + 4 ≤ pos' + n) :
    ringLoad32 n (ringStore n mem pos' bs) pos = ringLoad32 n mem pos :=
  ringLoad32_store_disjoint (ringRegion_disjoint hle hend).symm

theorem ringLoad32_store_append (hn : 4 ≤ n) (w : BitVec 32) (rest : List Byte) :
    ringLoad32 n (ringStore n mem pos (wordBytes w ++ rest)) pos = w := by
  have h0 := @ringStore_at n pos mem (wordBytes w ++ rest) 0 (by omega)
  rw [add_zero] at h0
  rw [ringLoad32, h0, ringStore_at (by omega), ringStore_at (by omega), ringStore_at (by omega)]
  exact bytesWord_wordByte w

theorem ringLoad32_store_same (hn : 4 ≤ n) (w : BitVec 32) :
    ringLoad32 n (ringStore n mem pos (wordBytes w)) pos = w :=
  List.append_nil (wordBytes w) ▸ ringLoad32_store_append hn w []

theorem ringStore_mod : ringStore n mem (pos % n) bs = ringStore n mem pos bs := by
  funext i
  simp only [ringStore, mod_mod]

theorem ringStore_mod_add (i : Nat) :
    ringStore n mem (pos % n + i) bs = ringStore n mem (pos + i) bs := by
  rw [← ringStore_mod, mod_add_mod, ringStore_mod]

theorem ringLoad32_mod : ringLoad32 n mem (pos % n) = ringLoad32 n mem pos := by
  simp only [ringLoad32, mod_mod, mod_add_mod]

end

end LinuxKernel.Foundation
