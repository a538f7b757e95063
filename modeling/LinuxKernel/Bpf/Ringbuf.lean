import LinuxKernel.Foundation.Ring

/-!
# Records of a BPF ring buffer

The layout that `tools/lib/bpf/ringbuf.c` and the kernel agree on: a record is a header of 8 bytes
with its length and two flags, followed by the sample, and takes a multiple of 8 bytes. Positions
are counters of 64 bits that only grow; their lower bits are offsets into the data pages, which are
mapped twice in a row.
-/

namespace LinuxKernel.Bpf

open Foundation
open BitVec hiding and_assoc
open List hiding getElem?_eq_some_iff

def BPF_RINGBUF_BUSY_BIT : BitVec 32 := 0x80000000
def BPF_RINGBUF_DISCARD_BIT : BitVec 32 := 0x40000000
def BPF_RINGBUF_HDR_SZ : Nat := 8

def lenBits (len : BitVec 32) : BitVec 32 := len &&& 0x3fffffff

def roundupLen (len : BitVec 32) : BitVec 32 := ((len <<< 2) >>> 2 + 8 + 7) / 8 * 8

/-- The sizes that a ring can have: a power of two, which the kernel also requires to be whole
pages. -/
structure RingSize (n : Nat) : Prop where
  pow : ∃ k, 3 ≤ k ∧ k ≤ 31 ∧ n = 2 ^ k

/-- A record that was reserved, at a position that counts from the creation of the ring. -/
structure RingRec where
  pos : Nat
  size : BitVec 32
  deriving DecidableEq

namespace RingRec

def total (r : RingRec) : Nat := (r.size.toNat + 15) / 8 * 8

def stop (r : RingRec) : Nat := r.pos + r.total

end RingRec

def Chained : Nat → List RingRec → Nat → Prop
  | start, [], stop => start = stop
  | start, r :: recs, stop => r.pos = start ∧ Chained r.stop recs stop

section
variable {start stop : Nat} {recs : List RingRec} {r : RingRec}

theorem RingRec.total_spec (r : RingRec) :
    r.total % 8 = 0 ∧ r.size.toNat + 8 ≤ r.total ∧ r.total ≤ r.size.toNat + 15 := by
  unfold total
  omega

section
variable (h : Chained start recs stop)
include h

theorem Chained.le : start ≤ stop := by
  induction recs generalizing start with
  | nil => exact Nat.le_of_eq h
  | cons r recs ih =>
    obtain ⟨rfl, hrest⟩ := h
    exact (Nat.le_add_right _ _).trans (ih hrest)

theorem Chained.append (hr : r.pos = stop) : Chained start (recs ++ [r]) r.stop := by
  induction recs generalizing start with
  | nil =>
    obtain rfl : start = stop := h
    exact ⟨hr, rfl⟩
  | cons r' recs ih => exact ⟨h.1, ih h.2⟩

theorem Chained.bounds (hr : r ∈ recs) : start ≤ r.pos ∧ r.stop ≤ stop := by
  induction recs generalizing start with
  | nil => simp at hr
  | cons r' recs ih =>
    obtain ⟨rfl, hrest⟩ := h
    rcases mem_cons.1 hr with rfl | hr
    · exact ⟨le_rfl, hrest.le⟩
    · obtain ⟨hlo, hhi⟩ := ih hrest hr
      exact ⟨(Nat.le_add_right _ _).trans hlo, hhi⟩

theorem Chained.pairwise : recs.Pairwise fun r r' => r.stop ≤ r'.pos := by
  induction recs generalizing start with
  | nil => exact .nil
  | cons r recs ih => exact pairwise_cons.2 ⟨fun r' hr' => (h.2.bounds hr').1, ih h.2⟩

theorem Chained.before {i j : Nat} {r' : RingRec} (hij : i < j)
    (hi : recs[i]? = some r) (hj : recs[j]? = some r') : r.stop ≤ r'.pos := by
  obtain ⟨hilt, rfl⟩ := List.getElem?_eq_some_iff.1 hi
  obtain ⟨hjlt, rfl⟩ := List.getElem?_eq_some_iff.1 hj
  exact pairwise_iff_getElem.1 h.pairwise i j hilt hjlt hij

end

end

/-! ## Offsets -/

namespace RingSize

variable {n : Nat}

theorem bounds (hn : RingSize n) : 8 ≤ n ∧ n ≤ 2 ^ 31 := by
  obtain ⟨k, hlo, hhi, rfl⟩ := hn.pow
  exact ⟨Nat.pow_le_pow_right Nat.two_pos hlo, Nat.pow_le_pow_right Nat.two_pos hhi⟩

variable {w : Nat}

theorem lt_two_pow (hn : RingSize n) (hw : 32 ≤ w) : 2 * n ≤ 2 ^ w := by
  have hbounds := hn.bounds
  have hpow : 2 ^ 32 ≤ 2 ^ w := Nat.pow_le_pow_right Nat.two_pos hw
  omega

theorem dvd (hn : RingSize n) (hw : 32 ≤ w) : n ∣ 2 ^ w := by
  obtain ⟨k, -, hhi, rfl⟩ := hn.pow
  exact Nat.pow_dvd_pow 2 (by omega)

theorem toNat_and_mask (hn : RingSize n) (hw : 32 ≤ w) (p : Nat) :
    (BitVec.ofNat w p &&& BitVec.ofNat w (n - 1)).toNat = p % n := by
  have hlt := hn.lt_two_pow hw
  have hbounds := hn.bounds
  rw [toNat_and, toNat_ofNat, toNat_ofNat, Nat.mod_eq_of_lt (show n - 1 < 2 ^ w by omega)]
  obtain ⟨k, -, -, rfl⟩ := hn.pow
  rw [Nat.and_two_pow_sub_one_eq_mod, Nat.mod_mod_of_dvd _ (hn.dvd hw)]

end RingSize

theorem ofNat_add_setWidth {w : Nat} (p : Nat) (len : BitVec 32) :
    BitVec.ofNat w p + len.setWidth w = BitVec.ofNat w (p + len.toNat) := by
  rw [ofNat_add, ofNat_toNat]

/-! ## Words of a header -/

theorem toNat_lenBits (len : BitVec 32) : (lenBits len).toNat = len.toNat % 2 ^ 30 := by
  exact Nat.and_two_pow_sub_one_eq_mod _ 30

variable {len : BitVec 32}

theorem lenBits_eq_self_iff : lenBits len = len ↔ len.toNat < 2 ^ 30 := by
  have hlen := toNat_lenBits len
  constructor
  · intro h
    rw [h] at hlen
    omega
  · intro h
    apply eq_of_toNat_eq
    omega

theorem lenBits_of_flags
    (h : len &&& (BPF_RINGBUF_BUSY_BIT ||| BPF_RINGBUF_DISCARD_BIT) = 0) : lenBits len = len := by
  have hall : len &&& (0x3fffffff ||| (BPF_RINGBUF_BUSY_BIT ||| BPF_RINGBUF_DISCARD_BIT)) = len :=
    and_allOnes
  rw [and_or_distrib_left, h] at hall
  exact (or_zero).symm.trans hall

theorem lenBits_or (len flag : BitVec 32) : lenBits (len ||| flag) = lenBits len ||| lenBits flag :=
  and_or_distrib_right

theorem lenBits_busy (len : BitVec 32) : lenBits (len ||| BPF_RINGBUF_BUSY_BIT) = lenBits len := by
  rw [lenBits_or]
  exact or_zero

theorem lenBits_discard (len : BitVec 32) :
    lenBits (len ||| BPF_RINGBUF_DISCARD_BIT) = lenBits len := by
  rw [lenBits_or]
  exact or_zero

theorem and_of_lenBits {mask : BitVec 32} (h : lenBits len = len) :
    len &&& mask = len &&& lenBits mask := by
  conv_lhs => rw [← h]
  rw [lenBits, lenBits, BitVec.and_assoc, BitVec.and_comm mask]

theorem toNat_roundupLen (len : BitVec 32) :
    (roundupLen len).toNat = (len.toNat % 2 ^ 30 + 15) / 8 * 8 := by
  have hlow : ((len <<< 2) >>> 2).toNat = len.toNat % 2 ^ 30 := by
    rw [toNat_ushiftRight, toNat_shiftLeft, Nat.shiftLeft_eq]
    omega
  unfold roundupLen
  rw [toNat_mul, toNat_udiv, toNat_add, toNat_add, hlow]
  show ((len.toNat % 2 ^ 30 + 8) % 2 ^ 32 + 7) % 2 ^ 32 / 8 * 8 % 2 ^ 32 = _
  omega

theorem toNat_roundupLen_of_lenBits {r : RingRec} (h : lenBits len = r.size) :
    (roundupLen len).toNat = r.total := by
  rw [toNat_roundupLen, RingRec.total, ← h, toNat_lenBits]

/-! ## Records in the ring -/

theorem map_set_of_eq {α β : Type} {l : List α} {f : α → β} {i : Nat} {a a' : α}
    (hi : l[i]? = some a) (heq : f a' = f a) : (l.set i a').map f = l.map f := by
  apply ext_getElem?
  intro j
  rw [getElem?_map, getElem?_map, getElem?_set]
  split
  next hij =>
    subst hij
    rw [if_pos (List.getElem?_eq_some_iff.1 hi).1, hi, Option.map_some, Option.map_some, heq]
  · rfl

structure Laid (n : Nat) (data : Nat → Byte) (start : Nat) (recs : List (RingRec × BitVec 32))
    (stop : Nat) : Prop where
  chained : Chained start (recs.map (·.1)) stop
  window : stop ≤ start + n
  words : ∀ r ∈ recs, ringLoad32 n data r.1.pos = r.2

namespace Laid

variable {n start stop q : Nat} {data : Nat → Byte} {recs : List (RingRec × BitVec 32)}
  {bs : List Byte} {r : RingRec × BitVec 32}

section
variable (h : Laid n data start recs stop)
include h

theorem bounds (hr : r ∈ recs) : start ≤ r.1.pos ∧ r.1.stop ≤ stop :=
  h.chained.bounds (mem_map_of_mem hr)

theorem before {i j : Nat} {r' : RingRec × BitVec 32}
    (hij : i < j) (hi : recs[i]? = some r) (hj : recs[j]? = some r') : r.1.stop ≤ r'.1.pos :=
  h.chained.before hij (by rw [getElem?_map, hi]; rfl) (by rw [getElem?_map, hj]; rfl)

theorem store_behind (hq : stop ≤ q)
    (hend : q + bs.length ≤ start + n) : Laid n (ringStore n data q bs) start recs stop := by
  refine { h with words := ?_ }
  intro r hr
  have hbounds := h.bounds hr
  have htotal := r.1.total_spec
  rw [RingRec.stop] at hbounds
  rw [← h.words r hr]
  exact ringLoad32_store_behind (by omega) (by omega)

theorem store_at {i : Nat} {r : RingRec} {word word' : BitVec 32}
    (hi : recs[i]? = some (r, word)) (hq : r.pos ≤ q) (hend : q + bs.length ≤ r.stop)
    (hword : ringLoad32 n (ringStore n data q bs) r.pos = word') :
    Laid n (ringStore n data q bs) start (recs.set i (r, word')) stop := by
  have hbounds : start ≤ r.pos ∧ r.stop ≤ stop := h.bounds (mem_of_getElem? hi)
  have hwindow := h.window
  refine { h with chained := ?_, words := ?_ }
  · rw [map_set_of_eq hi (show (r, word').1 = (r, word).1 from rfl)]
    exact h.chained
  intro r' hr'
  obtain ⟨j, hj⟩ := mem_iff_getElem?.1 hr'
  rw [getElem?_set] at hj
  split at hj
  · split at hj
    · cases hj
      exact hword
    · cases hj
  next hij =>
    have hbounds' := h.bounds (mem_of_getElem? hj)
    have htotal := r'.1.total_spec
    rw [← h.words r' (mem_of_getElem? hj)]
    rcases Nat.lt_or_gt_of_ne hij with hlt | hlt
    · have hbefore : r.stop ≤ r'.1.pos := h.before hlt hi hj
      rw [RingRec.stop] at hbounds'
      exact ringLoad32_store_before (by omega) (by omega)
    · have hbefore : r'.1.pos + r'.1.total ≤ r.pos := h.before hlt hj hi
      exact ringLoad32_store_behind (by omega) (by omega)

theorem push {r : RingRec} {word : BitVec 32}
    (hpos : r.pos = stop) (hfits : r.stop ≤ start + n) (hword : ringLoad32 n data stop = word) :
    Laid n data start (recs ++ [(r, word)]) r.stop := by
  refine ⟨?_, hfits, ?_⟩
  · rw [map_append]
    exact h.chained.append hpos
  intro r' hr'
  rcases mem_append.1 hr' with hr' | hr'
  · exact h.words r' hr'
  · obtain rfl := mem_singleton.1 hr'
    rw [hpos]
    exact hword

end

theorem pop (h : Laid n data start (r :: recs) stop) :
    r.1.pos = start ∧ ringLoad32 n data start = r.2 ∧ Laid n data r.1.stop recs stop := by
  obtain ⟨hpos, hrest⟩ := h.chained
  have hstop : r.1.stop = start + r.1.total := by rw [← hpos]; rfl
  have hwindow := h.window
  refine ⟨hpos, ?_, hrest, by omega, fun r' hr' => h.words r' (mem_cons_of_mem _ hr')⟩
  rw [← hpos]
  exact h.words r mem_cons_self

end Laid

end LinuxKernel.Bpf
