import LinuxKernel.Bpf.Ringbuf
import LinuxKernel.Foundation.Events

/-!
# The producer of a user ring buffer

`user_ring_buffer__reserve`, `user_ring_buffer__submit` and `user_ring_buffer__discard` of
`tools/lib/bpf/ringbuf.c`, with a consumer that may run between any two accesses to shared memory.
There is one call of `user_ring_buffer__reserve` at a time, as its documentation asks; samples are
written and committed at any time.
-/

namespace LinuxKernel.Bpf

open Foundation List BitVec
open BitVec (ofNat)

/-! ## The code -/

/-- The positions and the data pages are shared with the kernel. -/
structure UserRingBuffer where
  consumerPos : BitVec 64
  producerPos : BitVec 64
  mask : BitVec 64
  data : Nat → Byte

namespace UserRingBuffer

/-- The size of the data pages; an offset into the two mappings is taken modulo this size. -/
def size (rb : UserRingBuffer) : Nat := rb.mask.toNat + 1

def load32 (rb : UserRingBuffer) (off : BitVec 64) : BitVec 32 :=
  ringLoad32 rb.size rb.data off.toNat

def store (rb : UserRingBuffer) (off : BitVec 64) (bs : List Byte) : UserRingBuffer :=
  { rb with data := ringStore rb.size rb.data off.toNat bs }

end UserRingBuffer

/-- Where `user_ringbuf_commit` looks for the header of a sample, which is given by its offset from
`rb->data`. -/
def commitHdr (rb : UserRingBuffer) (sample : BitVec 64) : BitVec 64 :=
  let hdrOffset := rb.mask + 1 + sample - BitVec.ofNat 64 BPF_RINGBUF_HDR_SZ
  hdrOffset &&& rb.mask

def commitLen (len : BitVec 32) (discard : Bool) : BitVec 32 :=
  let newLen := len &&& ~~~BPF_RINGBUF_BUSY_BIT
  if discard then newLen ||| BPF_RINGBUF_DISCARD_BIT else newLen

inductive ReserveErr
  | e2big
  | enospc
  deriving DecidableEq, Repr

/-- The checks of `user_ring_buffer__reserve` on the positions it has read: `total_size`. -/
def reserveTotal (mask consPos prodPos : BitVec 64) (size : BitVec 32) :
    Except ReserveErr (BitVec 32) :=
  let maxSize : BitVec 32 := (mask + 1).setWidth 32
  let availSize : BitVec 32 := (maxSize.setWidth 64 - (prodPos - consPos)).setWidth 32
  let totalSize := (size + BitVec.ofNat 32 BPF_RINGBUF_HDR_SZ + 7) / 8 * 8
  if maxSize < totalSize then .error .e2big
  else if availSize < totalSize then .error .enospc
  else .ok totalSize

/-- The next access of a call of `user_ring_buffer__reserve`, with its local variables; `idle` has
the result of the last call. -/
inductive ReservePc
  | idle (result : Option (Except ReserveErr (BitVec 64)))
  | loadCons (size : BitVec 32)
  | loadProd (size : BitVec 32) (consPos : BitVec 64)
  | setLen (size : BitVec 32) (prodPos : BitVec 64) (totalSize : BitVec 32)
  | setPad (size : BitVec 32) (prodPos : BitVec 64) (totalSize : BitVec 32)
  | setProd (size : BitVec 32) (prodPos : BitVec 64) (totalSize : BitVec 32)
  deriving DecidableEq

/-! ## The system -/

/-- How far the application is with a sample: `user_ringbuf_commit` reads the header and then
exchanges it. -/
inductive SampleState
  | reserved
  | committing (discard : Bool) (newLen : BitVec 32)
  | committed (discard : Bool)
  deriving DecidableEq

/-- A record with the offsets of the header that was written and of the sample that was returned. -/
structure UserRec extends RingRec where
  hdr : BitVec 64
  sample : BitVec 64
  state : SampleState
  deriving DecidableEq

/-- The ring with the call that is going on. `recs` are the records that were reserved and not yet
consumed, `cons` and `prod` are the positions without their wrapping. -/
structure UserRingState where
  rb : UserRingBuffer
  pc : ReservePc
  recs : List UserRec
  cons : Nat
  prod : Nat

inductive UserRingEvent
  /-- a call of `user_ring_buffer__reserve` starts -/
  | reserve (size : BitVec 32)
  /-- the call goes on to its next access -/
  | producer
  /-- the application writes a byte of a sample that it has not committed -/
  | write (i j : Nat) (b : Byte)
  /-- `user_ring_buffer__submit` or `user_ring_buffer__discard` starts on a sample -/
  | commit (i : Nat) (discard : Bool)
  /-- and exchanges the word in the header -/
  | exchange (i : Nat)
  /-- the consumer advances over the oldest record, which is not busy -/
  | consume
  deriving DecidableEq

namespace UserRingState

def stepReserve (s : UserRingState) : Option UserRingState :=
  match s.pc with
  | .idle _ => none
  | .loadCons size => some { s with pc := .loadProd size s.rb.consumerPos }
  | .loadProd size consPos =>
    match reserveTotal s.rb.mask consPos s.rb.producerPos size with
    | .error e => some { s with pc := .idle (some (.error e)) }
    | .ok totalSize => some { s with pc := .setLen size s.rb.producerPos totalSize }
  | .setLen size prodPos totalSize =>
    some { s with
      rb := s.rb.store (prodPos &&& s.rb.mask) (wordBytes (size ||| BPF_RINGBUF_BUSY_BIT))
      pc := .setPad size prodPos totalSize }
  | .setPad size prodPos totalSize =>
    some { s with
      rb := s.rb.store ((prodPos &&& s.rb.mask) + 4) (wordBytes 0)
      pc := .setProd size prodPos totalSize }
  | .setProd size prodPos totalSize =>
    let sample := (prodPos + BitVec.ofNat 64 BPF_RINGBUF_HDR_SZ) &&& s.rb.mask
    some { s with
      rb := { s.rb with producerPos := prodPos + totalSize.setWidth 64 }
      pc := .idle (some (.ok sample))
      recs := s.recs ++ [⟨⟨s.prod, size⟩, prodPos &&& s.rb.mask, sample, .reserved⟩]
      prod := s.prod + totalSize.toNat }

def stepConsume (s : UserRingState) : Option UserRingState :=
  let len := s.rb.load32 (s.rb.consumerPos &&& s.rb.mask)
  match s.recs with
  | [] => none
  | _ :: recs =>
    if len &&& BPF_RINGBUF_BUSY_BIT ≠ 0 then none
    else
      some { s with
        rb := { s.rb with consumerPos := s.rb.consumerPos + (roundupLen len).setWidth 64 }
        recs := recs
        cons := s.cons + (roundupLen len).toNat }

def step (s : UserRingState) : UserRingEvent → Option UserRingState
  | .reserve size =>
    match s.pc with
    | .idle _ =>
      if size &&& (BPF_RINGBUF_BUSY_BIT ||| BPF_RINGBUF_DISCARD_BIT) ≠ 0 then
        some { s with pc := .idle (some (.error .e2big)) }
      else some { s with pc := .loadCons size }
    | _ => none
  | .producer => s.stepReserve
  | .write i j b =>
    match s.recs[i]? with
    | some r =>
      if r.state = .reserved ∧ j < r.size.toNat then
        some { s with rb := s.rb.store (r.sample + BitVec.ofNat 64 j) [b] }
      else none
    | none => none
  | .commit i discard =>
    match s.recs[i]? with
    | some r =>
      if r.state = .reserved then
        let newLen := commitLen (s.rb.load32 (commitHdr s.rb r.sample)) discard
        some { s with recs := s.recs.set i { r with state := .committing discard newLen } }
      else none
    | none => none
  | .exchange i =>
    match s.recs[i]? with
    | some r =>
      match r.state with
      | .committing discard newLen =>
        some { s with
          rb := s.rb.store (commitHdr s.rb r.sample) (wordBytes newLen)
          recs := s.recs.set i { r with state := .committed discard } }
      | _ => none
    | none => none
  | .consume => s.stepConsume

def run (s : UserRingState) (events : List UserRingEvent) : Option UserRingState :=
  runEvents step s events

def init (n pos : Nat) (data : Nat → Byte) : UserRingState where
  rb := ⟨BitVec.ofNat 64 pos, BitVec.ofNat 64 pos, BitVec.ofNat 64 (n - 1), data⟩
  pc := .idle none
  recs := []
  cons := pos
  prod := pos

end UserRingState

/-! ## The invariant -/

def UserRec.word (r : UserRec) : BitVec 32 :=
  match r.state with
  | .committed discard => commitLen (r.size ||| BPF_RINGBUF_BUSY_BIT) discard
  | _ => r.size ||| BPF_RINGBUF_BUSY_BIT

structure UserRec.Holds (n : Nat) (r : UserRec) : Prop where
  hdr : r.hdr.toNat = r.pos % n
  sample : r.sample.toNat = (r.pos + 8) % n
  noFlags : lenBits r.size = r.size
  newLen : ∀ discard w, r.state = .committing discard w →
    w = commitLen (r.size ||| BPF_RINGBUF_BUSY_BIT) discard

namespace UserRingState

structure Room (n : Nat) (s : UserRingState) (size : BitVec 32) (prodPos : BitVec 64)
    (totalSize : BitVec 32) : Prop where
  noFlags : lenBits size = size
  at_prod : prodPos = BitVec.ofNat 64 s.prod
  total : totalSize.toNat = (RingRec.mk s.prod size).total
  fits : s.prod + totalSize.toNat ≤ s.cons + n

/-- What the local variables of the call say. The consumer may have gone on since its position was
read; the producer position is written by the call itself only. -/
def PcHolds (n : Nat) (s : UserRingState) : ReservePc → Prop
  | .idle _ => True
  | .loadCons size => lenBits size = size
  | .loadProd size consPos =>
    lenBits size = size ∧ ∃ c ≤ s.cons, s.prod ≤ c + n ∧ consPos = BitVec.ofNat 64 c
  | .setLen size prodPos totalSize => s.Room n size prodPos totalSize
  | .setPad size prodPos totalSize | .setProd size prodPos totalSize =>
    s.Room n size prodPos totalSize ∧ ringLoad32 n s.rb.data s.prod = size ||| BPF_RINGBUF_BUSY_BIT

structure Inv (n : Nat) (s : UserRingState) : Prop where
  size : RingSize n
  mask : s.rb.mask = BitVec.ofNat 64 (n - 1)
  consumerPos : s.rb.consumerPos = BitVec.ofNat 64 s.cons
  producerPos : s.rb.producerPos = BitVec.ofNat 64 s.prod
  laid : Laid n s.rb.data s.cons (s.recs.map fun r => (r.toRingRec, r.word)) s.prod
  recs : ∀ r ∈ s.recs, r.Holds n
  pc : s.PcHolds n s.pc

end UserRingState

/-! ## Offsets and words -/

variable {size : BitVec 32}

theorem commitLen_busy (h : lenBits size = size) (discard : Bool) :
    commitLen (size ||| BPF_RINGBUF_BUSY_BIT) discard =
      if discard then size ||| BPF_RINGBUF_DISCARD_BIT else size := by
  have hclear : (size ||| BPF_RINGBUF_BUSY_BIT) &&& ~~~BPF_RINGBUF_BUSY_BIT = size := by
    rw [and_or_distrib_right, and_of_lenBits h]
    show size &&& 0x3fffffff ||| 0#32 = size
    rw [or_zero]
    exact h
  rw [commitLen, hclear]

variable {r : UserRec}

theorem UserRec.lenBits_word (h : lenBits r.size = r.size) : lenBits r.word = r.size := by
  unfold word
  split
  next discard _ =>
    rw [commitLen_busy h]
    cases discard with
    | false => exact h
    | true =>
      show lenBits (r.size ||| BPF_RINGBUF_DISCARD_BIT) = r.size
      rw [lenBits_discard, h]
  · rw [lenBits_busy, h]

def UserRec.region (n : Nat) (r : UserRec) : Set Nat :=
  ringRegion n r.hdr.toNat BPF_RINGBUF_HDR_SZ ∪ ringRegion n r.sample.toNat r.size.toNat

variable {n : Nat}

theorem UserRec.Holds.region_subset (h : r.Holds n) : r.region n ⊆ ringRegion n r.pos r.total := by
  have htotal := r.total_spec
  apply Set.union_subset
  · rw [h.hdr, ringRegion_mod]
    exact ringRegion_mono le_rfl (by unfold BPF_RINGBUF_HDR_SZ; omega)
  · rw [h.sample, ringRegion_mod]
    exact ringRegion_mono (by omega) (by omega)

theorem toNat_commitHdr {pos : Nat} (hn : RingSize n) {rb : UserRingBuffer}
    (hmask : rb.mask = ofNat 64 (n - 1)) {sample : BitVec 64}
    (hsample : sample.toNat = (pos + 8) % n) : (commitHdr rb sample).toNat = pos % n := by
  have hbounds := hn.bounds
  have hoff : rb.mask + 1 + sample - ofNat 64 BPF_RINGBUF_HDR_SZ =
      ofNat 64 (n + (pos + 8) % n - 8) := by
    apply eq_of_toNat_eq
    rw [hmask, toNat_sub, toNat_add, toNat_add, hsample, toNat_ofNat, toNat_ofNat, toNat_ofNat]
    show (2 ^ 64 - 8 % 2 ^ 64 + (((n - 1) % 2 ^ 64 + 1) % 2 ^ 64 + (pos + 8) % n) % 2 ^ 64) %
      2 ^ 64 =
      _
    omega
  have hback : n + (pos + 8) % n - 8 ≡ pos [MOD n] := by
    apply Nat.ModEq.add_right_cancel' 8
    show (n + (pos + 8) % n - 8 + 8) % n = (pos + 8) % n
    rw [Nat.sub_add_cancel (by omega), Nat.add_mod_left, Nat.mod_mod]
  show ((rb.mask + 1 + sample - ofNat 64 BPF_RINGBUF_HDR_SZ) &&& rb.mask).toNat = _
  rw [hoff, hmask, hn.toNat_and_mask (by decide)]
  exact hback

namespace UserRingState

variable {n : Nat} {s s' : UserRingState}

/-! ## Steps -/

theorem Inv.rb_size (h : s.Inv n) : s.rb.size = n := by
  have hbounds := h.size.bounds
  rw [UserRingBuffer.size, h.mask, toNat_ofNat]
  omega

variable {r : UserRec}

theorem Inv.bounds (h : s.Inv n) (hr : r ∈ s.recs) : s.cons ≤ r.pos ∧ r.stop ≤ s.prod :=
  h.laid.bounds (mem_map_of_mem hr)

variable {i : Nat}

theorem Inv.getElem?_laid (hi : s.recs[i]? = some r) :
    (s.recs.map fun r => (r.toRingRec, r.word))[i]? = some (r.toRingRec, r.word) := by
  rw [getElem?_map, hi]
  rfl

variable {j : Nat} {r' : UserRec}

theorem Inv.before (h : s.Inv n) (hij : i < j)
    (hi : s.recs[i]? = some r) (hj : s.recs[j]? = some r') : r.stop ≤ r'.pos :=
  h.laid.before hij (getElem?_laid hi) (getElem?_laid hj)

theorem toNat_totalSize (h : size.toNat < 2 ^ 30) :
    ((size + ofNat 32 BPF_RINGBUF_HDR_SZ + 7) / 8 * 8).toNat = (size.toNat + 15) / 8 * 8 := by
  show ((size.toNat + 8) % 2 ^ 32 + 7) % 2 ^ 32 / 8 * 8 % 2 ^ 32 = _
  omega

variable {totalSize : BitVec 32}

/-- The positions that `user_ring_buffer__reserve` has read leave room for what it returns. -/
theorem Inv.room (h : s.Inv n) {consPos : BitVec 64} (hpc : s.PcHolds n (.loadProd size consPos))
    (htotal : reserveTotal s.rb.mask consPos s.rb.producerPos size = .ok totalSize) :
    s.Room n size s.rb.producerPos totalSize := by
  obtain ⟨hflags, c, hc, hwindow, rfl⟩ := hpc
  have hbounds := h.size.bounds
  have hsize := lenBits_eq_self_iff.1 hflags
  have hle := h.laid.chained.le
  have hmax : ((s.rb.mask + 1).setWidth 32).toNat = n := by
    rw [h.mask, toNat_setWidth, toNat_add]
    show ((n - 1) % 2 ^ 64 + 1) % 2 ^ 64 % 2 ^ 32 = n
    omega
  have hused : (ofNat 64 s.prod - ofNat 64 c).toNat = s.prod - c := by
    rw [toNat_sub, toNat_ofNat, toNat_ofNat]
    omega
  simp only [reserveTotal] at htotal
  split at htotal
  · cases htotal
  split at htotal
  · cases htotal
  next hmaxle havail =>
    cases htotal
    have havail' : (((s.rb.mask + 1).setWidth 32).setWidth 64 -
        (s.rb.producerPos - ofNat 64 c)).toNat = n - (s.prod - c) := by
      rw [h.producerPos, toNat_sub, toNat_setWidth]
      omega
    have hgot := toNat_totalSize hsize
    rw [lt_def, toNat_setWidth, havail'] at havail
    exact
      { noFlags := hflags
        at_prod := h.producerPos
        total := hgot
        fits := by omega }

variable {prodPos : BitVec 64}

theorem Room.congr (h : s.Room n size prodPos totalSize)
    (hprod : s'.prod = s.prod) (hcons : s.cons ≤ s'.cons) : s'.Room n size prodPos totalSize :=
  { noFlags := h.noFlags
    at_prod := by rw [h.at_prod, hprod]
    total := by rw [h.total, hprod]
    fits := by have := h.fits; omega }

/-- What the call knows is kept when the consumer advances and when bytes outside the header that
it writes are changed. -/
theorem PcHolds.congr {pc : ReservePc} (h : s.PcHolds n pc) (hprod : s'.prod = s.prod)
    (hcons : s.cons ≤ s'.cons) (hload : ∀ size prodPos totalSize, s.Room n size prodPos totalSize →
      ringLoad32 n s'.rb.data s.prod = ringLoad32 n s.rb.data s.prod) : s'.PcHolds n pc := by
  cases pc with
  | idle => exact trivial
  | loadCons => exact h
  | loadProd =>
    obtain ⟨hflags, c, hc, hwindow, heq⟩ := h
    exact ⟨hflags, c, hc.trans hcons, by omega, heq⟩
  | setLen => exact Room.congr h hprod hcons
  | setPad size prodPos totalSize | setProd size prodPos totalSize =>
    exact ⟨h.1.congr hprod hcons, by rw [hprod, hload _ _ _ h.1, h.2]⟩

theorem Room.hdr_le
    (hroom : s.Room n size prodPos totalSize) {q : Nat} (hq : q ≤ s.prod + 8) : q ≤ s.cons + n := by
  have htotal := (RingRec.mk s.prod size).total_spec
  have hfits := hroom.fits
  rw [hroom.total] at hfits
  omega

theorem Room.toNat_offset (h : s.Inv n)
    (hroom : s.Room n size prodPos totalSize) : (prodPos &&& s.rb.mask).toNat = s.prod % n := by
  rw [hroom.at_prod, h.mask, h.size.toNat_and_mask (by decide)]

theorem Inv.stepReserve (h : s.Inv n) (hstep : s.stepReserve = some s') : s'.Inv n := by
  have hbounds := h.size.bounds
  have hsize := h.rb_size
  obtain ⟨rb, pc, recs, cons, prod⟩ := s
  have hpc := h.pc
  cases pc with
  | idle => cases hstep
  | loadCons size =>
    cases hstep
    exact { h with pc := ⟨hpc, cons, le_rfl, h.laid.window, h.consumerPos⟩ }
  | loadProd size consPos =>
    simp only [UserRingState.stepReserve] at hstep
    split at hstep
    · cases hstep
      exact { h with pc := trivial }
    next totalSize htotal =>
      cases hstep
      exact { h with pc := (h.room hpc htotal).congr rfl le_rfl }
  | setLen size prodPos totalSize =>
    have hroom : Room n _ size prodPos totalSize := hpc
    cases hstep
    have hdata : (rb.store (prodPos &&& rb.mask) (wordBytes (size ||| BPF_RINGBUF_BUSY_BIT))).data =
        ringStore n rb.data prod (wordBytes (size ||| BPF_RINGBUF_BUSY_BIT)) := by
      rw [UserRingBuffer.store, hsize, hroom.toNat_offset h, ringStore_mod]
    refine { h with laid := ?_, pc := ⟨hroom.congr rfl le_rfl, ?_⟩ }
    · rw [hdata]
      exact h.laid.store_behind le_rfl (hroom.hdr_le (Nat.le_add_right _ 4))
    · rw [hdata]
      exact ringLoad32_store_same (by omega) _
  | setPad size prodPos totalSize =>
    obtain ⟨hroom, hload⟩ := hpc
    cases hstep
    have hdata : (rb.store ((prodPos &&& rb.mask) + 4) (wordBytes 0)).data =
        ringStore n rb.data (prod + 4) (wordBytes 0) := by
      have hlt : prod % n < n := Nat.mod_lt _ (by omega)
      rw [UserRingBuffer.store, hsize, toNat_add, hroom.toNat_offset h]
      show ringStore n rb.data ((prod % n + 4) % 2 ^ 64) (wordBytes 0) = _
      rw [Nat.mod_eq_of_lt (by omega), ringStore_mod_add]
    refine { h with laid := ?_, pc := ⟨hroom.congr rfl le_rfl, ?_⟩ }
    · rw [hdata]
      exact h.laid.store_behind (Nat.le_add_right _ _) (hroom.hdr_le le_rfl)
    · rw [hdata]
      exact (ringLoad32_store_behind le_rfl (by simp [wordBytes]; omega)).trans hload
  | setProd size prodPos totalSize =>
    obtain ⟨hroom, hload⟩ := hpc
    cases hstep
    have hnext : prod + totalSize.toNat = (RingRec.mk prod size).stop := by
      rw [hroom.total]
      rfl
    refine { h with
      producerPos := ?_
      laid := ?_
      recs := forall_mem_append.2 ⟨h.recs, forall_mem_singleton.2 ?_⟩
      pc := trivial }
    · exact hroom.at_prod ▸ ofNat_add_setWidth prod totalSize
    · rw [map_append, hnext]
      exact h.laid.push rfl (hnext ▸ hroom.fits) hload
    · refine ⟨hroom.toNat_offset h, ?_, hroom.noFlags, fun _ _ hstate => by cases hstate⟩
      show ((prodPos + ofNat 64 8) &&& rb.mask).toNat = (prod + 8) % n
      rw [hroom.at_prod, ← ofNat_add, h.mask, h.size.toNat_and_mask (by decide)]

section
variable {i : Nat} {r : UserRec} (h : s.Inv n) (hi : s.recs[i]? = some r)
include h hi

theorem Inv.holds : r.Holds n := h.recs r (mem_of_getElem? hi)

variable {q : Nat} {bs : List Byte}

theorem Inv.update (r' : UserRec) (heq : r'.toRingRec = r.toRingRec) (hq : r.pos ≤ q)
    (hend : q + bs.length ≤ r.stop) (hholds : r'.Holds n)
    (hword : ringLoad32 n (ringStore n s.rb.data q bs) r.pos = r'.word) : Inv n { s with
      rb := { s.rb with data := ringStore n s.rb.data q bs }, recs := s.recs.set i r' } := by
  refine { h with laid := ?_, recs := ?_, pc := ?_ }
  · rw [map_set, heq]
    exact h.laid.store_at (getElem?_laid hi) hq hend hword
  · intro r₁ hr₁
    rcases mem_or_eq_of_mem_set hr₁ with hr₁ | rfl
    · exact h.recs r₁ hr₁
    · exact hholds
  · refine h.pc.congr rfl le_rfl fun _ _ _ hroom => ?_
    have hbounds := h.bounds (mem_of_getElem? hi)
    have hfits := hroom.hdr_le le_rfl
    exact ringLoad32_store_before (by omega) (by omega)

theorem Inv.load : ringLoad32 n s.rb.data r.pos = r.word :=
  h.laid.words _ (mem_of_getElem? (getElem?_laid hi))

theorem Inv.write {j : Nat} (hj : j < r.size.toNat) (b : Byte) :
    Inv n { s with rb := s.rb.store (r.sample + ofNat 64 j) [b] } := by
  have hr := h.holds hi
  have hbounds := h.bounds (mem_of_getElem? hi)
  have hwindow := h.laid.window
  have hn := h.size.bounds
  have htotal := r.total_spec
  have hstop : r.stop = r.pos + r.total := rfl
  have hlt : (r.pos + 8) % n < n := Nat.mod_lt _ (by omega)
  have hstore : s.rb.store (r.sample + ofNat 64 j) [b] =
      { s.rb with data := ringStore n s.rb.data (r.pos + 8 + j) [b] } := by
    rw [UserRingBuffer.store, h.rb_size, toNat_add, hr.sample, toNat_ofNat,
      Nat.add_mod_mod, Nat.mod_eq_of_lt (by omega), ringStore_mod_add]
  have hset : s.recs.set i r = s.recs := by simpa using map_set_of_eq (f := id) hi rfl
  have hend : r.pos + 8 + j + [b].length ≤ r.stop := by
    rw [length_singleton]
    omega
  have hload := @ringLoad32_store_behind n r.pos (r.pos + 8 + j) s.rb.data [b] (by omega) (by omega)
  have hupdate := h.update hi r rfl (by omega) hend hr (hload.trans (h.load hi))
  rw [hset] at hupdate
  rw [hstore]
  exact hupdate

theorem Inv.load_commitHdr : s.rb.load32 (commitHdr s.rb r.sample) = r.word := by
  have hr := h.holds hi
  rw [UserRingBuffer.load32, h.rb_size, toNat_commitHdr h.size h.mask hr.sample, ringLoad32_mod,
    h.load hi]

theorem Inv.store_commitHdr (bs : List Byte) : s.rb.store (commitHdr s.rb r.sample) bs =
      { s.rb with data := ringStore n s.rb.data r.pos bs } := by
  have hr := h.holds hi
  rw [UserRingBuffer.store, h.rb_size, toNat_commitHdr h.size h.mask hr.sample, ringStore_mod]

variable {discard : Bool} {newLen : BitVec 32}

theorem Inv.commit (hstate : r.state = .reserved)
    (hnew : newLen = commitLen (s.rb.load32 (commitHdr s.rb r.sample)) discard) :
    Inv n { s with recs := s.recs.set i { r with state := .committing discard newLen } } := by
  have hr := h.holds hi
  have hword : r.word = r.size ||| BPF_RINGBUF_BUSY_BIT := by rw [UserRec.word, hstate]
  rw [h.load_commitHdr hi, hword] at hnew
  have hnothing : ringStore n s.rb.data r.pos [] = s.rb.data := by
    funext k
    exact ringStore_of_notMem (by simp [ringRegion])
  have hholds : UserRec.Holds n { r with state := .committing discard newLen } :=
    ⟨hr.hdr, hr.sample, hr.noFlags, by rintro _ _ ⟨⟩; exact hnew⟩
  have hload : ringLoad32 n (ringStore n s.rb.data r.pos []) r.pos =
      r.size ||| BPF_RINGBUF_BUSY_BIT := by
    rw [hnothing, h.load hi, hword]
  have hupdate := h.update hi { r with state := .committing discard newLen } rfl le_rfl
    (Nat.le_add_right _ _) hholds hload
  rw [hnothing] at hupdate
  exact hupdate

theorem Inv.exchange (hstate : r.state = .committing discard newLen) : Inv n { s with
      rb := s.rb.store (commitHdr s.rb r.sample) (wordBytes newLen)
      recs := s.recs.set i { r with state := .committed discard } } := by
  have hr := h.holds hi
  have hn := h.size.bounds
  have htotal := r.total_spec
  have hnew := hr.newLen discard newLen hstate
  rw [h.store_commitHdr hi]
  refine h.update hi { r with state := .committed discard } rfl le_rfl ?_
    ⟨hr.hdr, hr.sample, hr.noFlags, by rintro _ _ ⟨⟩⟩ ?_
  · show r.pos + 4 ≤ r.pos + r.total
    omega
  · rw [ringLoad32_store_same (by omega), hnew]
    rfl

end

theorem Inv.stepConsume (h : s.Inv n) (hstep : s.stepConsume = some s') : s'.Inv n := by
  unfold UserRingState.stepConsume at hstep
  cases heq : s.recs with
  | nil => simp [heq] at hstep
  | cons r recs =>
    have hr := h.recs r (by simp [heq])
    have hlaid := h.laid
    rw [heq] at hlaid
    obtain ⟨hpos, hword, hrest⟩ := hlaid.pop
    have hload : s.rb.load32 (s.rb.consumerPos &&& s.rb.mask) = r.word := by
      rw [UserRingBuffer.load32, h.rb_size, h.consumerPos, h.mask,
        h.size.toNat_and_mask (by decide), ringLoad32_mod, hword]
    have hnext : s.cons + (roundupLen r.word).toNat = r.stop := by
      rw [toNat_roundupLen_of_lenBits (UserRec.lenBits_word hr.noFlags), ← hpos]
      rfl
    simp only [heq, hload] at hstep
    split at hstep
    · cases hstep
    cases hstep
    refine { h with consumerPos := ?_, laid := ?_, recs := ?_, pc := ?_ }
    · exact h.consumerPos ▸ ofNat_add_setWidth s.cons (roundupLen r.word)
    · exact hnext ▸ hrest
    · exact fun r' hr' => h.recs r' (by simp [heq, hr'])
    · exact h.pc.congr rfl (Nat.le_add_right _ _) fun _ _ _ _ => rfl

theorem step_exchange (hstep : s.step (.exchange i) = some s') :
    ∃ (r : UserRec) (discard : Bool) (newLen : BitVec 32),
      s.recs[i]? = some r ∧ r.state = .committing discard newLen ∧ s' = { s with
        rb := s.rb.store (commitHdr s.rb r.sample) (wordBytes newLen)
        recs := s.recs.set i { r with state := .committed discard } } := by
  simp only [step] at hstep
  split at hstep
  next r hi =>
    split at hstep
    · rename_i discard newLen hstate
      cases hstep
      exact ⟨r, discard, newLen, hi, hstate, rfl⟩
    · cases hstep
  · cases hstep

theorem Inv.step (h : s.Inv n) {e : UserRingEvent} (hstep : s.step e = some s') : s'.Inv n := by
  cases e with
  | reserve size =>
    simp only [UserRingState.step] at hstep
    split at hstep
    · split at hstep
      · cases hstep
        exact { h with pc := trivial }
      next hflags =>
        cases hstep
        exact { h with pc := lenBits_of_flags (not_not.1 hflags) }
    · cases hstep
  | producer => exact h.stepReserve hstep
  | write i j b =>
    simp only [UserRingState.step] at hstep
    split at hstep
    next r hi =>
      split at hstep
      · rename_i hwrite
        cases hstep
        exact h.write hi hwrite.2 b
      · cases hstep
    · cases hstep
  | commit i discard =>
    simp only [UserRingState.step] at hstep
    split at hstep
    next r hi =>
      split at hstep
      · rename_i hstate
        cases hstep
        exact h.commit hi hstate rfl
      · cases hstep
    · cases hstep
  | exchange i =>
    obtain ⟨r, discard, newLen, hi, hstate, rfl⟩ := step_exchange hstep
    exact h.exchange hi hstate
  | consume => exact h.stepConsume hstep

theorem Inv.run (h : s.Inv n) {events : List UserRingEvent} (hrun : s.run events = some s') :
    s'.Inv n :=
  runEvents_invariant (fun _ _ _ hinv hstep => hinv.step hstep) h hrun

theorem inv_init (hn : RingSize n) (pos : Nat) (data : Nat → Byte) : (init n pos data).Inv n :=
  { size := hn
    mask := rfl
    consumerPos := rfl
    producerPos := rfl
    laid := ⟨rfl, Nat.le_add_right _ _, by simp [init]⟩
    recs := by simp [init]
    pc := trivial }

/-! ## What holds in every run -/

theorem Inv.used_le (h : s.Inv n) : (s.rb.producerPos - s.rb.consumerPos).toNat ≤ n := by
  have hle := h.laid.chained.le
  have hwindow := h.laid.window
  rw [h.producerPos, h.consumerPos, toNat_sub, toNat_ofNat, toNat_ofNat]
  omega

theorem Inv.disjoint (h : s.Inv n) (hij : i < j) (hi : s.recs[i]? = some r)
    (hj : s.recs[j]? = some r') : Disjoint (r'.region n) (r.region n) := by
  have hbefore := h.before hij hi hj
  have hbounds := h.bounds (mem_of_getElem? hi)
  have hbounds' := h.bounds (mem_of_getElem? hj)
  have hwindow := h.laid.window
  have hstop : r'.stop = r'.pos + r'.total := rfl
  have hregions : Disjoint (ringRegion n r.pos r.total) (ringRegion n r'.pos r'.total) :=
    ringRegion_disjoint hbefore (by omega)
  exact hregions.symm.mono (h.recs r' (mem_of_getElem? hj)).region_subset
    (h.recs r (mem_of_getElem? hi)).region_subset

/-- In every run, with the consumer and the commits of samples between any two accesses of a
reservation: no more than the ring is in use, the sample of a record shares no byte with the header
and the sample of an earlier one that is not consumed, and a commit changes the flags of the header
of its record only. -/
theorem userRingBuffer_run (hn : RingSize n) (pos : Nat) (data : Nat → Byte)
    (events : List UserRingEvent) (hrun : (init n pos data).run events = some s) :
    (s.rb.producerPos - s.rb.consumerPos).toNat ≤ n ∧
      (∀ (i j : Nat) (r r' : UserRec), i < j → s.recs[i]? = some r → s.recs[j]? = some r' →
        Disjoint (ringRegion n r'.sample.toNat r'.size.toNat) (r.region n)) ∧
      ∀ i s', s.step (.exchange i) = some s' →
        ∃ (r : UserRec) (discard : Bool) (newLen : BitVec 32), s.recs[i]? = some r ∧
          r.state = .committing discard newLen ∧
          lenBits r.size = r.size ∧
          s.rb.load32 r.hdr = r.size ||| BPF_RINGBUF_BUSY_BIT ∧
          s'.rb.load32 r.hdr = (if discard then r.size ||| BPF_RINGBUF_DISCARD_BIT else r.size) ∧
          s'.rb = { s.rb with data := s'.rb.data } ∧
          ∀ k ∉ ringRegion n r.hdr.toNat 4, s'.rb.data k = s.rb.data k := by
  have h := (inv_init hn pos data).run hrun
  refine ⟨h.used_le, fun i j r r' hij hi hj => ?_, fun i s' hstep => ?_⟩
  · exact (h.disjoint hij hi hj).mono_left Set.subset_union_right
  have h' := h.step hstep
  obtain ⟨r, discard, newLen, hi, hstate, rfl⟩ := step_exchange hstep
  have hr := h.holds hi
  have hstore := h.store_commitHdr hi (wordBytes newLen)
  refine ⟨r, discard, newLen, hi, hstate, hr.noFlags, ?_, ?_, rfl, fun k hk => ?_⟩
  · rw [UserRingBuffer.load32, h.rb_size, hr.hdr, ringLoad32_mod, h.load hi, UserRec.word, hstate]
  · have hn := h.size.bounds
    rw [UserRingBuffer.load32, h'.rb_size, hr.hdr, ringLoad32_mod, hstore,
      ringLoad32_store_same (by omega), hr.newLen discard newLen hstate,
      commitLen_busy hr.noFlags]
  · rw [hr.hdr, ringRegion_mod] at hk
    rw [hstore]
    exact ringStore_of_notMem hk

/-- A sample of 4 bytes that starts at the end of a ring of 16 bytes is discarded. -/
def wrapEvents : List UserRingEvent :=
  [.reserve 4, .producer, .producer, .producer, .producer, .producer, .commit 0 true]

theorem userRingBuffer_run_wrap :
    ∃ s s', (init 16 8 fun _ => 0).run wrapEvents = some s ∧ s.step (.exchange 0) = some s' ∧
      s.recs.map (·.sample) = [0] ∧
      (s.rb.producerPos - s.rb.consumerPos).toNat ≤ 16 ∧
      ∃ (r : UserRec) (discard : Bool) (newLen : BitVec 32), s.recs[0]? = some r ∧
        r.state = .committing discard newLen ∧
        lenBits r.size = r.size ∧
        s.rb.load32 r.hdr = r.size ||| BPF_RINGBUF_BUSY_BIT ∧
        s'.rb.load32 r.hdr = (if discard then r.size ||| BPF_RINGBUF_DISCARD_BIT else r.size) ∧
        s'.rb = { s.rb with data := s'.rb.data } ∧
        ∀ k ∉ ringRegion 16 r.hdr.toNat 4, s'.rb.data k = s.rb.data k := by
  have hsize : RingSize 16 := ⟨4, by decide⟩
  have hrun := userRingBuffer_run hsize 8 (fun _ => 0) wrapEvents rfl
  exact ⟨_, _, rfl, rfl, rfl, hrun.1, hrun.2.2 0 _ rfl⟩

end UserRingState

end LinuxKernel.Bpf
