import LinuxKernel.Bpf.Ringbuf
import LinuxKernel.Foundation.Events

/-!
# The consumer of a ring buffer

`ringbuf_process_ring` of `tools/lib/bpf/ringbuf.c`, one access to shared memory or call of the
callback at a time, with a producer that may do anything between two of them that it is allowed to:
reserve a record when there is room, write to a record that it has not committed, and commit or
discard its records in any order. Positions are `unsigned long`, of `w` bits.
-/

namespace LinuxKernel.Bpf

open Foundation List Nat

/-! ## The code -/

/-- The positions and the data pages are shared with the kernel. -/
structure Ring (w : Nat) where
  consumerPos : BitVec w
  producerPos : BitVec w
  mask : BitVec w
  data : Nat → Byte

namespace Ring

variable {w : Nat}

/-- The size of the data pages; an offset into the two mappings is taken modulo this size. -/
def size (ring : Ring w) : Nat := ring.mask.toNat + 1

def load32 (ring : Ring w) (off : BitVec w) : BitVec 32 :=
  ringLoad32 ring.size ring.data off.toNat

def store (ring : Ring w) (off : Nat) (bs : List Byte) : Ring w :=
  { ring with data := ringStore ring.size ring.data off bs }

end Ring

/-- Where a call of `ringbuf_process_ring` is, with its local variables. `cons_pos` has been
advanced before the callback is called and before the position is published. -/
inductive ProcessPc (w : Nat)
  | idle (result : Option Int)
  | loadCons
  | loadProd (cnt : Nat) (consPos : BitVec w)
  | scan (cnt : Nat) (consPos prodPos : BitVec w) (gotNewData : Bool)
  | callback (cnt : Nat) (consPos prodPos : BitVec w) (sample : Nat) (len : BitVec 32)
  | publish (cnt : Nat) (consPos prodPos : BitVec w)
  | publishErr (consPos : BitVec w) (err : Int)
  deriving DecidableEq

/-! ## The system -/

inductive RecState
  | busy
  | committed (discard : Bool)
  deriving DecidableEq

structure KernRec extends RingRec where
  state : RecState
  deriving DecidableEq

/-- The ring with the call that is going on. `done` are the records that the consumer has gone past
and `todo` the others, which start at `next`; `cons` and `prod` are the positions without their
wrapping. `log` has the samples that the callback was called with. -/
structure RingState (w : Nat) where
  ring : Ring w
  pc : ProcessPc w
  log : List (Nat × BitVec 32)
  done : List KernRec
  todo : List KernRec
  cons : Nat
  next : Nat
  prod : Nat
  calls : Nat

inductive RingEvent
  /-- a call of `ringbuf_process_ring` starts -/
  | call
  /-- the call goes on; `err` is what the callback returns if it is called now -/
  | consumer (err : Int)
  | reserve (size pgOff : BitVec 32)
  | write (i j : Nat) (b : Byte)
  | commit (i : Nat) (discard : Bool)
  deriving DecidableEq

def RingEvent.isConsumer : RingEvent → Bool
  | .consumer _ => true
  | _ => false

def KernRec.word (r : KernRec) : BitVec 32 :=
  match r.state with
  | .busy => r.size ||| BPF_RINGBUF_BUSY_BIT
  | .committed false => r.size
  | .committed true => r.size ||| BPF_RINGBUF_DISCARD_BIT

namespace RingState

variable {w : Nat}

def stepConsumer (s : RingState w) (err : Int) : Option (RingState w) :=
  match s.pc with
  | .idle _ => none
  | .loadCons => some { s with pc := .loadProd 0 s.ring.consumerPos }
  | .loadProd cnt consPos => some { s with pc := .scan cnt consPos s.ring.producerPos false }
  | .scan cnt consPos prodPos gotNewData =>
    if consPos < prodPos then
      let lenPtr := consPos &&& s.ring.mask
      let len := s.ring.load32 lenPtr
      if len &&& BPF_RINGBUF_BUSY_BIT ≠ 0 then some { s with pc := .idle (some cnt) }
      else
        let consPos := consPos + (roundupLen len).setWidth w
        some { s with
          pc :=
            if len &&& BPF_RINGBUF_DISCARD_BIT = 0 then
              .callback cnt consPos prodPos (lenPtr.toNat + BPF_RINGBUF_HDR_SZ) len
            else .publish cnt consPos prodPos
          done := s.done ++ s.todo.take 1
          todo := s.todo.drop 1
          next := s.next + (roundupLen len).toNat }
    else if gotNewData then some { s with pc := .loadProd cnt consPos }
    else some { s with pc := .idle (some cnt) }
  | .callback cnt consPos prodPos sample len =>
    some { s with
      log := s.log ++ [(sample, len)]
      pc := if err < 0 then .publishErr consPos err else .publish (cnt + 1) consPos prodPos }
  | .publish cnt consPos prodPos =>
    some { s with
      ring := { s.ring with consumerPos := consPos }
      cons := s.next
      pc := .scan cnt consPos prodPos true }
  | .publishErr consPos err =>
    some { s with
      ring := { s.ring with consumerPos := consPos }
      cons := s.next
      pc := .idle (some err) }

def stepReserve (s : RingState w) (size pgOff : BitVec 32) : Option (RingState w) :=
  let r : KernRec := ⟨⟨s.prod, size⟩, .busy⟩
  if lenBits size = size ∧ r.stop ≤ s.cons + s.ring.size then
    some { s with
      ring := { s.ring.store s.prod (wordBytes r.word ++ wordBytes pgOff) with
        producerPos := BitVec.ofNat w r.stop }
      todo := s.todo ++ [r]
      prod := r.stop }
  else none

def step (s : RingState w) : RingEvent → Option (RingState w)
  | .call =>
    match s.pc with
    | .idle _ => some { s with pc := .loadCons, calls := s.calls + 1 }
    | _ => none
  | .consumer err => s.stepConsumer err
  | .reserve size pgOff => s.stepReserve size pgOff
  | .write i j b =>
    match s.todo[i]? with
    | some r =>
      if r.state = .busy ∧ j < r.size.toNat then
        some { s with ring := s.ring.store (r.pos + BPF_RINGBUF_HDR_SZ + j) [b] }
      else none
    | none => none
  | .commit i discard =>
    match s.todo[i]? with
    | some r =>
      if r.state = .busy then
        let r' : KernRec := { r with state := .committed discard }
        some { s with
          ring := s.ring.store r.pos (wordBytes r'.word)
          todo := s.todo.set i r' }
      else none
    | none => none

def run (s : RingState w) (events : List RingEvent) : Option (RingState w) :=
  runEvents step s events

def init (w n pos : Nat) (data : Nat → Byte) : RingState w where
  ring := ⟨BitVec.ofNat w pos, BitVec.ofNat w pos, BitVec.ofNat w (n - 1), data⟩
  pc := .idle none
  log := []
  done := []
  todo := []
  cons := pos
  next := pos
  prod := pos
  calls := 0

end RingState

/-! ## Words -/

def RecState.flags : RecState → BitVec 32
  | .busy => BPF_RINGBUF_BUSY_BIT
  | .committed false => 0
  | .committed true => BPF_RINGBUF_DISCARD_BIT

namespace KernRec

variable {r : KernRec}

theorem word_lenBits (h : lenBits r.size = r.size) : lenBits r.word = r.size := by
  unfold word
  split
  · rw [lenBits_busy, h]
  · exact h
  · rw [lenBits_discard, h]

theorem word_eq (r : KernRec) : r.word = r.size ||| r.state.flags := by
  unfold word
  split <;> rename_i hstate <;> simp [hstate, RecState.flags]

variable (h : lenBits r.size = r.size)
include h

theorem and_word {bit : BitVec 32} (hbit : lenBits bit = 0) :
    r.word &&& bit = r.state.flags &&& bit := by
  rw [word_eq, BitVec.and_or_distrib_right, and_of_lenBits h, hbit]
  exact (congrArg (· ||| _) BitVec.and_zero).trans BitVec.zero_or

theorem word_busy_iff : r.word &&& BPF_RINGBUF_BUSY_BIT = 0 ↔ r.state ≠ .busy := by
  rw [and_word h (by decide)]
  rcases r.state with _ | _ | _ <;> decide

theorem word_discard_iff (hbusy : r.state ≠ .busy) :
    r.word &&& BPF_RINGBUF_DISCARD_BIT = 0 ↔ r.state = .committed false := by
  rw [and_word h (by decide)]
  revert hbusy
  rcases r.state with _ | _ | _ <;> decide

end KernRec

/-! ## The invariant -/

def delivery (n : Nat) (r : KernRec) : Nat × BitVec 32 := (r.pos % n + BPF_RINGBUF_HDR_SZ, r.size)

def delivered (n : Nat) (recs : List KernRec) : List (Nat × BitVec 32) :=
  (recs.filter (·.state = .committed false)).map (delivery n)

variable {target : List KernRec}

namespace RingState

variable {w n : Nat}

def inFlight (s : RingState w) : List (Nat × BitVec 32) :=
  match s.pc with
  | .callback _ _ _ sample len => [(sample, len)]
  | _ => []

/-- The producer position that was read is the end of a record, or where `todo` starts. -/
def Reads (s : RingState w) (prodPos : BitVec w) : Prop :=
  ∃ k stop, k ≤ s.todo.length ∧ prodPos = BitVec.ofNat w stop ∧
    Chained s.next ((s.todo.map (·.toRingRec)).take k) stop

def LastDelivered (s : RingState w) : Prop :=
  ∃ front r, s.done = front ++ [r] ∧ r.state = .committed false ∧ r.stop = s.next

def PcHolds (s : RingState w) : ProcessPc w → Prop
  | .idle result => s.cons = s.next ∧ ∀ err < 0, result = some err → s.LastDelivered
  | .loadCons => s.cons = s.next
  | .loadProd _ consPos => s.cons = s.next ∧ consPos = BitVec.ofNat w s.next
  | .scan _ consPos prodPos _ =>
    s.cons = s.next ∧ consPos = BitVec.ofNat w s.next ∧ s.Reads prodPos
  | .callback _ consPos prodPos _ _ =>
    consPos = BitVec.ofNat w s.next ∧ s.Reads prodPos ∧ s.LastDelivered
  | .publish _ consPos prodPos => consPos = BitVec.ofNat w s.next ∧ s.Reads prodPos
  | .publishErr consPos _ => consPos = BitVec.ofNat w s.next ∧ s.LastDelivered

structure Inv (n : Nat) (s : RingState w) : Prop where
  width : 32 ≤ w
  size : RingSize n
  mask : s.ring.mask = BitVec.ofNat w (n - 1)
  consumerPos : s.ring.consumerPos = BitVec.ofNat w s.cons
  producerPos : s.ring.producerPos = BitVec.ofNat w s.prod
  cons_le : s.cons ≤ s.next
  window : s.prod ≤ s.cons + n
  laid : Laid n s.ring.data s.next (s.todo.map fun r => (r.toRingRec, r.word)) s.prod
  noFlags : ∀ r ∈ s.todo, lenBits r.size = r.size
  passed : ∀ r ∈ s.done, r.state ≠ .busy
  log : s.log ++ s.inFlight = delivered n s.done
  pc : s.PcHolds s.pc

/-! ## The producer -/

variable {s s' : RingState w}

theorem Inv.ring_size (h : s.Inv n) : s.ring.size = n := by
  have hlt := h.size.lt_two_pow h.width
  have hbounds := h.size.bounds
  rw [Ring.size, h.mask, BitVec.toNat_ofNat, mod_eq_of_lt (by omega)]
  omega

variable {pc : ProcessPc w}

theorem PcHolds.congr (h : s.PcHolds pc) (hcons : s'.cons = s.cons)
    (hnext : s'.next = s.next) (hdone : s'.done = s.done)
    (hreads : ∀ prodPos, s.Reads prodPos → s'.Reads prodPos) : s'.PcHolds pc := by
  have hlast : s.LastDelivered → s'.LastDelivered := by
    unfold LastDelivered
    rw [hdone, hnext]
    exact id
  cases pc with
  | idle => exact ⟨by rw [hcons, hnext, h.1], fun err herr heq => hlast (h.2 err herr heq)⟩
  | loadCons => exact (hcons.trans h).trans hnext.symm
  | loadProd => exact ⟨by rw [hcons, hnext, h.1], by rw [hnext, h.2]⟩
  | scan => exact ⟨by rw [hcons, hnext, h.1], by rw [hnext, h.2.1], hreads _ h.2.2⟩
  | callback => exact ⟨by rw [hnext, h.1], hreads _ h.2.1, hlast h.2.2⟩
  | publish => exact ⟨by rw [hnext, h.1], hreads _ h.2⟩
  | publishErr => exact ⟨by rw [hnext, h.1], hlast h.2⟩

theorem Inv.goto (h : s.Inv n) (hpc : s.PcHolds pc)
    (hflight : ({ s with pc := pc } : RingState w).inFlight = s.inFlight) :
    Inv n { s with pc := pc } :=
  { h with log := (congrArg (s.log ++ ·) hflight).trans h.log, pc := hpc }

theorem Inv.chained_todo (h : s.Inv n) :
    Chained s.next ((s.todo.map (·.toRingRec)).take s.todo.length) s.prod := by
  have hchained := h.laid.chained
  rw [map_map] at hchained
  rw [take_of_length_le (le_of_eq (length_map _))]
  exact hchained

theorem Inv.stepReserve (h : s.Inv n) {size pgOff : BitVec 32}
    (hstep : s.stepReserve size pgOff = some s') : s'.Inv n := by
  have hbounds := h.size.bounds
  have hcons := h.cons_le
  have hsize := h.ring_size
  simp only [RingState.stepReserve] at hstep
  split at hstep
  next hroom =>
    obtain ⟨hflags, hfits⟩ := hroom
    cases hstep
    rw [hsize] at hfits
    have htotal := (RingRec.mk s.prod size).total_spec
    have hstop : (RingRec.mk s.prod size).stop = s.prod + (RingRec.mk s.prod size).total := rfl
    refine { h with
        producerPos := rfl
        window := hfits
        laid := ?_
        noFlags := ?_
        pc := h.pc.congr rfl rfl rfl ?_ }
    · show Laid n (ringStore s.ring.size s.ring.data s.prod _) s.next (map _ (s.todo ++ [_])) _
      rw [map_append, hsize]
      refine (h.laid.store_behind le_rfl ?_).push rfl (hfits.trans ?_)
        (ringLoad32_store_append (by omega) _ _)
      · show s.prod + 8 ≤ s.next + n
        omega
      · omega
    · exact forall_mem_append.2 ⟨h.noFlags, forall_mem_singleton.2 hflags⟩
    · rintro prodPos ⟨k, stop, hk, hprod, hchained⟩
      refine ⟨k, stop, ?_, hprod, ?_⟩
      · rw [length_append]
        omega
      · rw [map_append, take_append_of_le_length (by rwa [length_map])]
        exact hchained
  · cases hstep

variable {i : Nat} {r : KernRec}

theorem Inv.update (h : s.Inv n) (hi : s.todo[i]? = some r) (r' : KernRec)
    (heq : r'.toRingRec = r.toRingRec) {q : Nat} {bs : List Byte} (hq : r.pos ≤ q)
    (hend : q + bs.length ≤ r.stop)
    (hword : ringLoad32 n (ringStore n s.ring.data q bs) r.pos = r'.word) :
    Inv n { s with ring := s.ring.store q bs, todo := s.todo.set i r' } := by
  have hget : (s.todo.map fun r => (r.toRingRec, r.word))[i]? = some (r.toRingRec, r.word) := by
    rw [getElem?_map, hi]
    rfl
  refine { h with laid := ?_, noFlags := ?_, pc := h.pc.congr rfl rfl rfl ?_ }
  · show Laid n (ringStore s.ring.size s.ring.data q bs) s.next (map _ (s.todo.set i r')) _
    rw [map_set, heq, h.ring_size]
    exact h.laid.store_at hget hq hend hword
  · intro r₁ hr₁
    rcases mem_or_eq_of_mem_set hr₁ with hr₁ | rfl
    · exact h.noFlags r₁ hr₁
    · rw [heq]
      exact h.noFlags r (mem_of_getElem? hi)
  · rintro prodPos ⟨k, stop, hk, hprod, hchained⟩
    refine ⟨k, stop, by rwa [length_set], hprod, ?_⟩
    rw [map_set_of_eq hi heq]
    exact hchained

theorem Inv.load (h : s.Inv n) (hr : r ∈ s.todo) : ringLoad32 n s.ring.data r.pos = r.word :=
  h.laid.words _ (mem_map_of_mem hr)

theorem Inv.write (h : s.Inv n) {j : Nat} (hi : s.todo[i]? = some r) (hj : j < r.size.toNat)
    (b : Byte) : Inv n { s with ring := s.ring.store (r.pos + BPF_RINGBUF_HDR_SZ + j) [b] } := by
  have hmem := mem_of_getElem? hi
  have hbounds : s.next ≤ r.pos ∧ r.stop ≤ s.prod := h.laid.bounds (mem_map_of_mem hmem)
  have hwindow := h.laid.window
  have htotal := r.total_spec
  have hstop : r.stop = r.pos + r.total := rfl
  have hset : s.todo.set i r = s.todo := by simpa using map_set_of_eq (f := id) hi rfl
  have hload := @ringLoad32_store_behind n r.pos (r.pos + 8 + j) s.ring.data [b] (by omega)
    (by rw [length_singleton]; omega)
  have hupdate := h.update hi r rfl (show r.pos ≤ r.pos + 8 + j by omega)
    (by rw [length_singleton]; omega) (hload.trans (h.load hmem))
  rw [hset] at hupdate
  exact hupdate

theorem Inv.commit (h : s.Inv n) (hi : s.todo[i]? = some r)
    (r' : KernRec) (heq : r'.toRingRec = r.toRingRec) :
    Inv n { s with ring := s.ring.store r.pos (wordBytes r'.word), todo := s.todo.set i r' } := by
  have hn := h.size.bounds
  have htotal := r.total_spec
  refine h.update hi r' heq le_rfl ?_ (ringLoad32_store_same (by omega) _)
  show r.pos + 4 ≤ r.pos + r.total
  omega

/-! ## The consumer -/

theorem delivered_append (done : List KernRec) (r : KernRec) : delivered n (done ++ [r]) =
      delivered n done ++ if r.state = .committed false then [delivery n r] else [] := by
  rw [delivered, delivered, filter_append]
  by_cases hstate : r.state = .committed false <;> simp [hstate]

variable {cnt : Nat} {consPos prodPos : BitVec w} {got : Bool}

/-- When the positions say that there is data, the header of the next record is read. -/
theorem Inv.scan_head (h : s.Inv n)
    (hpc : s.PcHolds (.scan cnt consPos prodPos got)) (hlt : consPos < prodPos) :
    ∃ r rest, s.todo = r :: rest ∧ s.ring.load32 (consPos &&& s.ring.mask) = r.word ∧
      r.pos = s.next ∧ ∃ k stop, k ≤ rest.length ∧ prodPos = BitVec.ofNat w stop ∧
        Chained r.stop ((rest.map (·.toRingRec)).take k) stop := by
  obtain ⟨-, hconsPos, k, stop, hk, hprodPos, hchained⟩ := hpc
  cases k with
  | zero =>
    have hsame : s.next = stop := hchained
    rw [hconsPos, hprodPos, hsame] at hlt
    exact absurd hlt (BitVec.lt_irrefl _)
  | succ k =>
    cases htodo : s.todo with
    | nil => simp [htodo] at hk
    | cons r rest =>
      rw [htodo] at hchained hk
      obtain ⟨hpos, hrest⟩ := hchained
      have hlaid := h.laid
      rw [htodo] at hlaid
      obtain ⟨-, hword, -⟩ := hlaid.pop
      refine ⟨r, rest, rfl, ?_, hpos, k, stop, le_of_succ_le_succ hk, hprodPos, hrest⟩
      rw [Ring.load32, h.ring_size, hconsPos, h.mask, h.size.toNat_and_mask h.width,
        ringLoad32_mod, hword]

def pass (s : RingState w) (pc : ProcessPc w) (r : KernRec) (rest : List KernRec) : RingState w :=
  { s with pc := pc, done := s.done ++ [r], todo := rest, next := r.stop }

variable {err : Int}

theorem Inv.scan_cases (h : s.Inv n) (hpc : s.pc = .scan cnt consPos prodPos got)
    (hstep : s.stepConsumer err = some s') : (¬ consPos < prodPos ∧
        s' = { s with pc := if got then .loadProd cnt consPos else .idle (some (cnt : Int)) }) ∨
      ∃ r rest, consPos < prodPos ∧ s.todo = r :: rest ∧
        ((r.state = .busy ∧ s' = { s with pc := .idle (some (cnt : Int)) }) ∨
          (r.state = .committed true ∧
            s' = s.pass (.publish cnt (BitVec.ofNat w r.stop) prodPos) r rest) ∨
          (r.state = .committed false ∧
            s' = s.pass (.callback cnt (BitVec.ofNat w r.stop) prodPos (delivery n r).1
              (delivery n r).2) r rest)) := by
  have hholds := h.pc
  rw [hpc] at hholds
  simp only [RingState.stepConsumer, hpc] at hstep
  by_cases hlt : consPos < prodPos
  · obtain ⟨r, rest, htodo, hload, hpos, -⟩ := h.scan_head hholds hlt
    have hflags := h.noFlags r (by simp [htodo])
    have hnext : s.next + (roundupLen r.word).toNat = r.stop := by
      rw [toNat_roundupLen_of_lenBits (KernRec.word_lenBits hflags), ← hpos]
      rfl
    have hconsPos : consPos + (roundupLen r.word).setWidth w = BitVec.ofNat w r.stop := by
      rw [hholds.2.1, ofNat_add_setWidth, hnext]
    have hptr : (consPos &&& s.ring.mask).toNat = r.pos % n := by
      rw [hholds.2.1, h.mask, h.size.toNat_and_mask h.width, hpos]
    rw [if_pos hlt, hload, hconsPos, hnext, hptr, htodo] at hstep
    refine .inr ⟨r, rest, hlt, htodo, ?_⟩
    by_cases hbusy : r.state = .busy
    · rw [if_pos (mt (KernRec.word_busy_iff hflags).1 (not_not.2 hbusy))] at hstep
      cases hstep
      exact .inl ⟨hbusy, by rw [htodo]⟩
    rw [if_neg (not_not.2 ((KernRec.word_busy_iff hflags).2 hbusy))] at hstep
    cases hstate : r.state with
    | busy => exact absurd hstate hbusy
    | committed discard =>
      cases discard with
      | false =>
        have hword : r.word = r.size := by rw [KernRec.word, hstate]
        rw [if_pos ((KernRec.word_discard_iff hflags hbusy).2 hstate), hword] at hstep
        cases hstep
        exact .inr (.inr ⟨rfl, rfl⟩)
      | true =>
        have hdiscard : ¬ r.word &&& BPF_RINGBUF_DISCARD_BIT = 0 := by
          rw [KernRec.word_discard_iff hflags hbusy, hstate]
          decide
        rw [if_neg hdiscard] at hstep
        cases hstep
        exact .inr (.inl ⟨rfl, rfl⟩)
  · rw [if_neg hlt] at hstep
    refine .inl ⟨hlt, ?_⟩
    cases got <;> simpa using hstep.symm

variable {rest : List KernRec}

theorem Inv.pass (h : s.Inv n) (htodo : s.todo = r :: rest)
    (hbusy : r.state ≠ .busy) (hpc : (s.pass pc r rest).PcHolds pc)
    (hlog : s.log ++ (s.pass pc r rest).inFlight = delivered n (s.done ++ [r])) :
    (s.pass pc r rest).Inv n := by
  have hlaid := h.laid
  rw [htodo] at hlaid
  obtain ⟨hpos, -, hrest⟩ := hlaid.pop
  refine { h with
      cons_le := ?_
      laid := hrest
      noFlags := fun r' hr' => h.noFlags r' (by rw [htodo]; exact mem_cons_of_mem _ hr')
      passed := forall_mem_append.2 ⟨h.passed, forall_mem_singleton.2 hbusy⟩
      log := hlog
      pc := hpc }
  exact h.cons_le.trans (hpos ▸ le_add_right r.pos r.total)

theorem Inv.stepScan (h : s.Inv n) (hpc : s.pc = .scan cnt consPos prodPos got)
    (hstep : s.stepConsumer err = some s') : s'.Inv n := by
  have hholds := h.pc
  have hlog := h.log
  rw [hpc] at hholds
  have hflight : s.inFlight = [] := by rw [inFlight, hpc]
  have hreturn : ∀ err < 0, some (cnt : Int) = some err → s.LastDelivered := by
    rintro err herr ⟨⟩
    omega
  rw [hflight, append_nil] at hlog
  rcases h.scan_cases hpc hstep with ⟨-, rfl⟩ | ⟨r, rest, hlt, htodo, hcases⟩
  · cases got with
    | false => exact h.goto ⟨hholds.1, hreturn⟩ hflight.symm
    | true => exact h.goto ⟨hholds.1, hholds.2.1⟩ hflight.symm
  obtain ⟨r', rest', htodo', -, -, hreads⟩ := h.scan_head hholds hlt
  obtain ⟨rfl, rfl⟩ := cons_eq_cons.1 (htodo.symm.trans htodo')
  rcases hcases with ⟨-, rfl⟩ | ⟨hstate, rfl⟩ | ⟨hstate, rfl⟩
  · exact h.goto ⟨hholds.1, hreturn⟩ hflight.symm
  · refine h.pass htodo (by simp [hstate]) ⟨rfl, hreads⟩ ?_
    rw [delivered_append, if_neg (by simp [hstate]), hlog]
    rfl
  · refine h.pass htodo (by simp [hstate]) ⟨rfl, hreads, s.done, r, rfl, hstate, rfl⟩ ?_
    rw [delivered_append, if_pos hstate, hlog]
    rfl

theorem Inv.stepConsumer (h : s.Inv n) (hstep : s.stepConsumer err = some s') : s'.Inv n := by
  obtain ⟨ring, pc, log, done, todo, cons, next, prod, calls⟩ := s
  have hpc := h.pc
  cases pc with
  | scan => exact h.stepScan rfl hstep
  | idle => cases hstep
  | loadCons =>
    cases hstep
    exact h.goto ⟨hpc, h.consumerPos.trans (congrArg _ hpc)⟩ rfl
  | loadProd cnt consPos =>
    cases hstep
    exact h.goto ⟨hpc.1, hpc.2, todo.length, prod, le_rfl, h.producerPos, h.chained_todo⟩ rfl
  | callback cnt consPos prodPos sample len =>
    cases hstep
    have hlog := (append_nil _).trans h.log
    by_cases herr : err < 0
    · rw [if_pos herr]
      exact { h with log := hlog, pc := ⟨hpc.1, hpc.2.2⟩ }
    · rw [if_neg herr]
      exact { h with log := hlog, pc := ⟨hpc.1, hpc.2.1⟩ }
  | publish cnt consPos prodPos =>
    cases hstep
    exact { h with
        consumerPos := hpc.1
        cons_le := le_rfl
        window := h.laid.window
        pc := ⟨rfl, hpc⟩ }
  | publishErr consPos err' =>
    cases hstep
    exact { h with
        consumerPos := hpc.1
        cons_le := le_rfl
        window := h.laid.window
        pc := ⟨rfl, fun _ _ _ => hpc.2⟩ }

/-! ## Steps and runs -/

/-- What a step of the producer leaves alone: the call, and the records that are not busy. -/
structure Produces (s s' : RingState w) : Prop where
  pc : s'.pc = s.pc
  next : s'.next = s.next
  done : s'.done = s.done
  calls : s'.calls = s.calls
  recs : ∃ added, s'.todo.map (·.toRingRec) = s.todo.map (·.toRingRec) ++ added
  front : ∀ front back, s.todo = front ++ back → (∀ r ∈ front, r.state ≠ .busy) →
    ∃ back', s'.todo = front ++ back'

theorem Produces.of_set (hi : s.todo[i]? = some r)
    (hbusy : r.state = .busy) (r' : KernRec) (heq : r'.toRingRec = r.toRingRec) (ring : Ring w) :
    Produces s { s with ring := ring, todo := s.todo.set i r' } := by
  refine ⟨rfl, rfl, rfl, rfl, ⟨[], ?_⟩, ?_⟩
  · rw [append_nil]
    exact map_set_of_eq hi heq
  intro front back htodo hfront
  have hle : front.length ≤ i := by
    by_contra hlt
    rw [htodo, getElem?_append_left (by omega)] at hi
    exact hfront r (mem_of_getElem? hi) hbusy
  refine ⟨back.set (i - front.length) r', ?_⟩
  rw [htodo, set_append, if_neg (by omega)]

variable {e : RingEvent}

theorem Inv.step_cases (h : s.Inv n) (hstep : s.step e = some s') : s'.Inv n ∧
      ((e = .call ∧ s'.calls = s.calls + 1 ∧ s'.done = s.done) ∨
        (∃ err, e = .consumer err ∧ s.stepConsumer err = some s') ∨
        (e.isConsumer = false ∧ Produces s s')) := by
  cases e with
  | call =>
    simp only [step] at hstep
    split at hstep
    next result heq =>
      cases hstep
      have hpc := h.pc
      have hlog := h.log
      rw [heq] at hpc
      rw [inFlight, heq] at hlog
      exact ⟨{ h with log := hlog, pc := hpc.1 }, .inl ⟨rfl, rfl, rfl⟩⟩
    · cases hstep
  | consumer err => exact ⟨h.stepConsumer hstep, .inr (.inl ⟨err, rfl, hstep⟩)⟩
  | reserve size pgOff =>
    refine ⟨h.stepReserve hstep, .inr (.inr ⟨rfl, ?_⟩)⟩
    simp only [step, RingState.stepReserve] at hstep
    split at hstep
    · cases hstep
      refine ⟨rfl, rfl, rfl, rfl, ⟨_, map_append⟩, ?_⟩
      intro front back htodo _
      exact ⟨back ++ [⟨⟨s.prod, size⟩, .busy⟩], by rw [htodo, append_assoc]⟩
    · cases hstep
  | write i j b =>
    simp only [step] at hstep
    split at hstep
    next r hi =>
      split at hstep
      · rename_i hwrite
        cases hstep
        refine ⟨h.write hi hwrite.2 b, .inr (.inr ⟨rfl, rfl, rfl, rfl, rfl, ⟨[], ?_⟩, ?_⟩)⟩
        · exact (append_nil _).symm
        · exact fun front back htodo _ => ⟨back, htodo⟩
      · cases hstep
    · cases hstep
  | commit i discard =>
    simp only [step] at hstep
    split at hstep
    next r hi =>
      split at hstep
      · rename_i hbusy
        cases hstep
        exact ⟨h.commit hi _ rfl, .inr (.inr ⟨rfl,
          Produces.of_set hi hbusy { r with state := .committed discard } rfl _⟩)⟩
      · cases hstep
    · cases hstep

theorem inv_init (hw : 32 ≤ w) (hn : RingSize n) (pos : Nat) (data : Nat → Byte) :
    (init w n pos data).Inv n :=
  { width := hw
    size := hn
    mask := rfl
    consumerPos := rfl
    producerPos := rfl
    cons_le := le_rfl
    window := le_add_right _ _
    laid := ⟨rfl, le_add_right _ _, by simp [init]⟩
    noFlags := by simp [init]
    passed := by simp [init]
    log := rfl
    pc := ⟨rfl, by simp⟩ }

variable {events : List RingEvent}

theorem Inv.run (h : s.Inv n) (hrun : s.run events = some s') : s'.Inv n :=
  runEvents_invariant (fun _ _ _ hinv hstep => (hinv.step_cases hstep).1) h hrun

/-! ## Progress of a call -/

def ready (s : RingState w) : List KernRec := s.todo.takeWhile (·.state ≠ .busy)

def Failed (s : RingState w) : Prop :=
  match s.pc with
  | .publishErr _ err | .idle (some err) => err < 0
  | _ => False

def Returned (s : RingState w) : Prop := ∃ result, s.pc = .idle result

/-- The call will see the records `front`, which are not busy: they end at or before the producer
position that it has read, and the comparison of the positions is not misled by a wrap. -/
def Ahead (s : RingState w) (front : List KernRec) (prodPos : BitVec w) : Prop :=
  (∃ back, s.todo = front ++ back) ∧ (∀ r ∈ front, r.state ≠ .busy) ∧
    ∃ k stop, front.length ≤ k ∧ k ≤ s.todo.length ∧ prodPos = BitVec.ofNat w stop ∧
      Chained s.next ((s.todo.map (·.toRingRec)).take k) stop ∧ s.next / 2 ^ w = stop / 2 ^ w

/-- The records `front` are at most `k` steps of the call away from being passed. -/
def Sure (s : RingState w) (front : List KernRec) (k : Nat) : Prop :=
  match s.pc with
  | .scan _ _ prodPos _ => s.Ahead front prodPos ∧ 3 * front.length ≤ k
  | .publish _ _ prodPos => s.Ahead front prodPos ∧ 3 * front.length + 1 ≤ k
  | .callback _ _ prodPos _ _ => s.Ahead front prodPos ∧ 3 * front.length + 2 ≤ k
  | _ => False

variable {front : List KernRec} {k : Nat}

theorem Sure.length_le (h : s.Sure front k) : 3 * front.length ≤ k := by
  unfold Sure at h
  split at h
  case h_4 => exact h.elim
  all_goals omega

theorem Produces.ahead (h : Produces s s')
    (hahead : s.Ahead front prodPos) : s'.Ahead front prodPos := by
  obtain ⟨⟨back, htodo⟩, hfront, k, stop, hk, hlen, hprodPos, hchained, hturn⟩ := hahead
  obtain ⟨added, hrecs⟩ := h.recs
  have hlen' : (s'.todo.map (·.toRingRec)).length = s.todo.length + added.length := by
    rw [hrecs, length_append, length_map]
  rw [length_map] at hlen'
  refine ⟨h.front front back htodo hfront, hfront, k, stop, hk, by omega, hprodPos, ?_, ?_⟩
  · rw [h.next, hrecs, take_append_of_le_length (by rwa [length_map])]
    exact hchained
  · rw [h.next]
    exact hturn

theorem Produces.sure (h : Produces s s') (hsure : s.Sure front k) : s'.Sure front k := by
  unfold Sure at hsure ⊢
  rw [h.pc]
  split at hsure
  · exact ⟨h.ahead hsure.1, hsure.2⟩
  · exact ⟨h.ahead hsure.1, hsure.2⟩
  · exact ⟨h.ahead hsure.1, hsure.2⟩
  · exact hsure

theorem Ahead.lt (h : s.Ahead (r :: front) prodPos) : BitVec.ofNat w s.next < prodPos := by
  obtain ⟨⟨back, htodo⟩, -, k, stop, hk, hlen, rfl, hchained, hturn⟩ := h
  rw [length_cons] at hk
  obtain ⟨k, rfl⟩ : ∃ k', k = k' + 1 := ⟨k - 1, by omega⟩
  rw [htodo] at hchained
  obtain ⟨hpos, hrest⟩ := hchained
  have hle := hrest.le
  have htotal := r.total_spec
  have hstop : r.stop = r.pos + r.total := rfl
  have hpos' : r.pos = s.next := hpos
  have hnext := div_add_mod s.next (2 ^ w)
  have hprod := div_add_mod stop (2 ^ w)
  rw [BitVec.lt_def, BitVec.toNat_ofNat, BitVec.toNat_ofNat]
  rw [← hturn] at hprod
  have hle' : r.stop ≤ stop := hle
  omega

theorem Ahead.pass (h : s.Ahead (r :: front) prodPos)
    (htodo : s.todo = r :: rest) (pc : ProcessPc w) : (s.pass pc r rest).Ahead front prodPos := by
  obtain ⟨⟨back, hback⟩, hfront, k, stop, hk, hlen, hprodPos, hchained, hturn⟩ := h
  rw [length_cons] at hk
  obtain ⟨k, rfl⟩ : ∃ k', k = k' + 1 := ⟨k - 1, by omega⟩
  rw [htodo] at hchained hlen hback
  obtain ⟨hpos, hrest⟩ := hchained
  have hle : r.stop ≤ stop := hrest.le
  have hnext : s.next ≤ r.stop := by
    have hpos' : r.pos = s.next := hpos
    rw [← hpos']
    exact le_add_right _ _
  refine ⟨⟨back, (cons_eq_cons.1 hback).2⟩, fun r' hr' => hfront r' (mem_cons_of_mem _ hr'),
    k, stop, by omega, le_of_succ_le_succ hlen, hprodPos, hrest, ?_⟩
  apply Nat.le_antisymm (Nat.div_le_div_right hle)
  rw [← hturn]
  exact Nat.div_le_div_right hnext

theorem stepConsumer_done (hstep : s.stepConsumer err = some s') :
    s'.calls = s.calls ∧ ∃ added, s'.done = s.done ++ added := by
  have hkeep : ∃ added, s.done = s.done ++ added := ⟨[], (append_nil _).symm⟩
  unfold stepConsumer at hstep
  split at hstep
  case h_4 =>
    dsimp only at hstep
    split at hstep
    · split at hstep <;> cases hstep
      · exact ⟨rfl, hkeep⟩
      · exact ⟨rfl, s.todo.take 1, rfl⟩
    · split at hstep <;> cases hstep <;> exact ⟨rfl, hkeep⟩
  all_goals cases hstep <;> exact ⟨rfl, hkeep⟩

theorem Failed.stepConsumer (h : s.Failed) (hstep : s.stepConsumer err = some s') : s'.Failed := by
  obtain ⟨ring, pc, log, done, todo, cons, next, prod, calls⟩ := s
  cases pc with
  | publishErr =>
    cases hstep
    exact h
  | idle => cases hstep
  | _ => exact False.elim h

/-- Each step of the call brings the records nearer, or the callback fails. -/
theorem Sure.stepConsumer (hinv : s.Inv n)
    (h : s.Sure front k) (hstep : s.stepConsumer err = some s') :
    s'.Failed ∨ (∃ rest, s'.done = s.done ++ front ++ rest) ∨
      ∃ front', s.done ++ front = s'.done ++ front' ∧ s'.Sure front' (k - 1) := by
  obtain ⟨ring, pc, log, done, todo, cons, next, prod, calls⟩ := s
  cases pc with
  | idle | loadCons | loadProd | publishErr => exact False.elim h
  | scan cnt consPos prodPos got =>
    obtain ⟨hahead, hk⟩ := h
    cases front with
    | nil =>
      obtain ⟨-, added, hdone⟩ := stepConsumer_done hstep
      exact .inr (.inl ⟨added, by rw [hdone, append_nil]⟩)
    | cons r front =>
      have hlt : consPos < prodPos := hinv.pc.2.1 ▸ hahead.lt
      obtain ⟨back, htodo⟩ := hahead.1
      have hbusy := hahead.2.1 r mem_cons_self
      rw [length_cons] at hk
      rcases hinv.scan_cases rfl hstep with ⟨hnlt, -⟩ | ⟨r', rest, -, htodo', hcases⟩
      · exact absurd hlt hnlt
      obtain ⟨rfl, rfl⟩ := cons_eq_cons.1 (htodo'.symm.trans htodo)
      have hsplit : done ++ r' :: front = done ++ [r'] ++ front := by simp
      rcases hcases with ⟨hstate, -⟩ | ⟨-, rfl⟩ | ⟨-, rfl⟩
      · exact absurd hstate hbusy
      · exact .inr (.inr ⟨front, hsplit, hahead.pass htodo _, by omega⟩)
      · exact .inr (.inr ⟨front, hsplit, hahead.pass htodo _, by omega⟩)
  | callback cnt consPos prodPos sample len =>
    cases hstep
    by_cases herr : err < 0
    · rw [if_pos herr]
      exact .inl herr
    · rw [if_neg herr]
      exact .inr (.inr ⟨front, rfl, h.1, le_sub_one_of_lt h.2⟩)
  | publish cnt consPos prodPos =>
    cases hstep
    exact .inr (.inr ⟨front, rfl, h.1, le_sub_one_of_lt h.2⟩)

/-- In the call with this number: it has failed, or the records of `target` are passed or will be
within `k` of its steps. -/
structure Coming (n call : Nat) (target : List KernRec) (k : Nat) (s : RingState w) : Prop where
  inv : s.Inv n
  calls : call ≤ s.calls
  cases : call < s.calls ∨ s.Failed ∨ (∃ rest, s.done = target ++ rest) ∨
    ∃ front, target = s.done ++ front ∧ s.Sure front k

theorem Coming.step {call : Nat} (h : s.Coming n call target k)
    (hstep : s.step e = some s') : s'.Coming n call target (if e.isConsumer then k - 1 else k) := by
  obtain ⟨hinv, hcases⟩ := h.inv.step_cases hstep
  have hcalls := h.calls
  rcases hcases with ⟨rfl, hcall, -⟩ | ⟨err, rfl, hconsumer⟩ | ⟨hother, hproduces⟩
  · exact ⟨hinv, by omega, .inl (by omega)⟩
  · obtain ⟨hsame, added, hdone⟩ := stepConsumer_done hconsumer
    refine ⟨hinv, by omega, ?_⟩
    rcases h.cases with hlater | hfailed | ⟨rest, hrest⟩ | ⟨front, htarget, hsure⟩
    · exact .inl (by omega)
    · exact .inr (.inl (hfailed.stepConsumer hconsumer))
    · exact .inr (.inr (.inl ⟨rest ++ added, by rw [hdone, hrest, append_assoc]⟩))
    · rw [htarget]
      exact .inr (hsure.stepConsumer h.inv hconsumer)
  · rw [hother]
    refine ⟨hinv, hproduces.calls ▸ hcalls, ?_⟩
    rw [hproduces.calls, hproduces.done]
    rcases h.cases with hlater | hfailed | hpassed | ⟨front, htarget, hsure⟩
    · exact .inl hlater
    · refine .inr (.inl ?_)
      unfold Failed at hfailed ⊢
      rw [hproduces.pc]
      exact hfailed
    · exact .inr (.inr (.inl hpassed))
    · exact .inr (.inr (.inr ⟨front, htarget, hproduces.sure hsure⟩))

theorem Coming.passed (h : s.Coming n s'.calls target k)
    (hrun : s.run events = some s') (hfailed : ¬ s'.Failed)
    (hend : s'.Returned ∨ k ≤ events.countP RingEvent.isConsumer) :
    ∃ rest, s'.done = target ++ rest := by
  have hcoming := runEvents_rank (Coming n s'.calls target) RingEvent.isConsumer
    (fun _ _ _ _ hbefore hstep => hbefore.step hstep) h hrun
  rcases hcoming.cases with hlater | hfailed' | hpassed | ⟨front, htarget, hsure⟩
  · omega
  · exact absurd hfailed' hfailed
  · exact hpassed
  · -- The call is still on its way to `front`, so there is nothing left in it.
    have hfront : front = [] := by
      rcases hend with ⟨result, hidle⟩ | hcount
      · simp [Sure, hidle] at hsure
      · have hlen := hsure.length_le
        exact eq_nil_of_length_eq_zero (by omega)
    exact ⟨[], by rw [htarget, hfront, append_nil, append_nil]⟩

/-! ## What holds in every run -/

/-- Once the call has read the producer position in state `s`, it goes past all records that are
ready in `s`, whatever the producer does: they are passed when the call returns, and after three of
its steps for each, unless the callback fails. -/
def DeliversReady (s : RingState w) : Prop :=
  ∀ err events s', s.run (.consumer err :: events) = some s' → s'.calls = s.calls → ¬ s'.Failed →
    (s'.Returned ∨ 3 * s.ready.length ≤ events.countP RingEvent.isConsumer) →
    ∃ rest, s'.done = s.done ++ s.ready ++ rest

theorem ready_append (s : RingState w) : ∃ back, s.todo = s.ready ++ back :=
  ⟨_, (takeWhile_append_dropWhile).symm⟩

theorem not_busy_of_mem_ready (hr : r ∈ s.ready) : r.state ≠ .busy := by
  have hmem := mem_takeWhile_imp hr
  simpa using hmem

/-- The positions are in the order of the counters as long as no multiple of `2 ^ w` lies between
them. -/
theorem Inv.turn_of_le (h : s.Inv n) (hcons : s.cons = s.next)
    (hle : s.ring.consumerPos ≤ s.ring.producerPos) : s.next / 2 ^ w = s.prod / 2 ^ w := by
  have hlt := h.size.lt_two_pow h.width
  have hwindow := h.window
  have horder := h.laid.chained.le
  rw [h.consumerPos, h.producerPos, BitVec.le_def, BitVec.toNat_ofNat, BitVec.toNat_ofNat,
    hcons] at hle
  have hnext := div_add_mod s.next (2 ^ w)
  have hprod := div_add_mod s.prod (2 ^ w)
  apply Nat.le_antisymm (Nat.div_le_div_right horder)
  by_contra hnot
  have hsucc : 2 ^ w * (s.next / 2 ^ w) + 2 ^ w ≤ 2 ^ w * (s.prod / 2 ^ w) := by
    rw [← mul_succ]
    exact mul_le_mul_left _ (by omega)
  omega

theorem Inv.deliversReady (h : s.Inv n) (hpc : s.pc = .loadProd cnt consPos)
    (hle : s.ring.consumerPos ≤ s.ring.producerPos) : s.DeliversReady := by
  intro err events s' hrun hcall hfailed hend
  have hholds := h.pc
  rw [hpc] at hholds
  obtain ⟨s₁, hfirst, hrest⟩ := runEvents_cons hrun
  obtain ⟨hinv, -⟩ := h.step_cases hfirst
  have hstep : s.stepConsumer err = some s₁ := hfirst
  simp only [RingState.stepConsumer, hpc, Option.some.injEq] at hstep
  subst hstep
  obtain ⟨back, hback⟩ := s.ready_append
  refine Coming.passed ⟨hinv, le_of_eq hcall, .inr (.inr (.inr ⟨s.ready, rfl, ?_, le_rfl⟩))⟩ hrest
    hfailed hend
  refine ⟨⟨back, hback⟩, fun r hr => not_busy_of_mem_ready hr, s.todo.length, s.prod, ?_,
    le_rfl, h.producerPos, h.chained_todo, h.turn_of_le hholds.1 hle⟩
  rw [hback, length_append]
  exact le_add_right _ _

/-- Behind a wrap of the producer position the call returns at once. -/
theorem Inv.not_deliversReady (h : s.Inv n)
    (hpc : s.pc = .loadProd cnt consPos) (hready : s.ready ≠ [])
    (hlt : s.ring.producerPos < s.ring.consumerPos) : ¬ s.DeliversReady := by
  intro hdelivers
  have hholds := h.pc
  rw [hpc] at hholds
  have hconsPos : consPos = s.ring.consumerPos := by rw [hholds.2, h.consumerPos, hholds.1]
  have hnot : ¬ consPos < s.ring.producerPos := by
    rw [hconsPos]
    exact BitVec.lt_asymm hlt
  have hrun : s.run [.consumer 0, .consumer 0] =
      some { s with pc := .idle (some (cnt : Int)) } := by
    simp [RingState.run, runEvents, RingState.step, RingState.stepConsumer, hpc, hnot]
  obtain ⟨rest, hrest⟩ := hdelivers 0 _ _ hrun rfl (by simp [Failed]) (.inl ⟨_, rfl⟩)
  have hlen := congrArg length hrest
  rw [length_append, length_append] at hlen
  have hpos := length_pos_of_ne_nil hready
  have hsame : s.done.length = s.done.length + s.ready.length + rest.length := hlen
  omega

/-- In every run: the callback has been called for the records passed that are not discarded, in
the order of their reservation, each once, and none of them is busy; after an error of the callback
the next record is the one behind the record that it was called for; and a call delivers what is
ready unless the producer position has wrapped around and the consumer position has not. -/
theorem ringbufProcessRing_iff (hw : 32 ≤ w) (hn : RingSize n) (pos : Nat) (data : Nat → Byte)
    (events : List RingEvent) (hrun : (init w n pos data).run events = some s) :
    s.log ++ s.inFlight = delivered n s.done ∧
      (∀ r ∈ s.done, r.state ≠ .busy) ∧
      (∀ err < 0, s.pc = .idle (some err) →
        ∃ front r, s.done = front ++ [r] ∧ r.state = .committed false ∧
          s.ring.consumerPos = BitVec.ofNat w r.stop ∧ ∀ r' ∈ s.todo.head?, r'.pos = r.stop) ∧
      ∀ cnt consPos, s.pc = .loadProd cnt consPos →
        (s.DeliversReady ↔ s.ready = [] ∨ s.ring.consumerPos ≤ s.ring.producerPos) := by
  have h := (inv_init hw hn pos data).run hrun
  refine ⟨h.log, h.passed, ?_, ?_⟩
  · intro err herr hpc
    have hholds := h.pc
    rw [hpc] at hholds
    obtain ⟨front, r, hdone, hstate, hstop⟩ := hholds.2 err herr rfl
    refine ⟨front, r, hdone, hstate, by rw [h.consumerPos, hholds.1, hstop], ?_⟩
    intro r' hr'
    obtain ⟨rest, htodo⟩ := List.head?_eq_some_iff.1 hr'
    have hchained := h.laid.chained
    rw [htodo] at hchained
    rw [hstop]
    exact hchained.1
  · intro cnt consPos hpc
    constructor
    · intro hdelivers
      by_contra hnot
      rw [not_or, BitVec.not_le] at hnot
      exact h.not_deliversReady hpc hnot.1 hnot.2 hdelivers
    · rintro (hready | hle)
      · intro err events s' hrun' hcall hfailed _
        rw [hready, List.append_nil]
        exact Coming.passed (k := 0) ⟨h, hcall.le, .inr (.inr (.inl ⟨[], (append_nil _).symm⟩))⟩
          hrun' hfailed (.inr (zero_le _))
      · exact h.deliversReady hpc hle

/-- One record is reserved and committed, and a call goes on to read the producer position. -/
def commitAndCall : List RingEvent := [.reserve 8 0, .commit 0 false, .call, .consumer 0]

theorem ringbufProcessRing_iff_first :
    ∃ s, (init 64 4096 0 fun _ => 0).run commitAndCall = some s ∧ s.ready.length = 1 ∧
      s.DeliversReady := by
  have hsize : RingSize 4096 := ⟨12, by decide⟩
  have hrun := ringbufProcessRing_iff (by decide) hsize 0 (fun _ => 0) commitAndCall
    (show (init 64 4096 0 fun _ => 0).run commitAndCall = some _ from rfl)
  exact ⟨_, rfl, rfl, (hrun.2.2.2 0 0 rfl).2 (.inr (by decide))⟩

/-- What a call returns for a committed record that ends where the positions wrap, what it has
delivered and what is left. -/
def callAtWrap (w : Nat) : Option (ProcessPc w × List (Nat × BitVec 32) × List RecState) :=
  ((init w 4096 (2 ^ w - 16) fun _ => 0).run (commitAndCall ++ [.consumer 0, .consumer 0])).map
    fun s => (s.pc, s.log, s.todo.map (·.state))

theorem ringbufProcessRing_stuck :
    callAtWrap 32 = some (.idle (some 0), [], [.committed false]) ∧
      callAtWrap 64 = some (.idle (some 0), [], [.committed false]) :=
  ⟨rfl, rfl⟩

end RingState

end LinuxKernel.Bpf
