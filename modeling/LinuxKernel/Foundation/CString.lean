import Mathlib

/-!
# NUL-terminated strings in a buffer

A string in memory is read from an offset up to the first NUL. The lemmas say when a read does not
depend on what lies behind a terminated part of the buffer, and what a write leaves alone.
-/

namespace LinuxKernel.Foundation

open List

abbrev Byte := BitVec 8

/-- What a `const char *` points to: bytes before the terminating NUL. -/
structure CStr where
  bytes : List Byte
  nul_notMem : 0 ∉ bytes
  deriving DecidableEq

def CStr.stored (s : CStr) : List Byte := s.bytes ++ [0]

def cstrAt (buf : List Byte) (off : Nat) : List Byte :=
  (buf.drop off).takeWhile (· ≠ 0)

def writeAt {α : Type} (buf : List α) (off : Nat) (src : List α) : List α :=
  buf.take off ++ (src ++ buf.drop (off + src.length))

def Terminated (buf : List Byte) : Prop := buf = [] ∨ buf.getLast? = some 0

instance (buf : List Byte) : Decidable (Terminated buf) :=
  inferInstanceAs (Decidable (_ ∨ _))

@[simp] theorem CStr.length_stored (s : CStr) : s.stored.length = s.bytes.length + 1 := by
  simp [stored]

theorem CStr.bytes_injective {s t : CStr} (h : s.bytes = t.bytes) : s = t := by
  cases s
  cases t
  simpa using h

/-! ## Writing -/

section
variable {α : Type} {buf src : List α} {off n : Nat}

theorem length_writeAt (h : off + src.length ≤ buf.length) :
    (writeAt buf off src).length = buf.length := by
  simp only [writeAt, length_append, length_take, length_drop]
  omega

theorem take_writeAt (hn : n ≤ off) (hoff : off ≤ buf.length) :
    (writeAt buf off src).take n = buf.take n := by
  have hlen : n ≤ (buf.take off).length := by
    rw [length_take]
    omega
  rw [writeAt, take_append_of_le_length hlen, take_take, Nat.min_eq_left hn]

theorem take_writeAt_self (hoff : off ≤ buf.length) :
    (writeAt buf off src).take (off + src.length) = buf.take off ++ src := by
  have hlen : (buf.take off).length = off := by
    rw [length_take]
    omega
  rw [writeAt, take_append, hlen, take_of_length_le (by omega), Nat.add_sub_cancel_left, take_left]

theorem drop_writeAt (hoff : off ≤ buf.length) :
    (writeAt buf off src).drop off = src ++ buf.drop (off + src.length) := by
  have hlen : (buf.take off).length = off := by
    rw [length_take]
    omega
  rw [writeAt, drop_append, hlen, Nat.sub_self, drop_zero, drop_of_length_le (by omega), nil_append]

end

/-! ## Reading -/

theorem takeWhile_stored (s : CStr) (rest : List Byte) :
    (s.stored ++ rest).takeWhile (· ≠ 0) = s.bytes := by
  have hall : ∀ b ∈ s.bytes, decide (b ≠ 0) = true := by
    intro b hb
    have hne : b ≠ 0 := fun h0 => s.nul_notMem (h0 ▸ hb)
    simpa using hne
  rw [CStr.stored, append_assoc, takeWhile_append_of_pos hall]
  simp

theorem cstrAt_writeAt (buf : List Byte) (s : CStr) {off : Nat} (hoff : off ≤ buf.length) :
    cstrAt (writeAt buf off s.stored) off = s.bytes := by
  rw [cstrAt, drop_writeAt hoff]
  exact takeWhile_stored s _

theorem nul_notMem_cstrAt (buf : List Byte) (off : Nat) : (0 : Byte) ∉ cstrAt buf off := by
  intro h
  have hne := mem_takeWhile_imp h
  simp at hne

def cstrOf (buf : List Byte) (off : Nat) : CStr := ⟨cstrAt buf off, nul_notMem_cstrAt buf off⟩

theorem getLast?_of_cons {b : Byte} {buf : List Byte} (hb : b ≠ 0)
    (hlast : (b :: buf).getLast? = some 0) : buf.getLast? = some 0 := by
  cases buf with
  | nil => exact absurd (by simpa using hlast) hb
  | cons c buf => simpa using hlast

theorem takeWhile_cons_of_ne {b : Byte} (hb : b ≠ 0) (buf : List Byte) :
    (b :: buf).takeWhile (· ≠ 0) = b :: buf.takeWhile (· ≠ 0) := by
  rw [takeWhile_cons, if_pos (by simpa using hb)]

theorem takeWhile_append_of_terminated {front : List Byte} (back : List Byte)
    (hlast : front.getLast? = some 0) :
    (front ++ back).takeWhile (· ≠ 0) = front.takeWhile (· ≠ 0) := by
  induction front with
  | nil => simp at hlast
  | cons b front ih =>
    by_cases hb : b = 0
    · simp [hb]
    · rw [cons_append, takeWhile_cons_of_ne hb, takeWhile_cons_of_ne hb,
        ih (getLast?_of_cons hb hlast)]

theorem getLast?_drop {buf : List Byte} {off : Nat} (hoff : off < buf.length) :
    (buf.drop off).getLast? = buf.getLast? := by
  rw [List.getLast?_drop, if_neg (by omega)]

section
variable {buf buf' : List Byte} {n off : Nat}

theorem cstrAt_take (hterm : Terminated (buf.take n)) (hoff : off < (buf.take n).length) :
    cstrAt buf off = cstrAt (buf.take n) off := by
  have hlast : (buf.take n).getLast? = some 0 := by
    rcases hterm with hnil | hlast
    · rw [hnil] at hoff
      simp at hoff
    · exact hlast
  have hlast' : ((buf.take n).drop off).getLast? = some 0 := by rw [getLast?_drop hoff, hlast]
  have hsplit : buf.drop off = (buf.take n).drop off ++ buf.drop n := by
    conv_lhs => rw [← take_append_drop n buf]
    rw [drop_append_of_le_length (by omega)]
  rw [cstrAt, hsplit, takeWhile_append_of_terminated _ hlast', cstrAt]

theorem cstrAt_congr (hterm : Terminated (buf.take n)) (heq : buf'.take n = buf.take n)
    (hoff : off < (buf.take n).length) : cstrAt buf' off = cstrAt buf off := by
  rw [cstrAt_take hterm hoff, cstrAt_take (heq ▸ hterm) (heq ▸ hoff), heq]

theorem terminated_append_stored (front : List Byte) (s : CStr) :
    Terminated (front ++ s.stored) := by
  right
  simp [CStr.stored]

end

end LinuxKernel.Foundation
