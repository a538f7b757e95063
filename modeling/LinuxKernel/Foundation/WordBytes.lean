import LinuxKernel.Foundation.CString

/-!
# 32-bit words in memory

A word lies in memory as four bytes, least significant first. `toWords` reads a region of memory
as words, `ofWords` is the region that holds them; `bswap32` is the word whose bytes are in the
opposite order.
-/

namespace LinuxKernel.Foundation

open BitVec List

def wordByte (w : BitVec 32) (i : Nat) : Byte := BitVec.ofNat 8 (w.toNat / 256 ^ i)

def wordBytes (w : BitVec 32) : List Byte :=
  [wordByte w 0, wordByte w 1, wordByte w 2, wordByte w 3]

def bytesWord (b₀ b₁ b₂ b₃ : Byte) : BitVec 32 :=
  BitVec.ofNat 32 (b₀.toNat + 256 * b₁.toNat + 65536 * b₂.toNat + 16777216 * b₃.toNat)

def bswap32 (w : BitVec 32) : BitVec 32 :=
  bytesWord (wordByte w 3) (wordByte w 2) (wordByte w 1) (wordByte w 0)

def bytesHalf (b₀ b₁ : Byte) : BitVec 16 := BitVec.ofNat 16 (b₀.toNat + 256 * b₁.toNat)

def halfBytes (h : BitVec 16) : List Byte :=
  [BitVec.ofNat 8 h.toNat, BitVec.ofNat 8 (h.toNat / 256)]

def bswap16 (h : BitVec 16) : BitVec 16 :=
  bytesHalf (BitVec.ofNat 8 (h.toNat / 256)) (BitVec.ofNat 8 h.toNat)

/-- The words of a region; bytes behind the last whole word are left out. -/
def toWords : List Byte → List (BitVec 32)
  | b₀ :: b₁ :: b₂ :: b₃ :: rest => bytesWord b₀ b₁ b₂ b₃ :: toWords rest
  | _ => []

def ofWords (ws : List (BitVec 32)) : List Byte := ws.flatMap wordBytes

/-! ## Words -/

theorem bytesWord_wordByte (w : BitVec 32) :
    bytesWord (wordByte w 0) (wordByte w 1) (wordByte w 2) (wordByte w 3) = w := by
  apply eq_of_toNat_eq
  simp only [bytesWord, wordByte, toNat_ofNat]
  omega

theorem wordByte_bytesWord (b₀ b₁ b₂ b₃ : Byte) :
    wordByte (bytesWord b₀ b₁ b₂ b₃) 0 = b₀ ∧ wordByte (bytesWord b₀ b₁ b₂ b₃) 1 = b₁ ∧
      wordByte (bytesWord b₀ b₁ b₂ b₃) 2 = b₂ ∧ wordByte (bytesWord b₀ b₁ b₂ b₃) 3 = b₃ := by
  refine ⟨?_, ?_, ?_, ?_⟩ <;>
    · apply eq_of_toNat_eq
      simp only [bytesWord, wordByte, toNat_ofNat]
      omega

@[simp] theorem bswap32_bswap32 (w : BitVec 32) : bswap32 (bswap32 w) = w := by
  obtain ⟨h₀, h₁, h₂, h₃⟩ :=
    wordByte_bytesWord (wordByte w 3) (wordByte w 2) (wordByte w 1) (wordByte w 0)
  rw [bswap32, bswap32, h₀, h₁, h₂, h₃, bytesWord_wordByte]

theorem toNat_bytesHalf (b₀ b₁ : Byte) : (bytesHalf b₀ b₁).toNat = b₀.toNat + 256 * b₁.toNat := by
  rw [bytesHalf, toNat_ofNat]
  omega

@[simp] theorem bswap16_bswap16 (h : BitVec 16) : bswap16 (bswap16 h) = h := by
  have hswap : (bswap16 h).toNat = h.toNat / 256 % 256 + 256 * (h.toNat % 256) := by
    rw [bswap16, toNat_bytesHalf, toNat_ofNat, toNat_ofNat]
  have hhigh : (bswap16 h).toNat / 256 = h.toNat % 256 := by omega
  have hlow : (bswap16 h).toNat % 256 = h.toNat / 256 := by omega
  apply eq_of_toNat_eq
  rw [bswap16, toNat_bytesHalf, toNat_ofNat, toNat_ofNat]
  omega

theorem bytesHalf_halfBytes (h : BitVec 16) :
    bytesHalf (BitVec.ofNat 8 h.toNat) (BitVec.ofNat 8 (h.toNat / 256)) = h := by
  apply eq_of_toNat_eq
  simp only [bytesHalf, toNat_ofNat]
  omega

/-! ## Regions -/

variable (ws : List (BitVec 32))

@[simp] theorem length_ofWords : (ofWords ws).length = 4 * ws.length := by
  induction ws with
  | nil => rfl
  | cons w ws ih =>
    show (wordBytes w ++ ofWords ws).length = _
    rw [length_append, ih, length_cons]
    show 4 + 4 * ws.length = _
    omega

theorem toWords_ofWords_append (rest : List Byte) :
    toWords (ofWords ws ++ rest) = ws ++ toWords rest := by
  induction ws with
  | nil => rfl
  | cons w ws ih =>
    show bytesWord (wordByte w 0) (wordByte w 1) (wordByte w 2) (wordByte w 3) ::
      toWords (ofWords ws ++ rest) = _
    rw [bytesWord_wordByte, ih, List.cons_append]

@[simp] theorem toWords_ofWords : toWords (ofWords ws) = ws := by
  have h := toWords_ofWords_append ws []
  simpa [toWords] using h

theorem length_toWords (bs : List Byte) : (toWords bs).length = bs.length / 4 := by
  induction bs using toWords.induct with
  | case1 b₀ b₁ b₂ b₃ rest ih =>
    rw [toWords, length_cons]
    simp only [length_cons]
    omega
  | case2 bs hshort =>
    match bs with
    | [] => rfl
    | [_] | [_, _] | [_, _, _] => simp [toWords]
    | b₀ :: b₁ :: b₂ :: b₃ :: rest => exact absurd rfl (hshort b₀ b₁ b₂ b₃ rest)

end LinuxKernel.Foundation
