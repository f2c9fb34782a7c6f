import Mathlib.Tactic

/-!
# Byte buffers and little-endian words

A buffer of fixed size with byte access at any offset, and 32-bit words stored
in it in little-endian order.  Offsets past the end read as zero and are not
written.
-/

namespace Xv6.Lib

/-- A buffer of `n` bytes. -/
abbrev Bytes (n : Nat) : Type :=
  Fin n → UInt8

section Bytes

variable {n : Nat} (b : Bytes n)

def getByte (i : Nat) : UInt8 :=
  if h : i < n then b ⟨i, h⟩ else 0

def setByte (i : Nat) (v : UInt8) : Bytes n :=
  fun j => if j.val = i then v else b j

/-- The 32-bit word at an offset. -/
def readWord (off : Nat) : Nat :=
  (getByte b off).toNat + 256 * (getByte b (off + 1)).toNat +
    65536 * (getByte b (off + 2)).toNat + 16777216 * (getByte b (off + 3)).toNat

/-- Store the low 32 bits of `w`. -/
def writeWord (off w : Nat) : Bytes n :=
  setByte
    (setByte
      (setByte (setByte b off (UInt8.ofNat w)) (off + 1) (UInt8.ofNat (w / 256)))
      (off + 2) (UInt8.ofNat (w / 65536)))
    (off + 3) (UInt8.ofNat (w / 16777216))

variable {b}

theorem getByte_setByte {i : Nat} (hi : i < n) (v : UInt8) (j : Nat) :
    getByte (setByte b i v) j = if j = i then v else getByte b j := by
  unfold getByte setByte
  by_cases hj : j < n
  · simp [hj]
  · have hne : j ≠ i := by omega
    simp [hj, hne]

/-- What a stored word leaves at every offset. -/
theorem getByte_writeWord {off : Nat} (hoff : off + 4 ≤ n) (w j : Nat) :
    getByte (writeWord b off w) j = if j = off + 3 then UInt8.ofNat (w / 16777216)
      else if j = off + 2 then UInt8.ofNat (w / 65536)
      else if j = off + 1 then UInt8.ofNat (w / 256)
      else if j = off then UInt8.ofNat w
      else getByte b j := by
  unfold writeWord
  rw [getByte_setByte (by omega), getByte_setByte (by omega), getByte_setByte (by omega),
    getByte_setByte (by omega)]

theorem readWord_lt (off : Nat) : readWord b off < 2 ^ 32 := by
  unfold readWord
  have h0 := (getByte b off).toNat_lt
  have h1 := (getByte b (off + 1)).toNat_lt
  have h2 := (getByte b (off + 2)).toNat_lt
  have h3 := (getByte b (off + 3)).toNat_lt
  omega

@[simp] theorem readWord_writeWord {off w : Nat} (hoff : off + 4 ≤ n) (hw : w < 2 ^ 32) :
    readWord (writeWord b off w) off = w := by
  unfold readWord
  simp only [getByte_writeWord hoff]
  simp
  omega

theorem readWord_writeWord_of_disjoint {off off' : Nat} (hoff : off + 4 ≤ n)
    (hdisj : off + 4 ≤ off' ∨ off' + 4 ≤ off) (w : Nat) :
    readWord (writeWord b off w) off' = readWord b off' := by
  have hbyte : ∀ k < 4, getByte (writeWord b off w) (off' + k) = getByte b (off' + k) := by
    intro k hk
    rw [getByte_writeWord hoff, if_neg (by omega), if_neg (by omega), if_neg (by omega),
      if_neg (by omega)]
  unfold readWord
  rw [hbyte 1 (by omega), hbyte 2 (by omega), hbyte 3 (by omega)]
  have h0 := hbyte 0 (by omega)
  rw [Nat.add_zero] at h0
  rw [h0]

/-- Copy `len` bytes of a record to an offset. -/
def blit (b : Bytes n) (off len : Nat) (g : Nat → UInt8) : Bytes n :=
  fun j => if off ≤ j.val ∧ j.val < off + len then g (j.val - off) else b j

theorem getByte_blit {off len : Nat} (hoff : off + len ≤ n) (g : Nat → UInt8) (j : Nat) :
    getByte (blit b off len g) j =
      if off ≤ j ∧ j < off + len then g (j - off) else getByte b j := by
  unfold getByte blit
  by_cases hj : j < n
  · simp [hj]
  · have hout : ¬(off ≤ j ∧ j < off + len) := by omega
    simp [hj, hout]

end Bytes

/-- The 16-bit field at an offset of a record. -/
def halfOf (g : Nat → UInt8) (off : Nat) : Nat :=
  (g off).toNat + 256 * (g (off + 1)).toNat

/-- The 32-bit field at an offset of a record. -/
def wordOf (g : Nat → UInt8) (off : Nat) : Nat :=
  (g off).toNat + 256 * (g (off + 1)).toNat + 65536 * (g (off + 2)).toNat +
    16777216 * (g (off + 3)).toNat

/-- Byte `r` of a 16-bit field. -/
def halfByte (v r : Nat) : UInt8 :=
  if r = 0 then UInt8.ofNat v else UInt8.ofNat (v / 256)

/-- Byte `r` of a 32-bit field. -/
def wordByte (v r : Nat) : UInt8 :=
  if r = 0 then UInt8.ofNat v
  else if r = 1 then UInt8.ofNat (v / 256)
  else if r = 2 then UInt8.ofNat (v / 65536)
  else UInt8.ofNat (v / 16777216)

theorem wordOf_lt (g : Nat → UInt8) (off : Nat) : wordOf g off < 2 ^ 32 := by
  have h0 := (g off).toNat_lt
  have h1 := (g (off + 1)).toNat_lt
  have h2 := (g (off + 2)).toNat_lt
  have h3 := (g (off + 3)).toNat_lt
  unfold wordOf
  omega

theorem halfOf_of_bytes {g : Nat → UInt8} {off v : Nat} (hv : v < 2 ^ 16)
    (hg : ∀ r < 2, g (off + r) = halfByte v r) : halfOf g off = v := by
  have h0 : g off = halfByte v 0 := hg 0 (by omega)
  unfold halfOf
  rw [h0, hg 1 (by omega)]
  simp [halfByte]
  omega

theorem wordOf_of_bytes {g : Nat → UInt8} {off v : Nat} (hv : v < 2 ^ 32)
    (hg : ∀ r < 4, g (off + r) = wordByte v r) : wordOf g off = v := by
  have h0 : g off = wordByte v 0 := hg 0 (by omega)
  unfold wordOf
  rw [h0, hg 1 (by omega), hg 2 (by omega), hg 3 (by omega)]
  simp [wordByte]
  omega

theorem halfOf_congr {g g' : Nat → UInt8} {off off' : Nat}
    (h : ∀ r < 2, g (off + r) = g' (off' + r)) : halfOf g off = halfOf g' off' := by
  have h0 : g off = g' off' := h 0 (by omega)
  unfold halfOf
  rw [h0, h 1 (by omega)]

theorem wordOf_congr {g g' : Nat → UInt8} {off off' : Nat}
    (h : ∀ r < 4, g (off + r) = g' (off' + r)) : wordOf g off = wordOf g' off' := by
  have h0 : g off = g' off' := h 0 (by omega)
  unfold wordOf
  rw [h0, h 1 (by omega), h 2 (by omega), h 3 (by omega)]

end Xv6.Lib
