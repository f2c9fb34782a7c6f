import Xv6.Log.Cache

/-!
# The disk layout

fs.h: where the inodes and the free map are, `struct dinode` in its inode block,
the bits of the free map, and `struct dirent`.  The disk is a function of the
block number; there is one device.
-/

namespace Xv6.Fs

open Lib Log

variable {i b j off r c k : Nat} {z : Int} {g g' : Nat → UInt8} {d : Dinode} {disk' : Disk}

/-- The blocks of the device. -/
abbrev Disk := Nat → Block

abbrev ROOTINO : Nat := 1
abbrev NDIRECT : Nat := 12
abbrev NINDIRECT : Nat := 128
abbrev MAXFILE : Nat := NDIRECT + NINDIRECT

/-- The types of an inode (stat.h); an inode of type 0 is free. -/
abbrev T_DIR : Int := 1
abbrev T_FILE : Int := 2
abbrev T_DEV : Int := 3

structure Superblock where
  size : Nat
  nblocks : Nat
  ninodes : Nat
  nlog : Nat
  logstart : Nat
  inodestart : Nat
  bmapstart : Nat
deriving DecidableEq, Repr

namespace Superblock

variable (sb : Superblock)

def IBLOCK (i : Nat) : Nat :=
  i / 8 + sb.inodestart

def BBLOCK (b : Nat) : Nat :=
  b / 4096 + sb.bmapstart

def dataStart : Nat :=
  sb.bmapstart + sb.size / 4096 + 1

/-- The data region. -/
def IsData (b : Nat) : Prop :=
  sb.dataStart ≤ b ∧ b < sb.size

instance (b : Nat) : Decidable (sb.IsData b) := by
  unfold IsData
  infer_instance

def IsInum (i : Nat) : Prop :=
  1 ≤ i ∧ i < sb.ninodes

instance (i : Nat) : Decidable (sb.IsInum i) := by
  unfold IsInum
  infer_instance

/-- The inode blocks, the free map and the data follow one another, and numbers fit the fields
that hold them. -/
structure Ok : Prop where
  inodes : sb.inodestart + sb.ninodes / 8 + 1 ≤ sb.bmapstart
  data : sb.dataStart ≤ sb.size
  size : sb.size < 2 ^ 31
  root : sb.IsInum ROOTINO
  inum : sb.ninodes ≤ 2 ^ 16

variable {sb}

theorem iblock_lt (h : sb.Ok) (hi : sb.IsInum i) : sb.IBLOCK i < sb.bmapstart := by
  have hin := h.inodes
  have hlt := hi.2
  unfold IBLOCK
  omega

theorem le_bblock (b : Nat) : sb.bmapstart ≤ sb.BBLOCK b := by
  unfold BBLOCK
  omega

theorem bblock_lt (hb : b < sb.size) : sb.BBLOCK b < sb.dataStart := by
  unfold BBLOCK dataStart
  omega

theorem bmapstart_lt (sb : Superblock) : sb.bmapstart < sb.dataStart := by
  unfold dataStart
  omega

theorem IsData.ne_zero (h : sb.IsData b) : b ≠ 0 := by
  have h1 := h.1
  have h2 := bmapstart_lt sb
  omega

end Superblock

/-- The value of a C `short` after an assignment. -/
@[irreducible] def short (z : Int) : Int :=
  Int.bmod z 65536

def shortBits (z : Int) : Nat :=
  (z % 65536).toNat

def shortOf (g : Nat → UInt8) (off : Nat) : Int :=
  short (halfOf g off)

def IsShort (z : Int) : Prop :=
  -32768 ≤ z ∧ z < 32768

theorem isShort_short (z : Int) : IsShort (short z) := by
  unfold IsShort short
  constructor
  · have hle := Int.le_bmod (m := 65536) (x := z) (by omega)
    omega
  · have hlt := Int.bmod_lt (m := 65536) (x := z) (by omega)
    omega

theorem IsShort.short_eq (h : IsShort z) : short z = z := by
  unfold short
  exact Int.bmod_eq_of_le (by have := h.1; omega) (by have := h.2; omega)

theorem isShort_zero : IsShort 0 := by
  constructor
  · omega
  · omega

theorem shortBits_lt (z : Int) : shortBits z < 2 ^ 16 := by
  unfold shortBits
  omega

theorem short_shortBits (z : Int) : short (shortBits z) = short z := by
  have hcast : ((shortBits z : Nat) : Int) = z % 65536 := by
    unfold shortBits
    omega
  unfold short
  rw [hcast]
  exact Int.emod_bmod z 65536

theorem shortOf_of_bytes (hz : IsShort z)
    (hg : ∀ r < 2, g (off + r) = halfByte (shortBits z) r) : shortOf g off = z := by
  unfold shortOf
  rw [halfOf_of_bytes (shortBits_lt z) hg, short_shortBits]
  exact hz.short_eq

/-- `struct dinode`; `addrs` has 13 entries and is zero elsewhere. -/
@[ext] structure Dinode where
  type : Int
  major : Int
  minor : Int
  nlink : Int
  size : Nat
  addrs : Nat → Nat

namespace Dinode

def zero : Dinode where
  type := 0
  major := 0
  minor := 0
  nlink := 0
  size := 0
  addrs := fun _ => 0

def byte (d : Dinode) (r : Nat) : UInt8 :=
  if r < 2 then halfByte (shortBits d.type) r
  else if r < 4 then halfByte (shortBits d.major) (r - 2)
  else if r < 6 then halfByte (shortBits d.minor) (r - 4)
  else if r < 8 then halfByte (shortBits d.nlink) (r - 6)
  else if r < 12 then wordByte d.size (r - 8)
  else wordByte (d.addrs ((r - 12) / 4)) ((r - 12) % 4)

def decode (g : Nat → UInt8) : Dinode where
  type := shortOf g 0
  major := shortOf g 2
  minor := shortOf g 4
  nlink := shortOf g 6
  size := wordOf g 8
  addrs := fun k => if k ≤ 12 then wordOf g (12 + 4 * k) else 0

/-- The values fit the fields. -/
structure Fits (d : Dinode) : Prop where
  type : IsShort d.type
  major : IsShort d.major
  minor : IsShort d.minor
  nlink : IsShort d.nlink
  size : d.size < 2 ^ 32
  addrs : ∀ k, d.addrs k < 2 ^ 32
  rest : ∀ k, 12 < k → d.addrs k = 0

theorem fits_decode (g : Nat → UInt8) :
    (decode g).Fits where
  type := isShort_short _
  major := isShort_short _
  minor := isShort_short _
  nlink := isShort_short _
  size := wordOf_lt g 8
  addrs := by
    intro k
    simp only [decode]
    split
    · exact wordOf_lt g _
    · omega
  rest := by
    intro k hk
    simp only [decode]
    rw [if_neg (by omega)]

theorem fits_zero : zero.Fits where
  type := isShort_zero
  major := isShort_zero
  minor := isShort_zero
  nlink := isShort_zero
  size := by decide
  addrs := by
    intro k
    simp [zero]
  rest := by
    intro k _
    rfl

theorem byte_addrs (d : Dinode) (k : Nat) (hr : r < 4) :
    d.byte (12 + 4 * k + r) = wordByte (d.addrs k) r := by
  unfold byte
  rw [if_neg (by omega), if_neg (by omega), if_neg (by omega), if_neg (by omega), if_neg (by omega)]
  have hdiv : (12 + 4 * k + r - 12) / 4 = k := by omega
  have hmod : (12 + 4 * k + r - 12) % 4 = r := by omega
  rw [hdiv, hmod]

theorem decode_byte (h : d.Fits) : decode d.byte = d := by
  ext
  · exact shortOf_of_bytes h.type fun r hr => by
      unfold byte
      rw [if_pos (by omega), Nat.zero_add]
  · exact shortOf_of_bytes h.major fun r hr => by
      unfold byte
      rw [if_neg (by omega), if_pos (by omega), Nat.add_sub_cancel_left]
  · exact shortOf_of_bytes h.minor fun r hr => by
      unfold byte
      rw [if_neg (by omega), if_neg (by omega), if_pos (by omega), Nat.add_sub_cancel_left]
  · exact shortOf_of_bytes h.nlink fun r hr => by
      unfold byte
      rw [if_neg (by omega), if_neg (by omega), if_neg (by omega), if_pos (by omega),
        Nat.add_sub_cancel_left]
  · exact wordOf_of_bytes h.size fun r hr => by
      unfold byte
      rw [if_neg (by omega), if_neg (by omega), if_neg (by omega), if_neg (by omega),
        if_pos (by omega), Nat.add_sub_cancel_left]
  · rename_i k
    simp only [decode]
    by_cases hk : k ≤ 12
    · rw [if_pos hk]
      exact wordOf_of_bytes (h.addrs k) fun r hr => byte_addrs d k hr
    · rw [if_neg hk, h.rest k (by omega)]

theorem decode_congr (h : ∀ r < 64, g r = g' r) : decode g = decode g' := by
  have hhalf : ∀ off, off + 2 ≤ 64 → shortOf g off = shortOf g' off := by
    intro off hoff
    unfold shortOf
    rw [halfOf_congr fun r hr => h (off + r) (by omega)]
  have hword : ∀ off, off + 4 ≤ 64 → wordOf g off = wordOf g' off := by
    intro off hoff
    exact wordOf_congr fun r hr => h (off + r) (by omega)
  unfold decode
  rw [hhalf 0 (by decide), hhalf 2 (by decide), hhalf 4 (by decide), hhalf 6 (by decide),
    hword 8 (by decide)]
  congr 1
  funext k
  by_cases hk : k ≤ 12
  · rw [if_pos hk, if_pos hk, hword _ (by omega)]
  · rw [if_neg hk, if_neg hk]

end Dinode

section Inodes

variable (sb : Superblock) (disk : Disk)

/-- `(struct dinode*)bp->data + inum%IPB`. -/
def dinodeAt (i : Nat) : Dinode :=
  Dinode.decode fun r => getByte (disk (sb.IBLOCK i)) (64 * (i % 8) + r)

def putDinode (i : Nat) (d : Dinode) : Block :=
  blit (disk (sb.IBLOCK i)) (64 * (i % 8)) 64 d.byte

def setBlock (disk : Disk) (b : Nat) (data : Block) : Disk :=
  Function.update disk b data

@[simp] theorem setBlock_self (disk : Disk) (b : Nat) (data : Block) :
    setBlock disk b data b = data := by
  simp [setBlock]

theorem setBlock_of_ne (disk : Disk) (data : Block) (h : c ≠ b) :
    setBlock disk b data c = disk c := by
  simp [setBlock, h]

variable {sb disk}

theorem dinodeAt_put_self (h : d.Fits) :
    dinodeAt sb (setBlock disk (sb.IBLOCK i) (putDinode sb disk i d)) i = d := by
  unfold dinodeAt
  rw [setBlock_self]
  have hbyte : ∀ r < 64,
      getByte (putDinode sb disk i d) (64 * (i % 8) + r) = d.byte r := by
    intro r hr
    unfold putDinode
    have hmod : i % 8 < 8 := Nat.mod_lt _ (by decide)
    rw [getByte_blit (by simp only [BSIZE]; omega), if_pos (by omega)]
    congr 1
    omega
  rw [Dinode.decode_congr hbyte]
  exact Dinode.decode_byte h

theorem dinodeAt_put_of_ne (d : Dinode) (h : j ≠ i) :
    dinodeAt sb (setBlock disk (sb.IBLOCK i) (putDinode sb disk i d)) j = dinodeAt sb disk j := by
  unfold dinodeAt
  apply Dinode.decode_congr
  intro r hr
  by_cases hblock : sb.IBLOCK j = sb.IBLOCK i
  · rw [hblock, setBlock_self]
    unfold putDinode
    have hi : i % 8 < 8 := Nat.mod_lt _ (by decide)
    have hslot : j % 8 ≠ i % 8 := by
      intro hmod
      unfold Superblock.IBLOCK at hblock
      apply h
      omega
    rw [getByte_blit (by simp only [BSIZE]; omega), if_neg (by omega)]
  · rw [setBlock_of_ne _ _ hblock]

theorem dinodeAt_congr (h : disk' (sb.IBLOCK i) = disk (sb.IBLOCK i)) :
    dinodeAt sb disk' i = dinodeAt sb disk i := by
  unfold dinodeAt
  rw [h]

theorem fits_dinodeAt (i : Nat) : (dinodeAt sb disk i).Fits :=
  Dinode.fits_decode _

end Inodes

section Bitmap

variable (sb : Superblock) (disk : Disk)

/-- Whether block `b` is marked in use. -/
def bitAt (b : Nat) : Bool :=
  (getByte (disk (sb.BBLOCK b)) (b % 4096 / 8)).toNat.testBit (b % 4096 % 8)

/-- `data[bi/8] |= m` or `data[bi/8] &= ~m`. -/
def maskByte (c : UInt8) (k : Nat) (v : Bool) : UInt8 :=
  if v then UInt8.ofNat (c.toNat ||| 2 ^ k) else UInt8.ofNat (c.toNat &&& (255 - 2 ^ k))

/-- The block of the free map for `b`, after the bit of `b` has been changed. -/
def putBit (b : Nat) (v : Bool) : Block :=
  setByte (disk (sb.BBLOCK b)) (b % 4096 / 8)
    (maskByte (getByte (disk (sb.BBLOCK b)) (b % 4096 / 8)) (b % 4096 % 8) v)

theorem testBit_maskByte (c : UInt8) (v : Bool) (hk : k < 8) (hj : j < 8) :
    (maskByte c k v).toNat.testBit j = if j = k then v else c.toNat.testBit j := by
  have hc := c.toNat_lt
  have hpow : 2 ^ k < 2 ^ 8 := Nat.pow_lt_pow_right (by decide) hk
  cases v with
  | true =>
    have hlt : c.toNat ||| 2 ^ k < 2 ^ 8 := Nat.or_lt_two_pow (by omega) hpow
    simp only [maskByte, if_true, UInt8.toNat_ofNat', Nat.mod_eq_of_lt hlt, Nat.testBit_or,
      Nat.testBit_two_pow]
    by_cases hjk : j = k
    · simp [hjk]
    · have hkj : k ≠ j := fun h => hjk h.symm
      simp [hjk, hkj]
  | false =>
    have hle : c.toNat &&& (255 - 2 ^ k) ≤ c.toNat := Nat.and_le_left
    have hlt : c.toNat &&& (255 - 2 ^ k) < 2 ^ 8 := by omega
    have hmask : ∀ k < 8, ∀ j < 8, (255 - 2 ^ k).testBit j = decide (j ≠ k) := by decide
    simp only [maskByte, Bool.false_eq_true, if_false, UInt8.toNat_ofNat',
      Nat.mod_eq_of_lt hlt, Nat.testBit_and, hmask k hk j hj]
    by_cases hjk : j = k
    · simp [hjk]
    · simp [hjk]

variable {sb disk}

theorem bitAt_put (b c : Nat) (v : Bool) :
    bitAt sb (setBlock disk (sb.BBLOCK b) (putBit sb disk b v)) c =
      if c = b then v else bitAt sb disk c := by
  unfold bitAt
  have hb : b % 4096 % 8 < 8 := Nat.mod_lt _ (by decide)
  have hc : c % 4096 % 8 < 8 := Nat.mod_lt _ (by decide)
  by_cases hblock : sb.BBLOCK c = sb.BBLOCK b
  · have hdiv : c / 4096 = b / 4096 := by
      unfold Superblock.BBLOCK at hblock
      omega
    rw [hblock, setBlock_self]
    unfold putBit
    rw [getByte_setByte (by simp only [BSIZE]; omega)]
    by_cases hbyte : c % 4096 / 8 = b % 4096 / 8
    · rw [if_pos hbyte, testBit_maskByte _ _ hb hc, hbyte]
      have hiff : c % 4096 % 8 = b % 4096 % 8 ↔ c = b := by omega
      simp only [hiff]
    · have hne : c ≠ b := by
        rintro rfl
        exact hbyte rfl
      rw [if_neg hbyte, if_neg hne]
  · have hne : c ≠ b := by
      rintro rfl
      exact hblock rfl
    rw [setBlock_of_ne _ _ hblock, if_neg hne]

theorem bitAt_congr (h : disk' (sb.BBLOCK b) = disk (sb.BBLOCK b)) :
    bitAt sb disk' b = bitAt sb disk b := by
  unfold bitAt
  rw [h]

end Bitmap

end Xv6.Fs
