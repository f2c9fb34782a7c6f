import Xv6.Fs.Trunc

/-!
# The file system as a table of files

Above blocks and addresses, the disk is a table of nodes: the fields of an inode
and its contents as a list of bytes.  A directory is a list of entries; looking up
a name takes the first entry that matches, and a new entry goes into the first
empty one.
-/

namespace Xv6.Fs

open Lib Lib.Prog Log

variable {j c N : Nat} {disk' : Disk} {U : Set Nat}

/-- A file, a directory or a device; a node of type 0 is free. -/
@[ext] structure Node where
  type : Int
  major : Int
  minor : Int
  nlink : Int
  data : List UInt8
deriving DecidableEq

namespace Node

def entry (f : Node) (k : Nat) : Dirent :=
  Dirent.decode fun r => f.data.getD (16 * k + r) 0

/-- The number of directory entries. -/
def count (f : Node) : Nat :=
  f.data.length / 16

/-- The index of the entry for a name. -/
def lookup (f : Node) (name : Str) : Option Nat :=
  (List.range f.count).find? fun k => (f.entry k).inum ≠ 0 ∧ namecmp name (f.entry k).name = 0

/-- The index at which a new entry is written. -/
def slot (f : Node) : Nat :=
  ((List.range f.count).find? fun k => (f.entry k).inum = 0).getD f.count

/-- The node after bytes have been written at an offset. -/
def write (f : Node) (off : Nat) (src : List UInt8) : Node :=
  { f with
    data := bytesFrom (writeAt (fun i => f.data.getD i 0) off src) 0
      (max f.data.length (off + src.length)) }

def putEntry (f : Node) (k : Nat) (de : Dirent) : Node :=
  f.write (16 * k) de.bytes

def DirOk (sb : Superblock) (f : Node) : Prop :=
  f.type = T_DIR → 16 ∣ f.data.length ∧
    ∀ k < f.count, (f.entry k).inum = 0 ∨ sb.IsInum (f.entry k).inum

section Write

variable (f : Node) (off : Nat) (src : List UInt8)

@[simp] theorem type_write : (f.write off src).type = f.type := rfl
@[simp] theorem nlink_write : (f.write off src).nlink = f.nlink := rfl

@[simp] theorem length_write :
    (f.write off src).data.length = max f.data.length (off + src.length) := by
  simp [write]

theorem getD_write (i : Nat) :
    (f.write off src).data.getD i 0 =
      if off ≤ i ∧ i < off + src.length then src.getD (i - off) 0 else f.data.getD i 0 := by
  unfold write
  by_cases hi : i < max f.data.length (off + src.length)
  · rw [getD_bytesFrom hi, Nat.zero_add]
    rfl
  have hout : ¬(off ≤ i ∧ i < off + src.length) := by omega
  have hlen : (bytesFrom (writeAt (fun i => f.data.getD i 0) off src) 0
      (max f.data.length (off + src.length))).length ≤ i := by
    rw [length_bytesFrom]
    omega
  rw [if_neg hout, List.getD_eq_getElem?_getD, List.getElem?_eq_none hlen,
    List.getD_eq_getElem?_getD, List.getElem?_eq_none (by omega)]

variable {f} {k : Nat} {de : Dirent}

theorem entry_putEntry_self (hinum : de.inum < 2 ^ 16) (hname : de.name.length = 14) :
    (f.putEntry k de).entry k = de := by
  unfold entry putEntry
  have hbyte : ∀ r < 16, (f.write (16 * k) de.bytes).data.getD (16 * k + r) 0 = de.byte r := by
    intro r hr
    rw [getD_write, if_pos (by simp; omega), Nat.add_sub_cancel_left, Dirent.getD_bytes _ hr]
  rw [Dirent.decode_congr hbyte]
  exact Dirent.decode_byte hinum hname

theorem entry_putEntry_of_ne (de : Dirent) (h : j ≠ k) : (f.putEntry k de).entry j = f.entry j := by
  unfold entry putEntry
  apply Dirent.decode_congr
  intro r hr
  rw [getD_write, if_neg (by simp only [Dirent.length_bytes]; omega)]

theorem count_putEntry (h16 : 16 ∣ f.data.length) (hk : k ≤ f.count) (de : Dirent) :
    (f.putEntry k de).count = max f.count (k + 1) := by
  unfold count putEntry at *
  rw [length_write, Dirent.length_bytes]
  omega

theorem dvd_length_putEntry (h16 : 16 ∣ f.data.length) (de : Dirent) :
    16 ∣ (f.putEntry k de).data.length := by
  unfold putEntry
  rw [length_write, Dirent.length_bytes]
  rcases Nat.le_total f.data.length (16 * k + 16) with hle | hle
  · rw [Nat.max_eq_right hle]
    omega
  · rw [Nat.max_eq_left hle]
    exact h16

end Write

theorem slot_le (f : Node) : f.slot ≤ f.count := by
  unfold slot
  cases hfind : (List.range f.count).find? fun k => decide ((f.entry k).inum = 0) with
  | none => simp
  | some k =>
    have hk := List.mem_range.mp (List.mem_of_find?_eq_some hfind)
    simp
    omega

theorem slot_empty {f : Node} (h : f.slot < f.count) : (f.entry f.slot).inum = 0 := by
  unfold slot at h ⊢
  cases hfind : (List.range f.count).find? fun k => decide ((f.entry k).inum = 0) with
  | none =>
    rw [hfind] at h
    simp at h
  | some k => simpa using List.find?_some hfind

theorem lookup_eq_some {f : Node} {name : Str} {k : Nat} (h : f.lookup name = some k) :
    k < f.count ∧ (f.entry k).inum ≠ 0 ∧ namecmp name (f.entry k).name = 0 := by
  unfold lookup at h
  have hk := List.mem_range.mp (List.mem_of_find?_eq_some h)
  have hp := List.find?_some h
  simp only [decide_eq_true_eq] at hp
  exact ⟨hk, hp⟩

end Node

section Table

variable (sb : Superblock) (disk : Disk)

def inodeAt (i : Nat) : Dinode :=
  if sb.IsInum i then dinodeAt sb disk i else Dinode.zero

/-- The fields and the contents of an inode. -/
def Dinode.node (d : Dinode) (disk : Disk) : Node where
  type := d.type
  major := d.major
  minor := d.minor
  nlink := d.nlink
  data := bytesFrom (d.byteAt disk) 0 d.size

def nodeAt (i : Nat) : Node :=
  (inodeAt sb disk i).node disk

/-- What each inode holds. -/
def heldAt (i k : Nat) : Nat :=
  (inodeAt sb disk i).held disk k

/-- The disk represents a table of nodes: blocks are owned, and no file has a hole. -/
structure Rep : Prop where
  ok : sb.Ok
  own : Own sb.IsData ∅ (slots (heldAt sb disk)) (bitAt sb disk)
  metaBits : ∀ b < sb.dataStart, bitAt sb disk b = true
  shape : ∀ i, (inodeAt sb disk i).type ≠ 0 →
    (inodeAt sb disk i).Shape disk (blocksFor (inodeAt sb disk i).size)

def others (i : Nat) : Set Nat :=
  heldElsewhere (heldAt sb disk) i

variable {sb disk} {i : Nat}

theorem inodeAt_of_isInum (hi : sb.IsInum i) : inodeAt sb disk i = dinodeAt sb disk i :=
  if_pos hi

theorem fits_inodeAt (i : Nat) : (inodeAt sb disk i).Fits := by
  unfold inodeAt
  split
  · exact fits_dinodeAt i
  · exact Dinode.fits_zero

theorem isInum_of_type (h : (inodeAt sb disk i).type ≠ 0) : sb.IsInum i := by
  by_contra hi
  unfold inodeAt at h
  rw [if_neg hi] at h
  exact h rfl

theorem Rep.isData_of_others (h : Rep sb disk) (hc : c ∈ others sb disk i) : sb.IsData c := by
  obtain ⟨h0, j, k, _, rfl⟩ := hc
  exact h.own.region (j, k) h0

theorem Rep.local (h : Rep sb disk) (ht : (inodeAt sb disk i).type ≠ 0) :
    Local sb disk (others sb disk i) (inodeAt sb disk i) (blocksFor (inodeAt sb disk i).size) where
  own := h.own.row i
  rest := fun _ hc => h.isData_of_others hc
  metaBits := h.metaBits
  fits := fits_inodeAt i
  alloc := ht
  shape := h.shape i ht

theorem mem_others {k : Nat} (hj : j ≠ i) (hk : (inodeAt sb disk j).held disk k ≠ 0) :
    (inodeAt sb disk j).held disk k ∈ others sb disk i :=
  ⟨hk, j, k, hj, rfl⟩

section
variable (hj : j ≠ i) (hsame : ∀ c ∈ others sb disk i, disk' c = disk c)
include hj hsame

theorem held_of_same (k : Nat) :
    (inodeAt sb disk j).held disk' k = (inodeAt sb disk j).held disk k := by
  by_cases ht : (inodeAt sb disk j).type = 0
  · rw [Dinode.held_eq_zero_of_type ht, Dinode.held_eq_zero_of_type ht]
  · apply Dinode.held_congr
    intro h12
    have hheld := Dinode.held_twelve ht disk
    rw [← hheld]
    exact hsame _ (mem_others hj (by rw [hheld]; exact h12))

theorem byteAt_of_same (o : Nat) :
    (inodeAt sb disk j).byteAt disk' o = (inodeAt sb disk j).byteAt disk o := by
  have hbaddr : (inodeAt sb disk j).baddr disk' (o / 512) =
      (inodeAt sb disk j).baddr disk (o / 512) :=
    held_of_same hj hsame _
  unfold Dinode.byteAt
  rw [hbaddr]
  by_cases h0 : (inodeAt sb disk j).baddr disk (o / 512) = 0
  · rw [if_pos h0, if_pos h0]
  · have hblock := hsame _ (mem_others hj h0)
    unfold Dinode.baddr at h0 ⊢
    rw [if_neg h0, if_neg h0, hblock]

end

theorem Rep.replace {d' : Dinode} (h : Rep sb disk) (hself : inodeAt sb disk' i = d')
    (hinodes : ∀ j, j ≠ i → inodeAt sb disk' j = inodeAt sb disk j)
    (hsame : ∀ c ∈ others sb disk i, disk' c = disk c)
    (hown : Own sb.IsData (others sb disk i) (d'.held disk') (bitAt sb disk'))
    (hmeta : ∀ b < sb.dataStart, bitAt sb disk' b = true)
    (hshape : d'.type ≠ 0 → d'.Shape disk' (blocksFor d'.size)) : Rep sb disk' := by
  subst hself
  have hrest : ∀ j, j ≠ i → ∀ k, heldAt sb disk' j k = heldAt sb disk j k := by
    intro j hj k
    unfold heldAt
    rw [hinodes j hj]
    exact held_of_same hj hsame k
  refine ⟨h.ok, h.own.ofRow i hown hrest, hmeta, ?_⟩
  intro j ht
  by_cases hj : j = i
  · subst hj
    exact hshape ht
  · rw [hinodes j hj] at ht ⊢
    exact (h.shape j ht).congr (held_of_same hj hsame) rfl

theorem nodeAt_of_same (hj : j ≠ i) (hinode : inodeAt sb disk' j = inodeAt sb disk j)
    (hsame : ∀ c ∈ others sb disk i, disk' c = disk c) : nodeAt sb disk' j = nodeAt sb disk j := by
  unfold nodeAt Dinode.node
  rw [hinode]
  congr 1
  exact bytesFrom_congr fun o _ => byteAt_of_same hj hsame _

/-! ### Storing an inode -/

theorem inodeAt_congr (hok : sb.Ok) (h : ∀ c < sb.bmapstart, disk' c = disk c)
    (j : Nat) : inodeAt sb disk' j = inodeAt sb disk j := by
  unfold inodeAt
  by_cases hj : sb.IsInum j
  · rw [if_pos hj, if_pos hj]
    exact dinodeAt_congr (h _ (Superblock.iblock_lt hok hj))
  · rw [if_neg hj, if_neg hj]

def iupdateDisk (sb : Superblock) (disk : Disk) (i : Nat) (d : Dinode) : Disk :=
  setBlock disk (sb.IBLOCK i) (putDinode sb disk i d)

variable {d : Dinode}

theorem inodeAt_iupdate_self (hi : sb.IsInum i) (hd : d.Fits) :
    inodeAt sb (iupdateDisk sb disk i d) i = d := by
  rw [inodeAt_of_isInum hi]
  exact dinodeAt_put_self hd

theorem inodeAt_iupdate_of_ne (hj : j ≠ i) (d : Dinode) :
    inodeAt sb (iupdateDisk sb disk i d) j = inodeAt sb disk j := by
  unfold inodeAt
  split
  · exact dinodeAt_put_of_ne d hj
  · rfl

theorem iupdateDisk_of_le (hok : sb.Ok) (hi : sb.IsInum i) (hc : sb.bmapstart ≤ c) :
    iupdateDisk sb disk i d c = disk c := by
  have hlt := Superblock.iblock_lt hok hi
  exact setBlock_of_ne _ _ (by omega)

theorem bitAt_iupdate (hok : sb.Ok) (hi : sb.IsInum i) (b : Nat) :
    bitAt sb (iupdateDisk sb disk i d) b = bitAt sb disk b :=
  bitAt_congr (iupdateDisk_of_le hok hi (Superblock.le_bblock b))

theorem Local.held_iupdate {d1 : Dinode} (h : Local sb disk U d N)
    (hok : sb.Ok) (hi : sb.IsInum i) (k : Nat) :
    d.held (iupdateDisk sb disk i d1) k = d.held disk k := by
  apply Dinode.held_congr
  intro h12
  have hheld := Dinode.held_twelve h.alloc disk
  have hreg := h.own.region 12 (by rw [hheld]; exact h12)
  rw [hheld] at hreg
  have hstart := Superblock.bmapstart_lt sb
  have hlow := hreg.1
  exact iupdateDisk_of_le hok hi (by omega)

theorem Local.byteAt_iupdate (d1 : Dinode) (h : Local sb disk U d N)
    (hok : sb.Ok) (hi : sb.IsInum i) (o : Nat) :
    d.byteAt (iupdateDisk sb disk i d1) o = d.byteAt disk o := by
  have hbaddr : d.baddr (iupdateDisk sb disk i d1) (o / 512) = d.baddr disk (o / 512) :=
    h.held_iupdate hok hi _
  unfold Dinode.byteAt
  rw [hbaddr]
  by_cases h0 : d.baddr disk (o / 512) = 0
  · rw [if_pos h0, if_pos h0]
  · have hlow := (h.own.region _ h0).1
    have hstart := Superblock.bmapstart_lt sb
    rw [if_neg h0, if_neg h0]
    unfold Dinode.baddr at *
    rw [iupdateDisk_of_le hok hi (by omega)]

end Table

end Xv6.Fs
