import Xv6.Lib.Owner
import Xv6.Fs.State

/-!
# The blocks of one inode

An inode holds its direct blocks, the indirect block and the blocks that the
indirect block lists.  `Local` is the invariant of one inode against the set `U`
of the blocks that all other inodes hold: the free map marks exactly these blocks,
none is held twice, and the inode has a block for each index below `N` and for no
other.
-/

namespace Xv6.Fs

open Lib Lib.Prog Log

variable {e e' : Ino} {sb : Superblock} {U : Set Nat} {N N' b k c a j : Nat} {g g' : Nat → UInt8}
variable {s s' s'' : State} {disk disk' disk'' disk0 : Disk} {lg lg' lg0 : List Nat}
variable {d d' d'' d0 : Dinode}

namespace Dinode

/-- The block numbers of an inode: 0 to 11 are the direct blocks, 12 is the indirect block, 13 to
140 are its entries.  A free inode holds nothing. -/
def held (d : Dinode) (disk : Disk) (k : Nat) : Nat :=
  if d.type = 0 then 0
  else if k ≤ 12 then d.addrs k
  else if k ≤ 140 ∧ d.addrs 12 ≠ 0 then readWord (disk (d.addrs 12)) (4 * (k - 13))
  else 0

def pos (bn : Nat) : Nat :=
  if bn < 12 then bn else bn + 1

def baddr (d : Dinode) (disk : Disk) (bn : Nat) : Nat :=
  d.held disk (pos bn)

def byteAt (d : Dinode) (disk : Disk) (o : Nat) : UInt8 :=
  if d.baddr disk (o / 512) = 0 then 0 else getByte (disk (d.baddr disk (o / 512))) (o % 512)

/-- Blocks for exactly the indices below `N`, and an indirect block when it is needed. -/
structure Shape (d : Dinode) (disk : Disk) (N : Nat) : Prop where
  le : N ≤ 140
  block : ∀ bn < 140, d.baddr disk bn ≠ 0 ↔ bn < N
  indirect : d.addrs 12 ≠ 0 ↔ 12 < N

theorem pos_inj (h : pos a = pos b) : a = b := by
  unfold pos at h
  split at h <;> split at h <;> omega

theorem pos_ne (bn : Nat) : pos bn ≠ 12 := by
  unfold pos
  split <;> omega

theorem held_congr {disk : Disk}
    (h : d.addrs 12 ≠ 0 → disk' (d.addrs 12) = disk (d.addrs 12)) (k : Nat) :
    d.held disk' k = d.held disk k := by
  unfold held
  by_cases h12 : d.addrs 12 = 0
  · simp [h12]
  · rw [h h12]

theorem held_twelve (ht : d.type ≠ 0) (disk : Disk) : d.held disk 12 = d.addrs 12 := by
  simp [held, ht]

theorem held_of_le (ht : d.type ≠ 0) (hk : k ≤ 12) (disk : Disk) : d.held disk k = d.addrs k := by
  simp [held, ht, hk]

theorem held_entry {disk : Disk} (ht : d.type ≠ 0) (h12 : d.addrs 12 ≠ 0)
    (hj : j < 128) : d.held disk (13 + j) = readWord (disk (d.addrs 12)) (4 * j) := by
  unfold held
  rw [if_neg ht, if_neg (by omega), if_pos ⟨by omega, h12⟩, Nat.add_sub_cancel_left]

theorem held_of_lt (d : Dinode) (disk : Disk) (hk : 140 < k) : d.held disk k = 0 := by
  unfold held
  split
  · rfl
  · rw [if_neg (by omega), if_neg (by omega)]

theorem held_eq_zero_of_type (ht : d.type = 0) (disk : Disk) (k : Nat) : d.held disk k = 0 := by
  simp [held, ht]

theorem held_fields (ht : d'.type = 0 ↔ d.type = 0) (ha : d'.addrs = d.addrs)
    (disk : Disk) (k : Nat) : d'.held disk k = d.held disk k := by
  unfold held
  simp only [ht, ha]

theorem Shape.congr {disk : Disk} (h : d.Shape disk N)
    (hheld : ∀ k, d'.held disk' k = d.held disk k) (h12 : d'.addrs 12 = d.addrs 12) :
    d'.Shape disk' N where
  le := h.le
  block := by
    intro bn hbn
    unfold baddr
    rw [hheld]
    exact h.block bn hbn
  indirect := by
    rw [h12]
    exact h.indirect

end Dinode

/-- The free map marks what the inode and the rest of the world hold. -/
structure Holds (sb : Superblock) (disk : Disk) (U : Set Nat) (d : Dinode) : Prop where
  own : Own sb.IsData U (d.held disk) (bitAt sb disk)
  rest : ∀ c ∈ U, sb.IsData c
  metaBits : ∀ b < sb.dataStart, bitAt sb disk b = true
  fits : d.Fits
  alloc : d.type ≠ 0

structure Local (sb : Superblock) (disk : Disk) (U : Set Nat) (d : Dinode) (N : Nat) : Prop
    extends Holds sb disk U d where
  shape : d.Shape disk N

/-- What the operations on one inode leave alone. -/
def Keeps (sb : Superblock) (U : Set Nat) (disk disk' : Disk) : Prop :=
  ∀ c, c < sb.bmapstart ∨ c ∈ U → disk' c = disk c

theorem Keeps.refl (sb : Superblock) (U : Set Nat) (disk : Disk) : Keeps sb U disk disk :=
  fun _ _ => rfl

theorem Keeps.trans {sb : Superblock} {disk : Disk}
    (h : Keeps sb U disk disk') (h' : Keeps sb U disk' disk'') : Keeps sb U disk disk'' :=
  fun c hc => (h' c hc).trans (h c hc)

namespace State

def upd (s : State) (disk : Disk) (logged : List Nat) (e : Ino) (d : Dinode) : State :=
  { s with
    disk := disk
    logged := logged
    icache := Function.update s.icache e { s.icache e with d := d } }

@[simp] theorem upd_sb : (s.upd disk lg e d).sb = s.sb := rfl
@[simp] theorem upd_disk : (s.upd disk lg e d).disk = disk := rfl
@[simp] theorem upd_logged : (s.upd disk lg e d).logged = lg := rfl
@[simp] theorem upd_outstanding : (s.upd disk lg e d).outstanding = s.outstanding := rfl
@[simp] theorem upd_file : (s.upd disk lg e d).file = s.file := rfl
@[simp] theorem upd_proc : (s.upd disk lg e d).proc = s.proc := rfl
@[simp] theorem upd_tty : (s.upd disk lg e d).tty = s.tty := rfl

@[simp] theorem upd_icache_self : (s.upd disk lg e d).icache e = { s.icache e with d := d } := by
  simp [upd]

theorem upd_icache_of_ne (h : e' ≠ e) : (s.upd disk lg e d).icache e' = s.icache e' := by
  simp [upd, h]

@[simp] theorem upd_upd : (s.upd disk lg e d).upd disk' lg' e d' = s.upd disk' lg' e d' := by
  simp [upd]

@[simp] theorem upd_self (s : State) (e : Ino) : s.upd s.disk s.logged e (s.icache e).d = s := by
  simp [upd]

theorem upd_of_eq (h : s' = s.upd disk0 lg0 e d0) (disk : Disk) (lg : List Nat) (d : Dinode) :
    s'.upd disk lg e d = s.upd disk lg e d := by
  rw [h, upd_upd]

theorem with_disk (s : State) (disk : Disk) (lg : List Nat) (e : Ino) :
    { s with disk := disk, logged := lg } = s.upd disk lg e (s.icache e).d := by
  simp [upd]

end State

/-- The inode `d` has become `d'`: only its addresses have changed, afterwards it has `N` blocks
and its bytes are `g`. -/
structure Became (sb : Superblock) (U : Set Nat) (N : Nat) (g : Nat → UInt8)
    (disk : Disk) (d : Dinode) (disk' : Disk) (d' : Dinode) : Prop where
  keeps : Keeps sb U disk disk'
  fields : d' = { d with addrs := d'.addrs }
  loc : Local sb disk' U d' N
  bytes : ∀ o, d'.byteAt disk' o = g o
  stays : ∀ k, d.held disk k ≠ 0 → d'.held disk' k = d.held disk k

namespace Became

theorem refl (h : Local sb disk U d N) :
    Became sb U N (fun o => d.byteAt disk o) disk d disk d where
  keeps := Keeps.refl _ _ _
  fields := rfl
  loc := h
  bytes := fun _ => rfl
  stays := fun _ _ => rfl

theorem trans (h : Became sb U N g disk d disk' d') (h' : Became sb U N' g' disk' d' disk'' d'') :
    Became sb U N' g' disk d disk'' d'' where
  keeps := h.keeps.trans h'.keeps
  fields := by
    rw [h'.fields, h.fields]
  loc := h'.loc
  bytes := h'.bytes
  stays := by
    intro k hk
    have hk' := h.stays k hk
    rw [h'.stays k (by rw [hk']; exact hk), hk']

theorem congr (h : Became sb U N g disk d disk' d') (hN : N = N') (hg : ∀ o, g o = g' o) :
    Became sb U N' g' disk d disk' d' where
  keeps := h.keeps
  fields := h.fields
  loc := hN ▸ h.loc
  bytes := fun o => (h.bytes o).trans (hg o)
  stays := h.stays

end Became

/-- What an operation on the contents of inode `e` does: only blocks, the log and the addresses
change. -/
structure Stored (U : Set Nat) (e : Ino) (N : Nat) (g : Nat → UInt8) (s s' : State) : Prop
    extends Became s.sb U N g s.disk (s.icache e).d s'.disk (s'.icache e).d where
  state : s' = s.upd s'.disk s'.logged e (s'.icache e).d

namespace Stored

theorem refl (h : Local s.sb s.disk U (s.icache e).d N) :
    Stored U e N (fun o => (s.icache e).d.byteAt s.disk o) s s :=
  ⟨Became.refl h, by simp⟩

section
variable (h : Stored U e N g s s')
include h

theorem sb_eq : s'.sb = s.sb := by
  rw [h.state]
  rfl

theorem outstanding_eq : s'.outstanding = s.outstanding := by
  rw [h.state]
  rfl

theorem trans (h' : Stored U e N' g' s' s'') : Stored U e N' g' s s'' := by
  have hb := h'.toBecame
  rw [h.sb_eq] at hb
  refine ⟨h.toBecame.trans hb, ?_⟩
  rw [h'.state, h.state]
  simp

theorem congr (hN : N = N') (hg : ∀ o, g o = g' o) : Stored U e N' g' s s' :=
  ⟨h.toBecame.congr hN hg, h.state⟩

end

end Stored

end Xv6.Fs
