import Xv6.Fs.Content

/-!
# Freeing the blocks of an inode

The two levels of `itrunc`.  The direct addresses are cleared as their blocks are
freed; the entries of the indirect block stay as they are while their blocks are
freed, so there the invariant is about the slots that have not been freed yet.
-/

namespace Xv6.Fs

open Lib Lib.Prog Log Function

variable {sb : Superblock} {disk : Disk} {U : Set Nat} {d : Dinode} {k b c : Nat} {s t : State}
variable {e : Ino}

def bfreeDisk (sb : Superblock) (disk : Disk) (b : Nat) : Disk :=
  setBlock disk (sb.BBLOCK b) (putBit sb disk b false)

theorem bfreeDisk_of_ne (hc : c ≠ sb.BBLOCK b) : bfreeDisk sb disk b c = disk c :=
  setBlock_of_ne _ _ hc

theorem bitAt_bfreeDisk (c : Nat) :
    bitAt sb (bfreeDisk sb disk b) c = update (bitAt sb disk) b false c := by
  unfold bfreeDisk
  rw [bitAt_put, update_apply]

theorem bfreeDisk_data (hb : b < sb.size) (hc : sb.dataStart ≤ c) :
    bfreeDisk sb disk b c = disk c := by
  have hmap := Superblock.bblock_lt hb
  exact bfreeDisk_of_ne (by omega)

theorem keeps_bfreeDisk (hU : ∀ c ∈ U, sb.IsData c) (hb : b < sb.size) :
    Keeps sb U disk (bfreeDisk sb disk b) := by
  have hlow : sb.bmapstart ≤ sb.BBLOCK b := Superblock.le_bblock b
  intro c hc
  rcases hc with hc | hc
  · exact bfreeDisk_of_ne (by omega)
  · exact bfreeDisk_data hb (hU c hc).1

theorem metaBits_bfreeDisk (hmeta : ∀ c < sb.dataStart, bitAt sb disk c = true)
    (hb : sb.dataStart ≤ b) : ∀ c < sb.dataStart, bitAt sb (bfreeDisk sb disk b) c = true := by
  intro c hc
  rw [bitAt_bfreeDisk, update_of_ne (by omega)]
  exact hmeta c hc

section
variable (h : Holds sb disk U d) (hk : k < 12) (h0 : d.addrs k ≠ 0)
include h hk h0

theorem Holds.held_clearAddr (j : Nat) :
    (d.setAddr k 0).held (bfreeDisk sb disk (d.addrs k)) j = update (d.held disk) k 0 j := by
  have ht : (d.setAddr k 0).type ≠ 0 := h.alloc
  have hheld := Dinode.held_of_le h.alloc (k := k) (by omega) disk
  have hdata := h.own.region k (by rw [hheld]; exact h0)
  rw [hheld] at hdata
  by_cases hj : j ≤ 12
  · rw [Dinode.held_of_le ht hj]
    by_cases hjk : j = k
    · subst hjk
      simp [Dinode.setAddr]
    · rw [update_of_ne hjk, Dinode.held_of_le h.alloc hj]
      simp [Dinode.setAddr, hjk]
  have haddr : (d.setAddr k 0).addrs 12 = d.addrs 12 := by
    have hne : (12 : Nat) ≠ k := by omega
    simp [Dinode.setAddr, hne]
  have hblock : d.addrs 12 ≠ 0 → bfreeDisk sb disk (d.addrs k) (d.addrs 12) =
      disk (d.addrs 12) := by
    intro h12
    have hheld12 := Dinode.held_twelve h.alloc disk
    have hreg := h.own.region 12 (by rw [hheld12]; exact h12)
    rw [hheld12] at hreg
    exact bfreeDisk_data hdata.2 hreg.1
  rw [update_of_ne (by omega), ← Dinode.held_congr hblock j]
  unfold Dinode.held
  rw [haddr, if_neg hj, if_neg hj]
  rfl

theorem Holds.clearAddr : Holds sb (bfreeDisk sb disk (d.addrs k)) U (d.setAddr k 0) := by
  have hheld := Dinode.held_of_le h.alloc (k := k) (by omega) disk
  have hne : d.held disk k ≠ 0 := by
    rw [hheld]
    exact h0
  have hdata := h.own.region k hne
  rw [hheld] at hdata
  refine ⟨?_, h.rest, metaBits_bfreeDisk h.metaBits hdata.1,
    fits_setAddr h.fits (by omega) (by omega),
    h.alloc⟩
  have hdrop := h.own.drop hne
  rw [hheld] at hdrop
  refine hdrop.congr (h.held_clearAddr hk h0) ?_
  intro c _
  exact bitAt_bfreeDisk c

end

structure FreedTo (U : Set Nat) (e : Ino) (s : State) (i : Nat) (s' : State) : Prop where
  state : s' = s.upd s'.disk s'.logged e (s'.icache e).d
  keeps : Keeps s.sb U s.disk s'.disk
  fields : (s'.icache e).d = { (s.icache e).d with addrs := (s'.icache e).d.addrs }
  holds : Holds s.sb s'.disk U (s'.icache e).d
  cleared : ∀ k < i, (s'.icache e).d.addrs k = 0

theorem freeDirect_step {i : Nat} (hout : 0 < s.outstanding) (hi : i < 12) (h : FreedTo U e s i t) :
    wp (freeDirect e i) (fun _ => FreedTo U e s (i + 1)) (fun e _ => LogFull e) t := by
  have hsb : t.sb = s.sb := by
    rw [h.state]
    rfl
  have hot : 0 < t.outstanding := by
    rw [h.state]
    exact hout
  unfold freeDirect
  simp only [wp_bind, wp_get, wp_ite, wp_pure]
  by_cases h0 : (t.icache e).d.addrs i = 0
  · rw [if_pos h0]
    refine ⟨h.state, h.keeps, h.fields, h.holds, ?_⟩
    intro k hk
    by_cases hki : k = i
    · rw [hki, h0]
    · exact h.cleared k (by omega)
  rw [if_neg h0]
  have hheld := Dinode.held_of_le h.holds.alloc (k := i) (by omega) t.disk
  have hne : (t.icache e).d.held t.disk i ≠ 0 := by
    rw [hheld]
    exact h0
  have hbit : bitAt t.sb t.disk ((t.icache e).d.addrs i) = true := by
    rw [hsb, ← hheld]
    exact h.holds.own.marked_of_held hne
  have hdata := h.holds.own.region i hne
  rw [hheld] at hdata
  refine wp_post (bfree_spec hot hbit) ?_
  rintro _ _ ⟨lg, rfl⟩
  unfold setDinode setInode
  simp only [wp_modify]
  refine ⟨?_, ?_, ?_, ?_, ?_⟩
  · rw [← State.upd_of_eq h.state]
    simp [State.upd]
  · rw [hsb]
    exact h.keeps.trans (keeps_bfreeDisk h.holds.rest hdata.2)
  · simp only [update_self, Dinode.setAddr]
    rw [h.fields]
  · simp only [update_self, hsb]
    exact h.holds.clearAddr hi h0
  · intro k hk
    simp only [update_self, Dinode.setAddr, update_apply]
    split
    · rfl
    · exact h.cleared k (by omega)

def Dinode.heldFrom (d : Dinode) (disk : Disk) (j k : Nat) : Nat :=
  if 13 ≤ k ∧ k < 13 + j then 0 else d.held disk k

theorem heldFrom_succ (d : Dinode) (disk : Disk) (j k : Nat) :
    d.heldFrom disk (j + 1) k = update (d.heldFrom disk j) (13 + j) 0 k := by
  unfold Dinode.heldFrom
  rw [update_apply]
  by_cases hk : k = 13 + j
  · rw [if_pos hk, if_pos (by omega)]
  · rw [if_neg hk]
    by_cases hin : 13 ≤ k ∧ k < 13 + j
    · rw [if_pos hin, if_pos (by omega)]
    · rw [if_neg hin, if_neg (by omega)]

structure FreedEntries (U : Set Nat) (e : Ino) (s : State) (j : Nat) (s' : State) : Prop where
  state : s' = s.upd s'.disk s'.logged e (s.icache e).d
  keeps : Keeps s.sb U s.disk s'.disk
  own : Own s.sb.IsData U ((s.icache e).d.heldFrom s.disk j) (bitAt s.sb s'.disk)
  metaBits : ∀ b < s.sb.dataStart, bitAt s.sb s'.disk b = true

theorem freeIndirect_step {j : Nat} (hout : 0 < s.outstanding)
    (hs : Holds s.sb s.disk U (s.icache e).d) (h12 : (s.icache e).d.addrs 12 ≠ 0) (hj : j < 128)
    (h : FreedEntries U e s j t) :
    wp (freeIndirect (s.disk ((s.icache e).d.addrs 12)) j) (fun _ => FreedEntries U e s (j + 1))
      (fun e _ => LogFull e) t := by
  have hsb : t.sb = s.sb := by
    rw [h.state]
    rfl
  have hot : 0 < t.outstanding := by
    rw [h.state]
    exact hout
  have hheld : (s.icache e).d.held s.disk (13 + j) =
      readWord (s.disk ((s.icache e).d.addrs 12)) (4 * j) := Dinode.held_entry hs.alloc h12 hj
  have hslot : (s.icache e).d.heldFrom s.disk j (13 + j) =
      readWord (s.disk ((s.icache e).d.addrs 12)) (4 * j) := by
    unfold Dinode.heldFrom
    rw [if_neg (by omega), hheld]
  unfold freeIndirect
  rw [wp_ite]
  by_cases h0 : readWord (s.disk ((s.icache e).d.addrs 12)) (4 * j) = 0
  · rw [if_pos h0, wp_pure]
    refine ⟨h.state, h.keeps, ?_, h.metaBits⟩
    refine h.own.congr ?_ fun _ _ => rfl
    intro k
    rw [heldFrom_succ]
    by_cases hk : k = 13 + j
    · subst hk
      rw [update_self, hslot, h0]
    · rw [update_of_ne hk]
  rw [if_neg h0]
  have hne : (s.icache e).d.heldFrom s.disk j (13 + j) ≠ 0 := by
    rw [hslot]
    exact h0
  have hbit := h.own.marked_of_held hne
  have hdata := h.own.region _ hne
  have hdrop := h.own.drop hne
  rw [hslot] at hbit hdata hdrop
  refine wp_post (bfree_spec hot (by rw [hsb]; exact hbit)) ?_
  rintro _ _ ⟨lg, rfl⟩
  refine ⟨?_, ?_, ?_, ?_⟩
  · have hd : (t.icache e).d = (s.icache e).d := by
      rw [h.state]
      simp
    rw [State.with_disk t _ lg e, hd]
    exact State.upd_of_eq h.state _ _ _
  · rw [hsb]
    exact h.keeps.trans (keeps_bfreeDisk hs.rest hdata.2)
  · rw [hsb]
    exact hdrop.congr (heldFrom_succ _ _ j) fun c _ => bitAt_bfreeDisk c
  · rw [hsb]
    exact metaBits_bfreeDisk h.metaBits hdata.1

structure Freed (U : Set Nat) (e : Ino) (s s' : State) : Prop where
  state : s' = s.upd s'.disk s'.logged e (s'.icache e).d
  keeps : Keeps s.sb U s.disk s'.disk
  fields : (s'.icache e).d = { (s.icache e).d with addrs := fun _ => 0 }
  loc : Local s.sb s'.disk U (s'.icache e).d 0

theorem held_of_addrs_zero (h : ∀ k, d.addrs k = 0) (disk : Disk) (k : Nat) :
    d.held disk k = 0 := by
  unfold Dinode.held
  simp [h]

theorem shape_zero (h : ∀ k, d.addrs k = 0) (disk : Disk) :
    d.Shape disk 0 where
  le := by omega
  block := by
    intro bn _
    unfold Dinode.baddr
    rw [held_of_addrs_zero h]
    simp
  indirect := by
    rw [h 12]
    simp

theorem FreedTo.freed {s' : State} (h : FreedTo U e s 12 s') (h12 : (s'.icache e).d.addrs 12 = 0) :
    Freed U e s s' := by
  have hzero : ∀ k, (s'.icache e).d.addrs k = 0 := by
    intro k
    by_cases hk : k < 12
    · exact h.cleared k hk
    · by_cases hk12 : k = 12
      · rw [hk12, h12]
      · exact h.holds.fits.rest k (by omega)
  refine ⟨h.state, h.keeps, ?_, h.holds, shape_zero hzero _⟩
  have haddrs : (s'.icache e).d.addrs = fun _ => 0 := funext hzero
  rw [h.fields, haddrs]

theorem truncIndirect_spec (hout : 0 < s.outstanding) (h : FreedTo U e s 12 t) :
    wp (truncIndirect e) (fun _ => Freed U e s) (fun e _ => LogFull e) t := by
  have hsb : t.sb = s.sb := by
    rw [h.state]
    rfl
  have hot : 0 < t.outstanding := by
    rw [h.state]
    exact hout
  have ht : Holds t.sb t.disk U (t.icache e).d := by
    rw [hsb]
    exact h.holds
  unfold truncIndirect
  simp only [NDIRECT, NINDIRECT, wp_bind, wp_get, wp_ite, wp_pure]
  by_cases h12 : (t.icache e).d.addrs 12 = 0
  · rw [if_pos h12]
    exact h.freed h12
  rw [if_neg h12]
  unfold bread
  simp only [wp_bind, wp_get, wp_pure]
  have hstart : FreedEntries U e t 0 t := by
    refine ⟨by simp, Keeps.refl _ _ _, ht.own.congr ?_ fun _ _ => rfl, ht.metaBits⟩
    intro k
    unfold Dinode.heldFrom
    rw [if_neg (by omega)]
  refine wp_post (wp_forEach_range (fun j hj u hu => freeIndirect_step hot ht h12 hj hu) hstart) ?_
  intro _ u hu
  have hsbu : u.sb = t.sb := by
    rw [hu.state]
    rfl
  have hou : 0 < u.outstanding := by
    rw [hu.state]
    exact hot
  have hslot : (t.icache e).d.heldFrom t.disk 128 12 = (t.icache e).d.addrs 12 := by
    unfold Dinode.heldFrom
    rw [if_neg (by omega), Dinode.held_twelve ht.alloc]
  have hne : (t.icache e).d.heldFrom t.disk 128 12 ≠ 0 := by
    rw [hslot]
    exact h12
  have hbit := hu.own.marked_of_held hne
  have hdata := hu.own.region _ hne
  have hdrop := hu.own.drop hne
  rw [hslot] at hbit hdata hdrop
  refine wp_post (bfree_spec hou (by rw [hsbu]; exact hbit)) ?_
  rintro _ _ ⟨lg, rfl⟩
  unfold setDinode setInode
  simp only [wp_modify]
  have hd : (u.icache e).d = (t.icache e).d := by
    rw [hu.state]
    simp
  have hzero : ∀ k, ((t.icache e).d.setAddr 12 0).addrs k = 0 := by
    intro k
    simp only [Dinode.setAddr, update_apply]
    split
    · rfl
    · by_cases hk : k < 12
      · exact h.cleared k hk
      · exact ht.fits.rest k (by omega)
  refine ⟨?_, ?_, ?_, ⟨⟨?_, h.holds.rest, ?_, ?_, ?_⟩, ?_⟩⟩
  · rw [← State.upd_of_eq h.state, ← State.upd_of_eq hu.state]
    simp [State.upd]
  · simp only
    rw [hsbu, hsb]
    have hk := hu.keeps
    rw [hsb] at hk
    rw [hsb] at hdata
    exact h.keeps.trans (hk.trans (keeps_bfreeDisk h.holds.rest hdata.2))
  · simp only [update_self, hd]
    have haddrs : ((t.icache e).d.setAddr 12 0).addrs = fun _ => 0 := funext hzero
    have hfields := h.fields
    simp only [Dinode.setAddr] at haddrs ⊢
    rw [haddrs, hfields]
  · simp only [update_self, hd, hsbu, hsb]
    rw [hsb] at hdrop
    refine hdrop.congr ?_ fun c _ => bitAt_bfreeDisk c
    intro k
    rw [held_of_addrs_zero hzero, update_apply]
    unfold Dinode.heldFrom
    split
    · rfl
    · split
      · rfl
      · by_cases hk : k < 12
        · rw [Dinode.held_of_le ht.alloc (by omega), h.cleared k hk]
        · rw [Dinode.held_of_lt _ _ (by omega)]
  · simp only [hsbu]
    have hm := metaBits_bfreeDisk hu.metaBits hdata.1
    rw [hsb] at hm ⊢
    exact hm
  · simp only [update_self, hd]
    exact fits_setAddr ht.fits (le_refl 12) (by omega)
  · simp only [update_self, hd]
    exact ht.alloc
  · simp only [update_self, hd]
    exact shape_zero hzero _

end Xv6.Fs
