import Xv6.Fs.Resources

/-!
# Block allocation for one inode

`bmap` returns the block at an index of the contents.  A block that is there is
returned without any change; the block right behind the last one is allocated, at
one or two levels, and full of zeros, so the contents stay the same.
-/

namespace Xv6.Fs

open Lib Lib.Prog Log Function

variable {sb : Superblock} {disk disk' disk1 : Disk} {U : Set Nat} {d d' d1 : Dinode}
variable {N b k j c bn n : Nat} {s : State} {e : Ino}

section
variable (h : Holds sb disk U d) (hb : sb.IsData b) (hfree : bitAt sb disk b = false)
include h hb hfree

theorem Holds.ballocDisk_held (hj : d.held disk j ≠ 0) :
    ballocDisk sb disk b (d.held disk j) = disk (d.held disk j) := by
  have hne : d.held disk j ≠ b := (h.own.fresh hb hfree).2 j
  have hdata := (h.own.region j hj).1
  have hmap := Superblock.bblock_lt hb.2
  exact ballocDisk_of_ne hne (by omega)

theorem keeps_ballocDisk : Keeps sb U disk (ballocDisk sb disk b) := by
  intro c hc
  have hlow : sb.bmapstart ≤ sb.BBLOCK b := Superblock.le_bblock b
  have hmap := Superblock.bblock_lt hb.2
  have hstart := Superblock.bmapstart_lt sb
  have hdata := hb.1
  rcases hc with hc | hc
  · exact ballocDisk_of_ne (by omega) (by omega)
  · have hne : c ≠ b := by
      rintro rfl
      exact (h.own.fresh hb hfree).1 hc
    have hcU := (h.rest c hc).1
    exact ballocDisk_of_ne hne (by omega)

end

theorem bitAt_ballocDisk_data (hb : sb.IsData b) (hc : sb.IsData c) :
    bitAt sb (ballocDisk sb disk b) c = update (bitAt sb disk) b true c := by
  rw [bitAt_ballocDisk hb hc.2, update_apply]

theorem metaBits_ballocDisk (hok : sb.Ok) (hmeta : ∀ c < sb.dataStart, bitAt sb disk c = true)
    (hb : sb.IsData b) : ∀ c < sb.dataStart, bitAt sb (ballocDisk sb disk b) c = true := by
  intro c hc
  have hle := hok.data
  rw [bitAt_ballocDisk hb (by omega), hmeta c hc]
  split <;> rfl

theorem Holds.held_setAddr (h : Holds sb disk U d) (hb : sb.IsData b)
    (hfree : bitAt sb disk b = false) (hk : k ≤ 12) (h0 : d.addrs k = 0) (j : Nat) :
    (d.setAddr k b).held (ballocDisk sb disk b) j = update (d.held disk) k b j := by
  have ht : (d.setAddr k b).type ≠ 0 := h.alloc
  by_cases hj : j ≤ 12
  · rw [Dinode.held_of_le ht hj]
    by_cases hjk : j = k
    · subst hjk
      simp [Dinode.setAddr]
    · rw [update_of_ne hjk, Dinode.held_of_le h.alloc hj]
      simp [Dinode.setAddr, hjk]
  have hjk : j ≠ k := by omega
  rw [update_of_ne hjk]
  by_cases hk12 : k = 12
  · -- the new indirect block is full of zeros
    subst hk12
    have hold : d.held disk j = 0 := by
      unfold Dinode.held
      simp [h0, hj]
    have haddr : (d.setAddr 12 b).addrs 12 = b := by simp [Dinode.setAddr]
    rw [hold]
    unfold Dinode.held
    rw [haddr, if_neg ht, if_neg hj, ballocDisk_self]
    split
    · simp [readWord, getByte, zeroBlock]
    · rfl
  have haddr : (d.setAddr k b).addrs 12 = d.addrs 12 := by
    have hne : (12 : Nat) ≠ k := fun h => hk12 h.symm
    simp [Dinode.setAddr, hne]
  have hblock : d.addrs 12 ≠ 0 →
      ballocDisk sb disk b (d.addrs 12) = disk (d.addrs 12) := by
    intro h12
    have hheld := Dinode.held_twelve h.alloc disk
    rw [← hheld]
    exact h.ballocDisk_held hb hfree (by rw [hheld]; exact h12)
  rw [← Dinode.held_congr hblock j]
  unfold Dinode.held
  rw [haddr, if_neg hj, if_neg hj]
  rfl

theorem fits_setAddr (h : d.Fits) (hk : k ≤ 12) (hb : b < 2 ^ 32) :
    (d.setAddr k b).Fits where
  type := h.type
  major := h.major
  minor := h.minor
  nlink := h.nlink
  size := h.size
  addrs := by
    intro j
    simp only [Dinode.setAddr, update_apply]
    split
    · exact hb
    · exact h.addrs j
  rest := by
    intro j hj
    have hne : j ≠ k := by omega
    simp only [Dinode.setAddr, update_of_ne hne]
    exact h.rest j hj

theorem Superblock.Ok.lt_word (h : sb.Ok) (hb : sb.IsData b) : b < 2 ^ 32 := by
  have h1 := h.size
  have h2 := hb.2
  omega

theorem Holds.setAddr (h : Holds sb disk U d) (hok : sb.Ok) (hb : sb.IsData b)
    (hfree : bitAt sb disk b = false) (hk : k ≤ 12) (h0 : d.addrs k = 0) :
    Holds sb (ballocDisk sb disk b) U (d.setAddr k b) where
  own := by
    have hslot : d.held disk k = 0 := by rw [Dinode.held_of_le h.alloc hk, h0]
    refine (h.own.take hslot hb hfree).congr (h.held_setAddr hb hfree hk h0) ?_
    intro c hc
    exact bitAt_ballocDisk_data hb hc
  rest := h.rest
  metaBits := metaBits_ballocDisk hok h.metaBits hb
  fits := fits_setAddr h.fits hk (hok.lt_word hb)
  alloc := h.alloc

def entryDisk (sb : Superblock) (disk : Disk) (ind j b : Nat) : Disk :=
  setBlock (ballocDisk sb disk b) ind (writeWord (disk ind) (4 * j) b)

theorem Holds.held_entryDisk (h : Holds sb disk U d) (hok : sb.Ok) (hb : sb.IsData b)
    (h12 : d.addrs 12 ≠ 0) (hj : j < 128) (i : Nat) :
    d.held (entryDisk sb disk (d.addrs 12) j b) i = update (d.held disk) (13 + j) b i := by
  by_cases hi : i ≤ 12
  · rw [update_of_ne (by omega), Dinode.held_of_le h.alloc hi, Dinode.held_of_le h.alloc hi]
  by_cases hlt : i ≤ 140
  · obtain ⟨m, rfl⟩ : ∃ m, i = 13 + m := ⟨i - 13, by omega⟩
    rw [Dinode.held_entry h.alloc h12 (by omega)]
    unfold entryDisk
    rw [setBlock_self]
    by_cases hmj : m = j
    · subst hmj
      rw [update_self, readWord_writeWord (by simp only [BSIZE]; omega) (hok.lt_word hb)]
    · rw [update_of_ne (by omega), Dinode.held_entry h.alloc h12 (by omega)]
      exact readWord_writeWord_of_disjoint (by simp only [BSIZE]; omega) (by omega) b
  · rw [update_of_ne (by omega), Dinode.held_of_lt _ _ (by omega), Dinode.held_of_lt _ _ (by omega)]

theorem Holds.indirect_le (h : Holds sb disk U d) (h12 : d.addrs 12 ≠ 0) :
    sb.dataStart ≤ d.addrs 12 := by
  have hheld12 := Dinode.held_twelve h.alloc disk
  have hreg := h.own.region 12 (by rw [hheld12]; exact h12)
  rw [hheld12] at hreg
  exact hreg.1

theorem Holds.entry (h : Holds sb disk U d) (hok : sb.Ok) (hb : sb.IsData b)
    (hfree : bitAt sb disk b = false) (h12 : d.addrs 12 ≠ 0) (hj : j < 128)
    (h0 : readWord (disk (d.addrs 12)) (4 * j) = 0) :
    Holds sb (entryDisk sb disk (d.addrs 12) j b) U d := by
  have hind := h.indirect_le h12
  refine ⟨?_, h.rest, ?_, h.fits, h.alloc⟩
  · have hslot : d.held disk (13 + j) = 0 := by rw [Dinode.held_entry h.alloc h12 hj, h0]
    refine (h.own.take hslot hb hfree).congr (h.held_entryDisk hok hb h12 hj) ?_
    intro c hc
    unfold entryDisk
    rw [bitAt_setBlock_data _ hind hc.2]
    exact bitAt_ballocDisk_data hb hc
  · intro c hc
    have hle := hok.data
    unfold entryDisk
    rw [bitAt_setBlock_data _ hind (by omega)]
    exact metaBits_ballocDisk hok h.metaBits hb c hc

theorem byteAt_take (hheld : ∀ i, d'.held disk' i = update (d.held disk) k b i)
    (h0 : d.held disk k = 0) (hzero : disk' b = zeroBlock)
    (hsame : ∀ bn, d.baddr disk bn ≠ 0 → disk' (d.baddr disk bn) = disk (d.baddr disk bn))
    (o : Nat) : d'.byteAt disk' o = d.byteAt disk o := by
  unfold Dinode.byteAt
  by_cases hk : Dinode.pos (o / 512) = k
  · have hold : d.baddr disk (o / 512) = 0 := by
      unfold Dinode.baddr
      rw [hk, h0]
    have hnew : d'.baddr disk' (o / 512) = b := by
      unfold Dinode.baddr
      rw [hheld, hk, update_self]
    rw [hold, hnew, hzero, if_pos rfl]
    split
    · rfl
    · simp [getByte, zeroBlock]
  have heq : d'.baddr disk' (o / 512) = d.baddr disk (o / 512) := by
    unfold Dinode.baddr
    rw [hheld, update_of_ne hk]
  rw [heq]
  by_cases hne : d.baddr disk (o / 512) = 0
  · rw [if_pos hne, if_pos hne]
  · rw [if_neg hne, if_neg hne, hsame _ hne]

theorem Dinode.Shape.grow (h : d.Shape disk N) (hN : N < 140)
    (hheld : ∀ bn, d'.baddr disk' bn = if bn = N then b else d.baddr disk bn) (hb : b ≠ 0)
    (h12 : d'.addrs 12 ≠ 0 ↔ 12 < N + 1) :
    d'.Shape disk' (N + 1) where
  le := hN
  block := by
    intro bn hbn
    rw [hheld]
    by_cases hbN : bn = N
    · subst hbN
      simp [hb]
    · rw [if_neg hbN, h.block bn hbn]
      omega
  indirect := h12

theorem bmap_of_lt {E : Stop → State → Prop}
    (ht : (s.icache e).d.type ≠ 0) (h : (s.icache e).d.Shape s.disk N) (hbn : bn < N) :
    wp (bmap e bn) (fun b s' => s' = s ∧ b = (s.icache e).d.baddr s.disk bn) E s := by
  have hle := h.le
  have hne := (h.block bn (by omega)).mpr hbn
  unfold bmap bmapAddr bmapEntry bread
  by_cases h12 : bn < 12
  · have hheld : (s.icache e).d.baddr s.disk bn = (s.icache e).d.addrs bn := by
      unfold Dinode.baddr Dinode.pos
      rw [if_pos h12, Dinode.held_of_le ht (by omega)]
    rw [hheld] at hne ⊢
    simp [h12, hne]
  have hind : (s.icache e).d.addrs 12 ≠ 0 := h.indirect.mpr (by omega)
  have hheld : (s.icache e).d.baddr s.disk bn =
      readWord (s.disk ((s.icache e).d.addrs 12)) (4 * (bn - 12)) := by
    unfold Dinode.baddr Dinode.pos
    rw [if_neg h12, ← Dinode.held_entry ht hind (by omega)]
    congr 1
    omega
  rw [hheld] at hne ⊢
  have hrange : bn - 12 < 128 := by omega
  simp [h12, hrange, hind, hne]

theorem bmapAddr_alloc (hout : 0 < s.outstanding)
    (h : Holds s.sb s.disk U (s.icache e).d) (h0 : (s.icache e).d.addrs k = 0) :
    wp (bmapAddr e k)
      (fun b s' => s.sb.IsData b ∧ bitAt s.sb s.disk b = false ∧ b ∈ s.taking 1 ∧
        ∃ lg, s' = s.upd (ballocDisk s.sb s.disk b) lg e ((s.icache e).d.setAddr k b) ∧
          Uses ∅ 1 s s')
      (Fails ∅ 1 s) s := by
  unfold bmapAddr
  simp only [wp_bind, wp_get, wp_ite]
  rw [if_pos h0]
  refine wp_post (balloc_uses hout h.metaBits) ?_
  rintro b _ ⟨hb, hfree, htaking, lg, rfl, huses⟩
  exact ⟨hb, hfree, htaking, lg, rfl, huses.withDinode _⟩

theorem baddr_ballocDisk (h : Holds sb disk U d) (hb : sb.IsData b)
    (hfree : bitAt sb disk b = false) (bn : Nat) (hne : d.baddr disk bn ≠ 0) :
    ballocDisk sb disk b (d.baddr disk bn) = disk (d.baddr disk bn) :=
  h.ballocDisk_held hb hfree hne

theorem stays_take (hheld : ∀ i, d'.held disk' i = update (d.held disk) k b i)
    (h0 : d.held disk k = 0) (i : Nat) (hi : d.held disk i ≠ 0) :
    d'.held disk' i = d.held disk i := by
  have hik : i ≠ k := by
    rintro rfl
    exact hi h0
  rw [hheld, update_of_ne hik]

theorem Local.addrs_eq_zero (h : Local sb disk U d N) (hN : N < 12) : d.addrs N = 0 := by
  have hblock := h.shape.block N (by omega)
  unfold Dinode.baddr Dinode.pos at hblock
  rw [if_pos hN, Dinode.held_of_le h.alloc (by omega)] at hblock
  by_contra hne
  exact absurd (hblock.mp hne) (by omega)

theorem Local.growDirect (h : Local sb disk U d N) (hok : sb.Ok) (hN : N < 12) (hb : sb.IsData b)
    (hfree : bitAt sb disk b = false) :
    Became sb U (N + 1) (d.byteAt disk) disk d (ballocDisk sb disk b) (d.setAddr N b) ∧
      (d.setAddr N b).baddr (ballocDisk sb disk b) N = b := by
  have hpos : Dinode.pos N = N := by
    unfold Dinode.pos
    rw [if_pos hN]
  have h0 := h.addrs_eq_zero hN
  have hslot : d.held disk N = 0 := by
    rw [Dinode.held_of_le h.alloc (by omega)]
    exact h0
  have hheld := h.held_setAddr hb hfree (k := N) (by omega) h0
  have hbaddr : ∀ bn, (d.setAddr N b).baddr (ballocDisk sb disk b) bn =
      if bn = N then b else d.baddr disk bn := by
    intro bn
    unfold Dinode.baddr
    rw [hheld]
    by_cases hbN : bn = N
    · subst hbN
      rw [hpos, update_self, if_pos rfl]
    · rw [if_neg hbN, update_of_ne]
      intro hp
      exact hbN (Dinode.pos_inj (hp.trans hpos.symm))
  have h12 : (d.setAddr N b).addrs 12 ≠ 0 ↔ 12 < N + 1 := by
    have hne : (12 : Nat) ≠ N := by omega
    simp only [Dinode.setAddr, update_of_ne hne]
    rw [h.shape.indirect]
    omega
  refine ⟨⟨keeps_ballocDisk h.toHolds hb hfree, rfl, ?_, ?_, stays_take hheld hslot⟩, ?_⟩
  · exact ⟨h.setAddr hok hb hfree (by omega) h0, h.shape.grow (by omega) hbaddr hb.ne_zero h12⟩
  · exact byteAt_take hheld hslot (ballocDisk_self b) (baddr_ballocDisk h.toHolds hb hfree)
  · rw [hbaddr, if_pos rfl]

/-- `b` is the block at `bn` of an inode that now has `N` blocks; at most `k` blocks have been
taken, among them `b` and the indirect block if they are new. -/
structure AtBlock (U : Set Nat) (e : Ino) (N bn k : Nat) (B : Finset Nat) (s : State) (b : Nat)
    (s' : State) : Prop where
  stored : Stored U e N ((s.icache e).d.byteAt s.disk) s s'
  eq : b = (s'.icache e).d.baddr s'.disk bn
  uses : Uses B k s s'
  block : (s.icache e).d.baddr s.disk bn = b ∨ b ∈ s.taking k
  indirect : (s'.icache e).d.indirect ⊆ (s.icache e).d.indirect ∪ s.taking k

theorem bmap_grow_direct (hok : s.sb.Ok) (hout : 0 < s.outstanding)
    (h : Local s.sb s.disk U (s.icache e).d N) (hN : N < 12) :
    wp (bmap e N) (AtBlock U e (N + 1) N 1 ∅ s) (Fails ∅ 1 s) s := by
  unfold bmap
  rw [if_pos hN]
  refine wp_post (bmapAddr_alloc hout h.toHolds (h.addrs_eq_zero hN)) ?_
  rintro b s' ⟨hb, hfree, htaking, lg, rfl, huses⟩
  obtain ⟨hgrow, hbaddr⟩ := h.growDirect hok hN hb hfree
  refine ⟨⟨?_, by simp⟩, ?_, huses, .inr htaking, ?_⟩
  · simpa using hgrow
  · simpa using hbaddr.symm
  · have hne : (12 : Nat) ≠ N := by omega
    simp [Dinode.indirect, Dinode.setAddr, hne]

/-- Between the two levels of `bmap` the indirect block is there, and nothing else has changed. -/
structure WithIndirect (sb : Superblock) (U : Set Nat) (disk : Disk) (d : Dinode) (disk' : Disk)
    (d' : Dinode) : Prop where
  keeps : Keeps sb U disk disk'
  fields : d' = { d with addrs := d'.addrs }
  holds : Holds sb disk' U d'
  indirect : d'.addrs 12 ≠ 0
  bytes : ∀ o, d'.byteAt disk' o = d.byteAt disk o
  baddr : ∀ bn, d'.baddr disk' bn = d.baddr disk bn
  stays : ∀ k, d.held disk k ≠ 0 → d'.held disk' k = d.held disk k

theorem WithIndirect.refl (h : Holds sb disk U d) (h12 : d.addrs 12 ≠ 0) :
    WithIndirect sb U disk d disk d :=
  ⟨Keeps.refl _ _ _, rfl, h, h12, fun _ => rfl, fun _ => rfl, fun _ _ => rfl⟩

theorem Holds.withIndirect (h : Holds sb disk U d) (hok : sb.Ok) (h12 : d.addrs 12 = 0)
    (hb : sb.IsData b) (hfree : bitAt sb disk b = false) :
    WithIndirect sb U disk d (ballocDisk sb disk b) (d.setAddr 12 b) := by
  have hheld := h.held_setAddr hb hfree (le_refl 12) h12
  have hslot : d.held disk 12 = 0 := by rw [Dinode.held_twelve h.alloc, h12]
  refine ⟨keeps_ballocDisk h hb hfree, rfl, h.setAddr hok hb hfree (le_refl 12) h12, ?_, ?_, ?_,
    stays_take hheld hslot⟩
  · simpa [Dinode.setAddr] using hb.ne_zero
  · exact byteAt_take hheld hslot (ballocDisk_self b) (baddr_ballocDisk h hb hfree)
  · intro bn
    unfold Dinode.baddr
    rw [hheld, update_of_ne (Dinode.pos_ne bn)]

theorem bmapAddr_indirect (hok : s.sb.Ok) (hout : 0 < s.outstanding)
    (h : Holds s.sb s.disk U (s.icache e).d)
    (hn : (if (s.icache e).d.addrs 12 = 0 then 1 else 0) = n) :
    wp (bmapAddr e 12)
      (fun ind s' => WithIndirect s.sb U s.disk (s.icache e).d s'.disk (s'.icache e).d ∧
        s' = s.upd s'.disk s'.logged e (s'.icache e).d ∧ ind = (s'.icache e).d.addrs 12 ∧
        (s'.icache e).d.indirect ⊆ (s.icache e).d.indirect ∪ s.taking n ∧ Uses ∅ n s s')
      (Fails ∅ n s) s := by
  by_cases h12 : (s.icache e).d.addrs 12 = 0
  · rw [if_pos h12] at hn
    subst hn
    refine wp_post (bmapAddr_alloc hout h h12) ?_
    rintro b s' ⟨hb, hfree, htaking, lg, rfl, huses⟩
    refine ⟨?_, by simp, by simp [Dinode.setAddr], ?_, huses⟩
    · simpa using h.withIndirect hok h12 hb hfree
    · simpa [Dinode.indirect, Dinode.setAddr, h12, hb.ne_zero] using htaking
  · unfold bmapAddr
    simp only [wp_bind, wp_get, wp_ite]
    rw [if_neg h12]
    exact ⟨WithIndirect.refl h h12, by simp, rfl, Finset.subset_union_left, Uses.refl ∅ n s⟩

theorem bmapEntry_alloc (hout : 0 < s.outstanding) (h : Holds s.sb s.disk U (s.icache e).d)
    (h12 : (s.icache e).d.addrs 12 ≠ 0)
    (h0 : readWord (s.disk ((s.icache e).d.addrs 12)) (4 * j) = 0) :
    wp (bmapEntry ((s.icache e).d.addrs 12) j)
      (fun b s' => s.sb.IsData b ∧ bitAt s.sb s.disk b = false ∧ b ∈ s.taking 1 ∧
        ∃ lg, s' = s.upd (entryDisk s.sb s.disk ((s.icache e).d.addrs 12) j b) lg e (s.icache e).d ∧
          Uses (s.icache e).d.indirect 1 s s')
      (Fails (s.icache e).d.indirect 1 s) s := by
  unfold bmapEntry bread
  simp only [wp_bind, wp_get, wp_pure, wp_ite]
  rw [if_pos h0]
  have hind : (s.icache e).d.indirect = {(s.icache e).d.addrs 12} := if_neg h12
  rw [hind]
  refine wp_mono (balloc_uses hout h.metaBits) ?_
    fun _ _ he => he.mono (Finset.empty_subset _) (le_refl 1)
  rintro b _ ⟨hb, hfree, htaking, lg, rfl, huses⟩
  refine wp_mono (logWrite_uses (by exact hout) _ _) ?_ ?_
  · rintro _ s' rfl
    refine ⟨hb, hfree, htaking, _, by simp [State.upd, entryDisk, recordBlock]; rfl, ?_⟩
    have hentry := huses.dataBlock (h.indirect_le h12)
      (writeWord (s.disk ((s.icache e).d.addrs 12)) (4 * j) b)
    rw [Finset.empty_union] at hentry
    exact hentry
  · rintro x t ⟨rfl, rfl, hfull⟩
    exact ⟨huses.mono (Finset.empty_subset _) (le_refl 1), .inl ⟨rfl, hfull⟩⟩

section
variable (h : Holds sb disk U d) (hb : sb.IsData b) (hfree : bitAt sb disk b = false)
include h hb hfree

theorem keeps_entryDisk (h12 : d.addrs 12 ≠ 0) :
    Keeps sb U disk (entryDisk sb disk (d.addrs 12) j b) := by
  have hheld12 := Dinode.held_twelve h.alloc disk
  have hslot : d.held disk 12 ≠ 0 := by
    rw [hheld12]
    exact h12
  have hind := (h.own.region 12 hslot).1
  have hout := h.own.apart 12 hslot
  rw [hheld12] at hind hout
  have hstart := Superblock.bmapstart_lt sb
  intro c hc
  have hne : c ≠ d.addrs 12 := by
    rintro rfl
    rcases hc with hc | hc
    · omega
    · exact hout hc
  unfold entryDisk
  rw [setBlock_of_ne _ _ hne]
  exact keeps_ballocDisk h hb hfree c hc

theorem Holds.entryDisk_baddr (hne : d.baddr disk bn ≠ 0) :
    entryDisk sb disk (d.addrs 12) j b (d.baddr disk bn) = disk (d.baddr disk bn) := by
  have hdiff : d.baddr disk bn ≠ d.addrs 12 := by
    intro heq
    rw [← Dinode.held_twelve h.alloc disk] at heq
    exact Dinode.pos_ne bn (h.own.inj _ _ hne heq)
  unfold entryDisk
  rw [setBlock_of_ne _ _ hdiff]
  exact baddr_ballocDisk h hb hfree bn hne

theorem Holds.entryDisk_self : entryDisk sb disk (d.addrs 12) j b b = zeroBlock := by
  have hdiff : b ≠ d.addrs 12 := by
    intro heq
    rw [← Dinode.held_twelve h.alloc disk] at heq
    exact (h.own.fresh hb hfree).2 12 heq.symm
  unfold entryDisk
  rw [setBlock_of_ne _ _ hdiff, ballocDisk_self]

end

section
variable (h1 : WithIndirect sb U disk d disk1 d1)
include h1

theorem WithIndirect.held_eq_zero (h : d.Shape disk N)
    (h12 : 12 ≤ N) (hN : N < 140) : d1.held disk1 (13 + (N - 12)) = 0 := by
  have hpos : Dinode.pos N = 13 + (N - 12) := by
    unfold Dinode.pos
    rw [if_neg (by omega)]
    omega
  have hblock := h.block N hN
  rw [← h1.baddr N] at hblock
  unfold Dinode.baddr at hblock
  rw [hpos] at hblock
  by_contra hne
  exact absurd (hblock.mp hne) (by omega)

theorem WithIndirect.entry_eq_zero (h : d.Shape disk N)
    (h12 : 12 ≤ N) (hN : N < 140) : readWord (disk1 (d1.addrs 12)) (4 * (N - 12)) = 0 := by
  rw [← Dinode.held_entry h1.holds.alloc h1.indirect (by omega)]
  exact h1.held_eq_zero h h12 hN

theorem WithIndirect.grow (h : Local sb disk U d N)
    (hok : sb.Ok) (h12 : 12 ≤ N) (hN : N < 140) (hb : sb.IsData b)
    (hfree : bitAt sb disk1 b = false) :
    Became sb U (N + 1) (d.byteAt disk) disk d
        (entryDisk sb disk1 (d1.addrs 12) (N - 12) b) d1 ∧
      d1.baddr (entryDisk sb disk1 (d1.addrs 12) (N - 12) b) N = b := by
  have hpos : Dinode.pos N = 13 + (N - 12) := by
    unfold Dinode.pos
    rw [if_neg (by omega)]
    omega
  have hslot := h1.held_eq_zero h.shape h12 hN
  have h0 := h1.entry_eq_zero h.shape h12 hN
  have hheld := h1.holds.held_entryDisk hok hb h1.indirect (j := N - 12) (by omega)
  have hbaddr : ∀ bn, d1.baddr (entryDisk sb disk1 (d1.addrs 12) (N - 12) b) bn =
      if bn = N then b else d.baddr disk bn := by
    intro bn
    rw [← h1.baddr bn]
    unfold Dinode.baddr
    rw [hheld]
    by_cases hbN : bn = N
    · subst hbN
      rw [hpos, update_self, if_pos rfl]
    · rw [if_neg hbN, update_of_ne]
      intro hp
      exact hbN (Dinode.pos_inj (hp.trans hpos.symm))
  have hind : d1.addrs 12 ≠ 0 ↔ 12 < N + 1 := by
    simp only [h1.indirect, ne_eq, not_false_eq_true, true_iff]
    omega
  refine ⟨⟨?_, h1.fields, ?_, ?_, ?_⟩, ?_⟩
  · exact h1.keeps.trans (keeps_entryDisk h1.holds hb hfree h1.indirect)
  · exact ⟨h1.holds.entry hok hb hfree h1.indirect (by omega) h0,
      h.shape.grow hN hbaddr hb.ne_zero hind⟩
  · intro o
    rw [← h1.bytes o]
    exact byteAt_take hheld hslot (h1.holds.entryDisk_self hb hfree)
      (fun bn hne => h1.holds.entryDisk_baddr hb hfree hne) o
  · intro k hk
    have hk1 := h1.stays k hk
    rw [stays_take hheld hslot k (by rw [hk1]; exact hk), hk1]
  · rw [hbaddr, if_pos rfl]

end

section
variable (hok : s.sb.Ok) (hout : 0 < s.outstanding) (h : Local s.sb s.disk U (s.icache e).d N)
include hok hout h

theorem bmap_grow_indirect (h12 : 12 ≤ N) (hN : N < 140) :
    wp (bmap e N) (AtBlock U e (N + 1) N (allocs N (N + 1)) (s.icache e).d.indirect s)
      (Fails (s.icache e).d.indirect (allocs N (N + 1)) s) s := by
  have hallocs : allocs N (N + 1) = (if (s.icache e).d.addrs 12 = 0 then 1 else 0) + 1 := by
    have hshape := h.shape.indirect
    unfold allocs
    by_cases h0 : (s.icache e).d.addrs 12 = 0
    · rw [if_pos h0, if_pos (by omega)]
      omega
    · rw [if_neg h0, if_neg (by omega)]
      omega
  rw [hallocs]
  generalize hn : (if (s.icache e).d.addrs 12 = 0 then 1 else 0) = n
  unfold bmap
  simp only [NDIRECT, NINDIRECT]
  rw [if_neg (by omega), if_pos (by omega)]
  simp only [wp_bind]
  refine wp_mono (bmapAddr_indirect hok hout h.toHolds hn) ?_
    fun _ _ he => he.mono (Finset.empty_subset _) (by omega)
  rintro _ s1 ⟨h1, hs1, rfl, hind, huses1⟩
  have hind' : ∅ ∪ (s1.icache e).d.indirect ⊆ (s.icache e).d.indirect ∪ s.taking (n + 1) := by
    rw [Finset.empty_union]
    exact hind.trans (Finset.union_subset_union_right (s.taking_mono (by omega)))
  have hsb := huses1.sb
  have hout1 : 0 < s1.outstanding := by
    rw [hs1]
    exact hout
  have hholds : Holds s1.sb s1.disk U (s1.icache e).d := by
    rw [hsb]
    exact h1.holds
  refine wp_mono (bmapEntry_alloc hout1 hholds h1.indirect (h1.entry_eq_zero h.shape h12 hN)) ?_
    fun _ _ he => (huses1.fails he).absorb hind'
  rintro b s' ⟨hb, hfree, htaking, lg, rfl, huses2⟩
  rw [hsb] at hb hfree huses2 ⊢
  obtain ⟨hgrow, hbaddr⟩ := h1.grow h hok h12 hN hb hfree
  refine ⟨⟨?_, ?_⟩, ?_, (huses1.trans huses2).absorb hind', ?_, ?_⟩
  · simpa using hgrow
  · simp only [State.upd_disk, State.upd_logged, State.upd_icache_self]
    exact State.upd_of_eq hs1 _ _ _
  · simpa using hbaddr.symm
  · exact .inr (huses1.taking_subset 1 htaking)
  · simpa using hind'

theorem bmap_grow (hN : N < 140) :
    wp (bmap e N) (AtBlock U e (N + 1) N (allocs N (N + 1)) (s.icache e).d.indirect s)
      (Fails (s.icache e).d.indirect (allocs N (N + 1)) s) s := by
  by_cases h12 : N < 12
  · have hallocs : allocs N (N + 1) = 1 := by
      unfold allocs
      rw [if_neg (by omega)]
      omega
    rw [hallocs]
    refine wp_mono (bmap_grow_direct hok hout h h12) ?_
      fun _ _ he => he.mono (Finset.empty_subset _) (le_refl 1)
    rintro b t ⟨h1, h2, huses, h4, h5⟩
    exact ⟨h1, h2, huses.mono (Finset.empty_subset _) (le_refl 1), h4, h5⟩
  · exact bmap_grow_indirect hok hout h (by omega) hN

end

end Xv6.Fs
