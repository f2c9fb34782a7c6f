import Xv6.Fs.Life
import Xv6.Mkfs.Mkfs

/-!
# Appending to a file of the image

While mkfs runs the free map is empty; `State.shown` is the image with the map
that `balloc` would write now.  On that disk `freeblock++` is what `balloc` of the
kernel does, so the invariant of one inode and the lemmas about the growth of an
inode are those of the kernel.
-/

namespace Xv6.Mkfs

open Lib Lib.Prog Fs
open Log (Block LOGSIZE BSIZE)

variable {b sec k bn i c off m : Nat} {Q : Dinode → State → Prop}

theorem sb_ok : sb.Ok where
  inodes := by decide
  data := by decide
  size := by decide
  root := by decide
  inum := by decide

theorem isData_iff (b : Nat) : sb.IsData b ↔ 59 ≤ b ∧ b < 1000 :=
  Iff.rfl

theorem bblock_eq (hb : b < 4096) : sb.BBLOCK b = 58 := by
  have hdiv : b / 4096 = 0 := Nat.div_eq_of_lt hb
  unfold Superblock.BBLOCK
  rw [hdiv]
  rfl

theorem iblock_lt (hi : sb.IsInum i) : sb.IBLOCK i < 58 :=
  Superblock.iblock_lt sb_ok hi

theorem le_iblock (i : Nat) : 32 ≤ sb.IBLOCK i :=
  Nat.le_add_left 32 (i / 8)

theorem markUsed_succ (used : Nat) : markUsed (used + 1) = markBlock (markUsed used) used := by
  unfold markUsed
  rw [List.range_succ, List.foldl_append]
  rfl

theorem testBit_markUsed {used : Nat} (hused : used ≤ 4096) :
    (getByte (markUsed used) (b / 8)).toNat.testBit (b % 8) = decide (b < used) := by
  induction used with
  | zero =>
    have hzero : getByte (markUsed 0) (b / 8) = 0 := by
      unfold getByte
      split
      · rfl
      · rfl
    rw [hzero]
    simp
  | succ used ih =>
    have hb := Nat.mod_lt b (show 0 < 8 by omega)
    have hm := Nat.mod_lt used (show 0 < 8 by omega)
    rw [markUsed_succ]
    unfold markBlock
    rw [getByte_setByte (by simp only [BSIZE]; omega)]
    by_cases hbyte : b / 8 = used / 8
    · rw [if_pos hbyte, testBit_maskByte _ _ hm hb, ← hbyte, ih (by omega)]
      by_cases hbit : b % 8 = used % 8
      · have hlt : b < used + 1 := by omega
        simp [hbit, hlt]
      · have hiff : b < used ↔ b < used + 1 := by omega
        rw [if_neg hbit, decide_eq_decide]
        exact hiff
    · have hiff : b < used ↔ b < used + 1 := by omega
      rw [if_neg hbyte, ih (by omega), decide_eq_decide]
      exact hiff

namespace State

variable (s : State)

def shown : Disk :=
  setBlock s.disk 58 (markUsed s.freeblock)

def put (sec : Nat) (buf : Block) : State :=
  { s with disk := setBlock s.disk sec buf }

def taken : State :=
  { s with freeblock := s.freeblock + 1 }

variable {s}

theorem shown_of_ne (h : c ≠ 58) : s.shown c = s.disk c :=
  setBlock_of_ne _ _ h

theorem shown_put {buf : Block} (h : sec ≠ 58) :
    (s.put sec buf).shown = setBlock s.shown sec buf := by
  unfold shown put setBlock
  exact Function.update_comm h _ _ _

theorem bitAt_shown (hused : s.freeblock ≤ 4096) (hb : b < 4096) :
    bitAt sb s.shown b = decide (b < s.freeblock) := by
  unfold bitAt
  rw [bblock_eq hb, Nat.mod_eq_of_lt hb]
  unfold shown
  rw [setBlock_self]
  exact testBit_markUsed hused

end State

structure Room (s : State) : Prop where
  lo : 59 ≤ s.freeblock
  hi : s.freeblock ≤ 1000
  zero : ∀ b, s.freeblock ≤ b → s.disk b = zeroBlock

section Room

variable {s : State}

theorem Room.put (h : Room s) (hsec : sec < s.freeblock) (buf : Block) :
    Room (s.put sec buf) where
  lo := h.lo
  hi := h.hi
  zero := by
    intro b hb
    have hfb : s.freeblock ≤ b := hb
    change setBlock s.disk sec buf b = zeroBlock
    rw [setBlock_of_ne _ _ (by omega)]
    exact h.zero b hfb

theorem Room.taken (h : Room s) (hlt : s.freeblock < 1000) :
    Room s.taken where
  lo := Nat.le_succ_of_le h.lo
  hi := hlt
  zero := fun b hb => h.zero b (Nat.le_of_succ_le hb)

theorem Room.isData (h : Room s) (hlt : s.freeblock < 1000) : sb.IsData s.freeblock :=
  ⟨h.lo, hlt⟩

theorem bitAt_freeblock (hlt : s.freeblock < 1000) : bitAt sb s.shown s.freeblock = false := by
  rw [State.bitAt_shown (by omega) (by omega)]
  simp

theorem Room.shown_taken (h : Room s) (hlt : s.freeblock < 1000) :
    s.taken.shown = ballocDisk sb s.shown s.freeblock := by
  have hlo := h.lo
  have hbit : putBit sb s.shown s.freeblock true = markUsed (s.freeblock + 1) := by
    unfold putBit State.shown
    rw [bblock_eq (by omega), setBlock_self, Nat.mod_eq_of_lt (by omega), markUsed_succ]
    rfl
  funext c
  unfold ballocDisk
  rw [hbit, bblock_eq (by omega)]
  by_cases hc : c = s.freeblock
  · subst hc
    rw [setBlock_self, State.shown_of_ne (by omega)]
    exact h.zero _ (le_refl _)
  rw [setBlock_of_ne _ _ hc]
  by_cases hc58 : c = 58
  · subst hc58
    rw [setBlock_self]
    exact setBlock_self _ _ _
  · rw [setBlock_of_ne _ _ hc58, State.shown_of_ne hc58, State.shown_of_ne hc58]
    rfl

end Room

def span (N : Nat) : Nat :=
  if 12 < N then N + 1 else N

theorem span_mono {N M : Nat} (h : N ≤ M) : span N ≤ span M := by
  unfold span
  split <;> split <;> omega

structure Appended (U : Set Nat) (N N' : Nat) (g : Nat → UInt8) (s : State) (d : Dinode)
    (s' : State) (d' : Dinode) : Prop where
  became : Became sb U N' g s.shown d s'.shown d'
  room : Room s'
  inode : s'.freeinode = s.freeinode
  block : s'.freeblock + span N = s.freeblock + span N'

section Block

variable {s s' s'' : State} {U : Set Nat} {N N' N'' : Nat} {d d' d'' : Dinode}
  {g g' : Nat → UInt8} {E : Failure → State → Prop}

theorem Appended.refl (h : Local sb s.shown U d N) (hroom : Room s) :
    Appended U N N (d.byteAt s.shown) s d s d :=
  ⟨Became.refl h, hroom, rfl, rfl⟩

theorem Appended.trans (h : Appended U N N' g s d s' d') (h' : Appended U N' N'' g' s' d' s'' d'') :
    Appended U N N'' g' s d s'' d'' where
  became := h.became.trans h'.became
  room := h'.room
  inode := h'.inode.trans h.inode
  block := by
    have h1 := h.block
    have h2 := h'.block
    omega

theorem Appended.congr (h : Appended U N N' g s d s' d') (hN : N' = N'') (hg : ∀ o, g o = g' o) :
    Appended U N N'' g' s d s' d' where
  became := h.became.congr hN hg
  room := h.room
  inode := h.inode
  block := hN ▸ h.block

theorem wp_wsect {Q : Unit → State → Prop} (sec : Nat) (buf : Block) :
    wp (wsect sec buf) Q E s ↔ Q () (s.put sec buf) :=
  Iff.rfl

theorem rsect_spec (h : sec < 1000) (h58 : sec ≠ 58) :
    wp (rsect sec) (fun buf s' => s' = s ∧ buf = s.shown sec) E s := by
  unfold rsect
  rw [wp_bind, wp_get, wp_ite, if_neg (Nat.not_le_of_lt h)]
  exact ⟨rfl, (State.shown_of_ne h58).symm⟩

theorem wp_takeBlock {Q : Nat → State → Prop} : wp takeBlock Q E s ↔ Q s.freeblock s.taken :=
  Iff.rfl

theorem wp_appendAddr_zero (h : d.addrs k = 0) :
    wp (appendAddr d k) Q E s ↔ Q (d.setAddr k s.freeblock) s.taken := by
  unfold appendAddr
  rw [if_pos h]
  exact Iff.rfl

theorem wp_appendAddr_ne (h : d.addrs k ≠ 0) : wp (appendAddr d k) Q E s ↔ Q d s := by
  unfold appendAddr
  rw [if_neg h]
  exact Iff.rfl

theorem held_lt (h : Holds sb s.shown U d) (hk : d.held s.shown k = b) (hb : b ≠ 0) :
    b < 1000 ∧ b ≠ 58 := by
  subst hk
  have hdata := (isData_iff _).mp (h.own.region k hb)
  omega

theorem held_lt_freeblock (h : Holds sb s.shown U d) (hroom : Room s)
    (hk : d.held s.shown k = b) (hb : b ≠ 0) : b < s.freeblock := by
  have hlt := held_lt h hk hb
  have hi := hroom.hi
  subst hk
  have hmarked := h.own.marked_of_held hb
  rw [State.bitAt_shown (by omega) (by omega)] at hmarked
  simpa using hmarked

section
variable (h : Local sb s.shown U d N)
include h

theorem appendBlock_of_lt (hbn : bn < N) :
    wp (appendBlock d bn)
      (fun r s' => s' = s ∧ r = (d, d.baddr s.shown bn)) E s := by
  have hle := h.shape.le
  have hne := (h.shape.block bn (by omega)).mpr hbn
  unfold appendBlock
  by_cases h12 : bn < 12
  · have hheld : d.baddr s.shown bn = d.addrs bn := by
      unfold Dinode.baddr Dinode.pos
      rw [if_pos h12, Dinode.held_of_le h.alloc (by omega)]
    rw [hheld] at hne ⊢
    rw [if_pos h12, wp_bind, wp_appendAddr_ne hne]
    exact ⟨rfl, rfl⟩
  have hind : d.addrs 12 ≠ 0 := h.shape.indirect.mpr (by omega)
  have hlt := held_lt h.toHolds (Dinode.held_twelve h.alloc _) hind
  have hheld : d.baddr s.shown bn = readWord (s.shown (d.addrs 12)) (4 * (bn - 12)) := by
    unfold Dinode.baddr Dinode.pos
    rw [if_neg h12, ← Dinode.held_entry h.alloc hind (by omega)]
    congr 1
    omega
  rw [hheld] at hne ⊢
  rw [if_neg h12, wp_bind, wp_appendAddr_ne hind]
  unfold appendEntry
  rw [wp_bind]
  refine wp_seq (rsect_spec hlt.1 hlt.2) ?_
  rintro _ _ ⟨rfl, rfl⟩
  rw [wp_ite, if_neg hne]
  exact ⟨rfl, rfl⟩

theorem appendBlock_direct (hroom : Room s) (hN : N < 12)
    (hspace : s.freeblock + span (N + 1) ≤ 1000 + span N) :
    wp (appendBlock d N)
      (fun r s' => Appended U N (N + 1) (d.byteAt s.shown) s d s' r.1 ∧
        r.2 = r.1.baddr s'.shown N) E s := by
  have hspan : span N = N ∧ span (N + 1) = N + 1 := by
    unfold span
    rw [if_neg (by omega), if_neg (by omega)]
    exact ⟨rfl, rfl⟩
  have hlt : s.freeblock < 1000 := by omega
  obtain ⟨hgrow, hbaddr⟩ := h.growDirect sb_ok hN (hroom.isData hlt) (bitAt_freeblock hlt)
  rw [← hroom.shown_taken hlt] at hgrow hbaddr
  unfold appendBlock
  rw [if_pos hN, wp_bind, wp_appendAddr_zero (h.addrs_eq_zero hN)]
  refine ⟨⟨hgrow, hroom.taken hlt, rfl, ?_⟩, ?_⟩
  · rw [hspan.1, hspan.2]
    exact Nat.add_right_comm _ _ _
  · simp only
    rw [hbaddr]
    exact Function.update_self _ _ _

theorem appendAddr_indirect (hroom : Room s) (h12 : 12 ≤ N)
    (hspace : s.freeblock + span (N + 1) ≤ 1000 + span N) :
    wp (appendAddr d 12)
      (fun d' s' => WithIndirect sb U s.shown d s'.shown d' ∧ Room s' ∧
        s'.freeinode = s.freeinode ∧ s'.freeblock + span N + 1 = s.freeblock + span (N + 1))
      E s := by
  have hind := h.shape.indirect
  by_cases hN : N = 12
  · have h0 : d.addrs 12 = 0 := by
      by_contra hne
      exact absurd (hind.mp hne) (by omega)
    have hspan : span N = 12 ∧ span (N + 1) = 14 := by
      subst hN
      decide
    have hlt : s.freeblock < 1000 := by omega
    have hw := h.toHolds.withIndirect sb_ok h0 (hroom.isData hlt) (bitAt_freeblock hlt)
    rw [← hroom.shown_taken hlt] at hw
    rw [wp_appendAddr_zero h0]
    refine ⟨hw, hroom.taken hlt, rfl, ?_⟩
    rw [hspan.1, hspan.2]
    exact Nat.add_right_comm _ _ _
  have hspan : span (N + 1) = span N + 1 := by
    unfold span
    rw [if_pos (by omega), if_pos (by omega)]
  rw [wp_appendAddr_ne (hind.mpr (by omega))]
  refine ⟨WithIndirect.refl h.toHolds (hind.mpr (by omega)), hroom, rfl, ?_⟩
  rw [hspan]
  rfl

theorem appendBlock_indirect (hroom : Room s) (h12 : 12 ≤ N)
    (hN : N < 140) (hspace : s.freeblock + span (N + 1) ≤ 1000 + span N) :
    wp (appendBlock d N)
      (fun r s' => Appended U N (N + 1) (d.byteAt s.shown) s d s' r.1 ∧
        r.2 = r.1.baddr s'.shown N) E s := by
  unfold appendBlock
  simp only [NDIRECT]
  rw [if_neg (by omega)]
  refine wp_seq (appendAddr_indirect h hroom h12 hspace) ?_
  rintro d1 s1 ⟨h1, hroom1, hinode, hblock⟩
  have hlt : s1.freeblock < 1000 := by omega
  have hheld := Dinode.held_twelve h1.holds.alloc s1.shown
  have hread := held_lt h1.holds hheld h1.indirect
  have hbelow := held_lt_freeblock h1.holds hroom1 hheld h1.indirect
  obtain ⟨hgrow, hbaddr⟩ := h1.grow h sb_ok h12 hN (hroom1.isData hlt) (bitAt_freeblock hlt)
  have hshown : (s1.taken.put (d1.addrs 12)
      (writeWord (s1.shown (d1.addrs 12)) (4 * (N - 12)) s1.freeblock)).shown =
      entryDisk sb s1.shown (d1.addrs 12) (N - 12) s1.freeblock := by
    rw [State.shown_put hread.2, hroom1.shown_taken hlt]
    rfl
  rw [← hshown] at hgrow hbaddr
  unfold appendEntry
  rw [wp_bind]
  refine wp_seq (rsect_spec hread.1 hread.2) ?_
  rintro _ _ ⟨rfl, rfl⟩
  rw [wp_ite, if_pos (h1.entry_eq_zero h.shape h12 hN), wp_bind, wp_takeBlock, wp_bind, wp_wsect]
  refine ⟨⟨hgrow, (hroom1.taken hlt).put (Nat.lt_succ_of_lt hbelow) _, hinode, ?_⟩, hbaddr.symm⟩
  simp only [State.put, State.taken]
  omega

theorem appendBlock_spec (hroom : Room s) (hbn : bn ≤ N)
    (hlt : bn < 140) (hspace : s.freeblock + span (max N (bn + 1)) ≤ 1000 + span N) :
    wp (appendBlock d bn)
      (fun r s' => Appended U N (max N (bn + 1)) (d.byteAt s.shown) s d s' r.1 ∧
        r.2 = r.1.baddr s'.shown bn) E s := by
  by_cases hnew : bn = N
  · subst hnew
    rw [Nat.max_eq_right (by omega)] at hspace ⊢
    by_cases h12 : bn < 12
    · exact appendBlock_direct h hroom h12 hspace
    · exact appendBlock_indirect h hroom (by omega) hlt hspace
  · rw [Nat.max_eq_left (by omega)]
    refine wp_post (appendBlock_of_lt h (by omega)) ?_
    rintro _ _ ⟨rfl, rfl⟩
    exact ⟨Appended.refl h hroom, rfl⟩

end

end Block

section Loop

variable {s : State} {U : Set Nat} {N : Nat} {d : Dinode}

theorem Appended.write {s' : State} {d' : Dinode} {N' : Nat} {g : Nat → UInt8} {p : List UInt8}
    (h : Appended U N N' g s d s' d') (hne : d'.baddr s'.shown (off / 512) ≠ 0) (hm : m ≤ p.length)
    (hm' : m ≤ 512 - off % 512) :
    Appended U N N' (writeAt g off (p.take m)) s d
      (s'.put (d'.baddr s'.shown (off / 512))
        (blit (s'.shown (d'.baddr s'.shown (off / 512))) (off % 512) m
          fun i => p.getD i 0)) d' := by
  have hholds := h.became.loc.toHolds
  have hread : _ ∧ d'.baddr s'.shown (off / 512) ≠ 58 := held_lt hholds rfl hne
  have hbelow := held_lt_freeblock hholds h.room rfl hne
  refine ⟨?_, h.room.put hbelow _, h.inode, h.block⟩
  rw [State.shown_put hread.2]
  exact h.became.write sb_ok hne hm hm'

theorem appendLoop_spec {E : Failure → State → Prop} (fuel off : Nat) (p : List UInt8)
    (h : Local sb s.shown U d N) (hroom : Room s) (hfuel : p.length ≤ fuel) (hoff : off ≤ 512 * N)
    (hmax : off + p.length ≤ 140 * 512)
    (hspace : s.freeblock + span (max N (blocksFor (off + p.length))) ≤ 1000 + span N) :
    wp (appendLoop fuel d off p)
      (fun r s' => r.2 = off + p.length ∧ Appended U N (max N (blocksFor (off + p.length)))
          (writeAt (d.byteAt s.shown) off p) s d s' r.1) E s := by
  have hdone : off ≤ 512 * N → p = [] → Appended U N (max N (blocksFor (off + p.length)))
      (writeAt (d.byteAt s.shown) off p) s d s d := by
    rintro hoff rfl
    refine (Appended.refl h hroom).congr ?_ fun o => (writeAt_nil _ off o).symm
    simp only [blocksFor, List.length_nil]
    omega
  induction fuel generalizing s off p N d with
  | zero =>
    have hnil : p = [] := List.length_eq_zero_iff.mp (by omega)
    exact ⟨by simp [hnil], hdone hoff hnil⟩
  | succ fuel ih =>
    unfold appendLoop
    rw [wp_ite]
    by_cases hnil : p = []
    · rw [if_pos hnil]
      exact ⟨by simp [hnil], hdone hoff hnil⟩
    have hlen : 0 < p.length := List.length_pos_iff.mpr hnil
    rw [if_neg hnil, wp_ite, if_neg (by simp only [MAXFILE, NDIRECT, NINDIRECT]; omega), wp_bind]
    have hgrow : max N (off / 512 + 1) ≤ max N (blocksFor (off + p.length)) := by
      unfold blocksFor
      omega
    have hspan := span_mono hgrow
    refine wp_post (appendBlock_spec h hroom (by omega) (by omega) (by omega)) ?_
    rintro ⟨d1, x⟩ s1 ⟨h1, hx⟩
    simp only at h1 hx ⊢
    subst hx
    have hne := (h1.became.loc.shape.block (off / 512) (by omega)).mpr (by omega)
    have hread := held_lt h1.became.loc.toHolds rfl hne
    refine wp_seq (rsect_spec hread.1 hread.2) ?_
    rintro _ _ ⟨rfl, rfl⟩
    rw [wp_bind, wp_wsect]
    have hm : min p.length (512 - off % 512) ≤ p.length := Nat.min_le_left _ _
    have hm' : min p.length (512 - off % 512) ≤ 512 - off % 512 := Nat.min_le_right _ _
    have hpos : 0 < min p.length (512 - off % 512) := by
      have := Nat.mod_lt off (show 0 < 512 by omega)
      omega
    generalize min p.length (512 - off % 512) = m at hm hm' hpos ⊢
    have h2 := h1.write hne hm hm'
    have hblock := h2.block
    have hsum : off + m + (p.drop m).length = off + p.length := by
      rw [List.length_drop]
      omega
    have hmax2 : max (max N (off / 512 + 1)) (blocksFor (off + m + (p.drop m).length)) =
        max N (blocksFor (off + p.length)) := by
      rw [hsum]
      omega
    refine wp_post (ih (N := max N (off / 512 + 1)) (off + m) (p.drop m) h2.became.loc h2.room
      ?_ ?_ ?_ ?_ ?_) ?_
    · rw [List.length_drop]
      omega
    · omega
    · omega
    · rw [hmax2]
      omega
    · rintro hoff2 hnil2
      refine (Appended.refl h2.became.loc h2.room).congr ?_ ?_
      · rw [hnil2]
        simp only [blocksFor, List.length_nil]
        omega
      · intro o
        rw [hnil2]
        exact (writeAt_nil _ _ o).symm
    rintro r s3 ⟨hr, h3⟩
    refine ⟨hr.trans hsum, (h2.trans h3).congr hmax2 ?_⟩
    intro o
    rw [← writeAt_split _ off p hm o]
    unfold writeAt
    simp only [h2.became.bytes]
    rfl

end Loop

end Xv6.Mkfs
