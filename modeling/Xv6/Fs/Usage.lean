import Xv6.Fs.Update

/-!
# What a write takes from the log and from the free map

`writei` records the blocks of the contents that it writes to, bitmap blocks, the
indirect block and the inode block, and takes blocks from the free map.
-/

namespace Xv6.Fs

open Lib Lib.Prog Log Function Finset

variable {s : State} {e : Ino} {U : Set Nat} {N off n t : Nat} {B : Finset Nat} {d : Dinode}
variable {disk : Disk}

/-- The blocks that a write into a file of `size` bytes takes from the free map. -/
def blocksTaken (size off n : Nat) : Nat :=
  allocs (blocksFor size) (blocksFor (off + n))

def entriesMade (size off n : Nat) : Nat :=
  touched off n + allocs (blocksFor size) (blocksFor (off + n)) + 2

/-- The blocks of the file that `writei` logs before its last call of `log_write`.  That is the one
of the inode block if the file gets longer, and the one of the last block of the contents if not. -/
def State.rewrites (s : State) (e : Ino) (off n : Nat) : Finset Nat :=
  (s.icache e).d.rewrites s.disk (blocksFor (s.icache e).d.size) (blocksFor (off + n)) off
    (if (s.icache e).d.size < off + n then touched off n else touched off n - 1)

theorem Dinode.rewrites_mono {M t' : Nat} (d : Dinode) (disk : Disk) (off : Nat)
    (h : t ≤ t') :
    d.rewrites disk N M off t ⊆ d.rewrites disk N M off t' :=
  union_subset_union_left (image_subset_image (Ico_subset_Ico (le_refl _) (by omega)))

theorem Dinode.card_rewrites (h : d.Shape disk N) (hoff : off ≤ 512 * N) (n : Nat) :
    (d.rewrites disk N (blocksFor (off + n)) off (touched off n)).card +
        2 * allocs N (blocksFor (off + n)) ≤
      touched off n + allocs N (blocksFor (off + n)) + 1 := by
  have hspan := card_image_le (s := Ico (off / 512) (min N (off / 512 + touched off n)))
    (f := d.baddr disk)
  have hunion := card_union_le ((Ico (off / 512) (min N (off / 512 + touched off n))).image
    (d.baddr disk)) (d.grows N (blocksFor (off + n)))
  have hgrows : (d.grows N (blocksFor (off + n))).card ≤
      if N < blocksFor (off + n) ∧ 12 < N then 1 else 0 := by
    have hiff := h.indirect
    unfold grows indirect
    split_ifs <;> simp_all
  rw [Nat.card_Ico] at hspan
  unfold rewrites
  unfold allocs touched blocksFor at *
  split_ifs at * <;> omega

theorem State.card_rewrites_le (s : State)
    (h : (s.icache e).d.Shape s.disk (blocksFor (s.icache e).d.size))
    (hoff : off ≤ (s.icache e).d.size) (n : Nat) :
    (s.rewrites e off n).card + 2 * blocksTaken (s.icache e).d.size off n + 1 ≤
      entriesMade (s.icache e).d.size off n := by
  have hle : off ≤ 512 * blocksFor (s.icache e).d.size := by
    unfold blocksFor
    omega
  have hcard := Dinode.card_rewrites h hle n
  have hmono := card_le_card (Dinode.rewrites_mono
    (N := blocksFor (s.icache e).d.size) (M := blocksFor (off + n)) (s.icache e).d s.disk off
    (show (if (s.icache e).d.size < off + n then touched off n else touched off n - 1) ≤
      touched off n by split <;> omega))
  unfold State.rewrites blocksTaken entriesMade
  omega

theorem State.card_taking (s : State) (B : Finset Nat) (k : Nat) :
    ((B ∪ s.taking k) \ s.logged.toFinset).card ≤ B.card + 2 * k :=
  calc
    _ ≤ (B ∪ s.taking k).card := card_le_card sdiff_subset
    _ ≤ B.card + (s.taking k).card := card_union_le _ _
    _ ≤ B.card + 2 * k := Nat.add_le_add_left (s.card_taking_le k) _

theorem updateInode_uses {f : Dinode → Dinode} (hok : s.sb.Ok) (hout : 0 < s.outstanding)
    (hi : s.sb.IsInum (s.icache e).inum) :
    wp (updateInode e f)
      (fun _ s' => Uses {s.sb.IBLOCK (s.icache e).inum} 0 s s') (Fails ∅ 0 s) s := by
  have hset := (Uses.refl ∅ 0 s).withDinode (e := e) (f (s.icache e).d)
  unfold updateInode setDinode setInode iupdate
  simp only [wp_bind, wp_modify, wp_get, update_self]
  refine wp_mono (logWrite_uses (by exact hout) _ _) ?_ ?_
  · rintro _ t rfl
    refine (hset.trans (uses_recordBlock _ ?_)).mono (by simp) (le_refl 0)
    intro c _
    exact bitAt_iupdate hok hi c
  · rintro x t ⟨rfl, rfl, hfull⟩
    exact ⟨hset, .inl ⟨rfl, hfull⟩⟩

theorem updateInode_room {f : Dinode → Dinode} (hout : 0 < s.outstanding) :
    wp (updateInode e f) (fun _ _ => s.logged.length < s.logCap)
      (fun _ _ => ¬s.logged.length < s.logCap) s := by
  unfold updateInode setDinode setInode iupdate logWrite
  simp only [wp_bind, wp_modify, wp_get, wp_ite, wp_throw]
  unfold State.logCap
  split
  · omega
  · rw [if_neg (by omega)]
    omega

/-- `writei` records the blocks of the contents that it writes to, the indirect block, the inode
block, and a bitmap block for each block that it takes. -/
theorem writei_uses (off : Nat) (src : List UInt8) (hok : s.sb.Ok) (hout : 0 < s.outstanding)
    (hi : s.sb.IsInum (s.icache e).inum)
    (h : Local s.sb s.disk U (s.icache e).d (blocksFor (s.icache e).d.size))
    (hdev : (s.icache e).d.type ≠ T_DEV) :
    wp (writei e off src)
      (fun _ s' => ∃ (B : Finset Nat) (k : Nat),
        B.card + 2 * k ≤ entriesMade (s.icache e).d.size off src.length ∧ Uses B k s s')
      (fun x s' => 0 < src.length ∧
        Fails (s.rewrites e off src.length) (blocksTaken (s.icache e).d.size off src.length) s x s')
      s := by
  have hreject : ∃ (B : Finset Nat) (k : Nat),
      B.card + 2 * k ≤ entriesMade (s.icache e).d.size off src.length ∧ Uses B k s s :=
    ⟨∅, 0, Nat.zero_le _, Uses.refl _ _ s⟩
  unfold State.rewrites blocksTaken
  unfold writei
  simp only [wp_bind, wp_get, wp_ite, wp_pure]
  rw [if_neg hdev]
  by_cases hoff : (s.icache e).d.size < off ∨ (off + src.length) % 2 ^ 32 < off
  · rw [if_pos hoff]
    exact hreject
  rw [if_neg hoff]
  by_cases hmax : MAXFILE * 512 < off + src.length
  · rw [if_pos hmax]
    exact hreject
  rw [if_neg hmax]
  have hmax' : off + src.length ≤ 140 * 512 := by
    change ¬140 * 512 < off + src.length at hmax
    omega
  have hsize : off ≤ 512 * blocksFor (s.icache e).d.size := by
    unfold blocksFor
    omega
  have hcard := Dinode.card_rewrites h.shape hsize src.length
  refine wp_mono (writeLoop_spec src.length off src hok hout h (le_refl _) hsize hmax') ?_ ?_
  · rintro _ s1 ⟨h1, huses1⟩
    unfold writeSize
    simp only [wp_bind, wp_get, wp_ite, wp_pure]
    by_cases hgrow : 0 < src.length ∧ (s1.icache e).d.size < off + src.length
    · have hsize1 : (s1.icache e).d.size = (s.icache e).d.size := by rw [h1.fields]
      have hinum1 : (s1.icache e).inum = (s.icache e).inum := by
        rw [h1.state, State.upd_icache_self]
      rw [if_pos hgrow, if_pos (hsize1 ▸ hgrow.2)]
      refine wp_mono (updateInode_uses (by rw [huses1.sb]; exact hok)
        (by rw [h1.outstanding_eq]; exact hout) (by rw [huses1.sb, hinum1]; exact hi)) ?_ ?_
      · intro _ s2 huses2
        refine ⟨_, _, ?_, huses1.trans huses2⟩
        have hunion := card_union_le ((s.icache e).d.rewrites s.disk
          (blocksFor (s.icache e).d.size) (blocksFor (off + src.length)) off
          (touched off src.length)) {s1.sb.IBLOCK (s1.icache e).inum}
        rw [card_singleton] at hunion
        unfold entriesMade
        omega
      · intro x s2 hfails
        exact ⟨hgrow.1, (huses1.fails hfails).mono (by rw [union_empty]) (le_refl _)⟩
    · rw [if_neg hgrow]
      exact ⟨_, _, by unfold entriesMade; omega, huses1⟩
  · rintro x s1 ⟨hlen, hfails⟩
    refine ⟨hlen, hfails.mono (Dinode.rewrites_mono _ _ _ ?_) (le_refl _)⟩
    split <;> omega

theorem writei_length_logged {s' : State} {r : Except Stop Int} {src : List UInt8} (hok : s.sb.Ok)
    (hout : 0 < s.outstanding) (hi : s.sb.IsInum (s.icache e).inum)
    (h : Local s.sb s.disk U (s.icache e).d (blocksFor (s.icache e).d.size))
    (hdev : (s.icache e).d.type ≠ T_DEV) (hoff : off ≤ (s.icache e).d.size)
    (hrun : writei e off src s = (r, s')) :
    s'.logged.length ≤ s.logged.length + entriesMade (s.icache e).d.size off src.length := by
  have hspec := writei_uses off src hok hout hi h hdev
  unfold wp at hspec
  rw [hrun] at hspec
  have hbound : ∀ (B : Finset Nat) (k : Nat),
      B.card + 2 * k ≤ entriesMade (s.icache e).d.size off src.length → Uses B k s s' →
      s'.logged.length ≤ s.logged.length + entriesMade (s.icache e).d.size off src.length := by
    intro B k hB huses
    have hlen := huses.records.length_le
    have hcard := s.card_taking B k
    omega
  cases r with
  | ok r =>
    obtain ⟨B, k, hB, huses⟩ := hspec
    exact hbound B k hB huses
  | error x =>
    exact hbound _ _ (Nat.le_of_succ_le (s.card_rewrites_le h.shape hoff src.length)) hspec.2.uses

end Xv6.Fs
