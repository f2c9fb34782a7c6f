import Xv6.Fs.Reach
import Xv6.Mkfs.Build

/-!
# The files of the image

What the kernel finds in the image: the superblock, the root directory with its
entries, and the files with their contents.  An image whose root directory has
all its blocks is one that the kernel can start from.
-/

namespace Xv6.Mkfs

open Lib Lib.Prog Fs List
open Log (Block LOGSIZE BSIZE)

variable {files : List HostFile} {s : State}

def dirents (files : List HostFile) : List Dirent :=
  ⟨ROOTINO, strncpy 14 dot⟩ :: ⟨ROOTINO, strncpy 14 dotdot⟩ :: files.mapIdx direntAt

def rootNode (files : List HostFile) : Node :=
  fileNode T_DIR (rootData files ++ List.replicate (rootSize files - 16 * (files.length + 2)) 0)

@[simp] theorem length_dirents (files : List HostFile) :
    (dirents files).length = files.length + 2 := by
  simp [dirents]

section
variable (files : List HostFile)

theorem le_rootSize : 16 * (files.length + 2) < rootSize files := by
  unfold rootSize
  omega

theorem length_rootNode : (rootNode files).data.length = rootSize files := by
  have hle := le_rootSize files
  unfold rootNode fileNode
  rw [length_append, length_rootData, length_replicate]
  omega

theorem rootData_eq : rootData files = ((dirents files).map Dirent.bytes).flatten := by
  have hdot : Dirent.bytes ⟨ROOTINO, dot⟩ = Dirent.bytes ⟨ROOTINO, strncpy 14 dot⟩ := by decide
  have hdotdot : Dirent.bytes ⟨ROOTINO, dotdot⟩ = Dirent.bytes ⟨ROOTINO, strncpy 14 dotdot⟩ := by
    decide
  have hmap : (files.mapIdx direntAt).map Dirent.bytes =
      files.mapIdx fun j f => (direntAt j f).bytes := by
    apply ext_getElem
    · simp
    · intro j hj hj'
      simp
  unfold rootData dirents
  rw [hdot, hdotdot, map_cons, map_cons, flatten_cons, flatten_cons, append_assoc, hmap]

end

theorem getD_flatten (es : List Dirent) (rest : List UInt8) {k r : Nat} (hk : k < es.length)
    (hr : r < 16) : ((es.map Dirent.bytes).flatten ++ rest).getD (16 * k + r) 0 = es[k].byte r := by
  induction es generalizing k with
  | nil => exact absurd hk (Nat.not_lt_zero k)
  | cons e es ih =>
    rw [map_cons, flatten_cons, append_assoc, getD_eq_getElem?_getD]
    cases k with
    | zero =>
      rw [Nat.mul_zero, Nat.zero_add, List.getElem?_append_left (by simpa using hr),
        ← getD_eq_getElem?_getD, Dirent.getD_bytes e hr]
      rfl
    | succ k =>
      have hlen : 16 * (k + 1) + r - e.bytes.length = 16 * k + r := by
        rw [Dirent.length_bytes]
        omega
      rw [List.getElem?_append_right (by rw [Dirent.length_bytes]; omega), hlen,
        ← getD_eq_getElem?_getD]
      exact ih (Nat.lt_of_succ_lt_succ hk)

theorem entry_rootNode (hlen : files.length < 2 ^ 15) {k : Nat} (hk : k < (dirents files).length) :
    (rootNode files).entry k = (dirents files)[k] := by
  have hfits : ∀ e ∈ dirents files, e.inum < 2 ^ 16 ∧ e.name.length = 14 := by
    intro e he
    unfold dirents at he
    rcases mem_cons.mp he with rfl | he
    · decide
    · rcases mem_cons.mp he with rfl | he
      · decide
      · obtain ⟨j, hj, rfl⟩ := mem_mapIdx.mp he
        refine ⟨?_, by simp [direntAt]⟩
        simp only [direntAt]
        omega
  have hbytes : ∀ r < 16, (rootNode files).data.getD (16 * k + r) 0 =
      (dirents files)[k].byte r := by
    intro r hr
    unfold rootNode fileNode
    simp only
    rw [rootData_eq]
    exact getD_flatten _ _ hk hr
  obtain ⟨hinum, hname⟩ := hfits _ (getElem_mem hk)
  unfold Node.entry
  rw [Dirent.decode_congr hbytes]
  exact Dirent.decode_byte hinum hname

theorem inum_rootNode_of_le {k : Nat} (hk : files.length + 2 ≤ k) :
    ((rootNode files).entry k).inum = 0 := by
  have hzero : ∀ o, 16 * (files.length + 2) ≤ o → (rootNode files).data.getD o 0 = 0 := by
    intro o ho
    unfold rootNode fileNode
    simp only
    rw [getD_eq_getElem?_getD, List.getElem?_append_right (by rw [length_rootData]; exact ho),
      List.getElem?_replicate]
    split
    · rfl
    · rfl
  change halfOf (fun r => (rootNode files).data.getD (16 * k + r) 0) 0 = 0
  unfold halfOf
  simp only
  rw [hzero _ (by omega), hzero _ (by omega)]
  rfl

theorem inum_dirents {k : Nat} (hk : k < (dirents files).length) :
    1 ≤ (dirents files)[k].inum ∧ (dirents files)[k].inum ≤ files.length + 1 := by
  have hmem := getElem_mem hk
  generalize (dirents files)[k] = e at hmem
  unfold dirents at hmem
  rcases mem_cons.mp hmem with rfl | hmem
  · exact ⟨le_refl 1, Nat.le_add_left 1 _⟩
  · rcases mem_cons.mp hmem with rfl | hmem
    · exact ⟨le_refl 1, Nat.le_add_left 1 _⟩
    · obtain ⟨j, hj, rfl⟩ := mem_mapIdx.mp hmem
      simp only [direntAt]
      omega

theorem Fits.length_lt (h : Fits files) : files.length < 198 + 1 := by
  have hinodes : files.length + 1 < 200 := h.inodes
  omega

theorem readsb_of_super {disk : Disk} (h : disk 1 = superBlock) : readsb disk = sb := by
  unfold readsb
  rw [h]
  decide +kernel

theorem readsb_image (h : Fits files) : readsb (image files) = sb := by
  obtain ⟨_, s, hs, himage⟩ := image_spec h
  apply readsb_of_super
  rw [himage, ← hs.super]
  have hle := le_iblock ROOTINO
  have hne : 1 ≠ sb.IBLOCK ROOTINO := by omega
  exact (setBlock_of_ne _ _ hne).trans (State.shown_of_ne (by decide))

theorem Built.byteAt_rootInode (h : Built files s) (o : Nat) :
    (rootInode files s).byteAt (iupdateDisk sb s.shown ROOTINO (rootInode files s)) o =
      (inodeAt sb s.shown ROOTINO).byteAt s.shown o := by
  have ht : (rootInode files s).type ≠ 0 := by
    rw [type_rootInode]
    exact h.local_root.alloc
  exact byteAt_store sb_ok (by decide) h.local_root (addrs_rootInode files s) ht o

theorem Built.node_rootInode (h : Built files s) :
    (rootInode files s).node (iupdateDisk sb s.shown ROOTINO (rootInode files s)) =
      rootNode files := by
  have hroot : s.node ROOTINO = fileNode T_DIR (rootData files) := by rw [h.node, table_root]
  have hsize := h.size_root
  have hle := le_rootSize files
  have hdata : bytesFrom ((inodeAt sb s.shown ROOTINO).byteAt s.shown) 0
      (16 * (files.length + 2)) = rootData files := by
    have hdata := congrArg Node.data hroot
    rw [← hsize]
    exact hdata
  have hzero : bytesFrom ((inodeAt sb s.shown ROOTINO).byteAt s.shown)
      (0 + 16 * (files.length + 2)) (rootSize files - 16 * (files.length + 2)) =
        List.replicate (rootSize files - 16 * (files.length + 2)) 0 := by
    unfold bytesFrom
    rw [eq_replicate_iff]
    refine ⟨by simp, ?_⟩
    intro b hb
    obtain ⟨i, _, rfl⟩ := mem_map.mp hb
    exact h.tail ROOTINO _ (by omega)
  have hbytes := funext h.byteAt_rootInode
  unfold Dinode.node
  rw [hbytes]
  have hsplit : rootSize files =
      16 * (files.length + 2) + (rootSize files - 16 * (files.length + 2)) := by omega
  have hfields : (rootInode files s).size = rootSize files := rfl
  have hall : bytesFrom ((inodeAt sb s.shown ROOTINO).byteAt s.shown) 0 (rootInode files s).size =
      rootData files ++ List.replicate (rootSize files - 16 * (files.length + 2)) 0 := by
    rw [hfields, hsplit, bytesFrom_add, hdata, ← hsplit, hzero]
  rw [hall]
  have htype := congrArg Node.type hroot
  have hmajor := congrArg Node.major hroot
  have hminor := congrArg Node.minor hroot
  have hnlink := congrArg Node.nlink hroot
  unfold rootNode
  ext1
  · exact htype
  · exact hmajor
  · exact hminor
  · exact hnlink
  · rfl

theorem nodeAt_image (h : Fits files) (i : Nat) :
    nodeAt sb (image files) i = if i = ROOTINO then rootNode files else table files i := by
  obtain ⟨_, s, hs, himage⟩ := image_spec h
  have hlen := h.length_lt
  rw [himage]
  by_cases hi : i = ROOTINO
  · subst hi
    rw [if_pos rfl]
    unfold nodeAt
    rw [inodeAt_iupdate_self (by decide) (hs.fits_rootInode (by omega))]
    exact hs.node_rootInode
  · rw [if_neg hi, ← hs.node]
    exact nodeAt_store_of_ne hs.rep (by decide) (Keeps.refl _ _ _) hi

theorem rep_image (h : Fits files) (hroot : (files.length + 2) % 32 ≠ 0) :
    Rep sb (image files) := by
  obtain ⟨_, s, hs, himage⟩ := image_spec h
  have hlen := h.length_lt
  have hblocks : blocksFor (rootInode files s).size = blocksFor (16 * (files.length + 2)) :=
    (blocksFor_rootSize_eq_iff files).mpr hroot
  have ht : (rootInode files s).type ≠ 0 := by
    rw [type_rootInode]
    exact hs.local_root.alloc
  rw [himage]
  exact hs.rep.store (by decide) (Keeps.refl _ _ _) hs.local_root (hs.fits_rootInode (by omega))
    (addrs_rootInode files s) (fun _ => hblocks) (fun h0 => absurd h0 ht)

theorem table_cases (files : List HostFile) (i : Nat) (hi : i ≠ ROOTINO) :
    table files i = freeNode ∨ ∃ f ∈ files, table files i = fileNode T_FILE f.content := by
  unfold table
  rw [if_neg hi]
  by_cases h0 : i = 0
  · rw [if_pos h0]
    exact .inl rfl
  · rw [if_neg h0]
    cases hget : files[i - 2]? with
    | none => exact .inl rfl
    | some f => exact .inr ⟨f, mem_of_getElem? hget, rfl⟩

theorem consistent_image (h : Fits files) (hroot : (files.length + 2) % 32 ≠ 0) :
    Consistent (image files) := by
  have hsb := readsb_image h
  have hlen := h.length_lt
  refine ⟨?_, ?_, ?_, ?_⟩
  · rw [hsb]
    exact rep_image h hroot
  · rw [hsb, nodeAt_image h, if_pos rfl]
    rfl
  · intro n ht
    rw [hsb, nodeAt_image h] at ht ⊢
    by_cases hn : n = ROOTINO
    · rw [if_pos hn]
      exact one_ne_zero
    · rw [if_neg hn] at ht ⊢
      rcases table_cases files n hn with hfree | ⟨f, _, hf⟩
      · rw [hfree] at ht
        exact absurd rfl ht
      · rw [hf]
        exact one_ne_zero
  intro n hdir
  rw [hsb, nodeAt_image h] at hdir ⊢
  by_cases hn : n = ROOTINO
  · rw [if_pos hn]
    refine ⟨?_, ?_⟩
    · rw [length_rootNode]
      unfold rootSize
      omega
    intro k _
    by_cases hk : k < (dirents files).length
    · rw [entry_rootNode (by omega) hk]
      have hinum := inum_dirents hk
      exact .inr ⟨hinum.1, Nat.lt_of_le_of_lt hinum.2 h.inodes⟩
    · rw [length_dirents] at hk
      exact .inl (inum_rootNode_of_le (by omega))
  · rw [if_neg hn] at hdir
    rcases table_cases files n hn with hfree | ⟨f, _, hf⟩
    · rw [hfree] at hdir
      exact absurd hdir (by decide)
    · rw [hf] at hdir
      exact absurd hdir (show T_FILE ≠ T_DIR by decide)

theorem tame_image {tty : List (Option (List UInt8))} (h : Fits files)
    (hsb : readsb (image files) = sb) : Tame (boot (image files) tty).node := by
  have hlen := h.length_lt
  have hnode : ∀ n, (boot (image files) tty).node n =
      if n = ROOTINO then rootNode files else table files n := by
    intro n
    rw [← nodeAt_image h n, ← hsb]
    rfl
  intro d hd k hk heq
  rw [hnode] at hd hk heq ⊢
  by_cases hroot : d = ROOTINO
  · subst hroot
    rw [if_pos rfl] at hk heq ⊢
    by_cases hlt : k < (dirents files).length
    · rw [entry_rootNode (by omega) hlt] at heq ⊢
      match k, hlt, heq with
      | 0, _, _ => exact .inl (show namecmp (strncpy 14 dot) dot = 0 by decide)
      | 1, _, _ => exact .inr (show namecmp (strncpy 14 dotdot) dotdot = 0 by decide)
      | k + 2, hlt, heq =>
        simp only [dirents, getElem_cons_succ, getElem_mapIdx, direntAt] at heq
        exact absurd heq (show k + 2 ≠ 1 by omega)
    · rw [length_dirents] at hlt
      rw [inum_rootNode_of_le (by omega)] at heq
      exact absurd heq (by decide)
  · rw [if_neg hroot] at hd
    rcases table_cases files d hroot with hfree | ⟨f, _, hf⟩
    · rw [hfree] at hd
      exact absurd hd (by decide)
    · rw [hf] at hd
      exact absurd hd (show T_FILE ≠ T_DIR by decide)

end Xv6.Mkfs
