import Xv6.Mkfs.Image

/-!
# The finished image

`main` builds the image of every list of files that fits.  In the image no block
is held twice and the free map marks exactly the metadata blocks and the blocks
that are held.
-/

namespace Xv6.Mkfs

open Lib Lib.Prog Fs Function
open Log (Block LOGSIZE BSIZE)

variable {files : List HostFile} {s : State} {b : Nat} {E : Failure → State → Prop}

theorem decode_zero : Dinode.decode (fun _ => 0) = Dinode.zero := by
  have hshort : ∀ off, shortOf (fun _ => 0) off = 0 := by
    intro off
    exact isShort_zero.short_eq
  have hword : ∀ off, wordOf (fun _ => 0) off = 0 := by
    intro off
    rfl
  unfold Dinode.decode Dinode.zero
  simp only [hshort, hword, ite_self]

abbrev blank : State :=
  start.put 1 superBlock

theorem inodeAt_blank (i : Nat) : inodeAt sb blank.shown i = Dinode.zero := by
  unfold inodeAt
  by_cases hi : sb.IsInum i
  · have hlt := iblock_lt hi
    have hle := le_iblock i
    have hzero : blank.shown (sb.IBLOCK i) = zeroBlock := by
      have hne : sb.IBLOCK i ≠ 1 := by omega
      rw [State.shown_of_ne (by omega)]
      exact setBlock_of_ne start.disk superBlock hne
    rw [if_pos hi, ← decode_zero]
    unfold dinodeAt
    rw [hzero]
    apply Dinode.decode_congr
    intro r _
    unfold getByte
    split
    · rfl
    · rfl
  · rw [if_neg hi]

theorem heldAt_blank (i k : Nat) : heldAt sb blank.shown i k = 0 := by
  unfold heldAt
  rw [inodeAt_blank]
  exact held_of_addrs_zero (fun _ => rfl) _ _

theorem bitAt_blank (hb : b < 4096) : bitAt sb blank.shown b = decide (b < 59) :=
  State.bitAt_shown (by decide) hb

theorem rep_blank : Rep sb blank.shown where
  ok := sb_ok
  own := by
    refine ⟨?_, ?_, ?_, ?_, ?_⟩
    · decide
    · rintro ⟨i, k⟩ h
      exact absurd (heldAt_blank i k) h
    · intro p _
      exact Set.notMem_empty _
    · rintro ⟨i, k⟩ q h
      exact absurd (heldAt_blank i k) h
    · intro b hb
      have hdata := (isData_iff b).mp hb
      rw [bitAt_blank (by omega)]
      simp only [decide_eq_true_eq, Set.mem_empty_iff_false, false_or, slots,
        heldAt_blank, exists_const]
      omega
  metaBits := by
    intro b hb
    have hlt : b < 59 := hb
    rw [bitAt_blank (by omega)]
    exact decide_eq_true hlt
  shape := by
    intro i hi
    rw [inodeAt_blank] at hi
    exact absurd rfl hi

theorem image_blank : Image blank where
  rep := rep_blank
  room := by
    refine ⟨le_refl 59, by decide, ?_⟩
    intro b hb
    have hle : 59 ≤ b := hb
    exact setBlock_of_ne _ _ (by omega)
  super := setBlock_self start.disk 1 superBlock
  tail := by
    intro i o _
    rw [inodeAt_blank]
    unfold Dinode.byteAt Dinode.baddr
    rw [held_of_addrs_zero fun _ => rfl, if_pos rfl]
  free := by
    intro i _
    rw [inodeAt_blank]
    rfl

theorem node_blank (i : Nat) : blank.node i = freeNode := by
  unfold State.node nodeAt
  rw [inodeAt_blank]
  rfl

def rootSize (files : List HostFile) : Nat :=
  (16 * (files.length + 2) / 512 + 1) * 512

def rootInode (files : List HostFile) (s : State) : Dinode :=
  { inodeAt sb s.shown ROOTINO with size := rootSize files }

theorem makeRoot_spec : wp makeRoot (fun _ => Built []) E blank := by
  unfold makeRoot
  refine wp_seq (ialloc_spec image_blank (by decide) isShort_dir) ?_
  rintro n s1 ⟨rfl, himage1, hinode1, hblock1, hnode1⟩
  have hone : blank.freeinode = 1 := rfl
  have hfb : blank.freeblock = 59 := rfl
  rw [hone] at hinode1 hnode1 ⊢
  rw [hfb] at hblock1
  have hroot1 : s1.node 1 = fileNode T_DIR [] := by rw [hnode1, update_self]
  have hlen1 : (s1.node 1).data.length = 0 := by
    rw [hroot1]
    rfl
  rw [wp_ite, if_neg (fun h => h rfl)]
  refine wp_seq (iappend_spec himage1 ?_ ?_ ?_) ?_
  · rw [hroot1]
    exact one_ne_zero
  · rw [hlen1, Dirent.length_bytes]
    decide
  · rw [hlen1, Dirent.length_bytes, hblock1]
    decide
  intro _ s2 h2
  have hroot2 : s2.node 1 = fileNode T_DIR (Dirent.bytes ⟨1, dot⟩) := by
    rw [h2.node, update_self, hroot1]
    rfl
  have hlen2 : (s2.node 1).data.length = 16 := by
    rw [hroot2]
    exact Dirent.length_bytes _
  have hblock2 : s2.freeblock = 60 := by
    have hblock := h2.block
    rw [hlen1, Dirent.length_bytes, hblock1] at hblock
    exact hblock
  refine wp_post (iappend_spec h2.image ?_ ?_ ?_) ?_
  · rw [hroot2]
    exact one_ne_zero
  · rw [hlen2, Dirent.length_bytes]
    decide
  · rw [hlen2, Dirent.length_bytes, hblock2]
    decide
  intro _ s3 h3
  refine ⟨h3.image, ?_, ?_, ?_⟩
  · rw [h3.inode, h2.inode, hinode1]
    rfl
  · rw [h3.node, h2.node, update_idem, update_self, hnode1, update_idem, update_self]
    funext i
    by_cases hi : i = 1
    · subst hi
      rw [update_self]
      rfl
    · rw [update_of_ne hi, node_blank]
      unfold table
      rw [if_neg hi, List.getElem?_nil, ite_self]
  · have hblock := h3.block
    rw [hlen2, Dirent.length_bytes, hblock2] at hblock
    exact Nat.add_right_cancel hblock

theorem main_spec (h : Fits files) :
    wp (main files)
      (fun _ s' => ∃ s, Built files s ∧
        s'.disk = iupdateDisk sb s.shown ROOTINO (rootInode files s)) E start := by
  unfold main
  rw [wp_bind, wp_wsect]
  refine wp_seq makeRoot_spec ?_
  intro _ s1 h1
  refine wp_seq (addFiles_spec files h1 h) ?_
  intro _ s h2
  rw [List.nil_append] at h2
  have hroot : sb.IsInum ROOTINO := by decide
  have hsize : (inodeAt sb s.shown ROOTINO).size = 16 * (files.length + 2) := by
    rw [← length_node, h2.node, table_root]
    exact length_rootData files
  unfold fixSize
  rw [wp_bind]
  refine wp_seq (rinode_spec hroot) ?_
  rintro _ s ⟨rfl, rfl⟩
  rw [hsize]
  refine wp_post (winode_spec hroot (rootInode files s)) ?_
  rintro _ _ rfl
  have hused : ¬4096 ≤ (s.store ROOTINO (rootInode files s)).freeblock := by
    have hi : (s.store ROOTINO (rootInode files s)).freeblock ≤ 1000 := h2.room.hi
    omega
  unfold balloc
  rw [wp_bind, wp_get, wp_ite, if_neg hused, wp_wsect]
  exact ⟨s, h2, shown_store hroot (rootInode files s)⟩

theorem image_spec (h : Fits files) :
    (main files start).1 = .ok () ∧
      ∃ s, Built files s ∧ image files = iupdateDisk sb s.shown ROOTINO (rootInode files s) := by
  obtain ⟨_, t, hmain, hs⟩ := exists_ok (main_spec (E := fun _ _ => False) h) fun _ _ he => he
  unfold image
  rw [hmain]
  exact ⟨rfl, hs⟩

theorem Built.size_root (h : Built files s) :
    (inodeAt sb s.shown ROOTINO).size = 16 * (files.length + 2) := by
  rw [← length_node, h.node, table_root]
  exact length_rootData files

theorem Built.local_root (h : Built files s) :
    Local sb s.shown (others sb s.shown ROOTINO) (inodeAt sb s.shown ROOTINO)
      (blocksFor (16 * (files.length + 2))) := by
  have ht : (inodeAt sb s.shown ROOTINO).type ≠ 0 := by
    change (s.node ROOTINO).type ≠ 0
    rw [h.node, table_root]
    exact one_ne_zero
  have hloc := h.rep.local ht
  rw [h.size_root] at hloc
  exact hloc

theorem Built.fits_rootInode (h : Built files s) (hlen : files.length < 2 ^ 16) :
    (rootInode files s).Fits :=
  { h.local_root.fits with
    size := by
      unfold rootInode rootSize
      simp only
      omega }

theorem type_rootInode (files : List HostFile) (s : State) :
    (rootInode files s).type = (inodeAt sb s.shown ROOTINO).type := by
  unfold rootInode
  rfl

theorem addrs_rootInode (files : List HostFile) (s : State) :
    (rootInode files s).addrs = (inodeAt sb s.shown ROOTINO).addrs := by
  unfold rootInode
  rfl

theorem Built.held_rootInode (h : Built files s) (k : Nat) :
    (rootInode files s).held (iupdateDisk sb s.shown ROOTINO (rootInode files s)) k =
      (inodeAt sb s.shown ROOTINO).held s.shown k := by
  have ht : (rootInode files s).type ≠ 0 := by
    rw [type_rootInode]
    exact h.local_root.alloc
  exact held_store sb_ok (by decide) h.local_root (addrs_rootInode files s) ht k

theorem Built.heldAt_image (h : Built files s) (hlen : files.length < 2 ^ 16) (i k : Nat) :
    heldAt sb (iupdateDisk sb s.shown ROOTINO (rootInode files s)) i k = heldAt sb s.shown i k := by
  have hroot : sb.IsInum ROOTINO := by decide
  unfold heldAt
  by_cases hi : i = ROOTINO
  · subst hi
    rw [inodeAt_iupdate_self hroot (h.fits_rootInode hlen)]
    exact h.held_rootInode k
  · rw [inodeAt_iupdate_of_ne hi]
    exact held_of_same hi (fun c hc => same_store h.rep hroot (Keeps.refl _ _ _) hc) k

theorem Built.shape_root (h : Built files s) :
    (rootInode files s).Shape (iupdateDisk sb s.shown ROOTINO (rootInode files s))
      (blocksFor (16 * (files.length + 2))) := by
  refine h.local_root.shape.congr h.held_rootInode ?_
  rw [addrs_rootInode]

theorem blocksFor_rootSize (files : List HostFile) :
    blocksFor (rootSize files) = 16 * (files.length + 2) / 512 + 1 := by
  unfold blocksFor rootSize
  omega

theorem blocksFor_rootSize_eq_iff (files : List HostFile) :
    blocksFor (rootSize files) = blocksFor (16 * (files.length + 2)) ↔
      (files.length + 2) % 32 ≠ 0 := by
  rw [blocksFor_rootSize]
  unfold blocksFor
  omega

theorem shape_unique {d : Dinode} {disk : Disk} {N M : Nat} (h : d.Shape disk N)
    (h' : d.Shape disk M) : N = M := by
  have hN := h.le
  have hM := h'.le
  rcases Nat.lt_trichotomy N M with hlt | heq | hlt
  · have hblock := (h'.block N (by omega)).mpr hlt
    exact absurd ((h.block N (by omega)).mp hblock) (Nat.lt_irrefl N)
  · exact heq
  · have hblock := (h.block M (by omega)).mpr hlt
    exact absurd ((h'.block M (by omega)).mp hblock) (Nat.lt_irrefl M)

/-- The on-disk invariants of the kernel. -/
structure OnDisk (disk : Disk) : Prop where
  shape : ∀ i, (inodeAt sb disk i).type ≠ 0 →
    (inodeAt sb disk i).Shape disk (blocksFor (inodeAt sb disk i).size)
  once : ∀ i k j l, heldAt sb disk i k ≠ 0 → heldAt sb disk i k = heldAt sb disk j l → i = j ∧ k = l
  marked : ∀ b < 4096, bitAt sb disk b = true ↔ b < nmeta ∨ ∃ i k, heldAt sb disk i k = b

theorem Built.marked (h : Built files s) (hb : b < 4096) :
    bitAt sb s.shown b = true ↔ b < nmeta ∨ ∃ i k, heldAt sb s.shown i k = b := by
  by_cases hmeta : b < 59
  · have hbit := h.rep.metaBits b hmeta
    exact ⟨fun _ => .inl hmeta, fun _ => hbit⟩
  by_cases hsize : b < 1000
  · rw [h.rep.own.marked b ((isData_iff b).mpr ⟨by omega, hsize⟩)]
    constructor
    · rintro (hempty | ⟨⟨i, k⟩, hik⟩)
      · exact absurd hempty (Set.notMem_empty b)
      · exact .inr ⟨i, k, hik⟩
    · rintro (hlt | ⟨i, k, hik⟩)
      · exact absurd hlt hmeta
      · exact .inr ⟨(i, k), hik⟩
  have hi := h.room.hi
  rw [State.bitAt_shown (by omega) hb, decide_eq_true_iff]
  constructor
  · intro hlt
    omega
  rintro (hlt | ⟨i, k, hik⟩)
  · exact absurd hlt hmeta
  · have hdata := (isData_iff _).mp (h.rep.own.region (i, k) (by
      simp only [slots]
      omega))
    simp only [slots] at hdata
    omega

theorem onDisk_image (h : Fits files) : OnDisk (image files) ↔ (files.length + 2) % 32 ≠ 0 := by
  obtain ⟨_, s, hs, himage⟩ := image_spec h
  have hlen : files.length < 2 ^ 16 := by
    have hinodes : files.length + 1 < 200 := h.inodes
    omega
  have hroot : sb.IsInum ROOTINO := by decide
  have hself : inodeAt sb (iupdateDisk sb s.shown ROOTINO (rootInode files s)) ROOTINO =
      rootInode files s :=
    inodeAt_iupdate_self hroot (hs.fits_rootInode hlen)
  have hheld := hs.heldAt_image hlen
  rw [himage, ← blocksFor_rootSize_eq_iff]
  constructor
  · intro hdisk
    have hshape := hdisk.shape ROOTINO
    rw [hself] at hshape
    rw [type_rootInode] at hshape
    exact shape_unique (hshape hs.local_root.alloc) hs.shape_root
  intro hblocks
  refine ⟨?_, ?_, ?_⟩
  · intro i hi
    by_cases hir : i = ROOTINO
    · subst hir
      rw [hself]
      change (rootInode files s).Shape _ (blocksFor (rootSize files))
      rw [hblocks]
      exact hs.shape_root
    · rw [inodeAt_iupdate_of_ne hir] at hi ⊢
      exact (hs.rep.shape i hi).congr
        (held_of_same hir fun c hc => same_store hs.rep hroot (Keeps.refl _ _ _) hc) rfl
  · intro i k j l hne heq
    rw [hheld] at hne
    rw [hheld, hheld] at heq
    exact Prod.mk.inj (hs.rep.own.inj (i, k) (j, l) hne heq)
  · intro b hb
    rw [bitAt_iupdate sb_ok hroot, hs.marked hb]
    simp only [hheld]

/-- `main` succeeds on all files that fit, and the image meets the invariants of the kernel if and
only if the root directory does not fill its last block. -/
theorem mkfs_image_iff (h : Fits files) :
    (main files start).1 = .ok () ∧ (OnDisk (image files) ↔ (files.length + 2) % 32 ≠ 0) :=
  ⟨(image_spec h).1, onDisk_image h⟩

def emptyFile (n : Nat) : HostFile where
  name := List.replicate n 97
  chunks := []
  nul := by simp

/-- Files without contents, with different names. -/
def emptyFiles (n : Nat) : List HostFile :=
  (List.range n).map fun i => emptyFile (i + 1)

theorem content_emptyFile (n : Nat) : (emptyFile n).content = [] :=
  rfl

theorem fits_emptyFiles {n : Nat} (hn : n < 198) : Fits (emptyFiles n) := by
  have hlen : (emptyFiles n).length = n := by simp [emptyFiles]
  have hsum : ((emptyFiles n).map fun f => span (blocksFor f.content.length)).sum = 0 := by
    rw [List.sum_eq_zero_iff]
    intro x hx
    simp only [emptyFiles, List.map_map, List.mem_map] at hx
    obtain ⟨i, _, rfl⟩ := hx
    rw [comp_apply, content_emptyFile]
    exact span_zero
  refine ⟨?_, ?_, ?_, ?_⟩
  · intro f hf
    simp only [emptyFiles, List.mem_map] at hf
    obtain ⟨i, _, rfl⟩ := hf
    simp only [emptyFile, List.mem_replicate]
    rintro ⟨_, hslash⟩
    exact absurd hslash (by decide)
  · intro f hf
    simp only [emptyFiles, List.mem_map] at hf
    obtain ⟨i, _, rfl⟩ := hf
    rw [content_emptyFile]
    exact Nat.zero_le _
  · rw [hlen]
    simp only [NINODES]
    omega
  unfold blocksUsed
  rw [hlen, hsum]
  have hblocks : blocksFor (16 * (n + 2)) ≤ 7 := by
    unfold blocksFor
    omega
  have hspan := span_mono hblocks
  have hseven : span 7 = 7 := by decide
  change 59 + (span (blocksFor (16 * (n + 2))) + 0) ≤ 1000
  omega

theorem mkfs_image_three : Fits (emptyFiles 3) ∧ OnDisk (image (emptyFiles 3)) := by
  have hfits : Fits (emptyFiles 3) := fits_emptyFiles (by decide)
  exact ⟨hfits, (mkfs_image_iff hfits).2.mpr (by decide)⟩

/-- With thirty files the root directory has 32 entries in one block and a size of two. -/
theorem thirty_files_leave_hole : Fits (emptyFiles 30) ∧ ¬OnDisk (image (emptyFiles 30)) := by
  have hfits : Fits (emptyFiles 30) := fits_emptyFiles (by decide)
  refine ⟨hfits, ?_⟩
  rw [onDisk_image hfits]
  decide

end Xv6.Mkfs
