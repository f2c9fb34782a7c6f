import Xv6.Mkfs.Append

/-!
# The image that mkfs builds

`Image` is the invariant of the image while mkfs runs, and `Built` says which
files it holds so far.  A list of files for which there are enough inodes and
blocks is built completely.
-/

namespace Xv6.Mkfs

open Lib Lib.Prog Fs Function List
open Log (Block LOGSIZE BSIZE)

variable {s : State} {i : Nat} {E : Failure → State → Prop} {files : List HostFile} {f : HostFile}

/-- The file with an inode number. -/
def State.node (s : State) (i : Nat) : Node :=
  nodeAt sb s.shown i

/-- The image is one that the kernel could have written, and what is not in use is empty. -/
structure Image (s : State) : Prop where
  rep : Rep sb s.shown
  room : Room s
  super : s.disk 1 = superBlock
  tail : ∀ i o, (inodeAt sb s.shown i).size ≤ o → (inodeAt sb s.shown i).byteAt s.shown o = 0
  free : ∀ i, s.freeinode ≤ i → (inodeAt sb s.shown i).type = 0

theorem rinode_spec (hi : sb.IsInum i) :
    wp (rinode i) (fun d s' => s' = s ∧ d = inodeAt sb s.shown i) E s := by
  have hlt := iblock_lt hi
  unfold rinode
  refine wp_seq (rsect_spec (by omega) (by omega)) ?_
  rintro _ _ ⟨rfl, rfl⟩
  exact ⟨rfl, (inodeAt_of_isInum hi).symm⟩

/-- The state after an inode has been written. -/
def State.store (s : State) (i : Nat) (d : Dinode) : State :=
  s.put (sb.IBLOCK i) (putDinode sb s.shown i d)

theorem winode_spec (hi : sb.IsInum i) (d : Dinode) :
    wp (winode i d) (fun _ s' => s' = s.store i d) E s := by
  have hlt := iblock_lt hi
  unfold winode
  refine wp_seq (rsect_spec (by omega) (by omega)) ?_
  rintro _ _ ⟨rfl, rfl⟩
  exact rfl

theorem shown_store (hi : sb.IsInum i) (d : Dinode) :
    (s.store i d).shown = iupdateDisk sb s.shown i d := by
  have hlt := iblock_lt hi
  exact State.shown_put (by omega)

theorem disk_store (d : Dinode) : (s.store i d).disk 1 = s.disk 1 := by
  have hle := le_iblock i
  have hne : 1 ≠ sb.IBLOCK i := by omega
  change setBlock s.disk (sb.IBLOCK i) (putDinode sb s.shown i d) 1 = s.disk 1
  exact setBlock_of_ne _ _ hne

theorem Room.store (h : Room s) (hi : sb.IsInum i) (d : Dinode) : Room (s.store i d) := by
  have hlt := iblock_lt hi
  have hlo := h.lo
  exact h.put (by omega) _

theorem bytesFrom_append (g : Nat → UInt8) (n : Nat) (p : List UInt8) :
    bytesFrom (writeAt g n p) 0 (n + p.length) = bytesFrom g 0 n ++ p := by
  rw [bytesFrom_add]
  congr 1
  · apply bytesFrom_congr
    intro o ho
    unfold writeAt
    rw [if_neg (by omega)]
  · apply ext_getElem
    · simp
    · intro o ho ho'
      simp only [bytesFrom, getElem_map, getElem_range, writeAt]
      rw [if_pos (by omega)]
      simp [getD_eq_getElem?_getD, ho']

theorem Image.store {t : State} {d : Dinode} (h : Image s) (hi : sb.IsInum i) (hroom : Room t)
    (hkeeps : Keeps sb (others sb s.shown i) s.shown t.shown)
    (hrep : Rep sb (iupdateDisk sb t.shown i d)) (hfits : d.Fits)
    (htail : ∀ o, d.size ≤ o → d.byteAt (iupdateDisk sb t.shown i d) o = 0)
    (hcount : ∀ j, t.freeinode ≤ j → j ≠ i ∧ s.freeinode ≤ j) :
    Image (t.store i d) ∧ (t.store i d).node =
        update s.node i (d.node (iupdateDisk sb t.shown i d)) := by
  have hshown := shown_store (s := t) hi d
  have hself : inodeAt sb (iupdateDisk sb t.shown i d) i = d := inodeAt_iupdate_self hi hfits
  have hrest : ∀ j, j ≠ i →
      inodeAt sb (iupdateDisk sb t.shown i d) j = inodeAt sb s.shown j := by
    intro j hj
    rw [inodeAt_iupdate_of_ne hj]
    exact keeps_inodeAt sb_ok hkeeps j
  refine ⟨⟨?_, hroom.store hi d, ?_, ?_, ?_⟩, ?_⟩
  · rw [hshown]
    exact hrep
  · rw [disk_store, ← h.super]
    have hone := hkeeps 1 (.inl (by decide))
    rw [State.shown_of_ne (by decide), State.shown_of_ne (by decide)] at hone
    exact hone
  · intro j o ho
    rw [hshown] at ho ⊢
    by_cases hj : j = i
    · subst hj
      rw [hself] at ho ⊢
      exact htail o ho
    · rw [hrest j hj] at ho ⊢
      rw [byteAt_of_same hj (fun c hc => same_store h.rep hi hkeeps hc)]
      exact h.tail j o ho
  · intro j hj
    obtain ⟨hne, hle⟩ := hcount j hj
    rw [hshown, hrest j hne]
    exact h.free j hle
  funext j
  unfold State.node
  rw [hshown]
  by_cases hj : j = i
  · subst hj
    rw [update_self]
    unfold nodeAt
    rw [hself]
  · rw [update_of_ne hj]
    exact nodeAt_store_of_ne h.rep hi hkeeps hj

def fileNode (type : Int) (data : List UInt8) : Node :=
  ⟨type, 0, 0, 1, data⟩

def appended (f : Node) (p : List UInt8) : Node :=
  { f with data := f.data ++ p }

theorem length_node (s : State) (i : Nat) :
    (s.node i).data.length = (inodeAt sb s.shown i).size := by
  unfold State.node nodeAt Dinode.node
  simp

theorem blocksFor_mono {m n : Nat} (h : m ≤ n) : blocksFor m ≤ blocksFor n := by
  unfold blocksFor
  omega

structure Extended (i : Nat) (p : List UInt8) (s s' : State) : Prop where
  image : Image s'
  inode : s'.freeinode = s.freeinode
  node : s'.node = update s.node i (appended (s.node i) p)
  block : s'.freeblock + span (blocksFor (s.node i).data.length) =
    s.freeblock + span (blocksFor ((s.node i).data.length + p.length))

theorem iappend_spec {p : List UInt8} (h : Image s) (ht : (s.node i).type ≠ 0)
    (hmax : (s.node i).data.length + p.length ≤ 140 * 512)
    (hspace : s.freeblock + span (blocksFor ((s.node i).data.length + p.length)) ≤
      1000 + span (blocksFor (s.node i).data.length)) :
    wp (iappend i p) (fun _ => Extended i p s) E s := by
  have hi : sb.IsInum i := isInum_of_type ht
  have hloc := h.rep.local ht
  have hlen := length_node s i
  rw [hlen] at hmax hspace
  have hmono := blocksFor_mono (Nat.le_add_right (inodeAt sb s.shown i).size p.length)
  have hoff : (inodeAt sb s.shown i).size ≤ 512 * blocksFor (inodeAt sb s.shown i).size := by
    unfold blocksFor
    omega
  unfold iappend
  refine wp_seq (rinode_spec hi) ?_
  rintro _ s ⟨rfl, rfl⟩
  refine wp_seq (appendLoop_spec _ _ p hloc h.room (le_refl _) hoff hmax
    (by rw [Nat.max_eq_right hmono]; exact hspace)) ?_
  rintro ⟨d1, off⟩ s1 ⟨hsize, h1⟩
  simp only at hsize h1 ⊢
  subst hsize
  rw [Nat.max_eq_right hmono] at h1
  refine wp_post (winode_spec hi _) ?_
  rintro _ _ rfl
  have hfields := h1.became.fields
  have hloc1 := h1.became.loc
  have hfits : Dinode.Fits { d1 with size := (inodeAt sb s.shown i).size + p.length } :=
    { hloc1.fits with size := by simp only; omega }
  have hbyte : ∀ o, Dinode.byteAt { d1 with size := (inodeAt sb s.shown i).size + p.length }
      (iupdateDisk sb s1.shown i { d1 with size := (inodeAt sb s.shown i).size + p.length }) o =
        d1.byteAt s1.shown o :=
    byteAt_store sb_ok hi hloc1 rfl hloc1.alloc
  have hrep := h.rep.store hi h1.became.keeps hloc1 hfits rfl (fun _ => rfl)
    (fun h0 => absurd h0 hloc1.alloc)
  have hcount : ∀ j, s1.freeinode ≤ j → j ≠ i ∧ s.freeinode ≤ j := by
    intro j hj
    rw [h1.inode] at hj
    refine ⟨?_, hj⟩
    rintro rfl
    exact ht (h.free j hj)
  have hstore := h.store hi h1.room h1.became.keeps hrep hfits (by
    intro o ho
    simp only at ho
    rw [hbyte, h1.became.bytes]
    unfold writeAt
    rw [if_neg (by omega)]
    exact h.tail i o (by omega)) hcount
  refine ⟨hstore.1, h1.inode, ?_, by rw [hlen]; exact h1.block⟩
  rw [hstore.2]
  congr 1
  have hbytes := funext fun o => (hbyte o).trans (h1.became.bytes o)
  unfold Dinode.node
  simp only
  rw [hbytes, bytesFrom_append, hfields]
  rfl

theorem ialloc_spec {type : Int} (h : Image s) (hi : sb.IsInum s.freeinode) (htype : IsShort type) :
    wp (ialloc type)
      (fun n s' => n = s.freeinode ∧ Image s' ∧ s'.freeinode = s.freeinode + 1 ∧
        s'.freeblock = s.freeblock ∧
        s'.node = update s.node s.freeinode (fileNode type [])) E s := by
  have hfits : (newInode type).Fits :=
    { Dinode.fits_zero with
      type := isShort_short type
      nlink := by constructor <;> simp [newInode] }
  have hzero : ∀ k, (newInode type).addrs k = 0 := fun _ => rfl
  unfold ialloc
  rw [wp_bind, wp_get, wp_bind, wp_modify]
  refine wp_seq (winode_spec hi _) ?_
  rintro _ _ rfl
  have htail : ∀ o, (newInode type).size ≤ o → (newInode type).byteAt
      (iupdateDisk sb s.shown s.freeinode (newInode type)) o = 0 := by
    intro o _
    unfold Dinode.byteAt Dinode.baddr
    rw [held_of_addrs_zero hzero, if_pos rfl]
  have hstore := h.store (t := { s with freeinode := s.freeinode + 1 }) hi
    ⟨h.room.lo, h.room.hi, h.room.zero⟩ (Keeps.refl _ _ _)
    (h.rep.alloc hi (h.free _ (le_refl _)) hfits hzero rfl) hfits htail (by
      intro j hj
      simp only at hj
      omega)
  refine ⟨rfl, hstore.1, rfl, rfl, ?_⟩
  rw [hstore.2]
  unfold Dinode.node newInode fileNode
  rw [htype.short_eq]
  rfl

theorem iappend_chunks {chunks : List (List UInt8)} (h : Image s) (ht : (s.node i).type ≠ 0)
    (hmax : (s.node i).data.length + chunks.flatten.length ≤ 140 * 512)
    (hspace : s.freeblock + span (blocksFor ((s.node i).data.length + chunks.flatten.length)) ≤
      1000 + span (blocksFor (s.node i).data.length)) :
    wp (forEach chunks (iappend i)) (fun _ => Extended i chunks.flatten s) E s := by
  induction chunks generalizing s with
  | nil =>
    refine ⟨h, rfl, ?_, rfl⟩
    have hsame : appended (s.node i) [] = s.node i := by
      unfold appended
      rw [append_nil]
    rw [flatten_nil, hsame, update_eq_self]
  | cons p chunks ih =>
    rw [flatten_cons, length_append] at hmax hspace
    have hmono := span_mono (blocksFor_mono (Nat.le_add_right
      ((s.node i).data.length + p.length) chunks.flatten.length))
    rw [Nat.add_assoc] at hmono
    unfold forEach
    refine wp_seq (iappend_spec h ht (by omega) (by omega)) ?_
    intro _ s1 h1
    have hself : s1.node i = appended (s.node i) p := by rw [h1.node, update_self]
    have hlen : (s1.node i).data.length = (s.node i).data.length + p.length := by
      rw [hself]
      exact length_append
    have hblock := h1.block
    refine wp_post (ih h1.image ?_ ?_ ?_) ?_
    · rw [hself]
      exact ht
    · omega
    · rw [hlen, Nat.add_assoc]
      omega
    intro _ s2 h2
    refine ⟨h2.image, h2.inode.trans h1.inode, ?_, ?_⟩
    · rw [h2.node, h1.node, update_idem, update_self]
      unfold appended
      rw [flatten_cons, append_assoc]
    · have hblock2 := h2.block
      rw [hlen, Nat.add_assoc] at hblock2
      rw [flatten_cons, length_append]
      omega

def direntAt (j : Nat) (f : HostFile) : Dirent :=
  ⟨j + 2, strncpy 14 f.entryName⟩

def rootData (files : List HostFile) : List UInt8 :=
  Dirent.bytes ⟨ROOTINO, dot⟩ ++ Dirent.bytes ⟨ROOTINO, dotdot⟩ ++
    (files.mapIdx fun j f => (direntAt j f).bytes).flatten

def freeNode : Node :=
  ⟨0, 0, 0, 0, []⟩

/-- The files of the image: the root directory is inode 1, the files are the inodes from 2 on. -/
def table (files : List HostFile) (i : Nat) : Node :=
  if i = ROOTINO then fileNode T_DIR (rootData files)
  else if i = 0 then freeNode
  else
    match files[i - 2]? with
    | some f => fileNode T_FILE f.content
    | none => freeNode

def blocksUsed (files : List HostFile) : Nat :=
  span (blocksFor (16 * (files.length + 2))) +
    (files.map fun f => span (blocksFor f.content.length)).sum

/-- The names are accepted, and the files fit in the image. -/
structure Fits (files : List HostFile) : Prop where
  name : ∀ f ∈ files, slash ∉ f.name
  size : ∀ f ∈ files, f.content.length ≤ MAXFILE * 512
  inodes : files.length + 1 < NINODES
  blocks : nmeta + blocksUsed files ≤ FSSIZE

structure Built (files : List HostFile) (s : State) : Prop extends Image s where
  inode : s.freeinode = files.length + 2
  node : s.node = table files
  block : s.freeblock = nmeta + blocksUsed files

theorem rootData_concat :
    rootData (files ++ [f]) = rootData files ++ (direntAt files.length f).bytes := by
  unfold rootData
  rw [mapIdx_concat, flatten_append]
  simp

theorem length_rootData (files : List HostFile) :
    (rootData files).length = 16 * (files.length + 2) := by
  induction files using List.reverseRecOn with
  | nil => rfl
  | append_singleton files f ih =>
    rw [rootData_concat, length_append, ih, Dirent.length_bytes, length_append]
    simp
    omega

theorem table_root (files : List HostFile) :
    table files ROOTINO = fileNode T_DIR (rootData files) :=
  if_pos rfl

theorem table_concat :
    table (files ++ [f]) = update (update (table files) (files.length + 2)
        (fileNode T_FILE f.content)) ROOTINO (fileNode T_DIR (rootData (files ++ [f]))) := by
  funext i
  by_cases hroot : i = ROOTINO
  · subst hroot
    rw [update_self, table_root]
  rw [update_of_ne hroot]
  by_cases h0 : i = 0
  · subst h0
    rw [update_of_ne (by omega)]
    rfl
  by_cases hi : i = files.length + 2
  · subst hi
    rw [update_self]
    unfold table
    rw [if_neg hroot, if_neg h0, Nat.add_sub_cancel, List.getElem?_concat_length]
  rw [update_of_ne hi]
  unfold table
  rw [if_neg hroot, if_neg h0, if_neg hroot, if_neg h0]
  have hget : (files ++ [f])[i - 2]? = files[i - 2]? := by
    by_cases hlt : i - 2 < files.length
    · rw [List.getElem?_append_left hlt]
    · have hone : i ≠ 1 := hroot
      rw [List.getElem?_eq_none (by simp; omega), List.getElem?_eq_none (by omega)]
  rw [hget]

theorem blocksUsed_concat (files : List HostFile) (f : HostFile) :
    blocksUsed (files ++ [f]) + span (blocksFor (16 * (files.length + 2))) =
      blocksUsed files + span (blocksFor (16 * (files.length + 2) + 16)) +
        span (blocksFor f.content.length) := by
  unfold blocksUsed
  rw [map_append, sum_append, length_append]
  simp only [map_cons, map_nil, sum_cons, sum_nil, length_cons, length_nil]
  have hlen : 16 * (files.length + (0 + 1) + 2) = 16 * (files.length + 2) + 16 := by omega
  rw [hlen]
  omega

theorem blocksUsed_le (files rest : List HostFile) :
    blocksUsed files ≤ blocksUsed (files ++ rest) := by
  unfold blocksUsed
  rw [map_append, sum_append, length_append]
  have hmono : span (blocksFor (16 * (files.length + 2))) ≤
      span (blocksFor (16 * (files.length + rest.length + 2))) :=
    span_mono (blocksFor_mono (by omega))
  omega

theorem span_zero : span (blocksFor 0) = 0 := by
  decide

theorem isShort_dir : IsShort T_DIR :=
  ⟨by decide, by decide⟩

theorem isShort_file : IsShort T_FILE :=
  ⟨by decide, by decide⟩

theorem addFile_spec (h : Built files s) (hname : slash ∉ f.name)
    (hsize : f.content.length ≤ 140 * 512) (hinodes : files.length + 2 < 200)
    (hblocks : 59 + blocksUsed (files ++ [f]) ≤ 1000) :
    wp (addFile f) (fun _ => Built (files ++ [f])) E s := by
  have hused := blocksUsed_concat files f
  have hne : 1 ≠ files.length + 2 := by omega
  have hfb : s.freeblock = 59 + blocksUsed files := h.block
  have hn : sb.IsInum s.freeinode := by
    rw [h.inode]
    exact ⟨by omega, hinodes⟩
  unfold addFile
  rw [wp_ite, if_neg hname]
  refine wp_seq (ialloc_spec h.toImage hn isShort_file) ?_
  rintro n s1 ⟨rfl, himage1, hinode1, hblock1, hnode1⟩
  rw [h.inode] at hnode1 ⊢
  have hroot1 : s1.node ROOTINO = fileNode T_DIR (rootData files) := by
    rw [hnode1, update_of_ne hne, h.node, table_root]
  have hlen1 : (s1.node ROOTINO).data.length = 16 * (files.length + 2) := by
    rw [hroot1]
    exact length_rootData files
  refine wp_seq (iappend_spec himage1 ?_ ?_ ?_) ?_
  · rw [hroot1]
    exact one_ne_zero
  · rw [hlen1, Dirent.length_bytes]
    omega
  · rw [hlen1, Dirent.length_bytes]
    omega
  intro _ s2 h2
  have hnode2 := h2.node
  have hblock2 := h2.block
  rw [hroot1] at hnode2
  rw [hlen1, Dirent.length_bytes] at hblock2
  have hfile2 : s2.node (files.length + 2) = fileNode T_FILE [] := by
    rw [hnode2, update_of_ne hne.symm, hnode1, update_self]
  have hlen2 : (s2.node (files.length + 2)).data.length + f.chunks.flatten.length =
      f.content.length := by
    rw [hfile2]
    unfold fileNode HostFile.content
    rw [length_nil, Nat.zero_add]
  have hzero : span (blocksFor (s2.node (files.length + 2)).data.length) = 0 := by
    rw [hfile2]
    exact span_zero
  refine wp_post (iappend_chunks h2.image ?_ ?_ ?_) ?_
  · rw [hfile2]
    exact two_ne_zero
  · rw [hlen2]
    exact hsize
  · rw [hlen2, hzero]
    omega
  intro _ s3 h3
  have hblock3 := h3.block
  rw [hlen2, hzero] at hblock3
  refine ⟨h3.image, ?_, ?_, ?_⟩
  · rw [h3.inode, h2.inode, hinode1, h.inode, length_append]
    rfl
  · rw [h3.node, hfile2, hnode2, hnode1, h.node, table_concat, rootData_concat,
      update_comm hne, update_idem]
    rfl
  · change s3.freeblock = 59 + blocksUsed (files ++ [f])
    omega

theorem addFiles_spec (rest : List HostFile) (h : Built files s) (hfits : Fits (files ++ rest)) :
    wp (forEach rest addFile) (fun _ => Built (files ++ rest)) E s := by
  induction rest generalizing files s with
  | nil =>
    rw [append_nil]
    exact h
  | cons f rest ih =>
    have hsplit : files ++ f :: rest = (files ++ [f]) ++ rest := by simp
    have hmem : f ∈ files ++ f :: rest := by simp
    have hinodes : files.length + 2 < 200 := by
      have hlen : (files ++ f :: rest).length + 1 < 200 := hfits.inodes
      rw [length_append, length_cons] at hlen
      omega
    have hblocks : 59 + blocksUsed (files ++ [f]) ≤ 1000 := by
      have hle := blocksUsed_le (files ++ [f]) rest
      have hall : 59 + blocksUsed (files ++ f :: rest) ≤ 1000 := hfits.blocks
      rw [hsplit] at hall
      omega
    unfold forEach
    refine wp_seq (addFile_spec h (hfits.name f hmem) (hfits.size f hmem) hinodes hblocks) ?_
    intro _ s1 h1
    rw [hsplit] at hfits ⊢
    exact ih h1 hfits

end Xv6.Mkfs
