import Xv6.Mkfs.Files

/-!
# Reading the image

The kernel, started on an image that mkfs has made, finds each file under its
name in the root directory and reads from it the bytes of the host file.
-/

namespace Xv6.Mkfs

open Lib Lib.Prog Fs List

variable {files : List HostFile} {s : Fs.State} {name : Str} {k m off n j : Nat}
variable {tty : List (Option (List UInt8))}

/-- The names of the files are different, and none is "." or "..". -/
structure Named (files : List HostFile) : Prop where
  dots : ∀ f ∈ files, namecmp f.entryName dot ≠ 0 ∧ namecmp f.entryName dotdot ≠ 0
  inj : ∀ i j (hi : i < files.length) (hj : j < files.length),
    namecmp files[i].entryName files[j].entryName = 0 → i = j

def findNamed (name : Str) : FM (Option Ino) := do
  let dp ← iget ROOTINO
  ilock dp
  let r ← dirlookup dp name
  iunlock dp
  pure (r.map Prod.snd)

def readNamed (name : Str) (off n : Nat) : FM (Option (Nat × Option (List UInt8))) := do
  let r ← findNamed name
  match r with
  | none => pure none
  | some ip => do
    ilock ip
    let bytes ← readi ip off n
    let s ← get
    pure (some ((s.icache ip).d.size, bytes))

theorem cacheRoom_of_holders {R : Multiset Ino} {L : Finset Ino} {X : Finset Nat} {a b c : Ino}
    (h : In s R L X) (hR : R ⊆ {a}) (hbc : b ≠ c) (hb : s.holders b = 0) (hc : s.holders c = 0)
    (i : Nat) : CacheRoom s i := by
  have hzero : ∀ x, x ≠ a → s.holders x = 0 → (s.icache x).ref = 0 := by
    intro x hx hholders
    have hcount : R.count x = 0 :=
      Multiset.count_eq_zero_of_notMem fun hmem => hx (Multiset.mem_singleton.mp (hR hmem))
    rw [h.refs x, hholders, hcount]
  by_cases hba : b = a
  · exact ⟨c, .inr (hzero c (fun hca => hbc (hba.trans hca.symm)) hc)⟩
  · exact ⟨b, .inr (hzero b hba hb)⟩

theorem iget_room {R : Multiset Ino} {L : Finset Ino} {X : Finset Nat} (h : In s R L X)
    (hn : s.sb.IsInum n) (hroom : CacheRoom s n) :
    wp (iget n) (fun a t => In t (a ::ₘ R) L X ∧ Quiet R s t ∧ (t.icache a).inum = n)
      (fun _ _ => False) s := by
  refine wp_mono (wp_and (iget_spec h hn) (iget_got s n)) (fun _ _ hq => hq.1) ?_
  rintro e _ ⟨_, _, hno⟩
  exact hno hroom

section Find

variable (h : In s 0 ∅ ∅) (hdir : (s.node ROOTINO).type = T_DIR)
  (hfree : ∃ b c, b ≠ c ∧ s.holders b = 0 ∧ s.holders c = 0)
  (hlook : (s.node ROOTINO).lookup name = some k) (hm : ((s.node ROOTINO).entry k).inum = m)
include h hdir hfree hlook hm

theorem findNamed_spec (hinum : s.sb.IsInum m) :
    wp (findNamed name)
      (fun r t => ∃ ip R, r = some ip ∧ In t (ip ::ₘ R) ∅ ∅ ∧ t.node = s.node ∧
        (t.icache ip).inum = m)
      (fun _ _ => False) s := by
  obtain ⟨b, c, hbc, hb, hc⟩ := hfree
  have hroot : (s.node ROOTINO).type ≠ 0 := by rw [hdir]; decide
  unfold findNamed
  rw [wp_bind]
  refine wp_post (iget_room h (isInum_of_type hroot)
    (cacheRoom_of_holders (a := b) h (Multiset.zero_subset _) hbc hb hc _)) ?_
  rintro dp s1 ⟨h1, hq1, hdp1⟩
  rw [wp_bind]
  refine wp_mono (ilock_spec h1 (h1.ref_pos (Multiset.mem_cons_self _ _))
    (Finset.notMem_empty dp)) ?_ ?_
  swap
  · rintro e _ ⟨_, h0⟩
    rw [hdp1, hq1.node] at h0
    exact hroot h0
  rintro _ s2 ⟨h2, hq2, hdp2, _⟩
  have hmem : dp ∈ insert dp (∅ : Finset Ino) := Finset.mem_insert_self dp ∅
  have hnode2 : s2.node = s.node := hq2.node_eq.trans hq1.node_eq
  have hroot2 : s2.node (s2.icache dp).inum = s.node ROOTINO := by
    rw [hdp2, hdp1, hnode2]
  have hholders : ∀ a, s2.holders a = s.holders a := fun a =>
    (hq2.holders a).trans (hq1.holders a)
  rw [wp_bind, (h2.isDir hmem (by rw [hroot2]; exact hdir)).wp_dirlookup, h2.image_eq hmem, hroot2,
    hlook]
  simp only [hm]
  refine wp_post (iget_room h2 (by rw [hq2.sb, hq1.sb]; exact hinum)
    (cacheRoom_of_holders (a := dp) h2 (by simp) hbc ((hholders b).trans hb)
      ((hholders c).trans hc) _)) ?_
  rintro ip s3 ⟨h3, hq3, hip3⟩
  rw [wp_bind]
  refine wp_post (iunlock_spec h3 (Finset.notMem_empty dp)) ?_
  rintro _ s4 ⟨h4, hq4, _⟩
  rw [wp_pure]
  exact ⟨ip, _, rfl, h4, hq4.node_eq.trans (hq3.node_eq.trans hnode2),
    (hq4.held (Multiset.mem_cons_self _ _)).trans hip3⟩

theorem readNamed_found (off n : Nat) (hfile : (s.node m).type = T_FILE)
    (hoff : off ≤ (s.node m).data.length) (hn : off + n < 2 ^ 32) :
    wp (readNamed name off n)
      (fun r _ => r = some ((s.node m).data.length, some (((s.node m).data.drop off).take n)))
      (fun _ _ => False) s := by
  have hmtype : (s.node m).type ≠ 0 := by rw [hfile]; decide
  unfold readNamed
  rw [wp_bind]
  refine wp_post (findNamed_spec h hdir hfree hlook hm (isInum_of_type hmtype)) ?_
  rintro _ t ⟨ip, R, rfl, ht, hnode, hip⟩
  simp only [wp_bind]
  refine wp_mono (ilock_spec ht (ht.ref_pos (Multiset.mem_cons_self _ _))
    (Finset.notMem_empty ip)) ?_ ?_
  swap
  · rintro e _ ⟨_, h0⟩
    rw [hip, hnode] at h0
    exact hmtype h0
  rintro _ u ⟨hu, hqu, hipu, _⟩
  have hmem : ip ∈ insert ip (∅ : Finset Ino) := Finset.mem_insert_self ip ∅
  have hnodeu : u.node (u.icache ip).inum = s.node m := by
    rw [hipu, hip, hqu.node_eq, hnode]
  refine wp_post (readi_spec hu hmem (by rw [hnodeu, hfile]; decide) off n) ?_
  rintro _ _ ⟨rfl, rfl⟩
  rw [wp_get, wp_pure, hnodeu, if_neg (by omega), (hu.locked_dinode hmem).1,
    ← State.length_node_data, hnodeu]

end Find

theorem namecmp_strncpy {x y : Str} : namecmp x (strncpy 14 y) = 0 ↔ namecmp x y = 0 := by
  rw [namecmp_eq_zero, namecmp_eq_zero, cut_strncpy]

theorem lookup_rootNode (h : Fits files) (hnamed : Named files) (hj : j < files.length) :
    (rootNode files).lookup files[j].entryName = some (j + 2) := by
  have hlen := h.length_lt
  have hown : (rootNode files).entry (j + 2) = direntAt j files[j] := by
    rw [entry_rootNode (by omega) (by rw [length_dirents]; omega)]
    simp [dirents]
  have hcount : j + 2 < (rootNode files).count := by
    have hle := le_rootSize files
    unfold Node.count
    rw [length_rootNode]
    omega
  cases hlook : (rootNode files).lookup files[j].entryName with
  | none =>
    unfold Node.lookup at hlook
    rw [List.find?_eq_none] at hlook
    have hno := hlook (j + 2) (mem_range.mpr hcount)
    rw [hown, decide_eq_true_eq] at hno
    exact absurd ⟨Nat.succ_ne_zero _, namecmp_strncpy.mpr ((namecmp_eq_zero _ _).mpr rfl)⟩ hno
  | some k =>
    obtain ⟨_, hinum, hname⟩ := Node.lookup_eq_some hlook
    have hk : k < files.length + 2 := by
      by_contra hge
      exact hinum (inum_rootNode_of_le (by omega))
    rw [entry_rootNode (by omega) (by rw [length_dirents]; exact hk)] at hname
    have hdots := hnamed.dots _ (getElem_mem hj)
    rcases k with _ | _ | k
    · exact absurd (namecmp_strncpy.mp hname) hdots.1
    · exact absurd (namecmp_strncpy.mp hname) hdots.2
    · simp only [dirents, getElem_cons_succ, getElem_mapIdx, direntAt, namecmp_strncpy] at hname
      rw [hnamed.inj j k hj (by omega) hname]

/-- The kernel finds every file of the image under its name and reads what the host file holds. -/
theorem kernel_reads_image (h : Fits files) (hroot : (files.length + 2) % 32 ≠ 0)
    (hnamed : Named files) (hj : j < files.length) (hoff : off ≤ files[j].content.length)
    (hn : off + n < 2 ^ 32) :
    ∃ t, readNamed files[j].entryName off n (boot (image files) tty) =
      (.ok (some (files[j].content.length, some ((files[j].content.drop off).take n))), t) := by
  have hin : Settled (boot (image files) tty) := (consistent_image h hroot).settled
  have hnode : ∀ i, (boot (image files) tty).node i =
      if i = ROOTINO then rootNode files else table files i := by
    intro i
    rw [← nodeAt_image h i, ← readsb_image h]
    rfl
  have hfile : (boot (image files) tty).node (j + 2) = fileNode T_FILE files[j].content := by
    rw [hnode, if_neg (show j + 2 ≠ 1 by omega)]
    unfold table
    rw [if_neg (show j + 2 ≠ 1 by omega), if_neg (by omega), Nat.add_sub_cancel,
      getElem?_eq_getElem hj]
  have hdir : (boot (image files) tty).node ROOTINO = rootNode files := by
    rw [hnode, if_pos rfl]
  have hread := readNamed_found (k := j + 2) (m := j + 2) hin.inv
    (by rw [hdir]; rfl) ⟨1, 2, by decide, holders_boot 1, holders_boot 2⟩
    (by rw [hdir]; exact lookup_rootNode h hnamed hj) ?_ off n (by rw [hfile]; rfl)
    (by rw [hfile]; exact hoff) hn
  · obtain ⟨_, t, hrun, rfl⟩ := exists_ok hread fun _ _ he => he
    rw [hfile] at hrun
    exact ⟨t, hrun⟩
  · have hlen := h.length_lt
    rw [hdir, entry_rootNode (by omega) (by rw [length_dirents]; omega)]
    simp [dirents, direntAt]

/-- The file `a` with the two bytes "hi". -/
def sampleFile : HostFile :=
  ⟨[97], [[104, 105]], by decide⟩

theorem kernel_reads_sampleFile : ∃ t, readNamed [97] 1 10 (boot (image [sampleFile]) []) =
    (.ok (some (2, some [105])), t) := by
  have hfits : Fits [sampleFile] := ⟨by decide, by decide, by decide, by decide⟩
  have hnamed : Named [sampleFile] := by
    refine ⟨by decide, ?_⟩
    intro i j hi hj _
    rw [List.length_singleton] at hi hj
    omega
  exact kernel_reads_image (j := 0) hfits (by decide) hnamed (by decide) (by decide) (by decide)

end Xv6.Mkfs
