import Xv6.Fs.Effect

/-!
# `unlink`

`sys_unlink` clears the entry, gives back the directory and then the inode; either
of them may have lost its last link.
-/

namespace Xv6.Fs

open Lib Lib.Prog Log Ptable Function Finset

variable {s : State} {R : Multiset Ino} {L : Finset Ino} {X : Finset Nat} {a dp ip : Ino}
variable {k i d : Nat} {f : Node}

def Node.InUse (f : Node) : Prop :=
  f.type = T_DIR ∧ ∃ j, 2 ≤ j ∧ j < f.count ∧ (f.entry j).inum ≠ 0

theorem find_range_eq_none :
    ((List.range' 2 (f.count - 2)).find? fun j => decide ((f.entry j).inum ≠ 0)) = none ↔
      ∀ j, 2 ≤ j → j < f.count → (f.entry j).inum = 0 := by
  rw [List.find?_eq_none]
  constructor
  · intro h j hj hlt
    by_contra hne
    exact h j (by rw [List.mem_range'_1]; omega) (by simpa using hne)
  · intro h j hj
    rw [List.mem_range'_1] at hj
    simpa using h j (by omega) (by omega)

theorem dirInUse_spec {E : Stop → State → Prop} (h : In s R L X) (ha : a ∈ L) :
    wp (dirInUse a)
      (fun r s' => s' = s ∧ (r = true ↔ (s.node (s.icache a).inum).InUse)) E s := by
  have hd := h.locked_dinode ha
  unfold dirInUse
  rw [wp_bind, wp_get, hd.1, ← State.node_type]
  by_cases hdir : (s.node (s.icache a).inum).type = T_DIR
  · rw [if_pos hdir, wp_bind]
    unfold isdirempty
    rw [wp_bind, wp_get, wp_bind, (h.isDir ha hdir).wp_dirScan (k := 2) rfl, h.image_eq ha]
    refine ⟨rfl, ?_⟩
    have hnone := find_range_eq_none (f := s.node (s.icache a).inum)
    generalize hfind : ((List.range' 2 ((s.node (s.icache a).inum).count - 2)).find? fun j =>
      decide (((s.node (s.icache a).inum).entry j).inum ≠ 0)) = r at *
    cases r with
    | none =>
      simp only [Option.map_none, Option.isNone_none, Bool.not_true, Bool.false_eq_true, false_iff]
      rintro ⟨_, j, hj, hlt, hne⟩
      exact hne (hnone.mp rfl j hj hlt)
    | some j =>
      simp only [Option.map_some, Option.isNone_some, Bool.not_false, true_iff]
      refine ⟨hdir, ?_⟩
      by_contra hall
      simp only [not_exists, not_and, not_not] at hall
      exact absurd (hnone.mpr hall) (by simp)
  rw [if_neg hdir]
  refine ⟨rfl, ?_⟩
  constructor
  · intro hf
    cases hf
  · rintro ⟨hdir', _⟩
    exact absurd hdir' hdir

theorem clearEntry_spec (h : In s R L X) (ha : a ∈ L) (hout : 0 < s.outstanding)
    (hdir : (s.node (s.icache a).inum).type = T_DIR) (hk : k < (s.node (s.icache a).inum).count) :
    wp (clearEntry a (16 * k))
      (fun _ s' => In s' R L X ∧ Changed a ((s.node (s.icache a).inum).putEntry k noEntry) s s')
      (fun e _ => NoRoom e) s := by
  have hsize := size_le_of_shape (h.shape_locked ha)
  have hlen := State.length_image_data s a
  have hmax : 16 * k + 16 ≤ 71680 := by
    rw [← h.image_eq ha] at hk
    unfold Node.count at hk
    omega
  have hok : ((s.node (s.icache a).inum).putEntry k noEntry).DirOk s.sb :=
    (h.dirs (s.icache a).inum).putEntry hdir (by omega) rfl (by decide) (.inl rfl)
  unfold clearEntry
  rw [← bytes_noEntry]
  refine wp_seq (writeEntry_spec h ha hout hdir hk.le hmax hok) ?_
  rintro r s' ⟨rfl, hs'⟩
  exact hs'

theorem unlinkParent_spec (h : In s R L ∅) (hdp : dp ∈ L)
    (hip : ip ∈ L) (hout : 0 < s.outstanding) (hi : (s.icache ip).inum = i)
    (hd : (s.icache dp).inum = d) (hf : s.node d = f) :
    wp (unlinkParent dp ip)
      (fun _ s' => In s' R L {d} ∧ Frame R s s' ∧ (∀ b, (s'.icache b).inum = (s.icache b).inum) ∧
        s'.node = update s.node d
          (if (s.node i).type = T_DIR then f.addNlink (-1) else f))
      (fun e _ => LogFull e) s := by
  have hdi := h.locked_dinode hip
  unfold unlinkParent
  rw [wp_bind, wp_get, hdi.1, ← State.node_type, hi]
  by_cases hdir : (s.node i).type = T_DIR
  · rw [if_pos hdir, if_pos hdir]
    refine wp_post (addNlink_spec (Y := {d}) h hdp hout ?_ fun m _ _ => notMem_empty m) ?_
    · intro hnot
      rw [hd] at hnot
      exact absurd (mem_singleton_self d) hnot
    · rintro _ s' ⟨h', hc, _⟩
      refine ⟨h', hc.frame R, hc.inum, ?_⟩
      rw [hc.node_eq, hd, hf]
  · rw [if_neg hdir, if_neg hdir]
    refine ⟨h.mono (empty_subset _), Frame.refl R s, fun _ => rfl, ?_⟩
    rw [← hf, update_eq_self]

theorem unlinkFound_spec {D : Prop} (h : In s (ip ::ₘ {dp}) {dp} ∅)
    (hout : 0 < s.outstanding) (hd : (s.icache dp).inum = d) (hi : (s.icache ip).inum = i)
    (hdir : (s.node d).type = T_DIR) (hk : k < (s.node d).count)
    (hentry : ((s.node d).entry k).inum = i) (hne : ((s.node d).entry k).inum ≠ 0)
    (hD : i = d → D) :
    wp (unlinkFound dp ip (16 * k))
      (fun r s' => ∃ t, s' = t.ended ∧ In t 0 ∅ ∅ ∧ Frame 0 s t ∧ (r = -1 ∧ Still 0 s t ∨
          r = 0 ∧ i ≠ d ∧ (s.node i).type ≠ 0 ∧ 1 ≤ (s.node i).nlink ∧ ¬(s.node i).InUse ∧
            Frees (unlinked s.node d k i) t.node))
      (fun e _ => Stops s.node D e) s := by
  have hipos : 0 < (s.icache ip).ref := h.ref_pos (Multiset.mem_cons_self _ _)
  have hdpos : 0 < (s.icache dp).ref := (h.locked dp (mem_singleton_self dp)).1
  have hdpR : Multiset.count dp {dp} = 1 := Multiset.count_singleton_self dp
  unfold unlinkFound
  rw [wp_bind]
  by_cases hsame : ip = dp
  · -- the call has the lock already
    subst hsame
    have hlocked : (s.icache ip).locked = true := (h.locks ip).mpr (mem_singleton_self ip)
    unfold ilock acquiresleep
    simp only [wp_bind, wp_get, wp_ite, wp_throw]
    rw [if_neg (by omega), if_pos hlocked]
    exact .inr (.inr ⟨rfl, hD (hi.symm.trans hd)⟩)
  have hid : i ≠ d := by
    intro heq
    exact hsame (h.uniq ip dp hipos hdpos (hi.trans (heq.trans hd.symm)))
  have hnot : ip ∉ ({dp} : Finset Ino) := notMem_singleton.mpr hsame
  refine wp_mono (ilock_spec h hipos hnot) ?_ ?_
  swap
  · rintro e _ ⟨he, ht⟩
    refine .inr (.inl ⟨he, fun hs => hs.2 d hdir k hk hne ?_⟩)
    rw [hentry, ← hi]
    exact ht
  rintro _ s1 ⟨h1, hq1, hinum1, ht1⟩
  rw [hi] at hinum1 ht1
  have hnode1 := hq1.node_eq
  have hd1 : (s1.icache dp).inum = d := by
    rw [hq1.inum dp (by rw [Multiset.count_cons_of_ne (Ne.symm hsame), hdpR]; omega)]
    exact hd
  have hip : ip ∈ insert ip ({dp} : Finset Ino) := mem_insert_self _ _
  have hdp : dp ∈ insert ip ({dp} : Finset Ino) :=
    mem_insert_of_mem (mem_singleton_self dp)
  have hout1 : 0 < s1.outstanding := by
    rw [hq1.outstanding]
    exact hout
  have hdi := h1.locked_dinode hip
  rw [hinum1] at hdi
  rw [wp_bind, wp_get, hdi.1, ← State.node_nlink, hnode1, wp_ite]
  by_cases hlink : (s.node i).nlink < 1
  · rw [if_pos hlink]
    exact .inl rfl
  rw [if_neg hlink]
  refine wp_seq (dirInUse_spec h1 hip) ?_
  rintro used s2 ⟨rfl, hused⟩
  rw [hinum1, hnode1] at hused
  rw [wp_ite]
  by_cases huse : used = true
  · -- the directory is not empty
    rw [if_pos huse]
    refine wp_seq (iunlockput_keep h1 hnot (pinned_empty _ _)) ?_
    rintro _ s3 ⟨h3, hq3⟩
    have h3' : In s3 (dp ::ₘ 0) (insert dp ∅) ∅ := h3
    unfold putFail endFail
    simp only [wp_bind, wp_endOp, wp_pure]
    refine wp_post (iunlockput_keep h3' (notMem_empty dp) (pinned_empty _ _)) ?_
    rintro _ s4 ⟨h4, hq4⟩
    have hq := ((hq1.mono (Multiset.zero_le _)).trans hq3 (Multiset.zero_le _)).trans hq4
      (le_refl 0)
    exact ⟨s4, rfl, h4, hq.frame, .inl ⟨trivial, hq.still⟩⟩
  rw [if_neg huse, wp_bind]
  have hempty : ¬(s.node i).InUse := fun hin => huse (hused.mpr hin)
  -- the entry is cleared
  refine wp_mono (clearEntry_spec h1 hdp hout1 (by rw [hd1, hnode1]; exact hdir)
    (by rw [hd1, hnode1]; exact hk)) ?_ fun _ _ he => he.stops
  rintro _ s3 ⟨h3, hc3⟩
  rw [hd1, hnode1] at hc3
  have hnode3 : s3.node = update s.node d ((s.node d).putEntry k noEntry) := by
    rw [hc3.node_eq, hd1, hnode1]
  have hi3 : (s3.icache ip).inum = i := (hc3.inum ip).trans hinum1
  have hd3 : (s3.icache dp).inum = d := (hc3.inum dp).trans hd1
  rw [wp_bind]
  refine wp_mono (unlinkParent_spec h3 hdp hip (by rw [hc3.outstanding]; exact hout1) hi3 hd3
    (by rw [hnode3, update_self])) ?_ fun _ _ he => he.stops
  rintro _ s4 ⟨h4, hf4, hinum4, hnode4⟩
  rw [hnode3, update_of_ne hid, update_idem] at hnode4
  change s4.node = update s.node d (unlinkedDir s.node d k i) at hnode4
  have hframe4 : Frame 0 s s4 :=
    ((hq1.frame.mono (Multiset.zero_le _)).trans (hc3.frame 0) (le_refl 0)).trans
      (hf4.mono (Multiset.zero_le _)) (le_refl 0)
  -- the directory is given back
  have h4' : In s4 (dp ::ₘ {ip}) (insert dp {ip}) {d} := by
    have hR : (ip ::ₘ {dp} : Multiset Ino) = dp ::ₘ {ip} := Multiset.pair_comm ip dp
    have hL : (insert ip {dp} : Finset Ino) = insert dp {ip} := pair_comm ip dp
    rw [← hR, ← hL]
    exact h4
  rw [wp_bind]
  refine wp_mono (iunlockput_last (Y := ∅) h4' (notMem_singleton.mpr (Ne.symm hsame))
    ((hinum4 dp).trans hd3) (by rw [hframe4.outstanding]; exact hout)
    (Multiset.count_eq_zero.mpr (by simpa using Ne.symm hsame)) ?_) ?_ fun _ _ he => he.stops
  · intro m hm _
    exact notMem_singleton.mpr hm
  rintro _ s5 ⟨h5, hf5, hnode5⟩
  have hi5 : (s5.icache ip).inum = i := by
    rw [hf5.held (Multiset.mem_singleton_self _), hinum4]
    exact hi3
  have hframe5 : Frame 0 s s5 := hframe4.trans hf5 (Multiset.zero_le _)
  have hself5 : s5.node i = s.node i := by
    rcases hnode5 with hnode5 | ⟨_, _, hnode5⟩
    · rw [hnode5, hnode4, update_of_ne hid]
    · rw [hnode5, hnode4, update_of_ne hid, update_of_ne hid]
  have h5' : In s5 (ip ::ₘ 0) (insert ip ∅) ∅ := h5
  -- the inode loses its link
  rw [wp_bind]
  refine wp_mono (addNlink_spec (Y := {i}) h5' (mem_insert_self ip ∅)
    (by rw [hframe5.outstanding]; exact hout) ?_ fun m _ _ => notMem_empty m) ?_
    fun _ _ he => he.stops
  · intro hnot'
    rw [hi5] at hnot'
    exact absurd (mem_singleton_self i) hnot'
  rintro _ s6 ⟨h6, hc6, _⟩
  rw [hi5, hself5] at hc6
  have hframe6 : Frame 0 s s6 := hframe5.trans (hc6.frame 0) (le_refl 0)
  rw [wp_bind]
  refine wp_mono (iunlockput_last (Y := ∅) h6 (notMem_empty ip) ((hc6.inum ip).trans hi5)
    (by rw [hframe6.outstanding]; exact hout) (Multiset.count_zero ip) ?_) ?_ fun _ _ he => he.stops
  · intro m hm _
    exact notMem_singleton.mpr hm
  rintro _ s7 ⟨h7, hf7, hnode7⟩
  unfold endDone
  simp only [wp_bind, wp_endOp, wp_pure]
  refine ⟨s7, rfl, h7, hframe6.trans hf7 (le_refl 0),
    .inr ⟨trivial, hid, ht1, by omega, hempty, ?_⟩⟩
  have hfrees6 : Frees (unlinked s.node d k i) s6.node := by
    rw [hc6.node_eq, hi5]
    rcases hnode5 with hnode5 | ⟨ht4, hl4, hnode5⟩
    · rw [hnode5, hnode4]
      exact Relation.ReflTransGen.refl
    apply Relation.ReflTransGen.single
    rw [hnode4] at ht4 hl4 hnode5
    rw [update_self] at ht4 hl4 hnode5
    have hval : unlinked s.node d k i d = unlinkedDir s.node d k i := by
      unfold unlinked
      rw [update_of_ne (Ne.symm hid), update_self]
    refine ⟨d, by rw [hval]; exact ht4, by rw [hval]; exact hl4, ?_⟩
    rw [hval, hnode5]
    unfold unlinked
    exact (update_comm hid _ _ _).symm
  rcases hnode7 with hnode7 | hfree
  · rw [hnode7]
    exact hfrees6
  · exact hfrees6.tail ⟨i, hfree⟩

/-- An entry of a directory for the directory itself is called "." or "..". -/
def Tame (node : Nat → Node) : Prop :=
  ∀ d, (node d).type = T_DIR → ∀ k < (node d).count, ((node d).entry k).inum = d →
    namecmp ((node d).entry k).name dot = 0 ∨ namecmp ((node d).entry k).name dotdot = 0

theorem namecmp_trans {x y z : Str} (h : namecmp x y = 0) (h' : namecmp y z = 0) :
    namecmp x z = 0 := by
  rw [namecmp_eq_zero] at *
  exact h.trans h'

theorem unlinkStr_spec {p : Slot} {b : Ino} {path : Str} (h : In s 0 ∅ ∅)
    (hcwd : (s.proc p).cwd = some b) :
    wp (unlinkStr p path)
      (fun r s' => Ended s (fun t =>
        r = -1 ∧ Still 0 s.begun t ∨ r = 0 ∧ Effect s.node t.node) s')
      (fun e _ => Stops s.node (¬Tame s.node) e) s := by
  unfold unlinkStr nameiparent
  rw [wp_bind, wp_beginOp, wp_bind]
  refine wp_mono (namex_spec true path h.begun (pinned_empty _ 0) hcwd) ?_ fun _ _ he =>
    NoWalk.stops he
  intro r s1 hw
  have hq1 := hw.quiet
  cases r with
  | none =>
    simp only [wp_endFail]
    exact ⟨s1, rfl, hw.inv, hq1.frame, .inl ⟨trivial, hq1.still⟩⟩
  | some found =>
    obtain ⟨dp, name⟩ := found
    have hdir1 : (s.node (s1.icache dp).inum).type = T_DIR := hw.dir rfl (dp, name) rfl
    simp only [wp_bind]
    refine wp_mono hw.ilock ?_ fun _ _ he => NoWalk.stops he.1
    rintro _ s2 ⟨h2, hq, hinum2, _⟩
    generalize (s1.icache dp).inum = d at *
    have hmem : dp ∈ insert dp (∅ : Finset Ino) := mem_insert_self dp ∅
    have hnode2 : s2.node = s.node := hq.node_eq
    -- whenever nothing is found, the directory is given back
    have hfail : wp (putFail dp) (fun r s' => Ended s (fun t =>
        r = -1 ∧ Still 0 s.begun t ∨ r = 0 ∧ Effect s.node t.node) s')
        (fun e _ => Stops s.node (¬Tame s.node) e) s2 := by
      unfold putFail endFail
      simp only [wp_bind, wp_endOp, wp_pure]
      refine wp_post (iunlockput_keep h2 (notMem_empty dp) (pinned_empty s2 0)) ?_
      rintro _ s3 ⟨h3, hq3⟩
      have hq0 := hq.trans hq3 (le_refl 0)
      exact ⟨s3, rfl, h3, hq0.frame, .inl ⟨trivial, hq0.still⟩⟩
    rw [wp_ite]
    by_cases hdots : namecmp name dot = 0 ∨ namecmp name dotdot = 0
    · rw [if_pos hdots]
      exact hfail
    rw [if_neg hdots, wp_bind]
    rw [not_or] at hdots
    refine wp_mono (dirlookup_spec h2 hmem (by rw [hinum2, hnode2]; exact hdir1)) ?_
      fun _ _ he => stops_iget he
    intro r s3 hr
    cases r with
    | none =>
      obtain ⟨rfl, _⟩ := hr
      exact hfail
    | some found =>
      obtain ⟨off, ip⟩ := found
      obtain ⟨k, hlook, rfl, h3, hq3, hinum3⟩ := hr
      rw [hinum2, hnode2] at hlook hinum3
      have hk := Node.lookup_eq_some hlook
      have hq0 : Quiet 0 s.begun s3 := hq.trans hq3 (Multiset.zero_le _)
      have hnode3 : s3.node = s.node := hq0.node_eq
      have hd3 : (s3.icache dp).inum = d :=
        (hq3.held (Multiset.mem_cons_self _ _)).trans hinum2
      have hself : ((s.node d).entry k).inum = d → ¬Tame s.node := by
        intro hself htame
        rcases htame d hdir1 k hk.1 hself with hdot | hdot
        · exact hdots.1 (namecmp_trans hk.2.2 hdot)
        · exact hdots.2 (namecmp_trans hk.2.2 hdot)
      have hspec := unlinkFound_spec (k := k) (D := ¬Tame s.node) h3
        (by rw [hq0.outstanding]; exact Nat.succ_pos _) hd3 hinum3
        (by rw [hnode3]; exact hdir1) (by rw [hnode3]; exact hk.1) (by rw [hnode3])
        (by rw [hnode3]; exact hk.2.1) hself
      rw [hnode3] at hspec
      refine wp_post hspec ?_
      rintro r s' ⟨t, rfl, ht, hft, hend⟩
      refine ⟨t, rfl, ht, hq0.frame.trans hft (le_refl 0), ?_⟩
      rcases hend with ⟨rfl, hstill⟩ | ⟨rfl, hid, halloc, hlink, hempty, hfrees⟩
      · exact .inl ⟨rfl, hq0.still.trans hstill (le_refl 0)⟩
      · refine .inr ⟨rfl, Effect.unlink hdir1 hdots.1 hdots.2 hlook rfl hid halloc hlink ?_
          hfrees⟩
        intro hdir j hj hlt
        by_contra hne
        exact hempty ⟨hdir, j, hj, hlt, hne⟩

end Xv6.Fs
