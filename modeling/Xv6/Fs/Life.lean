import Xv6.Fs.Update

/-!
# Allocating and freeing inodes

`ialloc` makes a new node; `iput` of the last reference to an inode without links
frees its blocks and then the inode.
-/

namespace Xv6.Fs

open Lib Lib.Prog Log Ptable Function

variable {s : State} {R : Multiset Ino} {L : Finset Ino} {X Y : Finset Nat} {a : Ino} {f : Node}
variable {n : Nat}

def Node.fresh (type : Int) : Node where
  type := short type
  major := 0
  minor := 0
  nlink := 0
  data := []

def Node.truncated (f : Node) : Node :=
  { f with data := [] }

/-- A free node, with what is left of its fields. -/
def Node.freed (f : Node) : Node :=
  { f with type := 0, data := [] }

theorem Node.dirOk_of_nil (sb : Superblock) (h : f.data = []) : f.DirOk sb := by
  intro _
  simp [h, count]

theorem Node.dirOk_of_type (sb : Superblock) (h : f.type ≠ T_DIR) : f.DirOk sb :=
  fun ht => absurd ht h

theorem itrunc_spec (h : In s R L X) (ha : a ∈ L) (hout : 0 < s.outstanding) :
    wp (itrunc a)
      (fun _ s' => In s' R L X ∧ Changed a (s.node (s.icache a).inum).truncated s s')
      (fun e _ => LogFull e) s := by
  have hlock := h.locked a ha
  have hd := h.locked_dinode ha
  have hi := h.range a hlock.1
  generalize hn : (s.icache a).inum = n at *
  have hloc := h.rep.local hd.2
  have hstart : FreedTo (others s.sb s.disk n) a s 0 s :=
    ⟨by simp, Keeps.refl _ _ _, rfl, by rw [hd.1]; exact hloc.toHolds, by intro k hk; omega⟩
  unfold itrunc
  simp only [NDIRECT]
  refine wp_seq (wp_forEach_range (fun k hk t ht => freeDirect_step hout hk ht) hstart) ?_
  intro _ t ht
  refine wp_seq (truncIndirect_spec hout ht) ?_
  intro _ s1 h1
  have hsb1 : s1.sb = s.sb := by
    rw [h1.state]
    rfl
  have hinum1 : (s1.icache a).inum = n := by
    rw [h1.state, State.upd_icache_self]
    exact hn
  refine wp_post (updateInode_spec (by rw [h1.state]; exact hout) a _) ?_
  rintro _ _ ⟨lg, rfl⟩
  rw [hinum1, hsb1, State.upd_of_eq h1.state]
  have hd1 : (s1.icache a).d = { s.ino n with addrs := fun _ => 0 } := by rw [h1.fields, hd.1]
  have hfits : ({ (s1.icache a).d with size := 0 } : Dinode).Fits := by
    have hf := h1.loc.fits
    exact ⟨hf.type, hf.major, hf.minor, hf.nlink, by simp, hf.addrs, hf.rest⟩
  refine h.store ha hn h1.keeps h1.loc hfits rfl ?_ (show blocksFor 0 = 0 from rfl) ?_ ?_ ?_
    (fun _ _ hm => hm) lg
  · rw [hd1, hd.1]
  · intro disk _
    unfold Dinode.node
    rw [bytesFrom_zero, hd1]
    rfl
  · exact Node.dirOk_of_nil _ rfl
  · exact h.live_locked ha hn

def State.put (s : State) (disk : Disk) (lg : List Nat) (a : Ino) (i : Inode) : State :=
  { s with disk := disk, logged := lg, icache := update s.icache a i }

section
variable (s : State) (disk : Disk) (lg : List Nat)

theorem State.put_icache_self (a : Ino) (i : Inode) : (s.put disk lg a i).icache a = i := by
  simp [put]

theorem State.put_icache_of_ne {b : Ino} (i : Inode)
    (h : b ≠ a) : (s.put disk lg a i).icache b = s.icache b := by
  simp [put, h]

theorem State.put_holders (a b : Ino) (i : Inode) : (s.put disk lg a i).holders b = s.holders b :=
  rfl

theorem State.put_node (a : Ino) (i : Inode) (n : Nat) :
    (s.put disk lg a i).node n = nodeAt s.sb disk n :=
  rfl

theorem State.put_ino (a : Ino) (i : Inode) (n : Nat) :
    (s.put disk lg a i).ino n = inodeAt s.sb disk n :=
  rfl

end

theorem In.freeEntry {disk : Disk} {lg : List Nat} {i : Inode}
    (h : In s (a ::ₘ R) (insert a L) X) (hL : a ∉ L) (hn : (s.icache a).inum = n)
    (hhold : s.holders a = 0) (hR : R.count a = 0) (hrep : Rep s.sb disk)
    (hself : (inodeAt s.sb disk n).type = 0)
    (hinodes : ∀ j, j ≠ n → inodeAt s.sb disk j = inodeAt s.sb s.disk j)
    (hnodes : ∀ j, j ≠ n → nodeAt s.sb disk j = s.node j) (hi : i.ref = 0)
    (hlock : i.locked = false) (hX : ∀ m, m ≠ n → m ∉ Y → m ∉ X) :
    In (s.put disk lg a i) R L Y := by
  have ha : 0 < (s.icache a).ref := (h.locked a (Finset.mem_insert_self a L)).1
  -- nobody else refers to the inode
  have hother : ∀ b, b ≠ a → 0 < (s.icache b).ref → (s.icache b).inum ≠ n := by
    intro b hba hb heq
    exact hba (h.uniq b a hb ha (heq.trans hn.symm))
  have hneq : ∀ b, 0 < s.holders b → b ≠ a := by
    rintro b hb rfl
    omega
  have hused : ∀ b, 0 < ((s.put disk lg a i).icache b).ref → b ≠ a := by
    rintro b hb rfl
    rw [State.put_icache_self, hi] at hb
    omega
  refine ⟨hrep, ?_, ?_, ?_, ?_, ?_, ?_, ?_, ?_, ?_, ?_⟩
  · intro b hb
    have hba := hused b hb
    rw [State.put_icache_of_ne _ _ _ _ hba] at hb ⊢
    exact h.range b hb
  · intro b c hb hc heq
    have hba := hused b hb
    have hca := hused c hc
    rw [State.put_icache_of_ne _ _ _ _ hba] at hb heq
    rw [State.put_icache_of_ne _ _ _ _ hca] at hc heq
    exact h.uniq b c hb hc heq
  · intro b hb hv
    have hba := hused b hb
    rw [State.put_icache_of_ne _ _ _ _ hba] at hb hv ⊢
    rw [State.put_ino, hinodes _ (hother b hba hb)]
    exact h.sync b hb hv
  · intro b
    rw [State.put_holders]
    by_cases hba : b = a
    · subst hba
      rw [State.put_icache_self, hi, hR, hhold]
    · rw [State.put_icache_of_ne _ _ _ _ hba]
      have hb := h.refs b
      rw [Multiset.count_cons_of_ne hba] at hb
      exact hb
  · intro b
    by_cases hba : b = a
    · subst hba
      rw [State.put_icache_self]
      simp [hlock, hL]
    · rw [State.put_icache_of_ne _ _ _ _ hba]
      have hb := h.locks b
      rw [Finset.mem_insert] at hb
      simpa [hba] using hb
  · intro b hb
    have hba : b ≠ a := by
      rintro rfl
      exact hL hb
    rw [State.put_icache_of_ne _ _ _ _ hba]
    exact h.locked b (Finset.mem_insert_of_mem hb)
  · intro b hb
    rw [State.put_holders] at hb
    have hba : b ≠ a := hneq b hb
    rw [State.put_icache_of_ne _ _ _ _ hba, State.put_ino,
      hinodes _ (hother b hba (h.ref_of_holders hb))]
    exact h.alloc b hb
  · intro m hm ht hl
    rw [State.put_node] at ht hl
    by_cases hmn : m = n
    · subst hmn
      exact absurd hself ht
    rw [hnodes m hmn] at ht hl
    obtain ⟨b, hinum, hb, hv⟩ := h.live m (hX m hmn hm) ht hl
    have hba : b ≠ a := hneq b hb
    refine ⟨b, ?_, hb, ?_⟩
    · rw [State.put_icache_of_ne _ _ _ _ hba]
      exact hinum
    · rw [State.put_icache_of_ne _ _ _ _ hba]
      exact hv
  · intro m
    rw [State.put_node]
    by_cases hmn : m = n
    · subst hmn
      apply Node.dirOk_of_type
      change (inodeAt s.sb disk m).type ≠ T_DIR
      rw [hself]
      decide
    · rw [hnodes m hmn]
      exact h.dirs m
  intro i' b hip
  have hb : 0 < s.holders b := State.holders_of_file (s := s) hip
  have hba : b ≠ a := hneq b hb
  have hf := h.files i' b hip
  refine ⟨hf.1, ?_⟩
  intro hw
  rw [State.put_node, State.put_icache_of_ne _ _ _ _ hba,
    hnodes _ (hother b hba (h.ref_of_holders hb))]
  exact hf.2 hw

structure FreedNode (n : Nat) (R : Multiset Ino) (s s' : State) : Prop where
  frame : Frame R s s'
  node : s'.node = update s.node n (s.node n).freed

theorem ifree_spec (h : In s (a ::ₘ R) (insert a L) X) (hL : a ∉ L)
    (hn : (s.icache a).inum = n) (hout : 0 < s.outstanding) (hhold : s.holders a = 0)
    (hR : R.count a = 0) (hX : ∀ m, m ≠ n → m ∉ Y → m ∉ X) :
    wp (ifree a)
      (fun _ s' => In (s'.setEntry a
          { s'.icache a with locked := false, ref := (s'.icache a).ref - 1 }) R L Y ∧
        Frame (a ::ₘ R) s s' ∧ s'.node = update s.node n (s.node n).freed)
      (fun e _ => LogFull e) s := by
  have hmem : a ∈ insert a L := Finset.mem_insert_self a L
  unfold ifree
  simp only [wp_bind]
  refine wp_post (itrunc_spec h hmem hout) ?_
  rintro _ s1 ⟨h1, hc1⟩
  rw [hn] at hc1
  have hn1 : (s1.icache a).inum = n := by
    rw [hc1.inum]
    exact hn
  have hlock := h1.locked a hmem
  have hd := h1.locked_dinode hmem
  have hi := h1.range a hlock.1
  have href := h1.refs a
  have hhold1 : s1.holders a = 0 := by
    rw [(hc1.frame R).holders]
    exact hhold
  rw [hhold1, Multiset.count_cons_self, hR] at href
  rw [hn1] at hd hi
  have hloc := h1.rep.local hd.2
  refine wp_post (updateInode_spec (by rw [hc1.outstanding]; exact hout) a _) ?_
  rintro _ _ ⟨lg, rfl⟩
  rw [hn1, hd.1]
  generalize hd2 : ({ s1.ino n with type := 0 } : Dinode) = d2
  have ht2 : d2.type = 0 := by rw [← hd2]
  have hfits : d2.Fits := by
    rw [← hd2]
    have hf := hloc.fits
    exact ⟨isShort_zero, hf.major, hf.minor, hf.nlink, hf.size, hf.addrs, hf.rest⟩
  have hlen : (s1.ino n).size = 0 := by
    rw [← State.length_node_data]
    have hself := hc1.self
    rw [hn] at hself
    rw [hself]
    rfl
  have hzero : ∀ k, (s1.ino n).held s1.disk k = 0 := by
    intro k
    have hshape := h1.rep.shape n hd.2
    change (s1.ino n).Shape s1.disk (blocksFor (s1.ino n).size) at hshape
    rw [hlen] at hshape
    by_cases hk12 : k = 12
    · subst hk12
      rw [Dinode.held_twelve hd.2]
      by_contra hne
      exact absurd (hshape.indirect.mp hne) (by decide)
    by_cases hk : k ≤ 140
    · obtain ⟨bn, hbn, hpos⟩ : ∃ bn < 140, Dinode.pos bn = k := by
        unfold Dinode.pos
        by_cases hlt : k < 12
        · exact ⟨k, by omega, if_pos hlt⟩
        · exact ⟨k - 1, by omega, by rw [if_neg (by omega)]; omega⟩
      by_contra hne
      rw [← hpos] at hne
      exact absurd ((hshape.block bn hbn).mp hne) (by simp [blocksFor])
    · exact Dinode.held_of_lt _ _ (by omega)
  have hrep : Rep s1.sb (iupdateDisk s1.sb s1.disk n d2) := by
    refine h1.rep.store hi (Keeps.refl _ _ _) hloc hfits (by rw [← hd2]; rfl) ?_ fun _ => hzero
    intro hne
    exact absurd ht2 hne
  have hrest : ∀ j, j ≠ n → nodeAt s1.sb (iupdateDisk s1.sb s1.disk n d2) j = s1.node j :=
    fun j hj => nodeAt_store_of_ne h1.rep hi (Keeps.refl _ _ _) hj
  have hnode : nodeAt s1.sb (iupdateDisk s1.sb s1.disk n d2) n = (s.node n).freed := by
    have hself := hc1.self
    rw [hn] at hself
    have hfield : ∀ x : Node, s1.node n = x → (s1.ino n).major = x.major ∧
        (s1.ino n).minor = x.minor ∧ (s1.ino n).nlink = x.nlink := by
      rintro x rfl
      exact ⟨rfl, rfl, rfl⟩
    obtain ⟨h1', h2', h3'⟩ := hfield _ hself
    unfold nodeAt
    rw [inodeAt_iupdate_self hi hfits, ← hd2]
    unfold Dinode.node Node.freed
    simp only [hlen, bytesFrom_zero, h1', h2', h3']
    rfl
  unfold setInode
  simp only [wp_modify]
  refine ⟨?_, ?_, ?_⟩
  · have hfree : In (s1.put (iupdateDisk s1.sb s1.disk n d2) lg a ⟨n, 0, false, false, d2⟩) R L Y :=
      h1.freeEntry hL hn1 hhold1 hR hrep
      (by rw [inodeAt_iupdate_self hi hfits]; exact ht2)
      (fun j hj => inodeAt_iupdate_of_ne hj _) hrest rfl rfl hX
    simpa [State.upd, State.put, State.setEntry, hn1, href] using hfree
  · refine (hc1.frame (a ::ₘ R)).trans ⟨rfl, rfl, rfl, rfl, ?_⟩ (le_refl _)
    intro b _
    by_cases hba : b = a
    · subst hba
      simp [State.upd]
    · simp [State.upd, hba]
  funext j
  change nodeAt s1.sb (iupdateDisk s1.sb s1.disk n d2) j = _
  by_cases hj : j = n
  · subst hj
    rw [update_self, hnode]
  · rw [update_of_ne hj, hrest j hj]
    exact hc1.rest j (by rw [hn]; exact hj)

section
variable (h : In s (a ::ₘ R) L X) (hL : a ∉ L) (hn : (s.icache a).inum = n)
include h hL hn

theorem In.settle (hR : R.count a = 0)
    (hv : (s.node n).type ≠ 0 → (s.node n).nlink = 0 → (s.icache a).valid = true)
    (hX : ∀ m, m ≠ n → m ∉ Y → m ∉ X)
    (hkeep : ¬((s.icache a).valid = true ∧ (s.icache a).d.nlink = 0 ∧ (s.icache a).ref = 1)) :
    In (s.setEntry a { s.icache a with locked := false, ref := (s.icache a).ref - 1 }) R L Y := by
  have hdrop := h.dropRef hL
  have href := h.refs a
  rw [Multiset.count_cons_self, hR] at href
  refine { hdrop with live := ?_ }
  intro m hm ht hl
  by_cases hmn : m = n
  · subst hmn
    have hvalid := hv ht hl
    have hsync := h.sync a (by omega) hvalid
    have hnlink : (s.icache a).d.nlink = 0 := by
      rw [hsync.1, hn]
      exact hl
    have hhold : 0 < s.holders a := by
      by_contra hzero
      exact hkeep ⟨hvalid, hnlink, by omega⟩
    refine ⟨a, ?_, hhold, ?_⟩
    · rw [State.setEntry_icache_self]
      exact hn
    · rw [State.setEntry_icache_self]
      exact hvalid
  · exact hdrop.live m (hX m hmn hm) ht hl

theorem iput_last (hout : 0 < s.outstanding) (hR : R.count a = 0)
    (hv : (s.node n).type ≠ 0 → (s.node n).nlink = 0 → (s.icache a).valid = true)
    (hX : ∀ m, m ≠ n → m ∉ Y → m ∉ X) :
    wp (iput a)
      (fun _ s' => In s' R L Y ∧
        (Quiet R s s' ∧ ((s.node n).type ≠ 0 → (s.node n).nlink = 0 → 0 < s.holders a) ∨
          FreedNode n R s s' ∧ (s.node n).type ≠ 0 ∧ (s.node n).nlink = 0 ∧ s.holders a = 0))
      (fun e _ => LogFull e) s := by
  have hfree : (s.icache a).locked ≠ true := fun hl => hL ((h.locks a).mp hl)
  have href := h.refs a
  rw [Multiset.count_cons_self, hR] at href
  unfold iput
  rw [wp_bind]
  refine wp_mono (acquiresleep_free hfree) ?_ fun _ _ he => he.elim
  rintro _ _ rfl
  unfold ifreeUnused
  simp only [wp_bind, wp_get, wp_ite, wp_pure, State.setEntry_icache_self]
  by_cases hunused : (s.icache a).valid = true ∧ (s.icache a).d.nlink = 0 ∧ (s.icache a).ref = 1
  · rw [if_pos hunused]
    obtain ⟨hvalid, hnlink, hone⟩ := hunused
    have hpos : 0 < (s.icache a).ref := by omega
    have hsync := h.sync a hpos hvalid
    rw [hn] at hsync
    have hlocked : In (s.setEntry a { s.icache a with locked := true }) (a ::ₘ R)
        (insert a L) X := by
      apply h.setEntry
      · intro _
        exact h.range a hpos
      · intro b hba hb _ heq
        exact hba (h.uniq b a hb hpos heq)
      · intro _ _
        rw [hn]
        exact hsync
      · exact h.refs a
      · intro b _
        rfl
      · simp
      · intro b hba
        simp [hba]
      · intro _
        exact ⟨hpos, hvalid⟩
      · intro _
        exact ⟨rfl, id⟩
    have hspec := ifree_spec (Y := Y) hlocked hL (n := n) (by simpa using hn) hout
      (by change s.holders a = 0; omega) hR hX
    refine wp_post hspec ?_
    rintro _ s1 ⟨h1, hf1, hnode1⟩
    unfold releasesleep setInode
    simp only [wp_modify, update_self, update_idem]
    refine ⟨h1, .inr ⟨⟨⟨hf1.sb, hf1.file, hf1.proc, hf1.outstanding, ?_⟩, hnode1⟩, hsync.2, ?_, ?_⟩⟩
    · intro b hb
      have hba : b ≠ a := by
        rintro rfl
        omega
      have hinum := hf1.inum b (by
        rw [Multiset.count_cons_of_ne hba]
        exact hb)
      simp only [update_of_ne hba]
      rw [hinum]
      simp [State.setEntry, hba]
    · rw [hsync.1] at hnlink
      exact hnlink
    · omega
  rw [if_neg hunused]
  unfold releasesleep setInode
  simp only [wp_modify, State.setEntry, update_self, update_idem]
  refine ⟨h.settle hL hn hR hv hX hunused, .inl ⟨quiet_setEntry fun _ => ⟨rfl, id⟩, ?_⟩⟩
  intro ht hl
  have hvalid := hv ht hl
  have hsync := h.sync a (by omega) hvalid
  by_contra hzero
  apply hunused
  refine ⟨hvalid, ?_, by omega⟩
  rw [hsync.1, hn]
  exact hl

end

def NoInode (e : Stop) : Prop :=
  e = .tooBig ∨ e = .iallocNoInodes ∨ e = .igetNoInodes

theorem fits_new (t : Int) : (Dinode.new t).Fits :=
  { Dinode.fits_zero with type := isShort_short t }

theorem Rep.alloc {sb : Superblock} {disk : Disk} {d : Dinode} (h : Rep sb disk)
    (hn : sb.IsInum n) (hfree : (inodeAt sb disk n).type = 0) (hfits : d.Fits)
    (haddrs : ∀ k, d.addrs k = 0) (hsize : d.size = 0) : Rep sb (iupdateDisk sb disk n d) := by
  refine h.replace (inodeAt_iupdate_self hn hfits) (fun j hj => inodeAt_iupdate_of_ne hj _)
    (fun c hc => same_store h hn (Keeps.refl _ _ _) hc) ?_ ?_ ?_
  · refine (h.own.row n).congr ?_ fun b _ => bitAt_iupdate h.ok hn b
    intro k
    rw [held_of_addrs_zero haddrs]
    exact (Dinode.held_eq_zero_of_type hfree disk k).symm
  · intro b hb
    rw [bitAt_iupdate h.ok hn]
    exact h.metaBits b hb
  · intro _
    have hblocks : blocksFor d.size = 0 := by
      rw [hsize]
      rfl
    rw [hblocks]
    exact shape_zero haddrs _

theorem In.allocDisk {t : Int} (lg : List Nat) (h : In s R L X) (hn : s.sb.IsInum n)
    (hfree : (s.ino n).type = 0) :
    In { s with disk := iupdateDisk s.sb s.disk n (Dinode.new t), logged := lg }
        R L (insert n X) ∧
      nodeAt s.sb (iupdateDisk s.sb s.disk n (Dinode.new t)) =
        update s.node n (Node.fresh t) := by
  have hfits := fits_new t
  have hinodes : ∀ j, j ≠ n → inodeAt s.sb (iupdateDisk s.sb s.disk n (Dinode.new t)) j = s.ino j :=
    fun j hj => inodeAt_iupdate_of_ne hj _
  have hnodes : ∀ j, j ≠ n → nodeAt s.sb (iupdateDisk s.sb s.disk n (Dinode.new t)) j = s.node j :=
    fun j hj => nodeAt_store_of_ne h.rep hn (Keeps.refl _ _ _) hj
  have hself : nodeAt s.sb (iupdateDisk s.sb s.disk n (Dinode.new t)) n =
      Node.fresh t := by
    unfold nodeAt
    rw [inodeAt_iupdate_self hn hfits]
    rfl
  -- entries that are in use are not entries for the new inode
  have hvalid : ∀ a, 0 < (s.icache a).ref → (s.icache a).valid = true → (s.icache a).inum ≠ n := by
    rintro a ha hv rfl
    exact (h.sync a ha hv).2 hfree
  have hheld : ∀ a, 0 < s.holders a → (s.icache a).inum ≠ n := by
    rintro a ha rfl
    exact h.alloc a ha hfree
  constructor
  · refine ⟨h.rep.alloc hn hfree hfits (fun _ => rfl) rfl, h.range, h.uniq, ?_, h.refs, h.locks,
      h.locked, ?_, ?_, ?_, ?_⟩
    · intro a ha hv
      have hsync := h.sync a ha hv
      unfold State.ino
      simp only
      rw [hinodes _ (hvalid a ha hv)]
      exact hsync
    · intro a ha
      unfold State.ino
      simp only
      rw [hinodes _ (hheld a ha)]
      exact h.alloc a ha
    · intro m hm htm hl
      rw [Finset.mem_insert, not_or] at hm
      unfold State.node at htm hl
      simp only at htm hl
      rw [hnodes m hm.1] at htm hl
      exact h.live m hm.2 htm hl
    · intro m
      unfold State.node
      simp only
      by_cases hmn : m = n
      · subst hmn
        rw [hself]
        exact Node.dirOk_of_nil _ rfl
      · rw [hnodes m hmn]
        exact h.dirs m
    intro i a hip
    have hf := h.files i a hip
    refine ⟨hf.1, ?_⟩
    intro hw
    unfold State.node
    simp only
    rw [hnodes _ (hheld a (State.holders_of_file hip))]
    exact hf.2 hw
  · funext j
    by_cases hj : j = n
    · subst hj
      rw [update_self, hself]
    · rw [update_of_ne hj, hnodes j hj]

theorem ialloc_spec {type : Int} (h : In s R L X) (hout : 0 < s.outstanding) :
    wp (ialloc type)
      (fun a s' => ∃ n, (s.node n).type = 0 ∧ s.sb.IsInum n ∧ (s'.icache a).inum = n ∧
        In s' (a ::ₘ R) L (insert n X) ∧ Frame R s s' ∧ a ∉ L ∧
        s'.node = update s.node n (Node.fresh type))
      (fun e _ => NoInode e) s := by
  unfold ialloc
  simp only [wp_bind, wp_get]
  cases hfind : (List.range s.sb.ninodes).find? fun i =>
      decide (1 ≤ i ∧ (dinodeAt s.sb s.disk i).type = 0) with
  | none => exact .inr (.inl rfl)
  | some n =>
    have hp := List.find?_some hfind
    simp only [decide_eq_true_eq] at hp
    have hn : s.sb.IsInum n := ⟨hp.1, List.mem_range.mp (List.mem_of_find?_eq_some hfind)⟩
    have hfree : (s.ino n).type = 0 := by
      unfold State.ino
      rw [inodeAt_of_isInum hn]
      exact hp.2
    simp only [wp_bind]
    refine wp_mono (logWrite_spec hout _ _) ?_ fun _ _ he => .inl he
    rintro _ _ ⟨lg, rfl⟩
    obtain ⟨h1, hnode1⟩ := h.allocDisk (t := type) lg hn hfree
    refine wp_mono (iget_spec h1 hn) ?_ fun _ _ he => .inr (.inr he)
    rintro a s2 ⟨h2, hq2, hinum⟩
    refine ⟨n, hfree, hn, hinum, h2, ⟨hq2.sb, hq2.file, hq2.proc, hq2.outstanding, ?_⟩, ?_, ?_⟩
    · intro b hb
      exact hq2.inum b hb
    · intro hL
      have hv := h.locked a hL
      have hsame : (s2.icache a).inum = (s.icache a).inum := by
        apply hq2.inum a
        have href := h.refs a
        exact (by omega : 0 < s.holders a + R.count a)
      rw [hsame] at hinum
      subst hinum
      exact (h.sync a hv.1 hv.2).2 hfree
    · rw [hq2.node_eq]
      exact hnode1

end Xv6.Fs
