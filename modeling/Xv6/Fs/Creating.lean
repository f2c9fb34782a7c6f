import Xv6.Fs.Effect

/-!
# `create`

`create` finds a file with the given path or makes a new node: it allocates the
inode, gives it one link, fills a directory with "." and "..", and then makes the
entry in the parent.
-/

namespace Xv6.Fs

open Lib Lib.Prog Log Ptable Function Multiset

variable {f : Node} {name path : Str} {i d n k : Nat} {s : State} {R : Multiset Ino}
variable {L : Finset Ino} {X : Finset Nat} {dp ip a b : Ino} {type major minor : Int} {D : Prop}

@[simp] theorem Node.type_link (f : Node) (name : Str) (i : Nat) :
    (f.link name i).type = f.type := rfl

@[simp] theorem Node.nlink_link (f : Node) (name : Str) (i : Nat) :
    (f.link name i).nlink = f.nlink := rfl

theorem Node.entry_link_slot (hi : i < 2 ^ 16) : (f.link name i).entry f.slot = newEntry name i :=
  entry_putEntry_self hi (length_strncpy 14 name)

theorem Node.count_link (h16 : 16 ∣ f.data.length) :
    (f.link name i).count = max f.count (f.slot + 1) :=
  count_putEntry h16 (slot_le f) _

theorem Node.count_of_nil (h : f.data = []) : f.count = 0 := by
  simp [count, h]

theorem Node.slot_of_nil (h : f.data = []) : f.slot = 0 := by
  have hle := slot_le f
  rw [count_of_nil h] at hle
  omega

theorem Node.lookup_of_forall
    (h : ∀ k < f.count, (f.entry k).inum ≠ 0 → namecmp name (f.entry k).name ≠ 0) :
    f.lookup name = none := by
  unfold lookup
  rw [List.find?_eq_none]
  intro k hk
  simp only [decide_eq_true_eq, not_and]
  exact h k (List.mem_range.mp hk)

theorem Node.lookup_of_nil (h : f.data = []) : f.lookup name = none := by
  apply lookup_of_forall
  intro k hk
  rw [count_of_nil h] at hk
  omega

theorem Node.entry_link_nil (h : f.data = []) (hi : i < 2 ^ 16) :
    (f.link name i).count = 1 ∧ (f.link name i).entry 0 = newEntry name i := by
  have hslot := slot_of_nil h
  constructor
  · rw [count_link (by simp [h]), hslot, count_of_nil h]
    rfl
  · have hentry : (f.link name i).entry f.slot = newEntry name i := entry_link_slot hi
    rw [hslot] at hentry
    exact hentry

theorem lookup_dotdot (h : f.data = []) (hi : i < 2 ^ 16) :
    (f.link dot i).lookup dotdot = none := by
  have hone : (f.link dot i).count = 1 ∧ (f.link dot i).entry 0 = newEntry dot i :=
    Node.entry_link_nil h hi
  apply Node.lookup_of_forall
  intro k hk _
  rw [hone.1] at hk
  obtain rfl : k = 0 := by omega
  rw [hone.2]
  change namecmp dotdot (strncpy 14 dot) ≠ 0
  decide

theorem In.isInum_locked (h : In s R L X) (ha : a ∈ L) : s.sb.IsInum (s.icache a).inum :=
  h.range a (h.locked a ha).1

theorem short_type (h : type = T_DIR ∨ type = T_FILE ∨ type = T_DEV) : short type = type := by
  apply IsShort.short_eq
  unfold IsShort
  rcases h with rfl | rfl | rfl <;> decide

theorem makeDots_spec (h : In s R L ∅) (hdp : dp ∈ L) (hip : ip ∈ L) (hout : 0 < s.outstanding)
    (hd : (s.icache dp).inum = d) (hn : (s.icache ip).inum = n) (hnd : n ≠ d)
    (hdir : (s.node n).type = T_DIR) (hnil : (s.node n).data = []) :
    wp (makeDots dp ip)
      (fun _ s' => In s' R L {d} ∧ Frame R s s' ∧ (∀ b, (s'.icache b).inum = (s.icache b).inum) ∧
        s'.node = update (update s.node n (((s.node n).link dot n).link dotdot d)) d
          ((s.node d).addNlink 1))
      (fun e _ => NoEntry e ∨ e = .igetNoInodes) s := by
  have hin : s.sb.IsInum n := hn ▸ h.isInum_locked hip
  have hid : s.sb.IsInum d := hd ▸ h.isInum_locked hdp
  unfold makeDots
  rw [wp_bind]
  refine wp_mono (addNlink_spec (n := 1) (Y := {d}) h hdp hout ?_ fun m _ _ =>
    Finset.notMem_empty m) ?_
    fun _ _ he => .inl (.inl he.noRoom)
  · intro hnot
    rw [hd] at hnot
    exact absurd (Finset.mem_singleton_self d) hnot
  rintro _ s1 ⟨h1, hc1, _⟩
  have hn1 : (s1.icache ip).inum = n := (hc1.inum ip).trans hn
  have hd1 : (s1.icache dp).inum = d := (hc1.inum dp).trans hd
  have hnode1 : s1.node n = s.node n := by rw [hc1.node_eq, hd, update_of_ne hnd]
  rw [wp_bind, wp_get, wp_bind, hn1, hd1]
  refine wp_post (dirlink_new (i := n) h1 hip (by rw [hc1.outstanding]; exact hout)
    (by rw [hn1, hnode1]; exact hdir) (by rw [hc1.sb]; exact hin)
    (by rw [hn1, hnode1]; exact Node.lookup_of_nil hnil)) ?_
  rintro r s2 ⟨rfl, h2, hc2⟩
  rw [hn1, hnode1] at hc2
  have hn2 : (s2.icache ip).inum = n := (hc2.inum ip).trans hn1
  have hnode2 : s2.node n = (s.node n).link dot n := by rw [hc2.node_eq, hn1, update_self]
  rw [if_neg (by decide)]
  refine wp_seq (dirlink_new (i := d) h2 hip (by rw [hc2.outstanding, hc1.outstanding]; exact hout)
    (by rw [hn2, hnode2]; exact hdir) (by rw [hc2.sb, hc1.sb]; exact hid)
    (by rw [hn2, hnode2]; exact lookup_dotdot hnil (hin.lt h.rep.ok))) ?_
  rintro r s3 ⟨rfl, h3, hc3⟩
  rw [hn2, hnode2] at hc3
  rw [if_neg (by decide)]
  refine ⟨h3, ((hc1.frame R).trans (hc2.frame R) (le_refl R)).trans (hc3.frame R) (le_refl R),
    ?_, ?_⟩
  · intro b
    rw [hc3.inum, hc2.inum, hc1.inum]
  · rw [hc3.node_eq, hn2, hc2.node_eq, hn1, hc1.node_eq, hd, update_idem]
    exact update_comm hnd.symm _ _ _

theorem createDots_spec (h : In s R L ∅) (hdp : dp ∈ L) (hip : ip ∈ L) (hout : 0 < s.outstanding)
    (hd : (s.icache dp).inum = d) (hn : (s.icache ip).inum = n) (hnd : n ≠ d)
    (hnode : s.node n = Node.new type major minor) :
    wp (createDots dp ip type)
      (fun _ s' => In s' R L {d} ∧ Frame R s s' ∧ (∀ b, (s'.icache b).inum = (s.icache b).inum) ∧
        s'.node = update (update s.node n (newNode d n type major minor)) d
          (parentDir s.node d type))
      (fun e _ => NoEntry e ∨ e = .igetNoInodes) s := by
  unfold createDots newNode parentDir
  rw [wp_ite]
  by_cases hdir : type = T_DIR
  · rw [if_pos hdir, if_pos hdir, if_pos hdir, ← hnode]
    refine makeDots_spec h hdp hip hout hd hn hnd ?_ ?_
    · rw [hnode, hdir]
      exact short_type (.inl rfl)
    · rw [hnode]
      rfl
  · rw [if_neg hdir, if_neg hdir, if_neg hdir, ← hnode]
    refine ⟨h.mono (Finset.empty_subset _), Frame.refl R s, fun _ => rfl, ?_⟩
    rw [update_eq_self, update_eq_self]

theorem fits_created {dn : Dinode} (h : dn.Fits) :
    Dinode.Fits { dn with major := short major, minor := short minor, nlink := 1 } where
  type := h.type
  major := isShort_short major
  minor := isShort_short minor
  nlink := by
    unfold IsShort
    simp only
    omega
  size := h.size
  addrs := h.addrs
  rest := h.rest

theorem createNew_spec (htype : type = T_DIR ∨ type = T_FILE ∨ type = T_DEV) (h : In s {dp} {dp} ∅)
    (hout : 0 < s.outstanding) (hd : (s.icache dp).inum = d) (hdir : (s.node d).type = T_DIR)
    (hnew : (s.node d).lookup name = none) :
    wp (createNew dp name type major minor)
      (fun r s' => ∃ ip n, r = some ip ∧ In s' {ip} {ip} ∅ ∧ Frame 0 s s' ∧
        (s'.icache ip).inum = n ∧ (s'.node n).type = type ∧ (s.node n).type = 0 ∧ n ≠ 0 ∧
        Frees (created s.node d n name type major minor) s'.node)
      (fun e _ => e.expected = true) s := by
  unfold createNew
  rw [wp_bind]
  refine wp_mono (ialloc_spec h hout) ?_ fun _ _ he => he.expected
  rintro ip s1 ⟨n, hfree, hn, hinum1, h₁, hf1, hnot, hnode1⟩
  have hnd : n ≠ d := by
    rintro rfl
    rw [hdir] at hfree
    exact absurd hfree (by decide)
  have hpd : ip ≠ dp := Finset.notMem_singleton.mp hnot
  have hd1 : (s1.icache dp).inum = d :=
    (hf1.held (mem_singleton_self _)).trans hd
  have hpos : 0 < (s1.icache ip).ref := h₁.ref_pos (mem_cons_self _ _)
  have hself1 : s1.node n = Node.fresh type := by rw [hnode1, update_self]
  have ht1 : (s1.node n).type ≠ 0 := by
    rw [hself1]
    change short type ≠ 0
    rw [short_type htype]
    rcases htype with rfl | rfl | rfl <;> decide
  rw [wp_bind]
  refine wp_mono (ilock_spec h₁ hpos hnot) ?_ ?_
  swap
  · rintro e _ ⟨_, h0⟩
    rw [hinum1] at h0
    exact absurd h0 ht1
  rintro _ s2 ⟨h2, hq2, hinum2, _⟩
  rw [hinum1] at hinum2
  have hip : ip ∈ insert ip ({dp} : Finset Ino) := Finset.mem_insert_self _ _
  have hdp : dp ∈ insert ip ({dp} : Finset Ino) :=
    Finset.mem_insert_of_mem (Finset.mem_singleton_self dp)
  have hout2 : 0 < s2.outstanding := by
    rw [hq2.outstanding, hf1.outstanding]
    exact hout
  have hfits : (s2.icache ip).d.Fits := by
    rw [(h2.locked_dinode hip).1]
    exact fits_inodeAt _
  have hd2 : (s2.icache dp).inum = d := by
    rw [hq2.inum dp (by
      rw [count_cons_of_ne (Ne.symm hpd), count_singleton_self]
      omega)]
    exact hd1
  -- the new inode gets its link
  rw [wp_bind]
  refine wp_mono (updateFields_spec (Y := ∅) h2 hip hout2 rfl rfl rfl (fits_created hfits) ?_ ?_) ?_
    fun _ _ he => he.expected
  · intro _ h10
    simp only at h10
    omega
  · intro m hm _
    rw [hinum2] at hm
    simpa using hm
  rintro _ s3 ⟨h3, hc3, _⟩
  rw [hinum2, hq2.node_eq, hself1] at hc3
  have hn3 : (s3.icache ip).inum = n := (hc3.inum ip).trans hinum2
  have hd3 : (s3.icache dp).inum = d := (hc3.inum dp).trans hd2
  have hnode3 : s3.node = update s.node n (Node.new type major minor) := by
    rw [hc3.node_eq, hinum2, hq2.node_eq, hnode1, update_idem]
    rfl
  have hframe3 : Frame {dp} s s3 :=
    (hf1.trans (hq2.frame.mono (le_cons_self _ _)) (le_refl _)).trans (hc3.frame {dp})
      (le_refl _)
  have hout3 : 0 < s3.outstanding := by
    rw [hframe3.outstanding]
    exact hout
  rw [wp_bind]
  refine wp_mono (createDots_spec h3 hdp hip hout3 hd3 hn3 hnd (by rw [hnode3, update_self]))
    ?_ fun _ _ he => NoEntry.expected he
  rintro _ s4 ⟨h4, hf4, hinum4, hnode4⟩
  have hparent : parentDir s3.node d type = parentDir s.node d type := by
    unfold parentDir
    rw [hnode3, update_of_ne (Ne.symm hnd)]
  rw [hparent, hnode3, update_idem] at hnode4
  have hn4 : (s4.icache ip).inum = n := (hinum4 ip).trans hn3
  have hd4 : (s4.icache dp).inum = d := (hinum4 dp).trans hd3
  have hframe4 : Frame {dp} s s4 := hframe3.trans hf4 (le_cons_self _ _)
  have hself4 : s4.node d = parentDir s.node d type := by rw [hnode4, update_self]
  -- a change of the link count does not change the entries
  have hparent_type : (parentDir s.node d type).type = T_DIR := by
    unfold parentDir
    split
    · exact hdir
    · exact hdir
  have hparent_lookup : (parentDir s.node d type).lookup name = none := by
    unfold parentDir
    split
    · exact hnew
    · exact hnew
  -- the entry is made
  rw [wp_bind, wp_get, wp_bind, hn4]
  refine wp_mono (dirlink_new h4 hdp (by rw [hframe4.outstanding]; exact hout)
    (by rw [hd4, hself4]; exact hparent_type) (by rw [hframe4.sb]; exact hn)
    (by rw [hd4, hself4]; exact hparent_lookup)) ?_ fun _ _ he => NoEntry.expected he
  rintro r s5 ⟨rfl, h5, hc5⟩
  rw [hd4, hself4] at hc5
  have hnode5 : s5.node = created s.node d n name type major minor := by
    rw [hc5.node_eq, hd4, hnode4, update_idem]
    rfl
  have hframe5 : Frame {dp} s s5 := hframe4.trans (hc5.frame {dp}) (le_refl _)
  have h5' : In s5 (dp ::ₘ {ip}) (insert dp {ip}) {d} := by
    have hR : (ip ::ₘ {dp} : Multiset Ino) = dp ::ₘ {ip} := pair_comm ip dp
    have hL : (insert ip {dp} : Finset Ino) = insert dp {ip} := Finset.pair_comm ip dp
    rw [← hR, ← hL]
    exact h5
  rw [if_neg (by decide), wp_bind]
  refine wp_mono (iunlockput_last (Y := ∅) h5' (Finset.notMem_singleton.mpr (Ne.symm hpd))
    ((hc5.inum dp).trans hd4) (by rw [hframe5.outstanding]; exact hout)
    (count_eq_zero.mpr (by simpa using Ne.symm hpd)) ?_) ?_ fun _ _ he => he.expected
  · intro m hm _
    exact Finset.notMem_singleton.mpr hm
  rintro _ s6 ⟨h6, hf6, hnode6⟩
  have hn6 : (s6.icache ip).inum = n := by
    rw [hf6.held (mem_singleton_self _), hc5.inum]
    exact hn4
  have htype5 : (s5.node n).type = type := by
    rw [hnode5]
    unfold created
    rw [update_of_ne hnd, update_self]
    unfold newNode
    split
    · exact short_type htype
    · exact short_type htype
  refine ⟨ip, n, rfl, h6, (hframe5.mono (zero_le _)).trans hf6 (zero_le _), hn6, ?_, hfree, ?_, ?_⟩
  · rcases hnode6 with hnode6 | ⟨_, _, hnode6⟩
    · rw [hnode6]
      exact htype5
    · rw [hnode6, update_of_ne hnd]
      exact htype5
  · have h1 := hn.1
    omega
  · rw [← hnode5]
    rcases hnode6 with hnode6 | hfree6
    · rw [hnode6]
      exact Relation.ReflTransGen.refl
    · exact Relation.ReflTransGen.single ⟨d, hfree6⟩

def State.Missing (s : State) (p : Slot) (path : Str) : Prop :=
  ∃ d name, s.resolve p true path = some (d, name) ∧ (s.node d).lookup name = none

def Created (p : Slot) (path : Str) (type major minor : Int) (s : State) :
    Option Ino → State → Prop
  | none, s' => In s' 0 ∅ ∅ ∧ Still 0 s s' ∧ ¬s.Missing p path
  | some ip, s' => In s' {ip} {ip} ∅ ∧ Frame 0 s s' ∧ (s'.node (s'.icache ip).inum).type = type ∧
      (Still 0 s s' ∧ type = T_FILE ∧ ¬s.Missing p path ∨
        ∃ d n name, s.resolve p true path = some (d, name) ∧ (s.node d).type = T_DIR ∧
          (s.node d).lookup name = none ∧ (s'.icache ip).inum = n ∧ (s.node n).type = 0 ∧ n ≠ 0 ∧
          Frees (created s.node d n name type major minor) s'.node)

theorem createFound_spec (h : In s (ip ::ₘ {dp}) {dp} ∅)
    (hi : (s.icache ip).inum = ((s.node d).entry k).inum) (hdir : (s.node d).type = T_DIR)
    (hk : k < (s.node d).count) (hne : ((s.node d).entry k).inum ≠ 0) :
    wp (createFound dp ip type)
      (fun r s' => Still 0 s s' ∧ match r with
        | none => In s' 0 ∅ ∅
        | some ip => In s' {ip} {ip} ∅ ∧ type = T_FILE ∧
            (s'.node (s'.icache ip).inum).type = T_FILE)
      (fun e _ => Stops s.node D e) s := by
  have h0 : In s (dp ::ₘ {ip}) (insert dp ∅) ∅ := by
    have hR : (ip ::ₘ {dp} : Multiset Ino) = dp ::ₘ {ip} := pair_comm ip dp
    rw [← hR]
    exact h
  unfold createFound
  refine wp_seq (iunlockput_keep h0 (Finset.notMem_empty dp) (pinned_empty _ _)) ?_
  rintro _ s1 ⟨h1, hq1⟩
  have h1' : In s1 (ip ::ₘ 0) ∅ ∅ := h1
  have hi1 : (s1.icache ip).inum = ((s.node d).entry k).inum :=
    (hq1.held (mem_singleton_self _)).trans hi
  have hpos : 0 < (s1.icache ip).ref := h1.ref_pos (mem_singleton_self _)
  rw [wp_bind]
  refine wp_mono (ilock_spec h1' hpos (Finset.notMem_empty ip)) ?_ ?_
  swap
  · rintro e _ ⟨he, ht⟩
    refine .inr (.inl ⟨he, fun hs => hs.2 d hdir k hk hne ?_⟩)
    rw [hi1, hq1.node_eq] at ht
    exact ht
  rintro _ s2 ⟨h2, hq2, _, _⟩
  have hmem : ip ∈ insert ip (∅ : Finset Ino) := Finset.mem_insert_self ip ∅
  have hq : Quiet 0 s s2 := (hq1.mono (zero_le _)).trans hq2 (zero_le _)
  rw [wp_bind, wp_get, (h2.locked_dinode hmem).1, wp_ite]
  by_cases hfile : type = T_FILE ∧ (s2.ino (s2.icache ip).inum).type = T_FILE
  · rw [if_pos hfile]
    exact ⟨hq.still, h2, hfile⟩
  · rw [if_neg hfile]
    refine wp_seq (iunlockput_keep h2 (Finset.notMem_empty ip) (pinned_empty _ _)) ?_
    rintro _ s3 ⟨h3, hq3⟩
    exact ⟨(hq.trans hq3 (le_refl 0)).still, h3⟩

theorem create_spec {p : Slot}
    (htype : type = T_DIR ∨ type = T_FILE ∨ type = T_DEV) (h : In s 0 ∅ ∅)
    (hout : 0 < s.outstanding) (hcwd : (s.proc p).cwd = some b) :
    wp (create p path type major minor) (Created p path type major minor s)
      (fun e _ => Stops s.node D e) s := by
  unfold create nameiparent
  rw [wp_bind]
  refine wp_mono (namex_spec true path h (pinned_empty _ 0) hcwd) ?_ fun _ _ he => NoWalk.stops he
  intro r s1 hw
  have hq1 := hw.quiet
  cases r with
  | none =>
    refine ⟨hw.inv, hq1.still, ?_⟩
    rintro ⟨d, name, hres, _⟩
    rw [← hw.found] at hres
    cases hres
  | some found =>
    obtain ⟨dp, name⟩ := found
    have hdir : (s.node (s1.icache dp).inum).type = T_DIR := hw.dir rfl (dp, name) rfl
    have hres : s.resolve p true path = some ((s1.icache dp).inum, name) := hw.found.symm
    simp only [wp_bind]
    refine wp_mono hw.ilock ?_ fun _ _ he => NoWalk.stops he.1
    rintro _ s2 ⟨h2, hq, hinum2, _⟩
    generalize (s1.icache dp).inum = d at *
    have hmem : dp ∈ insert dp (∅ : Finset Ino) := Finset.mem_insert_self dp ∅
    have hnode2 := hq.node_eq
    refine wp_mono (dirlookup_spec h2 hmem (by rw [hinum2, hnode2]; exact hdir)) ?_
      fun _ _ he => stops_iget he
    intro r s3 hr
    cases r with
    | some found =>
      obtain ⟨off, ip⟩ := found
      obtain ⟨k, hlook, _, h3, hq3, hinum3⟩ := hr
      rw [hinum2, hnode2] at hlook hinum3
      have hk := Node.lookup_eq_some hlook
      have hq0 : Quiet 0 s s3 := hq.trans hq3 (zero_le _)
      have hnode3 := hq0.node_eq
      have hthere : ¬s.Missing p path := by
        rintro ⟨d', name', hres', hnone⟩
        rw [hres] at hres'
        cases hres'
        rw [hlook] at hnone
        cases hnone
      have hspec : wp (createFound dp ip type) _ _ s3 :=
        createFound_spec (D := D) h3 (by rw [hnode3]; exact hinum3)
        (by rw [hnode3]; exact hdir) (by rw [hnode3]; exact hk.1) (by rw [hnode3]; exact hk.2.1)
      rw [hnode3] at hspec
      refine wp_post hspec ?_
      rintro r s4 ⟨hstill, hend⟩
      have hstill' := hq0.still.trans hstill (le_refl 0)
      cases r with
      | none => exact ⟨hend, hstill', hthere⟩
      | some ip' =>
        obtain ⟨h4, rfl, ht⟩ := hend
        exact ⟨h4, hstill'.frame, ht, .inl ⟨hstill', rfl, hthere⟩⟩
    | none =>
      obtain ⟨rfl, hlook⟩ := hr
      rw [hinum2, hnode2] at hlook
      have hspec : wp (createNew dp name type major minor) _ _ s3 := createNew_spec htype h2
        (by rw [hq.outstanding]; exact hout) hinum2 (by rw [hnode2]; exact hdir)
        (by rw [hnode2]; exact hlook)
      rw [hnode2] at hspec
      refine wp_mono hspec ?_ fun _ _ he => .inl he
      rintro r s4 ⟨ip, n, rfl, h4, hf, hn, ht, hfree, hn0, hfrees⟩
      refine ⟨h4, hq.frame.trans hf (le_refl 0), by rw [hn]; exact ht,
        .inr ⟨d, n, name, hres, hdir, hlook, hn, hfree, hn0, hfrees⟩⟩

end Xv6.Fs
