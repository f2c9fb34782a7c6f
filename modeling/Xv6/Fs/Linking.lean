import Xv6.Fs.Effect

/-!
# `link`

`sys_link` raises the link count of the inode first and takes the link back when
no entry can be made.  While it walks to the new parent the count may have wrapped
to 0; the reference that the call holds keeps the inode.
-/

namespace Xv6.Fs

open Lib Lib.Prog Log Ptable Function Multiset

variable {s : State} {ip b : Ino} {n : Nat} {f : Node}
variable {node : Nat → Node} {p : Slot}

def State.linkTarget (s : State) (p : Slot) (old new : Str) : Option (Nat × Nat × Str) :=
  match s.resolve p false old with
  | none => none
  | some (i, _) =>
    if (s.node i).type = T_DIR then none
    else
      match s.resolve p true new with
      | none => none
      | some (d, name) => some (i, d, name)

/-- The name of the new link is an entry of the directory for the directory itself. -/
def State.LinksOntoSelf (s : State) (p : Slot) (old new : Str) : Prop :=
  ∃ i d name k, s.linkTarget p old new = some (i, d, name) ∧ (s.node d).lookup name = some k ∧
    ((s.node d).entry k).inum = d

/-- The link is not stopped earlier: both walks find entries of the cache, the second one while
there is one for the file, the file has a type, and the log has room for its inode. -/
def State.LinkRoom (s : State) (p : Slot) (old new : Str) : Prop :=
  ∀ i d name, s.linkTarget p old new = some (i, d, name) →
    PathRoom s.node (s.kept 0) false (s.start p old) old ∧ (s.node i).type ≠ 0 ∧
      s.logged.length < s.logCap ∧
      PathRoom s.node (insert i (s.kept 0)) true (s.start p new) new

theorem addNlink_cancel (h : IsShort f.nlink) : (f.addNlink 1).addNlink (-1) = f := by
  have hback : short (short (f.nlink + 1) + -1) = f.nlink := by
    have h1 : short (short (f.nlink + 1) + -1) = short f.nlink := by
      unfold short
      rw [Int.bmod_add_bmod]
      congr 1
      omega
    rw [h1, h.short_eq]
  unfold Node.addNlink
  simp only [hback]

theorem linkBad_spec (h : In s {ip} ∅ {n}) (hn : (s.icache ip).inum = n) (hout : 0 < s.outstanding)
    (hnode : s.node n = f.addNlink 1) (hf : f.type ≠ 0) (hshort : IsShort f.nlink)
    (hlive : f.nlink = 0 → 0 < s.holders ip) :
    wp (linkBad ip)
      (fun r s' => r = -1 ∧ ∃ t, s' = t.ended ∧ In t 0 ∅ ∅ ∧ Frame 0 s t ∧
        t.node = update s.node n f ∧ ∀ b, bitAt t.sb t.disk b = bitAt s.sb s.disk b)
      (fun e _ => LogFull e) s := by
  have hpos : 0 < (s.icache ip).ref := h.ref_pos (mem_singleton_self _)
  have ht : (s.node (s.icache ip).inum).type ≠ 0 := by
    rw [hn, hnode]
    exact hf
  unfold linkBad
  rw [wp_bind]
  refine wp_mono (ilock_spec h hpos (Finset.notMem_empty ip)) ?_ fun _ _ he => absurd he.2 ht
  rintro _ s1 ⟨h1, hq1, hinum1, _⟩
  have hn1 : (s1.icache ip).inum = n := hinum1.trans hn
  have hmem : ip ∈ insert ip (∅ : Finset Ino) := Finset.mem_insert_self ip ∅
  have hnode1 : s1.node n = f.addNlink 1 := by
    rw [hq1.node_eq]
    exact hnode
  refine wp_seq (addNlink_spec (n := -1) (Y := ∅) h1 hmem (by rw [hq1.outstanding]; exact hout)
    ?_ ?_) ?_
  · intro _ hl
    rw [hn1, hnode1, addNlink_cancel hshort] at hl
    rw [hq1.holders]
    exact hlive hl
  · intro m hm _
    rw [hn1] at hm
    exact Finset.notMem_singleton.mpr hm
  rintro _ s2 ⟨h2, hc2, hbits2⟩
  unfold putFail endFail
  simp only [wp_bind, wp_pure]
  refine wp_post (iunlockput_keep h2 (Finset.notMem_empty ip) (pinned_empty s2 0)) ?_
  rintro _ s3 ⟨h3, hq3⟩
  refine ⟨trivial, s3, rfl, h3, ?_, ?_, ?_⟩
  · exact ((hq1.frame.mono (zero_le _)).trans (hc2.frame 0) (le_refl 0)).trans hq3.frame
      (le_refl 0)
  · rw [hq3.node_eq, hc2.node_eq, hn1, hnode1, addNlink_cancel hshort, hq1.node_eq]
  · intro b
    rw [hq3.sb, hq3.disk, hbits2, hq1.sb, hq1.disk]

def raised (node : Nat → Node) (n : Nat) : Nat → Node :=
  update node n ((node n).addNlink 1)

theorem raised_self (node : Nat → Node) (n : Nat) : raised node n n = (node n).addNlink 1 :=
  update_self n _ node

theorem raised_of_ne {m : Nat} (h : m ≠ n) : raised node n m = node m :=
  update_of_ne h _ node

section
variable (node : Nat → Node)

theorem type_raised (n m : Nat) : (raised node n m).type = (node m).type := by
  by_cases hm : m = n
  · rw [hm, raised_self]
    rfl
  · rw [raised_of_ne hm]

theorem data_raised (n m : Nat) : (raised node n m).data = (node m).data := by
  by_cases hm : m = n
  · rw [hm, raised_self]
    rfl
  · rw [raised_of_ne hm]

theorem update_raised (n : Nat) : update (raised node n) n (node n) = node := by
  unfold raised
  rw [update_idem, update_eq_self]

end

def Linked (node : Nat → Node) (n : Nat) (goal : Option (Nat × Str)) (s : State) (r : Int)
    (s' : State) : Prop :=
  ∃ t, s' = t.ended ∧ In t 0 ∅ ∅ ∧ Frame 0 s t ∧
    (r = -1 ∧ t.node = node ∧ (∀ b, bitAt t.sb t.disk b = bitAt s.sb s.disk b) ∧
        (∀ d name k, goal = some (d, name) → (node d).lookup name = some k →
          ((node d).entry k).inum ≠ d) ∨
      r = 0 ∧ ∃ d name, goal = some (d, name) ∧ (node d).type = T_DIR ∧
        (node d).lookup name = none ∧ Frees (linked node n d name) t.node)

def LinkWaits (node : Nat → Node) (C : Finset Nat) (start : Nat) (new : Str)
    (goal : Option (Nat × Str)) : Prop :=
  (∃ d name k, goal = some (d, name) ∧ (node d).lookup name = some k ∧
    ((node d).entry k).inum = d) ∧ PathRoom node C true start new

theorem linkNew_spec {node : Nat → Node} {new : Str} (h : In s {ip} ∅ {n})
    (hn : (s.icache ip).inum = n) (hvalid : (s.icache ip).valid = true) (hout : 0 < s.outstanding)
    (hcwd : (s.proc p).cwd = some b) (hnode : s.node = raised node n) (ht : (node n).type ≠ 0)
    (hfile : (node n).type ≠ T_DIR) (hshort : IsShort (node n).nlink)
    (hlive : (node n).nlink = 0 → 0 < s.holders ip) :
    wp (linkNew p ip new)
      (Linked node n (resolve node true (new.length + 1) (s.start p new) new) s)
      (fun e _ => StopsIff node (LinkWaits node (s.kept {ip}) (s.start p new) new
        (resolve node true (new.length + 1) (s.start p new) new)) e) s := by
  have hresolve : s.resolve p true new =
      resolve node true (new.length + 1) (s.start p new) new := by
    unfold State.resolve
    rw [hnode]
    exact resolve_congr (type_raised node n) (data_raised node n) _ _ _ _
  have hsound : Sound s.node ↔ Sound node := by
    rw [hnode]
    exact sound_congr (type_raised node n) (data_raised node n)
  have hpath : PathRoom s.node (s.kept {ip}) true (s.start p new) new ↔
      PathRoom node (s.kept {ip}) true (s.start p new) new := by
    rw [hnode]
    exact pathRoom_congr (type_raised node n) (data_raised node n) _ _ _
  rw [← hresolve]
  generalize hgoal : s.resolve p true new = goal
  have hpin : ∀ t, (t.icache ip).inum = n → Pinned t {ip} {n} := by
    intro t hinum m hm
    rw [Finset.mem_singleton] at hm
    exact ⟨ip, mem_singleton_self ip, hinum.trans hm.symm⟩
  -- whenever no entry can be made, the link is taken back
  have hbad : ∀ t, In t {ip} ∅ {n} → Quiet {ip} s t →
      (∀ d name k, goal = some (d, name) → (node d).lookup name = some k →
        ((node d).entry k).inum ≠ d) →
      wp (linkBad ip) (Linked node n goal s) (fun e _ => StopsIff node
        (LinkWaits node (s.kept {ip}) (s.start p new) new goal) e) t := by
    intro t ht' hq hself
    have hclear : ¬LinkWaits node (s.kept {ip}) (s.start p new) new goal := by
      rintro ⟨⟨d, name, k, hg, hlook, hk⟩, _⟩
      exact hself d name k hg hlook hk
    have hnt : (t.icache ip).inum = n :=
      (hq.held (mem_singleton_self _)).trans hn
    refine wp_mono (linkBad_spec ht' hnt (by rw [hq.outstanding]; exact hout)
      (by rw [hq.node_eq, hnode, raised_self]) ht hshort
      (by rw [hq.holders]; exact hlive)) ?_ fun _ _ he => he.stops.of_not hclear
    rintro r _ ⟨hr, u, rfl, hu, hframe, hnode', hbits⟩
    refine ⟨u, rfl, hu, (hq.frame.mono (zero_le _)).trans hframe (le_refl 0),
      .inl ⟨hr, ?_, ?_, hself⟩⟩
    · rw [hnode', hq.node_eq, hnode, update_raised]
    · intro b
      rw [hbits, hq.sb, hq.disk]
  unfold linkNew nameiparent
  rw [wp_bind]
  refine wp_mono (namex_walk true new h (hpin s hn) hcwd) ?_ ?_
  swap
  · intro e _ he
    have hstops : Stops node False e := by
      have hwalk := he.noWalk
      unfold NoWalk at hwalk
      rw [hsound] at hwalk
      exact NoWalk.stops hwalk
    refine hstops.of_not ?_
    rintro ⟨⟨d, name, k, hg, _⟩, hroom⟩
    rcases he with ⟨_, hfull⟩ | ⟨_, _, hnone⟩
    · rw [hpath] at hfull
      exact hfull hroom
    · rw [hgoal, hg] at hnone
      cases hnone
  rintro r s1 ⟨hw, hroom⟩
  rw [hpath] at hroom
  rw [hgoal] at hw
  cases r with
  | none =>
    refine hbad s1 hw.inv hw.quiet ?_
    intro d name k hg
    rw [← hw.found] at hg
    cases hg
  | some found =>
    obtain ⟨dp, name⟩ := found
    have hdir1 : (s.node (s1.icache dp).inum).type = T_DIR := hw.dir rfl (dp, name) rfl
    have hfound : goal = some ((s1.icache dp).inum, name) := hw.found.symm
    simp only [wp_bind]
    refine wp_mono hw.ilock ?_ ?_
    swap
    · rintro e _ ⟨_, h0⟩
      rw [hdir1] at h0
      exact absurd h0 (by decide)
    rintro _ s2 ⟨h2, hqs2, hinum2, _⟩
    have hmem : dp ∈ insert dp (∅ : Finset Ino) := Finset.mem_insert_self dp ∅
    have hn2 : (s2.icache ip).inum = n :=
      (hqs2.held (mem_singleton_self _)).trans hn
    generalize hd : (s1.icache dp).inum = d at *
    have hdn : d ≠ n := by
      rintro rfl
      rw [hnode, type_raised] at hdir1
      exact hfile hdir1
    have hnode2 : s2.node d = node d := by rw [hqs2.node_eq, hnode, raised_of_ne hdn]
    have hdir2 : (s2.node (s2.icache dp).inum).type = T_DIR := by
      rw [hinum2, hqs2.node_eq]
      exact hdir1
    have hdir : (node d).type = T_DIR := by
      rw [← hnode2, ← hinum2]
      exact hdir2
    have hdpip : ip ≠ dp := by
      rintro rfl
      exact hdn (hinum2.symm.trans hn2)
    simp only [wp_get]
    rw [hn2]
    cases hlook : (node d).lookup name with
    | some k =>
      have hpin2 : Pinned s2 (dp ::ₘ {ip}) {n} := by
        intro m hm
        obtain ⟨c, hc, hcm⟩ := hpin s2 hn2 m hm
        exact ⟨c, mem_cons_of_mem hc, hcm⟩
      refine wp_mono (dirlink_found (k := k) h2 hmem hpin2 hdir2
        (by rw [hinum2, hnode2]; exact hlook)) ?_ ?_
      swap
      · rintro e _ (⟨he, hfull⟩ | ⟨he, c, hc, hself⟩)
        · refine (stops_iget he).of_not ?_
          rintro ⟨⟨d', name', k', hg, hlook', hk⟩, _⟩
          rw [hfound] at hg
          cases hg
          rw [hlook] at hlook'
          cases hlook'
          -- the directory itself is in the cache
          refine hfull ⟨dp, .inl ⟨h2.ref_pos (mem_cons_self dp _), ?_⟩⟩
          rw [hinum2, hnode2]
          exact hk.symm
        · rw [Finset.mem_insert] at hc
          rcases hc with rfl | hc
          · rw [hinum2, hnode2] at hself
            exact ⟨.inr (.inr ⟨he, ⟨d, name, k, hfound, hlook, hself.symm⟩, hroom⟩),
              fun _ => he⟩
          · exact absurd hc (Finset.notMem_empty c)
      rintro r s3 ⟨rfl, h3, hq3, hself⟩
      have hn3 : (s3.icache ip).inum = n := by
        rw [hq3.inum ip (by
          have hle : (1 : Nat) ≤ (dp ::ₘ {ip}).count ip := by simp [hdpip]
          omega)]
        exact hn2
      refine wp_post (iunlockput_keep h3 (Finset.notMem_empty dp) (hpin s3 hn3)) ?_
      rintro _ s4 ⟨h4, hq4⟩
      have hqs3 : Quiet {ip} s s3 := hqs2.trans hq3 (le_cons_self _ _)
      rw [if_pos (by decide)]
      refine hbad s4 h4 (hqs3.trans hq4 (le_refl _)) ?_
      intro d' name' k' hg hlook' hself'
      rw [hfound] at hg
      cases hg
      rw [hlook] at hlook'
      cases hlook'
      have hne := hself dp hmem
      rw [hinum2, hnode2] at hne
      exact hne hself'.symm
    | none =>
      have hclear : ¬LinkWaits node (s.kept {ip}) (s.start p new) new goal := by
        rintro ⟨⟨d', name', k, hg, hlook', _⟩, _⟩
        rw [hfound] at hg
        cases hg
        rw [hlook] at hlook'
        cases hlook'
      have hi : s2.sb.IsInum n := by
        rw [hqs2.sb, ← hn]
        apply h.range
        have href := h.refs ip
        rw [count_singleton_self] at href
        omega
      refine wp_mono (dirlink_new h2 hmem (by rw [hqs2.outstanding]; exact hout) hdir2 hi
        (by rw [hinum2, hnode2]; exact hlook)) ?_ fun _ _ he => (NoEntry.stops he).of_not hclear
      rintro r s3 ⟨rfl, h3, hc3⟩
      rw [hinum2, hnode2] at hc3
      have hn3 : (s3.icache ip).inum = n := by
        rw [hc3.inum]
        exact hn2
      have hv3 : (s3.icache ip).valid = true := by
        rw [(upd_entry hc3.state ip).2.2.2]
        exact hqs2.held_valid (mem_singleton_self _) hvalid
      refine wp_post (iunlockput_keep h3 (Finset.notMem_empty dp) (hpin s3 hn3)) ?_
      rintro _ s4 ⟨h4, hq4⟩
      have hn4 : (s4.icache ip).inum = n :=
        (hq4.held (mem_singleton_self _)).trans hn3
      have hv4 := hq4.held_valid (mem_singleton_self _) hv3
      have hframe4 : Frame 0 s s4 :=
        ((hqs2.frame.mono (zero_le _)).trans (hc3.frame 0) (le_refl 0)).trans
          (hq4.frame.mono (zero_le _)) (le_refl 0)
      have hnode4 : s4.node = linked node n d name := by
        rw [hq4.node_eq, hc3.node_eq, hinum2, hqs2.node_eq, hnode]
        rfl
      rw [if_neg (by decide), wp_bind]
      refine wp_mono (iput_last (Y := ∅) h4 (Finset.notMem_empty ip) hn4
        (by rw [hframe4.outstanding]; exact hout) (by simp) (fun _ _ => hv4) ?_) ?_
        fun _ _ he => he.stops.of_not hclear
      · intro m hm _
        exact Finset.notMem_singleton.mpr hm
      rintro _ s5 ⟨h5, hend⟩
      unfold endDone
      simp only [wp_bind, wp_endOp, wp_pure]
      rcases hend with ⟨hq5, _⟩ | ⟨hf, ht4, hl4, _⟩
      · refine ⟨s5, rfl, h5, hframe4.trans hq5.frame (le_refl 0), .inr ⟨rfl, d, name, hfound,
          hdir, hlook, ?_⟩⟩
        rw [hq5.node_eq, hnode4]
        exact Relation.ReflTransGen.refl
      refine ⟨s5, rfl, h5, hframe4.trans hf.frame (le_refl 0), .inr ⟨rfl, d, name, hfound,
        hdir, hlook, ?_⟩⟩
      apply Relation.ReflTransGen.single
      refine ⟨n, ?_, ?_, ?_⟩
      · rw [← hnode4]
        exact ht4
      · rw [← hnode4]
        exact hl4
      · rw [← hnode4]
        exact hf.node

theorem linkStr_spec {old new : Str} (h : In s 0 ∅ ∅) (hcwd : (s.proc p).cwd = some b) :
    wp (linkStr p old new)
      (fun r s' => ¬s.LinksOntoSelf p old new ∧ Ended s (fun t =>
        r = -1 ∧ Still 0 s.begun t ∨
        r = 0 ∧ ∃ i d name, s.linkTarget p old new = some (i, d, name) ∧
          (s.node i).type ≠ 0 ∧ (s.node i).type ≠ T_DIR ∧ (s.node d).type = T_DIR ∧
          (s.node d).lookup name = none ∧ Frees (linked s.node i d name) t.node) s')
      (fun e _ => StopsIff s.node (s.LinksOntoSelf p old new ∧ s.LinkRoom p old new) e) s := by
  have hnone : s.linkTarget p old new = none → ¬s.LinksOntoSelf p old new := by
    rintro hnone ⟨i, d, name, k, htarget, _⟩
    rw [hnone] at htarget
    cases htarget
  unfold linkStr namei
  rw [wp_bind, wp_beginOp, wp_bind]
  refine wp_mono (namex_walk false old h.begun (pinned_empty _ 0) hcwd) ?_ ?_
  swap
  · intro e _ he
    refine (NoWalk.stops he.noWalk).of_not ?_
    rintro ⟨hself, hroom⟩
    rcases he with ⟨_, hfull⟩ | ⟨_, _, hgoal⟩
    · obtain ⟨i, d, name, k, htg, _⟩ := hself
      exact hfull (hroom i d name htg).1
    · change s.resolve p false old = none at hgoal
      refine hnone ?_ hself
      unfold State.linkTarget
      rw [hgoal]
  rintro r s1 ⟨hw, hroom1⟩
  have hq1 := hw.quiet
  cases r with
  | none =>
    have hold : s.resolve p false old = none := hw.found.symm
    simp only [wp_endFail]
    refine ⟨hnone ?_, s1, rfl, hw.inv, hq1.frame, .inl ⟨trivial, hq1.still⟩⟩
    unfold State.linkTarget
    rw [hold]
  | some found =>
    obtain ⟨ip, x⟩ := found
    have hold : s.resolve p false old = some ((s1.icache ip).inum, x) := hw.found.symm
    simp only [wp_bind]
    -- the target is the inode that has been found
    have htarget' : ∀ i d name, s.linkTarget p old new = some (i, d, name) →
        i = (s1.icache ip).inum ∧
          resolve s.node true (new.length + 1) (s.start p new) new = some (d, name) := by
      intro i d name hgoal
      unfold State.linkTarget at hgoal
      rw [hold] at hgoal
      simp only at hgoal
      split at hgoal
      · cases hgoal
      change (match resolve s.node true (new.length + 1) (s.start p new) new with
        | none => none
        | some (d, name) => some ((s1.icache ip).inum, d, name)) = some (i, d, name) at hgoal
      cases hr : resolve s.node true (new.length + 1) (s.start p new) new with
      | none =>
        rw [hr] at hgoal
        cases hgoal
      | some x =>
        rw [hr] at hgoal
        cases hgoal
        exact ⟨rfl, rfl⟩
    refine wp_mono hw.ilock ?_ ?_
    swap
    · rintro e _ ⟨he, h0⟩
      refine (NoWalk.stops he).of_not ?_
      rintro ⟨⟨i, d, name, k, htg, _⟩, hroom⟩
      have htype := (hroom i d name htg).2.1
      rw [(htarget' i d name htg).1] at htype
      exact htype h0
    rintro _ s2 ⟨h2, hq, hinum2, ht2⟩
    generalize (s1.icache ip).inum = n at *
    have hmem : ip ∈ insert ip (∅ : Finset Ino) := Finset.mem_insert_self ip ∅
    have hd2 := h2.locked_dinode hmem
    have hlock2 := h2.locked ip hmem
    have hnode2 : s2.node = s.node := hq.node_eq
    simp only [wp_get, wp_ite]
    rw [hd2.1, ← State.node_type, hinum2, hnode2]
    by_cases hdir : (s.node n).type = T_DIR
    · rw [if_pos hdir]
      unfold putFail endFail
      simp only [wp_bind, wp_endOp, wp_pure]
      refine wp_post (iunlockput_keep h2 (Finset.notMem_empty ip) (pinned_empty s2 0)) ?_
      rintro _ s3 ⟨h3, hq3⟩
      have hq0 := hq.trans hq3 (le_refl 0)
      refine ⟨hnone ?_, s3, rfl, h3, hq0.frame, .inl ⟨trivial, hq0.still⟩⟩
      unfold State.linkTarget
      rw [hold]
      simp only
      rw [if_pos hdir]
    rw [if_neg hdir, wp_bind]
    have hlive : (s.node n).nlink = 0 → 0 < s2.holders ip := by
      intro hl
      rw [← hnode2] at hl
      exact h2.live_locked hmem hinum2 (Finset.notMem_empty n) hl
    have hshort : IsShort (s.node n).nlink := (fits_inodeAt n).nlink
    have hlog : (s2.logged.length < s2.logCap) = (s.logged.length < s.logCap) := by
      rw [hq.state]
      rfl
    have hout2 : 0 < s2.outstanding := by
      rw [hq.outstanding]
      exact Nat.succ_pos _
    refine wp_mono (wp_and (addNlink_spec (n := 1) (Y := {n}) h2 hmem hout2 ?_ ?_)
      (updateInode_room hout2)) ?_ ?_
    · intro hnot
      rw [hinum2] at hnot
      exact absurd (Finset.mem_singleton_self n) hnot
    · intro m _ _
      exact Finset.notMem_empty m
    rotate_left
    · rintro e _ ⟨he, hfull⟩
      refine he.stops.of_not ?_
      rintro ⟨⟨i, d, name, k, htg, _⟩, hroom⟩
      rw [hlog] at hfull
      exact hfull (hroom i d name htg).2.2.1
    rintro _ s3 ⟨⟨h3, hc3, hbits3⟩, hfits⟩
    rw [hlog] at hfits
    have hn3 : (s3.icache ip).inum = n := by
      rw [hc3.inum]
      exact hinum2
    have hv3 : (s3.icache ip).valid = true := by
      rw [(upd_entry hc3.state ip).2.2.2]
      exact hlock2.2
    refine wp_seq (iunlock_spec h3 (Finset.notMem_empty ip)) ?_
    rintro _ s4 ⟨h4, hq4, hinum4⟩
    have hframe : Frame 0 s.begun s4 :=
      (hq.frame.trans (hc3.frame 0) (le_refl 0)).trans (hq4.frame.mono (zero_le _))
        (le_refl 0)
    have hnode4 : s4.node = raised s.node n := by
      rw [hq4.node_eq, hc3.node_eq, hinum2, hnode2]
      rfl
    have hv4 := hq4.held_valid (mem_singleton_self _) hv3
    have hspec : wp (linkNew p ip new) _ _ s4 := linkNew_spec h4 (hinum4.trans hn3) hv4
      (by rw [hframe.outstanding]; exact Nat.succ_pos _) (hframe.cwd hcwd) hnode4 ht2 hdir hshort
      (by rw [hq4.holders, (hc3.frame 0).holders]; exact hlive)
    rw [hframe.start] at hspec
    have htarget : ∀ d name, resolve s.node true (new.length + 1) (s.start p new) new =
        some (d, name) → s.linkTarget p old new = some (n, d, name) := by
      intro d name hgoal
      unfold State.linkTarget State.resolve at *
      rw [hold]
      simp only
      rw [if_neg hdir, hgoal]
    refine wp_mono hspec ?_ ?_
    · rintro r s' ⟨t, rfl, ht, hft, hend⟩
      have hframe' := hframe.trans hft (le_refl 0)
      rcases hend with ⟨rfl, hnode', hbits', hself⟩ | ⟨rfl, d, name, hgoal, hdird, hlook, hfrees⟩
      · refine ⟨?_, t, rfl, ht, hframe', .inl ⟨rfl, hframe', hnode', ?_⟩⟩
        · rintro ⟨i, d, name, k, htg, hlook, hk⟩
          exact hself d name k (htarget' i d name htg).2 hlook hk
        · intro c
          rw [hbits', hq4.sb, hq4.disk, hbits3, hq.sb, hq.disk]
      refine ⟨?_, t, rfl, ht, hframe', .inr ⟨rfl, n, d, name, htarget d name hgoal, ht2, hdir,
        hdird, hlook, hfrees⟩⟩
      rintro ⟨i, d', name', k, htg, hlook', _⟩
      have hsame := (htarget' i d' name' htg).2
      change resolve s.node true (new.length + 1) (s.start p new) new = some (d, name) at hgoal
      rw [hgoal] at hsame
      cases hsame
      rw [hlook] at hlook'
      cases hlook'
    · have hkept : s4.kept {ip} = insert n (s.kept 0) := by
        rw [← cons_zero, State.kept_cons, hinum4.trans hn3, hframe.kept]
        rfl
      have hiff : LinkWaits s.node (s4.kept {ip}) (s.begun.start p new) new
          (resolve s.node true (new.length + 1) (s.begun.start p new) new) ↔
          s.LinksOntoSelf p old new ∧ s.LinkRoom p old new := by
        rw [hkept]
        constructor
        · rintro ⟨⟨d, name, k, hgoal, hlook, hself⟩, hroom⟩
          refine ⟨⟨n, d, name, k, htarget d name hgoal, hlook, hself⟩, ?_⟩
          intro i d' name' htg
          rw [(htarget' i d' name' htg).1]
          exact ⟨hroom1, ht2, hfits, hroom⟩
        · rintro ⟨⟨i, d, name, k, htg, hlook, hself⟩, hroom⟩
          obtain ⟨rfl, hgoal⟩ := htarget' i d name htg
          exact ⟨⟨d, name, k, hgoal, hlook, hself⟩, (hroom i d name htg).2.2.2⟩
      intro e t he
      rw [hiff] at he
      exact he

end Xv6.Fs
