import Xv6.Fs.Files

/-!
# Specifications of the system calls

Every call that returns leaves the invariant of the inode cache as it found it,
with nothing taken and nothing locked, and changes the table of files in one of
the ways of `Effect`.
-/

namespace Xv6.Fs

open Lib Lib.Prog Log Ptable Function Finset

variable {s s' t : State} {a b : Ino} {i : Fin NFILE} {p np : Slot} {omode off n : Nat} {path : Str}
variable {R : Multiset Ino} {L : Finset Ino} {X : Finset Nat} {node' : Nat → Node} {fd : Fin NOFILE}
variable {E : Stop → State → Prop} {src : List UInt8}

structure Returned (s s' : State) : Prop where
  inv : In s' 0 ∅ ∅
  outstanding : s'.outstanding = s.outstanding
  effect : Effect s.node s'.node

/-- Nothing that a process can see has changed. -/
structure Unchanged (s s' : State) : Prop where
  node : s'.node = s.node
  bits : ∀ b, bitAt s'.sb s'.disk b = bitAt s.sb s.disk b
  file : s'.file = s.file
  proc : s'.proc = s.proc
  inum : ∀ a, 0 < s.holders a → (s'.icache a).inum = (s.icache a).inum

theorem unchanged_ended (h : Still 0 s.begun t) :
    Unchanged s t.ended where
  node := h.node
  bits := h.bits
  file := h.frame.file
  proc := h.frame.proc
  inum := fun a ha => h.frame.inum a (Nat.add_pos_left ha _)

theorem returned_ended (h : In t 0 ∅ ∅) (hf : Frame 0 s.begun t) (he : Effect s.node t.node) :
    Returned s t.ended where
  inv := h.ended
  outstanding := by
    change t.outstanding - 1 = s.outstanding
    rw [hf.outstanding]
    exact Nat.add_sub_cancel _ _
  effect := he

theorem effect_of_eq {node : Nat → Node} (h : node' = node) : Effect node node' := by
  rw [h]
  exact .frees Relation.ReflTransGen.refl

theorem returned_still (h : In t 0 ∅ ∅) (hs : Still 0 s.begun t) : Returned s t.ended :=
  returned_ended h hs.frame (effect_of_eq hs.node)

structure Closing (p : Slot) (s t : State) : Prop where
  inv : In t 0 ∅ ∅
  outstanding : t.outstanding = s.outstanding
  cwd : (t.proc p).cwd = (s.proc p).cwd
  frees : Frees s.node t.node

theorem exitFd_spec (h : Closing p s t) :
    wp (exitFd p fd) (fun _ => Closing p s) (fun e _ => e.expected = true) t := by
  unfold exitFd setProc
  rw [wp_bind, wp_get]
  cases hfd : (t.proc p).ofile fd with
  | none => exact h
  | some i =>
    simp only [wp_bind, wp_modify]
    refine wp_post (fileclose_spec h.inv) ?_
    rintro _ u ⟨hu, hproc, hout, hfrees⟩
    refine ⟨?_, ?_, ?_, ?_⟩
    · exact hu.putProc_same
        (q := { u.proc p with ofile := update (u.proc p).ofile fd none }) rfl
    · exact hout.trans h.outstanding
    · simp only [update_self]
      rw [hproc]
      exact h.cwd
    · exact h.frees.trans hfrees

theorem commutes_iputOp (p : Slot) (g : Proc → Proc) (e : Ino) :
    Commutes (State.editProc p g) (iputOp e) := by
  have hbegin : Commutes (State.editProc p g) beginOp := Commutes.modify fun _ => rfl
  have hend : Commutes (State.editProc p g) endOp := Commutes.modify fun _ => rfl
  exact hbegin.bind fun _ => (commutes_iput p g e).bind fun _ => hend

theorem exit_spec (h : In s 0 ∅ ∅) (hcwd : (s.proc p).cwd = some b) :
    wp (exit p) (fun _ s' => Returned s s') (fun e _ => e.expected = true) s := by
  unfold exit
  rw [wp_ite]
  by_cases hp : p = 0
  · rw [if_pos hp]
    exact rfl
  rw [if_neg hp, wp_bind]
  have hstart : Closing p s s := ⟨h, rfl, rfl, Relation.ReflTransGen.refl⟩
  refine wp_post (wp_forEach (fun fd _ t ht => exitFd_spec ht) hstart) ?_
  intro _ t ht
  have hcwd' : (t.proc p).cwd = some b := ht.cwd.trans hcwd
  have hheld := State.holders_of_cwd hcwd'
  unfold cwdOf setProc
  simp only [wp_bind, wp_get, hcwd', wp_pure, wp_modify]
  -- the process may as well give up its directory first
  have hmoved : In (t.editProc p fun q => { q with cwd := none }) {b} ∅ {(t.icache b).inum} :=
    In.chdir (c := none) ht.inv hcwd' rfl rfl (by
      intro c hc
      cases hc)
  have hput := wp_of_commutes (commutes_iputOp p (fun q => { q with cwd := none }) b)
    (iputOp_spec hmoved rfl fun hty hl => ht.inv.valid_of_held hheld rfl (notMem_empty _) hty hl)
  refine wp_post hput ?_
  rintro _ u ⟨hu, _, _, hout, hfrees⟩
  exact ⟨hu, hout.trans ht.outstanding, .frees (ht.frees.trans hfrees)⟩

theorem filedup_spec (h : In s 0 ∅ ∅) :
    wp (filedup i)
      (fun _ s' => In s' 0 ∅ ∅ ∧ s'.proc = s.proc ∧ s'.outstanding = s.outstanding ∧
        s'.node = s.node)
      (fun e _ => e.expected = true) s := by
  unfold filedup setFile
  rw [wp_bind, wp_get, wp_ite]
  by_cases hzero : (s.file i).ref < 1
  · rw [if_pos hzero]
    exact rfl
  · rw [if_neg hzero]
    refine ⟨?_, rfl, rfl, rfl⟩
    exact h.putFile_same (f := { s.file i with ref := (s.file i).ref + 1 }) rfl (Nat.succ_pos _) rfl

structure Forking (p np : Slot) (b : Ino) (s t : State) : Prop where
  inv : In t 0 ∅ ∅
  outstanding : t.outstanding = s.outstanding
  node : t.node = s.node
  cwd : (t.proc p).cwd = some b
  child : (t.proc np).cwd = none

theorem forkFd_spec (hne : p ≠ np) (h : Forking p np b s t) :
    wp (forkFd p np fd) (fun _ => Forking p np b s) (fun e _ => e.expected = true) t := by
  unfold forkFd setProc
  rw [wp_bind, wp_get]
  cases hfd : (t.proc p).ofile fd with
  | none => exact h
  | some i =>
    simp only [wp_bind, wp_modify]
    refine wp_post (filedup_spec h.inv) ?_
    rintro _ u ⟨hu, hproc, hout, hnode⟩
    refine ⟨?_, hout.trans h.outstanding, ?_, ?_, ?_⟩
    · exact hu.putProc_same
        (q := { u.proc np with ofile := update (u.proc np).ofile fd (some i) }) rfl
    · exact hnode.trans h.node
    · simp only [update_of_ne hne]
      rw [hproc]
      exact h.cwd
    · simp only [update_self]
      rw [hproc]
      exact h.child

theorem fork_spec (h : In s 0 ∅ ∅) (hcwd : (s.proc p).cwd = some b)
    (hchild : (s.proc np).cwd = none) :
    wp (fork p np) (fun _ s' => Returned s s') (fun e _ => e.expected = true) s := by
  have hne : p ≠ np := by
    rintro rfl
    rw [hcwd] at hchild
    cases hchild
  unfold fork
  rw [wp_bind]
  have hstart : Forking p np b s s := ⟨h, rfl, rfl, hcwd, hchild⟩
  refine wp_post (wp_forEach (fun fd _ t ht => forkFd_spec hne ht) hstart) ?_
  intro _ t ht
  have hheld := State.holders_of_cwd ht.cwd
  unfold cwdOf setProc
  simp only [wp_bind, wp_get, ht.cwd, wp_pure, wp_modify]
  refine wp_post (idup_spec ht.inv (ht.inv.ref_of_holders hheld)) ?_
  rintro c u ⟨rfl, hu, hq, hinum⟩
  refine ⟨?_, hq.outstanding.trans ht.outstanding, effect_of_eq (hq.node_eq.trans ht.node)⟩
  have hchild' : (u.proc np).cwd = none := by
    rw [hq.proc]
    exact ht.child
  refine hu.putProc (S := 0) (q := { u.proc np with cwd := some c }) ?_ ?_ ?_ ?_
  · intro a
    rw [hchild']
    by_cases hca : c = a
    · subst hca
      simp
    · simp [hca, Ne.symm hca]
  · intro a ha
    simp only [Option.some.injEq] at ha
    subst ha
    rw [hinum, hq.ino]
    exact ht.inv.alloc c hheld
  · exact Finset.Subset.refl _
  · intro a ha
    rw [hchild'] at ha
    cases ha

theorem dupFile_spec (h : In s 0 ∅ ∅) :
    wp (dupFile p i) (fun _ s' => Returned s s') (fun e _ => e.expected = true) s := by
  unfold dupFile fdalloc setProc
  simp only [wp_bind, wp_get]
  cases hfd : (List.finRange NOFILE).find? fun fd => decide ((s.proc p).ofile fd = none) with
  | none => exact ⟨h, rfl, effect_of_eq rfl⟩
  | some fd =>
    simp only [wp_bind, wp_modify, wp_pure]
    have hput := h.putProc_same (p := p)
      (q := { s.proc p with ofile := update (s.proc p).ofile fd (some i) }) rfl
    refine wp_post (filedup_spec hput) ?_
    rintro _ t ⟨ht, _, hout, hnode⟩
    exact ⟨ht, hout, effect_of_eq hnode⟩

theorem closeFile_spec (h : In s 0 ∅ ∅) :
    wp (closeFile p fd i) (fun _ s' => Returned s s') (fun e _ => e.expected = true) s := by
  unfold closeFile setProc
  simp only [wp_bind, wp_modify, wp_pure]
  have hput := h.putProc_same (p := p)
    (q := { s.proc p with ofile := update (s.proc p).ofile fd none }) rfl
  refine wp_post (fileclose_spec hput) ?_
  rintro _ t ⟨ht, _, hout, hfrees⟩
  exact ⟨ht, hout, .frees hfrees⟩

theorem chdirTo_spec (h : In s {a} ∅ ∅) (hout : 0 < s.outstanding) (hcwd : (s.proc p).cwd = some b)
    (halloc : ¬Sound s.node ∨ (s.node (s.icache a).inum).type ≠ 0) :
    wp (chdirTo p a)
      (fun r s' => r = -1 ∧ (∃ t, s' = t.ended ∧ In t 0 ∅ ∅ ∧ Still 0 s t) ∨
        r = 0 ∧ In s' 0 ∅ ∅ ∧ s'.outstanding = s.outstanding - 1 ∧ Frees s.node s'.node)
      (fun e _ => Stops s.node False e) s := by
  have hpos : 0 < (s.icache a).ref := h.ref_pos (Multiset.mem_singleton_self _)
  have h' : In s (a ::ₘ 0) ∅ ∅ := h
  unfold chdirTo
  rw [wp_bind]
  refine wp_mono (ilock_spec h' hpos (notMem_empty a)) ?_ ?_
  swap
  · rintro e _ ⟨he, ht⟩
    exact .inr (.inl ⟨he, halloc.resolve_right fun hne => hne ht⟩)
  rintro _ s1 ⟨h1, hq1, hinum1, ht1⟩
  have hmem : a ∈ insert a (∅ : Finset Ino) := mem_insert_self a ∅
  rw [wp_bind, wp_get, (h1.locked_dinode hmem).1, wp_ite]
  by_cases hdir : (s1.ino (s1.icache a).inum).type ≠ T_DIR
  · rw [if_pos hdir]
    unfold putFail endFail
    simp only [wp_bind, wp_endOp, wp_pure]
    refine wp_post (iunlockput_keep h1 (notMem_empty a) (pinned_empty s1 0)) ?_
    rintro _ s2 ⟨h2, hq2⟩
    have hq := (hq1.mono (Multiset.zero_le _)).trans hq2 (le_refl 0)
    exact .inl ⟨trivial, s2, rfl, h2, hq.still⟩
  rw [if_neg hdir]
  refine wp_seq (iunlock_spec h1 (notMem_empty a)) ?_
  rintro _ s2 ⟨h2, hq2, hinum2⟩
  have hq : Quiet {a} s s2 := hq1.trans hq2 (le_refl _)
  have hcwd2 : (s2.proc p).cwd = some b := by
    rw [hq.proc]
    exact hcwd
  have hheld := State.holders_of_cwd hcwd2
  unfold cwdOf setProc
  simp only [wp_bind, wp_get, hcwd2, wp_pure, wp_modify, wp_endOp]
  have hmoved : In (s2.editProc p fun q => { q with cwd := some a }) {b} ∅ {(s2.icache b).inum} :=
    In.chdir (c := some a) h2 hcwd2 rfl rfl (by
      rintro c ⟨⟩
      rw [hinum2, hinum1, hq.ino]
      exact ht1)
  have hput := wp_of_commutes (commutes_iput p (fun q => { q with cwd := some a }) b)
    (iput_last (Y := ∅) hmoved (notMem_empty b) rfl
      (by change 0 < s2.outstanding; rw [hq.outstanding]; exact hout) (Multiset.count_zero b)
      (fun hty hl => h2.valid_of_held hheld rfl (notMem_empty _) hty hl)
      (fun m hm _ => notMem_singleton.mpr hm))
  refine wp_mono hput ?_ fun _ _ he => he.stops
  rintro _ t ⟨ht, hend⟩
  refine .inr ⟨trivial, ht.ended, ?_, ?_⟩
  · change t.outstanding - 1 = s.outstanding - 1
    have hout' : t.outstanding = s2.outstanding := by
      rcases hend with ⟨hq', _⟩ | ⟨hf, _⟩
      · exact hq'.outstanding
      · exact hf.frame.outstanding
    rw [hout', hq.outstanding]
  change Frees s.node t.node
  rcases hend with ⟨hq', _⟩ | ⟨hf, hty, hl, _⟩
  · have hnode : t.node = s2.node := hq'.node_eq
    rw [hnode, hq.node_eq]
    exact Relation.ReflTransGen.refl
  · have hnode := hf.node
    have hsame : (s2.editProc p fun q => { q with cwd := some a }).node = s.node := hq.node_eq
    rw [hsame] at hnode hty hl
    exact Relation.ReflTransGen.single ⟨_, hty, hl, hnode⟩

theorem sysChdir_spec {path : Option Str} (h : In s 0 ∅ ∅) (hcwd : (s.proc p).cwd = some b) :
    wp (sysChdir p path) (fun r s' => Returned s s' ∧ (r = -1 → Unchanged s s'))
      (fun e _ => Stops s.node False e) s := by
  unfold sysChdir
  rw [wp_bind, wp_beginOp]
  cases path with
  | none =>
    simp only [wp_endFail]
    have hs : Still 0 s.begun s.begun := (Quiet.refl 0 s.begun).still
    exact ⟨returned_still h.begun hs, fun _ => unchanged_ended hs⟩
  | some path =>
    unfold namei
    rw [wp_bind]
    refine wp_mono (namex_spec false path h.begun (pinned_empty _ 0) hcwd) ?_
      fun _ _ he => NoWalk.stops he
    intro r s1 hw
    have hq1 := hw.quiet
    cases r with
    | none =>
      simp only [wp_endFail]
      exact ⟨returned_still hw.inv hq1.still, fun _ => unchanged_ended hq1.still⟩
    | some found =>
      obtain ⟨a, x⟩ := found
      have h1 : In s1 {a} ∅ ∅ := hw.inv
      have halloc : ¬Sound s1.node ∨ (s1.node (s1.icache a).inum).type ≠ 0 := by
        by_cases hs : Sound s1.node
        · right
          rw [hq1.node_eq] at hs ⊢
          exact hw.alloc hs (a, x) rfl
        · exact .inl hs
      have hspec := chdirTo_spec h1 (by rw [hq1.outstanding]; exact Nat.succ_pos _)
        (hq1.frame.cwd hcwd) halloc
      rw [hq1.node_eq, hq1.outstanding] at hspec
      refine wp_post hspec ?_
      rintro r s' (⟨rfl, t, rfl, ht, hstill⟩ | ⟨rfl, ht, hout, hfrees⟩)
      · have hs := hq1.still.trans hstill (le_refl 0)
        exact ⟨returned_still ht hs, fun _ => unchanged_ended hs⟩
      · refine ⟨⟨ht, ?_, .frees hfrees⟩, ?_⟩
        · rw [hout]
          exact Nat.add_sub_cancel _ _
        · intro h10
          omega

theorem putFail_spec (h : In s {a} {a} ∅) :
    wp (putFail a) (fun r s' => r = -1 ∧ ∃ t, s' = t.ended ∧ In t 0 ∅ ∅ ∧ Still 0 s t) E s := by
  have h' : In s (a ::ₘ 0) (insert a ∅) ∅ := h
  unfold putFail endFail
  simp only [wp_bind, wp_endOp, wp_pure]
  refine wp_post (iunlockput_keep h' (notMem_empty a) (pinned_empty s 0)) ?_
  rintro _ t ⟨ht, hq⟩
  exact ⟨trivial, t, rfl, ht, hq.still⟩

theorem fileclose_fresh (href : (s.file i).ref = 0) (hip : (s.file i).ip = none) :
    wp (fileclose i) (fun _ s' => s' = s) E (s.putFile i { s.file i with ref := 1 }) := by
  cases hf : s.file i with
  | mk ref ip readable writable off =>
    rw [hf] at href hip
    simp only at href hip
    subst href hip
    have hfile : (s.putFile i ⟨1, none, readable, writable, off⟩).file i =
        ⟨1, none, readable, writable, off⟩ := update_self i _ s.file
    have hback : (s.putFile i ⟨1, none, readable, writable, off⟩).putFile i
        ⟨0, none, readable, writable, off⟩ = s := by
      unfold State.putFile
      simp only [update_idem]
      rw [← hf, update_eq_self]
    simp only
    unfold fileclose setFile
    rw [wp_bind, wp_get, hfile]
    simp only [Nat.lt_irrefl, if_false]
    rw [wp_bind, wp_modify, wp_pure]
    simp only [hfile]
    exact hback

theorem openDone_spec (h : In s {a} {a} ∅) (hip : (s.file i).ip = none) (href : 0 < (s.file i).ref)
    (hdir : (s.node (s.icache a).inum).type = T_DIR → omode = 0) :
    wp (openDone a i fd omode)
      (fun r s' => r ≠ -1 ∧ In s' 0 ∅ ∅ ∧ s'.outstanding = s.outstanding - 1 ∧ s'.node = s.node)
      E s := by
  have h' : In s {a} (insert a ∅) ∅ := h
  have ht := (h.locked_dinode (mem_singleton_self a)).2
  unfold openDone setFile
  refine wp_seq (iunlock_spec h' (notMem_empty a)) ?_
  rintro _ s1 ⟨h1, hq1, hinum1⟩
  rw [wp_bind, wp_endOp, wp_bind, wp_modify, wp_pure]
  have hfile : s1.ended.file i = s.file i := by
    change s1.file i = s.file i
    rw [hq1.file]
  refine ⟨by omega, ?_, ?_, hq1.node_eq⟩
  · refine h1.ended.putFile (S := 0) ?_ ?_ ?_ ?_ ?_
    · intro c
      rw [hfile, hip]
      by_cases hac : a = c
      · subst hac
        simp
      · simp [hac, Ne.symm hac]
    · intro c hc
      simp only [Option.some.injEq] at hc
      subst hc
      change (s1.ino (s1.icache a).inum).type ≠ 0
      rw [hinum1, hq1.ino]
      exact ht
    · exact Finset.Subset.refl _
    · intro c hc
      rw [hfile, hip] at hc
      cases hc
    intro c hc
    simp only [Option.some.injEq] at hc
    subst hc
    refine ⟨by simp only [hfile]; exact href, ?_⟩
    intro hw hd
    change (s1.node (s1.icache a).inum).type = T_DIR at hd
    rw [hinum1, hq1.node] at hd
    rw [hdir hd] at hw
    have hzero : decide (0 &&& O_WRONLY ≠ 0 ∨ 0 &&& O_RDWR ≠ 0) = true := hw
    exact absurd hzero (by decide)
  · change s1.outstanding - 1 = s.outstanding - 1
    rw [hq1.outstanding]

theorem openFile_spec (h : In s {a} {a} ∅)
    (hdir : (s.node (s.icache a).inum).type = T_DIR → omode = 0) :
    wp (openFile p a omode)
      (fun r s' => r = -1 ∧ (∃ t, s' = t.ended ∧ In t 0 ∅ ∅ ∧ Still 0 s t) ∨
        r ≠ -1 ∧ In s' 0 ∅ ∅ ∧ s'.outstanding = s.outstanding - 1 ∧ s'.node = s.node)
      E s := by
  unfold openFile filealloc setFile
  simp only [wp_bind, wp_get]
  cases hslot : (List.finRange NFILE).find? fun i => decide ((s.file i).ref = 0) with
  | none =>
    simp only [wp_pure]
    exact wp_post (putFail_spec h) fun _ _ hp => .inl hp
  | some i =>
    have href : (s.file i).ref = 0 := by simpa using List.find?_some hslot
    have hip : (s.file i).ip = none := by
      cases hip : (s.file i).ip with
      | none => rfl
      | some c =>
        have hpos := (h.files i c hip).1
        omega
    simp only [wp_bind, wp_modify, wp_pure]
    change wp (fdalloc p i) _ E (s.putFile i { s.file i with ref := 1 })
    have h1 : In (s.putFile i { s.file i with ref := 1 }) {a} {a} ∅ :=
      h.putFile_same rfl (Nat.succ_pos 0) rfl
    have hfile : (s.putFile i { s.file i with ref := 1 }).file i = { s.file i with ref := 1 } :=
      update_self i _ s.file
    unfold fdalloc setProc
    rw [wp_bind, wp_get]
    cases hfd : (List.finRange NOFILE).find? fun fd => decide
        (((s.putFile i { s.file i with ref := 1 }).proc p).ofile fd = none) with
    | none =>
      simp only [wp_pure]
      refine wp_seq (fileclose_fresh href hip) ?_
      rintro _ s rfl
      exact wp_post (putFail_spec h) fun _ _ hp => .inl hp
    | some fd =>
      simp only [wp_bind, wp_modify, wp_pure]
      have h2 := h1.putProc_same (p := p)
        (q := { (s.putFile i { s.file i with ref := 1 }).proc p with
          ofile := update ((s.putFile i { s.file i with ref := 1 }).proc p).ofile fd
            (some i) }) rfl
      refine wp_post (openDone_spec h2 ?_ ?_ hdir) ?_
      · change ((s.putFile i { s.file i with ref := 1 }).file i).ip = none
        rw [hfile]
        exact hip
      · change 0 < ((s.putFile i { s.file i with ref := 1 }).file i).ref
        rw [hfile]
        exact Nat.succ_pos 0
      · intro r s' hr
        exact .inr hr

theorem openInode_spec (h : In s 0 ∅ ∅) (hout : 0 < s.outstanding)
    (hcwd : (s.proc p).cwd = some b) :
    wp (openInode p path omode)
      (fun r s' => match r with
        | none => In s' 0 ∅ ∅ ∧ Still 0 s s' ∧ ¬(omode &&& O_CREATE ≠ 0 ∧ s.Missing p path)
        | some a => In s' {a} {a} ∅ ∧ Frame 0 s s' ∧
            ((s'.node (s'.icache a).inum).type = T_DIR → omode = 0) ∧
            (Still 0 s s' ∧ ¬(omode &&& O_CREATE ≠ 0 ∧ s.Missing p path) ∨
              omode &&& O_CREATE ≠ 0 ∧ s.Missing p path ∧ Effect s.node s'.node ∧ s'.node ≠ s.node))
      (fun e _ => Stops s.node False e) s := by
  unfold openInode
  rw [wp_ite]
  by_cases hcreate : omode &&& O_CREATE ≠ 0
  · rw [if_pos hcreate]
    refine wp_post (create_spec (D := False) (.inr (.inl rfl)) h hout hcwd) ?_
    intro r s' hr
    cases r with
    | none =>
      obtain ⟨h', hs, hthere⟩ := hr
      exact ⟨h', hs, fun hm => hthere hm.2⟩
    | some a =>
      obtain ⟨h', hf, ht, hend⟩ := hr
      refine ⟨h', hf, ?_, ?_⟩
      · intro hdir
        rw [ht] at hdir
        exact absurd hdir (by decide)
      rcases hend with ⟨hs, _, hthere⟩ | ⟨d, n, name, hres, hdir, hlook, hn, hfree, hn0, hfrees⟩
      · exact .inl ⟨hs, fun hm => hthere hm.2⟩
      · refine .inr ⟨hcreate, ⟨d, name, hres, hlook⟩,
          .create (.inr (.inl rfl)) hdir hlook hfree hn0 hfrees, ?_⟩
        intro heq
        rw [hn, heq, hfree] at ht
        exact absurd ht (by decide)
  rw [if_neg hcreate]
  unfold namei
  rw [wp_bind]
  refine wp_mono (namex_spec false path h (pinned_empty _ 0) hcwd) ?_ fun _ _ he => NoWalk.stops he
  intro r s1 hw
  have hq1 := hw.quiet
  cases r with
  | none => exact ⟨hw.inv, hq1.still, fun hm => hcreate hm.1⟩
  | some found =>
    obtain ⟨a, x⟩ := found
    simp only [wp_bind]
    refine wp_mono hw.ilock ?_ fun _ _ he => NoWalk.stops he.1
    rintro _ s2 ⟨h2, hq, _, _⟩
    have hmem : a ∈ insert a (∅ : Finset Ino) := mem_insert_self a ∅
    rw [wp_get, (h2.locked_dinode hmem).1, ← State.node_type, wp_ite]
    by_cases hbad : (s2.node (s2.icache a).inum).type = T_DIR ∧ omode ≠ 0
    · rw [if_pos hbad]
      refine wp_seq (iunlockput_keep h2 (notMem_empty a) (pinned_empty _ _)) ?_
      rintro _ s3 ⟨h3, hq3⟩
      exact ⟨h3, (hq.trans hq3 (le_refl 0)).still, fun hm => hcreate hm.1⟩
    · rw [if_neg hbad]
      refine ⟨h2, hq.frame, ?_, .inl ⟨hq.still, fun hm => hcreate hm.1⟩⟩
      intro hdir
      by_contra h0
      exact hbad ⟨hdir, h0⟩

theorem openStr_spec (h : In s 0 ∅ ∅) (hcwd : (s.proc p).cwd = some b) :
    wp (openStr p path omode)
      (fun r s' => Returned s s' ∧ (r = -1 →
        (Unchanged s s' ↔ ¬(omode &&& O_CREATE ≠ 0 ∧ s.Missing p path))))
      (fun e _ => Stops s.node False e) s := by
  unfold openStr
  rw [wp_bind, wp_beginOp]
  refine wp_seq (openInode_spec h.begun (Nat.succ_pos _) hcwd) ?_
  intro r s1 hr
  cases r with
  | none =>
    obtain ⟨h₁, hs, hthere⟩ := hr
    simp only [wp_endFail]
    exact ⟨returned_still h₁ hs, fun _ => ⟨fun _ => hthere, fun _ => unchanged_ended hs⟩⟩
  | some a =>
    obtain ⟨h₁, hf, hdir, hend⟩ := hr
    refine wp_post (openFile_spec h₁ hdir) ?_
    rintro r s' (⟨rfl, t, rfl, ht, hst⟩ | ⟨hr, h', hout', hnode⟩)
    · rcases hend with ⟨hs, hthere⟩ | ⟨hcreate, hmissing, heff, hdiff⟩
      · have hs' := hs.trans hst (le_refl 0)
        exact ⟨returned_still ht hs', fun _ => ⟨fun _ => hthere, fun _ => unchanged_ended hs'⟩⟩
      refine ⟨returned_ended ht (hf.trans hst.frame (le_refl 0)) ?_, fun _ => ?_⟩
      · rw [hst.node]
        exact heff
      constructor
      · intro hsame
        have hnode : t.node = s.node := hsame.node
        rw [hst.node] at hnode
        exact absurd hnode hdiff
      · intro hnot
        exact absurd ⟨hcreate, hmissing⟩ hnot
    refine ⟨⟨h', ?_, ?_⟩, fun h1 => absurd h1 hr⟩
    · rw [hout', hf.outstanding]
      exact Nat.add_sub_cancel _ _
    · rw [hnode]
      rcases hend with ⟨hs, _⟩ | ⟨_, _, heff, _⟩
      · exact effect_of_eq hs.node
      · exact heff

theorem makeNode_spec {path : Option Str} {type major minor : Int}
    (htype : type = T_DIR ∨ type = T_DEV) (h : In s 0 ∅ ∅) (hcwd : (s.proc p).cwd = some b) :
    wp (makeNode p path type major minor)
      (fun r s' => Returned s s' ∧ (r = -1 → Unchanged s s'))
      (fun e _ => Stops s.node False e) s := by
  have htypes : type = T_DIR ∨ type = T_FILE ∨ type = T_DEV := by
    rcases htype with rfl | rfl
    · exact .inl rfl
    · exact .inr (.inr rfl)
  have hfile : type ≠ T_FILE := by rcases htype with rfl | rfl <;> decide
  unfold makeNode
  rw [wp_bind, wp_beginOp]
  cases path with
  | none =>
    simp only [wp_endFail]
    have hs : Still 0 s.begun s.begun := (Quiet.refl 0 s.begun).still
    exact ⟨returned_still h.begun hs, fun _ => unchanged_ended hs⟩
  | some path =>
    simp only [wp_bind]
    refine wp_post (create_spec (D := False) htypes h.begun (Nat.succ_pos _) hcwd) ?_
    intro r s1 hr
    cases r with
    | none =>
      obtain ⟨h1, hs, _⟩ := hr
      simp only [wp_endFail]
      exact ⟨returned_still h1 hs, fun _ => unchanged_ended hs⟩
    | some a =>
      obtain ⟨h1, hf, ht, hend⟩ := hr
      have h1' : In s1 (a ::ₘ 0) (insert a ∅) ∅ := h1
      unfold endDone
      simp only [wp_bind, wp_endOp, wp_pure]
      refine wp_post (iunlockput_keep h1' (notMem_empty a) (pinned_empty _ _)) ?_
      rintro _ s2 ⟨h2, hq2⟩
      rcases hend with ⟨_, hty, _⟩ | ⟨d, n, name, hres, hdir, hlook, hn, hfree, hn0, hfrees⟩
      · exact absurd hty hfile
      · refine ⟨returned_ended h2 (hf.trans hq2.frame (le_refl 0)) ?_, fun h0 => ?_⟩
        · rw [hq2.node_eq]
          exact .create htypes hdir hlook hfree hn0 hfrees
        · exact absurd h0 (by decide)

theorem relock_spec {tty : List (Option (List UInt8))} (h : In s R L X)
    (ha : 0 < (s.icache a).ref) (hL : a ∉ L) (ht : (s.node (s.icache a).inum).type ≠ 0) :
    wp (ilock a) (fun _ s' => In s' R (insert a L) X ∧ Still R s s' ∧
      (s'.icache a).inum = (s.icache a).inum) E { s with tty := tty } := by
  have h' : In { s with tty := tty } R L X :=
    ⟨h.rep, h.range, h.uniq, h.sync, h.refs, h.locks, h.locked, h.alloc, h.live, h.dirs, h.files⟩
  refine wp_mono (ilock_spec h' ha hL) ?_ fun _ _ he => absurd he.2 ht
  rintro _ t ⟨h1, hq, hinum, _⟩
  exact ⟨h1, ⟨⟨hq.sb, hq.file, hq.proc, hq.outstanding, hq.inum⟩, hq.node_eq, hq.still.bits⟩, hinum⟩

theorem readi_still (h : In s R (insert a L) X) (hL : a ∉ L) (off n : Nat) :
    wp (readi a off n)
      (fun _ s' => In s' R (insert a L) X ∧ Still R s s' ∧
        (s'.icache a).inum = (s.icache a).inum) E s := by
  have hmem : a ∈ insert a L := mem_insert_self a L
  have hd := h.locked_dinode hmem
  have hlock := h.locked a hmem
  by_cases hdev : (s.node (s.icache a).inum).type = T_DEV
  · unfold readi
    rw [wp_bind, wp_get, hd.1, if_pos (by rw [← State.node_type]; exact hdev), wp_ite]
    by_cases hcons : (s.ino (s.icache a).inum).major = CONSOLE
    · rw [if_pos hcons]
      unfold consoleread
      refine wp_seq (iunlock_spec h hL) ?_
      rintro _ s1 ⟨h1, hq1, hinum1⟩
      have hpos : 0 < (s1.icache a).ref := by
        have h2 := h1.refs a
        have h3 := h.refs a
        have h4 := hq1.holders a
        omega
      rw [wp_bind, wp_get, wp_bind, wp_modify]
      refine wp_seq (relock_spec h1 hpos hL (by rw [hinum1, hq1.node]; exact hd.2)) ?_
      rintro _ s2 ⟨h2, hst, hinum2⟩
      exact ⟨h2, hq1.still.trans hst (le_refl R), hinum2.trans hinum1⟩
    · rw [if_neg hcons]
      exact ⟨h, (Quiet.refl R s).still, rfl⟩
  · refine wp_post (readi_spec h hmem hdev off n) ?_
    rintro r s ⟨rfl, _⟩
    exact ⟨h, (Quiet.refl R s).still, rfl⟩

theorem writei_spec (h : In s R (insert a L) X) (hL : a ∉ L)
    (hout : 0 < s.outstanding) (hok : ((s.node (s.icache a).inum).write off src).DirOk s.sb) :
    wp (writei a off src)
      (fun r s' => (r = -1 ∨ r = src.length) ∧ In s' R (insert a L) X ∧ Frame R s s' ∧
        (s'.icache a).inum = (s.icache a).inum ∧
        (s'.node = s.node ∨ s'.node = update s.node (s.icache a).inum
          ((s.node (s.icache a).inum).write off src)))
      (fun e _ => e.expected = true) s := by
  have hmem : a ∈ insert a L := mem_insert_self a L
  have hd := h.locked_dinode hmem
  have hlock := h.locked a hmem
  by_cases hdev : (s.node (s.icache a).inum).type = T_DEV
  · unfold writei
    rw [wp_bind, wp_get, hd.1, if_pos (by rw [← State.node_type]; exact hdev), wp_ite]
    by_cases hcons : (s.ino (s.icache a).inum).major = CONSOLE
    · rw [if_pos hcons]
      unfold consolewrite
      refine wp_seq (iunlock_spec h hL) ?_
      rintro _ s1 ⟨h1, hq1, hinum1⟩
      have hpos : 0 < (s1.icache a).ref := by
        have h2 := h1.refs a
        have h3 := h.refs a
        have h4 := hq1.holders a
        omega
      rw [wp_bind]
      refine wp_mono (ilock_spec h1 hpos hL) ?_ fun _ _ he => absurd he.2
        (by rw [hinum1, hq1.node]; exact hd.2)
      rintro _ s2 ⟨h2, hq2, hinum2, _⟩
      have hq := hq1.trans hq2 (le_refl R)
      exact ⟨.inr rfl, h2, hq.frame, hinum2.trans hinum1, .inl hq.node_eq⟩
    · rw [if_neg hcons]
      exact ⟨.inl rfl, h, Frame.refl R s, rfl, .inl rfl⟩
  have hlen := State.length_node_data s (s.icache a).inum
  by_cases hbad : (s.ino (s.icache a).inum).size < off ∨ (off + src.length) % 2 ^ 32 < off ∨
      71680 < off + src.length
  · unfold writei
    simp only [MAXFILE, NDIRECT, NINDIRECT, wp_bind, wp_get, wp_ite, wp_pure]
    rw [hd.1, if_neg (by rw [← State.node_type]; exact hdev)]
    by_cases hoff : (s.ino (s.icache a).inum).size < off ∨ (off + src.length) % 2 ^ 32 < off
    · rw [if_pos hoff]
      exact ⟨.inl trivial, h, Frame.refl R s, trivial, .inl trivial⟩
    · rw [if_neg hoff, if_pos (by omega)]
      exact ⟨.inl trivial, h, Frame.refl R s, trivial, .inl trivial⟩
  · refine wp_mono (writei_accept h hmem hout hdev (by omega) (by omega) hok) ?_
      fun _ _ he => he.expected
    rintro r s' ⟨rfl, h', hc⟩
    exact ⟨.inr rfl, h', hc.frame R, hc.inum a, .inr hc.node_eq⟩

theorem rewrites_update {node : Nat → Node} (hdir : (node n).type ≠ T_DIR)
    (h : node' = node ∨ node' = update node n ((node n).write off src)) : Rewrites node node' := by
  rcases h with rfl | rfl
  · exact Rewrites.refl _
  intro m
  by_cases hm : m = n
  · subst hm
    rw [update_self]
    exact ⟨rfl, rfl, fun hd => absurd hd hdir⟩
  · rw [update_of_ne hm]
    exact ⟨rfl, rfl, fun _ => rfl⟩

theorem execRead_spec {path : Str} {parts : List (Nat × Nat)} (h : In s 0 ∅ ∅)
    (hcwd : (s.proc p).cwd = some b) :
    wp (execRead p path parts) (fun _ s' => Returned s s') (fun e _ => Stops s.node False e) s := by
  unfold execRead namei
  rw [wp_bind, wp_beginOp, wp_bind]
  refine wp_mono (namex_spec false path h.begun (pinned_empty _ 0) hcwd) ?_ fun _ _ he =>
    NoWalk.stops he
  intro r s1 hw
  have hq1 := hw.quiet
  cases r with
  | none =>
    simp only [wp_endFail]
    exact returned_still hw.inv hq1.still
  | some found =>
    obtain ⟨a, x⟩ := found
    simp only [wp_bind]
    refine wp_mono hw.ilock ?_ fun _ _ he => NoWalk.stops he.1
    rintro _ s2 ⟨h2, hq, _, _⟩
    have hloop : wp (forEach parts (readPart a))
        (fun _ t => In t (a ::ₘ 0) (insert a ∅) ∅ ∧ Still 0 s.begun t)
        (fun e _ => Stops s.node False e) s2 := by
      refine wp_forEach ?_ ⟨h2, hq.still⟩
      rintro part _ t ⟨ht, hst⟩
      unfold readPart
      refine wp_seq (readi_still ht (notMem_empty a) part.1 part.2) ?_
      rintro _ u ⟨hu, hst', _⟩
      exact ⟨hu, hst.trans hst' (Multiset.zero_le _)⟩
    refine wp_post hloop ?_
    rintro _ t ⟨ht, hst⟩
    unfold endDone
    simp only [wp_bind, wp_endOp, wp_pure]
    refine wp_post (iunlockput_keep ht (notMem_empty a) (pinned_empty _ _)) ?_
    rintro _ u ⟨hu, hq'⟩
    exact returned_still hu (hst.trans hq'.still (le_refl 0))

theorem fileread_spec (h : In s 0 ∅ ∅) :
    wp (fileread i n) (fun _ s' => Returned s s') (fun e _ => e.expected = true) s := by
  unfold fileread setFile
  rw [wp_bind, wp_get, wp_ite]
  by_cases hr : (s.file i).readable = false
  · rw [if_pos hr]
    exact ⟨h, rfl, effect_of_eq rfl⟩
  rw [if_neg hr]
  cases hip : (s.file i).ip with
  | none => exact rfl
  | some a =>
    have hheld := State.holders_of_file hip
    have ht := h.alloc a hheld
    simp only [wp_bind, wp_modify]
    refine wp_mono (ilock_spec h (h.ref_of_holders hheld) (notMem_empty a)) ?_
      fun _ _ he => absurd he.2 ht
    rintro _ s1 ⟨h1, hq1, hinum1, _⟩
    refine wp_post (readi_still h1 (notMem_empty a) _ _) ?_
    rintro r s2 ⟨h2, hst, hinum2⟩
    have hfile : s2.file i = s.file i := by rw [hst.frame.file, hq1.file]
    have hput := h2.putFile_same (i := i)
      (f := { s2.file i with off := (s2.file i).off + (r.getD []).length }) rfl
      (by simp only [hfile]; exact (h.files i a hip).1) rfl
    refine wp_post (iunlock_spec hput (notMem_empty a)) ?_
    rintro _ s3 ⟨h3, hq3, _⟩
    have hend : Returned s s3 := by
      refine ⟨h3, ?_, effect_of_eq ?_⟩
      · rw [hq3.outstanding]
        change s2.outstanding = s.outstanding
        rw [hst.frame.outstanding, hq1.outstanding]
      · rw [hq3.node_eq]
        change s2.node = s.node
        rw [hst.node, hq1.node_eq]
    cases r with
    | none => exact hend
    | some l => exact hend

structure Writing (i : Fin NFILE) (a : Ino) (s t : State) : Prop where
  inv : In t 0 ∅ ∅
  outstanding : t.outstanding = s.outstanding
  ip : (t.file i).ip = some a
  writable : (t.file i).writable = true
  rewrites : Rewrites s.node t.node

theorem writeChunk_spec (h : Writing i a s t) :
    wp (writeChunk i a src) (fun r t' => (r = -1 ∨ r = src.length) ∧ Writing i a s t')
      (fun e _ => e.expected = true) t := by
  have hheld := State.holders_of_file h.ip
  have hty := h.inv.alloc a hheld
  have hfiles := h.inv.files i a h.ip
  unfold writeChunk setFile
  simp only [wp_bind, wp_beginOp, wp_get, wp_modify, wp_endOp, wp_pure]
  refine wp_mono (ilock_spec h.inv.begun (h.inv.ref_of_holders hheld) (notMem_empty a)) ?_
    fun _ _ he => absurd he.2 hty
  rintro _ s1 ⟨h1, hq1, hinum1, _⟩
  have hdir : (s1.node (s1.icache a).inum).type ≠ T_DIR := by
    rw [hinum1, hq1.node]
    exact hfiles.2 h.writable
  refine wp_post (writei_spec h1 (notMem_empty a) (by rw [hq1.outstanding]; exact Nat.succ_pos _)
    (Node.dirOk_of_type _ (by rw [Node.type_write]; exact hdir))) ?_
  rintro r s2 ⟨hr, h2, hf2, _, hrew⟩
  have hfile : s2.file i = t.file i := by
    rw [hf2.file, hq1.file]
    rfl
  have hput := h2.putFile_same (i := i)
    (f := { s2.file i with off := (s2.file i).off + r.toNat }) rfl
    (by simp only [hfile]; exact hfiles.1) rfl
  refine wp_post (iunlock_spec hput (notMem_empty a)) ?_
  rintro _ s3 ⟨h3, hq3, _⟩
  have hfile3 : s3.ended.file i = { s2.file i with off := (s2.file i).off + r.toNat } := by
    change s3.file i = _
    rw [hq3.file]
    exact update_self i _ s2.file
  refine ⟨hr, h3.ended, ?_, ?_, ?_, ?_⟩
  · change s3.outstanding - 1 = s.outstanding
    rw [hq3.outstanding]
    change s2.outstanding - 1 = s.outstanding
    rw [hf2.outstanding, hq1.outstanding]
    exact (Nat.add_sub_cancel _ _).trans h.outstanding
  · rw [hfile3]
    simp only [hfile]
    exact h.ip
  · rw [hfile3]
    simp only [hfile]
    exact h.writable
  · have hnode3 : s3.ended.node = s2.node := hq3.node_eq
    have hrew' := rewrites_update hdir hrew
    rw [hq1.node_eq] at hrew'
    rw [hnode3]
    exact h.rewrites.trans hrew'

theorem writeChunks_spec (fuel : Nat) (src : List UInt8) (h : Writing i a s t) :
    wp (writeChunks i a fuel src) (fun _ => Writing i a s) (fun e _ => e.expected = true) t := by
  induction fuel generalizing t src with
  | zero => exact h
  | succ fuel ih =>
    unfold writeChunks
    rw [wp_ite]
    by_cases hnil : src = []
    · rw [if_pos hnil]
      exact h
    rw [if_neg hnil]
    refine wp_seq (writeChunk_spec h) ?_
    rintro r u ⟨hr, hu⟩
    rw [wp_ite]
    by_cases hneg : r < 0
    · rw [if_pos hneg]
      exact hu
    · rw [if_neg hneg, if_neg (by omega)]
      exact ih _ hu

theorem filewrite_spec (h : In s 0 ∅ ∅) :
    wp (filewrite i src) (fun _ s' => Returned s s') (fun e _ => e.expected = true) s := by
  unfold filewrite
  rw [wp_bind, wp_get, wp_ite]
  by_cases hw : (s.file i).writable = false
  · rw [if_pos hw]
    exact ⟨h, rfl, effect_of_eq rfl⟩
  rw [if_neg hw]
  cases hip : (s.file i).ip with
  | none => exact rfl
  | some a =>
    have hstart : Writing i a s s := ⟨h, rfl, hip, by simpa using hw, Rewrites.refl s.node⟩
    simp only [wp_bind]
    refine wp_post (writeChunks_spec src.length src hstart) ?_
    intro r t ht
    have hend : Returned s t := ⟨ht.inv, ht.outstanding, .writes ht.rewrites⟩
    rw [wp_ite]
    split
    · exact hend
    · exact hend

end Xv6.Fs
