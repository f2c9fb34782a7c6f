import Xv6.Mkfs.Files

/-!
# What holds in every run

Runs start from a consistent image, for instance one that mkfs has made.  In every
state between two calls each block has one owner and no file has a hole.  A call
waits for itself exactly when it is `link` onto an entry of a directory for the
directory itself, and a call on a path that fails leaves no trace unless it is
`open` that has made a file and then found no descriptor.
-/

namespace Xv6.Fs

open Lib Lib.Prog Log Ptable Function

variable {s t : State} {disk : Disk} {tty : List (Option (List UInt8))} {p : Slot} {c : Call}
variable {n d : Nat} {node node' : Nat → Node} {f : Node}

/-- Every block has one owner, and no call frees a free block. -/
theorem blocks_owned {disk : Disk} (h : Consistent disk)
    (hr : Reachable Fs.step (boot disk tty) s) :
    (∀ i k, heldAt s.sb s.disk i k ≠ 0 → s.sb.IsData (heldAt s.sb s.disk i k)) ∧
    (∀ i k j l, heldAt s.sb s.disk i k ≠ 0 → heldAt s.sb s.disk i k = heldAt s.sb s.disk j l →
      i = j ∧ k = l) ∧
    (∀ b, s.sb.IsData b → (bitAt s.sb s.disk b = true ↔ ∃ i k, heldAt s.sb s.disk i k = b)) ∧
    ∀ p c t, c.enabled s p → runCall p c s ≠ (.error .freeingFree, t) := by
  have hs := settled_of_reachable h hr
  have hown := hs.inv.rep.own
  refine ⟨fun i k hk => hown.region (i, k) hk, ?_, ?_, ?_⟩
  · intro i k j l hk heq
    exact Prod.mk.inj (hown.inj (i, k) (j, l) hk heq)
  · intro b hb
    rw [hown.marked b hb]
    constructor
    · rintro (hempty | ⟨⟨i, k⟩, hik⟩)
      · exact absurd hempty (Set.notMem_empty b)
      · exact ⟨i, k, hik⟩
    · rintro ⟨i, k, hik⟩
      exact .inr ⟨(i, k), hik⟩
  · intro p c t hen hrun
    rcases hs.stopped hen hrun with hexp | ⟨hno, _⟩ | ⟨hno, _⟩
    · cases hexp
    · cases hno
    · cases hno

/-- An image without files. -/
def freshImage : Disk :=
  Mkfs.image (Mkfs.emptyFiles 0)

theorem consistent_freshImage : Consistent freshImage :=
  Mkfs.consistent_image (Mkfs.fits_emptyFiles (by decide)) (by decide)

/-- The first process makes the file "f", writes to it and unlinks it while it is open. -/
def writeAndUnlink : List (Slot × Call) :=
  [(0, .openf (some [102]) (O_CREATE ||| O_RDWR)), (0, .write 0 [104, 105]),
    (0, .unlink (some [102]))]

theorem exists_writeAndUnlink :
    ∃ s, run Fs.step (boot freshImage []) writeAndUnlink = some s ∧ s.sb.IsData 60 ∧
      heldAt s.sb s.disk 2 0 = 60 ∧ (s.node 2).type ≠ 0 ∧ (s.node 2).nlink = 0 := by
  obtain ⟨s, hrun, htest⟩ := exists_of_run_map Fs.step (boot freshImage []) writeAndUnlink
    (fun s => s.sb.IsData 60 ∧ heldAt s.sb s.disk 2 0 = 60 ∧ (s.node 2).type ≠ 0 ∧
      (s.node 2).nlink = 0) (by decide +kernel)
  exact ⟨s, hrun, of_decide_eq_true htest⟩

theorem blocks_owned_of_unlinked :
    ∃ s, run Fs.step (boot freshImage []) writeAndUnlink = some s ∧ (s.node 2).nlink = 0 ∧
      bitAt s.sb s.disk 60 = true := by
  obtain ⟨s, hrun, hdata, hheld, _, hnlink⟩ := exists_writeAndUnlink
  exact ⟨s, hrun, hnlink, ((blocks_owned consistent_freshImage ⟨_, hrun⟩).2.2.1 60 hdata).mpr
    ⟨2, 0, hheld⟩⟩

def withInode (n : Nat) (body : Ino → FM Unit) : FM Unit := do
  beginOp
  let e ← iget n
  ilock e
  body e
  iunlockput e
  endOp

inductive Op where
  | call (p : Slot) (c : Call)
  | writei (n off : Nat) (src : List UInt8)
  | itrunc (n : Nat)

def writeOp (off : Nat) (src : List UInt8) (e : Ino) : FM Unit := do
  let _ ← writei e off src
  pure ()

def after (m : FM Unit) (s : State) : Option State :=
  match m s with
  | (.ok _, t) => some t
  | (.error _, _) => none

instance (sb : Superblock) (f : Node) : Decidable (f.DirOk sb) := by
  unfold Node.DirOk
  infer_instance

/-- One operation.  What is written to a directory is entries that name inodes. -/
def opStep (s : State) : Op → Option State
  | .call p c => step s (p, c)
  | .writei n off src =>
    if s.sb.IsInum n ∧ ((s.node n).write off src).DirOk s.sb then
      after (withInode n (writeOp off src)) s
    else none
  | .itrunc n => if s.sb.IsInum n then after (withInode n itrunc) s else none

theorem withInode_spec {body : Ino → FM Unit} (h : In s 0 ∅ ∅) (hn : s.sb.IsInum n)
    (hbody : ∀ e u, In u {e} {e} ∅ → u.sb = s.sb → u.node = s.node → (u.icache e).inum = n →
      0 < u.outstanding →
      wp (body e) (fun _ v => In v {e} {e} ∅ ∧ Frame {e} u v) (fun _ _ => True) u) :
    wp (withInode n body) (fun _ t => In t 0 ∅ ∅ ∧ t.outstanding = s.outstanding)
      (fun _ _ => True) s := by
  unfold withInode
  rw [wp_bind, wp_beginOp, wp_bind]
  refine wp_mono (iget_spec h.begun hn) ?_ fun _ _ _ => trivial
  rintro e s1 ⟨h1, hq1, hinum1⟩
  have href : 0 < (s1.icache e).ref := h1.ref_pos (Multiset.mem_cons_self _ _)
  rw [wp_bind]
  refine wp_mono (ilock_spec h1 href (Finset.notMem_empty e)) ?_ fun _ _ _ => trivial
  rintro _ s2 ⟨h2, hq2, hinum2, _⟩
  have hout2 : s2.outstanding = s.outstanding + 1 := hq2.outstanding.trans hq1.outstanding
  rw [wp_bind]
  refine wp_mono (hbody e s2 h2 (hq2.sb.trans hq1.sb) (hq2.node_eq.trans hq1.node_eq)
    (hinum2.trans hinum1) (by omega)) ?_ fun _ _ _ => trivial
  rintro _ s3 ⟨h3, hf3⟩
  rw [wp_bind]
  refine wp_mono (iunlockput_last (R := 0) (L := ∅) (Y := ∅) h3 (Finset.notMem_empty e) rfl
    (by rw [hf3.outstanding]; omega) (Multiset.count_zero e) (fun _ _ hm => hm)) ?_
    fun _ _ _ => trivial
  rintro _ s4 ⟨h4, hf4, _⟩
  rw [wp_endOp]
  refine ⟨h4.ended, ?_⟩
  change s4.outstanding - 1 = s.outstanding
  rw [hf4.outstanding, hf3.outstanding, hout2]
  exact Nat.add_sub_cancel _ _

theorem Settled.after {m : FM Unit} (h : Settled s)
    (hm : wp m (fun _ t => In t 0 ∅ ∅ ∧ t.outstanding = s.outstanding) (fun _ _ => True) s)
    (hafter : Fs.after m s = some t) : Settled t := by
  unfold Fs.after at hafter
  cases hrun : m s with
  | mk r u =>
    rw [hrun] at hafter
    cases r with
    | error e => cases hafter
    | ok r =>
      cases hafter
      have hq := wp_ok hm hrun
      exact ⟨hq.1, hq.2.trans h.outstanding⟩

theorem Settled.opStep {o : Op} (h : Settled s) (hstep : Fs.opStep s o = some t) : Settled t := by
  cases o with
  | call p c => exact h.step hstep
  | writei n off src =>
    simp only [Fs.opStep] at hstep
    by_cases hn : s.sb.IsInum n ∧ ((s.node n).write off src).DirOk s.sb
    · rw [if_pos hn] at hstep
      refine h.after (withInode_spec h.inv hn.1 ?_) hstep
      intro e u hu hsb hnode hinum hout
      unfold writeOp
      rw [wp_bind]
      refine wp_mono (writei_spec (L := ∅) hu (Finset.notMem_empty e) hout ?_) ?_
        fun _ _ _ => trivial
      · rw [hinum, hnode, hsb]
        exact hn.2
      · rintro _ v ⟨_, hv, hf, _⟩
        exact ⟨hv, hf⟩
    · rw [if_neg hn] at hstep
      cases hstep
  | itrunc n =>
    simp only [Fs.opStep] at hstep
    by_cases hn : s.sb.IsInum n
    · rw [if_pos hn] at hstep
      refine h.after (withInode_spec h.inv hn ?_) hstep
      intro e u hu _ _ _ hout
      refine wp_mono (itrunc_spec hu (Finset.mem_singleton_self e) hout) ?_ fun _ _ _ => trivial
      rintro _ v ⟨hv, hc⟩
      exact ⟨hv, hc.frame _⟩
    · rw [if_neg hn] at hstep
      cases hstep

/-- `readi` outside of a transaction. -/
def readOutside (n off len : Nat) : FM (Option (List UInt8)) := do
  let e ← iget n
  ilock e
  readi e off len

/-- `dirlookup` outside of a transaction. -/
def lookupOutside (n : Nat) (name : Str) : FM (Option (Nat × Ino)) := do
  let e ← iget n
  ilock e
  dirlookup e name

theorem lockOutside_spec {α : Type} {body : Ino → FM α} (h : In s 0 ∅ ∅) (ht : (s.node n).type ≠ 0)
    (hbody : ∀ e u, In u {e} {e} ∅ → u.node = s.node → (u.icache e).inum = n →
      wp (body e) (fun _ v => v.disk = u.disk ∧ v.logged = u.logged)
        (fun e _ => e = .igetNoInodes) u) :
    wp (do
        let e ← iget n
        ilock e
        body e)
      (fun _ t => t.disk = s.disk ∧ t.logged = s.logged) (fun e _ => e = .igetNoInodes) s := by
  refine wp_seq (iget_spec h (isInum_of_type ht)) ?_
  rintro e s1 ⟨h1, hq1, hinum1⟩
  have href : 0 < (s1.icache e).ref := h1.ref_pos (Multiset.mem_cons_self _ _)
  have hno : ∀ x, x = Stop.noType ∧ (s1.node (s1.icache e).inum).type = 0 → x = .igetNoInodes := by
    rintro x ⟨_, h0⟩
    rw [hinum1, hq1.node] at h0
    exact absurd h0 ht
  rw [wp_bind]
  refine wp_mono (ilock_spec h1 href (Finset.notMem_empty e)) ?_ fun x _ he => hno x he
  rintro _ s2 ⟨h2, hq2, hinum2, _⟩
  refine wp_post (hbody e s2 h2 (hq2.node_eq.trans hq1.node_eq) (hinum2.trans hinum1)) ?_
  rintro _ t ⟨hdisk, hlogged⟩
  rw [hdisk, hlogged, hq2.state, hq1.state]
  exact ⟨rfl, rfl⟩

/-- No file has a hole, and reading writes nothing. -/
theorem no_holes (hs : Settled s) (hr : Reachable Fs.opStep s t) :
    (∀ i, (t.ino i).type ≠ 0 → (t.ino i).Shape t.disk (blocksFor (t.ino i).size)) ∧
    (∀ n off len, (t.node n).type ≠ 0 → (t.node n).type ≠ T_DEV →
      wp (readOutside n off len) (fun _ u => u.disk = t.disk ∧ u.logged = t.logged)
        (fun e _ => e = .igetNoInodes) t) ∧
    ∀ n name, (t.node n).type = T_DIR →
      wp (lookupOutside n name) (fun _ u => u.disk = t.disk ∧ u.logged = t.logged)
        (fun e _ => e = .igetNoInodes) t := by
  have ht := hr.invariant Settled hs fun _ _ _ hs hstep => hs.opStep hstep
  refine ⟨ht.inv.rep.shape, ?_, ?_⟩
  · intro n off len hn hdev
    refine lockOutside_spec ht.inv hn ?_
    intro e u hu hnode hinum
    refine wp_post (readi_spec hu (Finset.mem_singleton_self e) ?_ off len) ?_
    · rw [hinum, hnode]
      exact hdev
    · rintro _ v ⟨rfl, _⟩
      exact ⟨rfl, rfl⟩
  intro n name hdir
  refine lockOutside_spec ht.inv (by rw [hdir]; decide) ?_
  intro e u hu hnode hinum
  refine wp_post (dirlookup_spec hu (Finset.mem_singleton_self e) ?_) ?_
  · rw [hinum, hnode]
    exact hdir
  intro r v hv
  cases r with
  | none =>
    rw [hv.1]
    exact ⟨rfl, rfl⟩
  | some r =>
    obtain ⟨k, _, _, _, hq, _⟩ := hv
    rw [hq.state]
    exact ⟨rfl, rfl⟩

def appendToUnlinked : List Op :=
  writeAndUnlink.map (fun l => .call l.1 l.2) ++ [.writei 2 2 [33]]

theorem no_holes_of_unlinked :
    ∃ s, run Fs.opStep (boot freshImage []) appendToUnlinked = some s ∧
      (s.ino 2).size = 3 ∧ (s.ino 2).Shape s.disk (blocksFor 3) := by
  obtain ⟨s, hrun, htest⟩ := exists_of_run_map Fs.opStep (boot freshImage []) appendToUnlinked
    (fun s => (s.ino 2).size = 3 ∧ (s.ino 2).type ≠ 0) (by decide +kernel)
  obtain ⟨hsize, htype⟩ := of_decide_eq_true htest
  have hshape := (no_holes consistent_freshImage.settled ⟨_, hrun⟩).1 2 htype
  rw [hsize] at hshape
  exact ⟨s, hrun, hsize, hshape⟩

/-- The inodes in use have numbers, and directories consist of whole entries. -/
structure Ranged (node : Nat → Node) : Prop where
  range : ∀ n, (node n).type ≠ 0 → 1 ≤ n ∧ n < 2 ^ 16
  whole : ∀ n, (node n).type = T_DIR → 16 ∣ (node n).data.length

theorem Settled.ranged (h : Settled s) :
    Ranged s.node where
  range := by
    intro n hn
    have hinum : s.sb.IsInum n := isInum_of_type hn
    have hle := h.inv.rep.ok.inum
    exact ⟨hinum.1, Nat.lt_of_lt_of_le hinum.2 hle⟩
  whole := fun n hn => (h.inv.dirs n hn).1

theorem Frees.keeps (h : Frees node node')
    (hn : (node n).nlink ≠ 0 ∨ (node' n).type ≠ 0) : node' n = node n := by
  induction h with
  | refl => rfl
  | tail _ hstep ih =>
    obtain ⟨m, hm, hl, rfl⟩ := hstep
    by_cases hmn : n = m
    · subst hmn
      rw [update_self] at hn ⊢
      rcases hn with hn | hn
      · rw [ih (Or.inl hn)] at hl
        exact absurd hl hn
      · exact absurd rfl hn
    · rw [update_of_ne hmn] at hn ⊢
      exact ih hn

def TameDir (d : Nat) (f : Node) : Prop :=
  ∀ k < f.count, (f.entry k).inum = d →
    namecmp (f.entry k).name dot = 0 ∨ namecmp (f.entry k).name dotdot = 0

theorem TameDir.putEntry {k : Nat} {de : Dirent} (h : TameDir d f)
    (h16 : 16 ∣ f.data.length) (hk : k ≤ f.count) (hinum : de.inum < 2 ^ 16)
    (hname : de.name.length = 14)
    (hde : de.inum = d → namecmp de.name dot = 0 ∨ namecmp de.name dotdot = 0) :
    TameDir d (f.putEntry k de) := by
  intro j hj heq
  by_cases hjk : j = k
  · subst hjk
    rw [Node.entry_putEntry_self hinum hname] at heq ⊢
    exact hde heq
  · rw [Node.entry_putEntry_of_ne de hjk] at heq ⊢
    rw [Node.count_putEntry h16 hk] at hj
    exact h j (by omega) heq

theorem TameDir.link {i : Nat} {name : Str} (h : TameDir d f)
    (h16 : 16 ∣ f.data.length) (hi : i < 2 ^ 16)
    (hname : i = d → namecmp name dot = 0 ∨ namecmp name dotdot = 0) :
    TameDir d (f.link name i) := by
  refine h.putEntry h16 (Node.slot_le f) hi (length_strncpy 14 name) ?_
  intro heq
  simp only [newEntry, namecmp_eq_zero, cut_strncpy]
  rw [← namecmp_eq_zero, ← namecmp_eq_zero]
  exact hname heq

theorem tameDir_newNode {type major minor : Int} (hd : d < 2 ^ 16) (hn : n < 2 ^ 16)
    (m : Nat) : TameDir m (newNode d n type major minor) := by
  have hempty : TameDir m (Node.new type major minor) := by
    intro k hk
    rw [Node.count_of_nil rfl] at hk
    exact absurd hk (Nat.not_lt_zero k)
  unfold newNode
  split
  · refine (hempty.link (by simp [Node.new]) hn fun _ => .inl (by decide)).link ?_ hd
      fun _ => .inr (by decide)
    exact Node.dvd_length_putEntry (by simp [Node.new]) _
  · exact hempty

theorem Effect.tame (h : Effect node node') (hr : Ranged node) (hr' : Ranged node')
    (ht : Tame node) : Tame node' := by
  have hkeep : ∀ {table : Nat → Node}, Frees table node' →
      (∀ d, (table d).type = T_DIR → TameDir d (table d)) → Tame node' := by
    intro table hf htable d hd
    have hsame := hf.keeps (n := d) (Or.inr (by rw [hd]; decide))
    rw [hsame] at hd ⊢
    exact htable d hd
  cases h with
  | frees hf => exact hkeep hf ht
  | writes hw =>
    intro d hd
    obtain ⟨htype, _, hdir⟩ := hw d
    rw [hdir (htype ▸ hd)]
    exact ht d (htype ▸ hd)
  | @link i d name hi hfile hd hnew hf =>
    have hid : i ≠ d := by
      rintro rfl
      exact hfile hd
    refine hkeep hf ?_
    intro e he
    unfold linked at he ⊢
    by_cases hed : e = d
    · subst hed
      rw [update_self]
      exact TameDir.link (ht e hd) (hr.whole e hd) (hr.range i hi).2 fun heq => absurd heq hid
    rw [update_of_ne hed] at he ⊢
    by_cases hei : e = i
    · subst hei
      rw [update_self] at he
      exact absurd he hfile
    · rw [update_of_ne hei] at he ⊢
      exact ht e he
  | @unlink i d k name hd _ _ hk hi hne halloc _ _ hf =>
    have hcount := (Node.lookup_eq_some hk).1
    refine hkeep hf ?_
    intro e he
    unfold unlinked at he ⊢
    by_cases hei : e = i
    · subst hei
      rw [update_self] at he ⊢
      exact ht e he
    rw [update_of_ne hei] at he ⊢
    by_cases hed : e = d
    · subst hed
      rw [update_self]
      have hput : TameDir e ((node e).putEntry k noEntry) := by
        refine TameDir.putEntry (ht e hd) (hr.whole e hd) (Nat.le_of_lt hcount) (by decide)
          (by decide) ?_
        intro h0
        have hpos := (hr.range e (by rw [hd]; decide)).1
        have hzero : e = 0 := h0.symm
        omega
      unfold unlinkedDir
      split
      · exact hput
      · exact hput
    · rw [update_of_ne hed] at he ⊢
      exact ht e he
  | @create d n name type major minor htype hd hnew hn hn0 hf =>
    have hdn : n ≠ d := by
      rintro rfl
      rw [hn] at hd
      exact absurd hd (by decide)
    have hnode : (created node d n name type major minor) n = newNode d n type major minor := by
      unfold created
      rw [update_of_ne hdn, update_self]
    have hnew' : (newNode d n type major minor).type ≠ 0 ∧
        (newNode d n type major minor).nlink ≠ 0 := by
      have hshort : short type ≠ 0 := by
        rw [short_type htype]
        rcases htype with rfl | rfl | rfl
        · decide
        · decide
        · decide
      unfold newNode
      split
      · exact ⟨hshort, one_ne_zero⟩
      · exact ⟨hshort, one_ne_zero⟩
    have hrange := hr'.range n (by
      rw [hf.keeps (Or.inl (by rw [hnode]; exact hnew'.2)), hnode]
      exact hnew'.1)
    have hdrange := hr.range d (by rw [hd]; decide)
    refine hkeep hf ?_
    intro e he
    unfold created at he ⊢
    by_cases hed : e = d
    · subst hed
      rw [update_self]
      have hparent : TameDir e (parentDir node e type) ∧
          16 ∣ (parentDir node e type).data.length := by
        unfold parentDir
        split
        · exact ⟨ht e hd, hr.whole e hd⟩
        · exact ⟨ht e hd, hr.whole e hd⟩
      exact hparent.1.link hparent.2 hrange.2 fun heq => absurd heq hdn
    rw [update_of_ne hed] at he ⊢
    by_cases hen : e = n
    · subst hen
      rw [update_self]
      exact tameDir_newNode hdrange.2 hrange.2 e
    · rw [update_of_ne hen] at he ⊢
      exact ht e he

theorem tame_of_reachable (h : Consistent disk) (ht : Tame (boot disk tty).node)
    (hr : Reachable Fs.step (boot disk tty) s) : Tame s.node := by
  have hinv : Settled s ∧ Tame s.node := by
    refine hr.invariant (fun s => Settled s ∧ Tame s.node) ⟨h.settled, ht⟩ ?_
    rintro s l t ⟨hs, ht⟩ hstep
    obtain ⟨hen, r, hrun⟩ := runCall_of_step hstep
    have hdone := hs.done hen hrun
    have hs' := hdone.settled hs
    exact ⟨hs', hdone.returned.effect.tame hs.ranged hs'.ranged ht⟩
  exact hinv.2

theorem Settled.linkOntoSelf {old new : Str} {b : Ino} (h : Settled s)
    (hcwd : (s.proc p).cwd = some b) (hself : s.LinksOntoSelf p old new) :
    (∃ t, linkStr p old new s = (.error .deadlock, t)) ↔ s.LinkRoom p old new := by
  have hspec : wp (linkStr p old new) _ _ s := linkStr_spec h.inv hcwd
  unfold wp at hspec
  cases hrun : linkStr p old new s with
  | mk r t =>
    rw [hrun] at hspec
    cases r with
    | ok r => exact absurd hself hspec.1
    | error e =>
      constructor
      · rintro ⟨u, heq⟩
        cases heq
        rcases hspec.1 with hexp | ⟨hno, _⟩ | ⟨_, _, hroom⟩
        · cases hexp
        · cases hno
        · exact hroom
      · intro hroom
        rw [hspec.2 ⟨hself, hroom⟩]
        exact ⟨t, rfl⟩

theorem tame_freshImage : Tame (boot freshImage []).node := by
  have hsb : readsb freshImage = Mkfs.sb := Mkfs.readsb_image (Mkfs.fits_emptyFiles (by decide))
  exact Mkfs.tame_image (Mkfs.fits_emptyFiles (by decide)) hsb

/-- A call waits for a lock that it holds if and only if it is `link` onto an entry of a directory
for the directory itself, and the inode cache, the file and the log let it get to that entry. -/
theorem deadlock_iff (h : Consistent disk) (ht : Tame (boot disk tty).node)
    (hr : Reachable Fs.step (boot disk tty) s) (hen : c.enabled s p) :
    (∃ t, runCall p c s = (.error .deadlock, t)) ↔ c.LinksOntoSelf s p ∧ c.LinkRoom s p := by
  have hs := settled_of_reachable h hr
  have hiff : c.LinksOntoSelf s p →
      ((∃ t, runCall p c s = (.error .deadlock, t)) ↔ c.LinkRoom s p) := by
    intro hself
    cases c with
    | link old new =>
      cases old with
      | none => cases hself
      | some old =>
        cases new with
        | none => cases hself
        | some new =>
          obtain ⟨b, hcwd⟩ := Option.isSome_iff_exists.mp hen
          exact hs.linkOntoSelf hcwd hself
    | _ => cases hself
  constructor
  · rintro ⟨t, hrun⟩
    rcases hs.stopped hen hrun with hexp | ⟨hno, _⟩ | ⟨_, hself | hwild⟩
    · cases hexp
    · cases hno
    · exact ⟨hself, (hiff hself).mp ⟨t, hrun⟩⟩
    · exact absurd (tame_of_reachable h ht hr) hwild
  · rintro ⟨hself, hroom⟩
    exact (hiff hself).mpr hroom

theorem deadlock_iff_mkdir :
    ¬∃ t, runCall 0 (.mkdir (some [100])) (boot freshImage []) = (.error .deadlock, t) := by
  rw [deadlock_iff consistent_freshImage tame_freshImage (Reachable.init _)
    (c := .mkdir (some [100])) (p := 0) (by decide)]
  rintro ⟨hself, _⟩
  exact hself

def makeFileAndDir : List (Slot × Call) :=
  [(0, .openf (some [102]) O_CREATE), (0, .mkdir (some [100]))]

def linkOntoDot : Call :=
  .link (some [102]) (some [100, 47, 46])

def linkWaits (s : State) : Bool :=
  match runCall 0 linkOntoDot s with
  | (.error e, _) => e = .deadlock ∧ linkOntoDot.enabled s 0
  | (.ok _, _) => false

theorem exists_linkWaits :
    ∃ s t, Reachable Fs.step (boot freshImage []) s ∧ linkOntoDot.enabled s 0 ∧
      runCall 0 linkOntoDot s = (.error .deadlock, t) := by
  obtain ⟨s, hrun, hwaits⟩ := exists_of_run_map Fs.step (boot freshImage []) makeFileAndDir
    linkWaits (by decide +kernel)
  unfold linkWaits at hwaits
  cases hlink : runCall 0 linkOntoDot s with
  | mk r t =>
    rw [hlink] at hwaits
    cases r with
    | ok r => cases hwaits
    | error e =>
      simp only [decide_eq_true_eq] at hwaits
      obtain ⟨rfl, hen⟩ := hwaits
      exact ⟨s, t, ⟨makeFileAndDir, hrun⟩, hen, hlink⟩

/-- After `open("f", O_CREATE)` and `mkdir("d")` the call `link("f", "d/.")` never returns. -/
theorem link_onto_dot_waits :
    ∃ s t, Reachable Fs.step (boot freshImage []) s ∧
      runCall 0 (.link (some [102]) (some [100, 47, 46])) s = (.error .deadlock, t) := by
  obtain ⟨s, t, hs, _, hrun⟩ := exists_linkWaits
  exact ⟨s, t, hs, hrun⟩

/-- A call on a path that returns -1 has changed nothing if and only if it is not `open` with
`O_CREATE` of a file that was not there. -/
theorem failed_call_iff (h : Consistent disk) (hr : Reachable Fs.step (boot disk tty) s)
    (hen : c.enabled s p) (hpath : c.onPath = true) (hrun : runCall p c s = (.ok (-1), t)) :
    (Unchanged s t ∧ ∀ a, (t.icache a).ref = (s.icache a).ref) ↔ ¬c.Creates s p := by
  have hs := settled_of_reachable h hr
  have hdone := hs.done hen hrun
  rw [← hdone.failed hpath rfl]
  constructor
  · exact fun hsame => hsame.1
  · intro hsame
    refine ⟨hsame, ?_⟩
    intro a
    rw [hdone.returned.inv.refs a, hs.inv.refs a]
    unfold State.holders
    rw [hsame.file, hsame.proc]

def fillDescriptors : List (Slot × Call) :=
  (0, .openf (some [47]) 0) :: List.replicate 15 (0, .dup 0)

def createLeaks (s : State) : Bool :=
  match runCall 0 (.openf (some [120]) O_CREATE) s with
  | (.ok r, t) => r = -1 ∧ (s.node 2).type = 0 ∧ (t.node 2).type = T_FILE
  | (.error _, _) => false

/-- Without a free descriptor `open("x", O_CREATE)` returns -1 and leaves the new file behind. -/
theorem failed_open_creates :
    ∃ s t, Reachable Fs.step (boot freshImage []) s ∧
      runCall 0 (.openf (some [120]) O_CREATE) s = (.ok (-1), t) ∧ ¬Unchanged s t := by
  obtain ⟨s, hrun, hleaks⟩ := exists_of_run_map Fs.step (boot freshImage []) fillDescriptors
    createLeaks (by decide +kernel)
  unfold createLeaks at hleaks
  cases hopen : runCall 0 (.openf (some [120]) O_CREATE) s with
  | mk r t =>
    rw [hopen] at hleaks
    cases r with
    | error e => cases hleaks
    | ok r =>
      simp only [decide_eq_true_eq] at hleaks
      obtain ⟨rfl, hfree, hfile⟩ := hleaks
      refine ⟨s, t, ⟨fillDescriptors, hrun⟩, hopen, ?_⟩
      intro hsame
      rw [hsame.node, hfree] at hfile
      exact absurd hfile (by decide)

/-- `unlink("x")` on the new image returns -1. -/
theorem failed_unlink_unchanged :
    ∃ t, runCall 0 (.unlink (some [120])) (boot freshImage []) = (.ok (-1), t) ∧
      Unchanged (boot freshImage []) t := by
  have hrun : (runCall 0 (.unlink (some [120])) (boot freshImage [])).1 = .ok (-1) := by
    decide +kernel
  refine ⟨(runCall 0 (.unlink (some [120])) (boot freshImage [])).2, Prod.ext hrun rfl, ?_⟩
  exact ((failed_call_iff consistent_freshImage (Reachable.init _) (c := .unlink (some [120]))
    (p := 0) (by decide) rfl (Prod.ext hrun rfl)).mpr id).1

/--
Between two calls an inode has at most one entry of the cache, no entry is locked, the count of
an entry is the number of open files and current directories, what is cached is what is on disk,
and an inode in use without links is still held.
-/
theorem inode_cache_coherent (h : Consistent disk) (hr : Reachable Fs.step (boot disk tty) s) :
    (∀ a b, 0 < (s.icache a).ref → 0 < (s.icache b).ref →
      (s.icache a).inum = (s.icache b).inum → a = b) ∧
    (∀ a, (s.icache a).locked = false ∧ (s.icache a).ref = s.holders a) ∧
    (∀ a, 0 < (s.icache a).ref → (s.icache a).valid = true →
      (s.icache a).d = s.ino (s.icache a).inum) ∧
    ∀ n, (s.node n).type ≠ 0 → (s.node n).nlink = 0 →
      ∃ a, (s.icache a).inum = n ∧ 0 < s.holders a := by
  have hs := (settled_of_reachable h hr).inv
  refine ⟨hs.uniq, ?_, fun a ha hv => (hs.sync a ha hv).1, ?_⟩
  · intro a
    refine ⟨?_, by simpa using hs.refs a⟩
    simpa using (hs.locks a).not
  · intro n ht hn
    obtain ⟨a, hinum, hheld, _⟩ := hs.live n (Finset.notMem_empty n) ht hn
    exact ⟨a, hinum, hheld⟩

theorem inode_cache_coherent_of_unlinked :
    ∃ s, run Fs.step (boot freshImage []) writeAndUnlink = some s ∧ (s.node 2).nlink = 0 ∧
      ∃ a, (s.icache a).inum = 2 ∧ 0 < s.holders a := by
  obtain ⟨s, hrun, _, _, htype, hnlink⟩ := exists_writeAndUnlink
  exact ⟨s, hrun, hnlink,
    (inode_cache_coherent consistent_freshImage ⟨_, hrun⟩).2.2.2 2 htype hnlink⟩

/--
No call fails a check of the file system that is there against its own errors, and no loop runs
on.  `ilock` finds a free inode only where a directory entry names one.
-/
theorem checks_hold {e : Stop} (h : Consistent disk) (hr : Reachable Fs.step (boot disk tty) s)
    (hen : c.enabled s p) (hstop : runCall p c s = (.error e, t)) :
    e ∉ [.outsideTrans, .freeingFree, .ilock, .iunlock, .bmapRange, .notDir, .dirlookupRead,
      .dirlinkRead, .dirEmptyRead, .unlinkWrite, .createDots, .createDirlink, .shortWrite,
      .nullCwd, .fuel] ∧ (e = .noType → ¬Sound s.node) := by
  rcases (settled_of_reachable h hr).stopped hen hstop with hexp | ⟨rfl, hno⟩ | ⟨rfl, _⟩
  · cases e <;> simp_all [Stop.expected]
  · exact ⟨by decide, fun _ => hno⟩
  · exact ⟨by decide, by rintro ⟨⟩⟩

theorem checks_hold_link_waits :
    ∃ s e t, Reachable Fs.step (boot freshImage []) s ∧
      runCall 0 linkOntoDot s = (.error e, t) ∧ e ≠ .ilock ∧ e ≠ .fuel := by
  obtain ⟨s, t, hs, hen, hrun⟩ := exists_linkWaits
  have hholds := (checks_hold consistent_freshImage hs hen hrun).1
  refine ⟨s, _, t, hs, hrun, ?_, ?_⟩
  · rintro heq
    exact hholds (heq ▸ by decide)
  · rintro heq
    exact hholds (heq ▸ by decide)

end Xv6.Fs
