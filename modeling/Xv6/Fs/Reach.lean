import Xv6.Fs.Run

/-!
# Reachable states of the file system

A consistent image is one on which no file has a hole, every block has one owner,
and every inode in use has a link.  Between calls the state that runs from such
an image is `Settled`: the invariant of the inode cache holds, nothing is locked
and no operation is in progress.
-/

namespace Xv6.Fs

open Lib Lib.Prog Log Ptable

variable {disk : Disk} {tty : List (Option (List UInt8))} {s t : State} {p : Slot} {c : Call}
variable {l : Slot × Call} {r : Int}

/-- An image that the kernel can start from. -/
structure Consistent (disk : Disk) : Prop where
  rep : Rep (readsb disk) disk
  root : (nodeAt (readsb disk) disk ROOTINO).type = T_DIR
  links : ∀ n, (nodeAt (readsb disk) disk n).type ≠ 0 → (nodeAt (readsb disk) disk n).nlink ≠ 0
  dirs : ∀ n, (nodeAt (readsb disk) disk n).DirOk (readsb disk)

/-- Nothing is in progress. -/
structure Settled (s : State) : Prop where
  inv : In s 0 ∅ ∅
  outstanding : s.outstanding = 0

theorem holders_boot (a : Ino) : (boot disk tty).holders a = if a = 0 then 1 else 0 := by
  have hproc := total_update (fun q : Proc => if q.cwd = some a then 1 else 0)
    (fun _ : Slot => (⟨none, fun _ => none⟩ : Proc)) 0 ⟨some 0, fun _ => none⟩
  have hnone : total (fun q : Proc => if q.cwd = some a then 1 else 0)
      (fun _ : Slot => (⟨none, fun _ => none⟩ : Proc)) = 0 := by
    unfold total
    simp
  have hfile : total (fun f : File => if f.ip = some a then 1 else 0)
      (fun _ : Fin NFILE => (⟨0, none, false, false, 0⟩ : File)) = 0 := by
    unfold total
    simp
  unfold State.holders boot
  simp only
  rw [hfile]
  rw [hnone] at hproc
  simp only [reduceCtorEq, if_false, Nat.add_zero, Nat.zero_add, Option.some.injEq] at hproc
  rw [hproc, Nat.add_zero]
  simp only [eq_comm]

theorem ref_boot (a : Ino) : ((boot disk tty).icache a).ref = if a = 0 then 1 else 0 := by
  unfold boot bootCache
  by_cases ha : a = 0
  · subst ha
    simp
  · simp [ha]

theorem inum_boot : ((boot disk tty).icache 0).inum = ROOTINO := by
  unfold boot bootCache
  simp

theorem unlocked_boot (a : Ino) :
    ((boot disk tty).icache a).locked = false ∧ ((boot disk tty).icache a).valid = false := by
  unfold boot bootCache
  by_cases ha : a = 0
  · subst ha
    simp
  · simp [ha]

theorem Consistent.settled (h : Consistent disk) : Settled (boot disk tty) := by
  have hzero : ∀ a, 0 < ((boot disk tty).icache a).ref → a = 0 := by
    intro a ha
    rw [ref_boot] at ha
    by_contra hne
    rw [if_neg hne] at ha
    exact absurd ha (Nat.lt_irrefl 0)
  refine ⟨⟨h.rep, ?_, ?_, ?_, ?_, ?_, ?_, ?_, ?_, h.dirs, ?_⟩, rfl⟩
  · intro a ha
    rw [hzero a ha, inum_boot]
    exact h.rep.ok.root
  · intro a b ha hb _
    rw [hzero a ha, hzero b hb]
  · intro a _ hv
    rw [(unlocked_boot a).2] at hv
    cases hv
  · intro a
    rw [ref_boot, holders_boot]
    simp
  · intro a
    rw [(unlocked_boot a).1]
    simp
  · intro a ha
    exact absurd ha (Finset.notMem_empty a)
  · intro a ha
    rw [holders_boot] at ha
    have ha0 : a = 0 := by
      by_contra hne
      rw [if_neg hne] at ha
      exact absurd ha (Nat.lt_irrefl 0)
    rw [ha0, inum_boot, ← State.node_type]
    have hroot : ((boot disk tty).node ROOTINO).type = T_DIR := h.root
    rw [hroot]
    decide
  · intro n _ ht hl
    exact absurd hl (h.links n ht)
  · intro i a hip
    cases hip

theorem runCall_of_step (h : step s l = some t) :
    l.2.enabled s l.1 ∧ ∃ r, runCall l.1 l.2 s = (.ok r, t) := by
  unfold step at h
  by_cases hen : l.2.enabled s l.1
  · rw [if_pos hen] at h
    refine ⟨hen, ?_⟩
    cases hrun : runCall l.1 l.2 s with
    | mk r u =>
      rw [hrun] at h
      cases r with
      | ok r =>
        cases h
        exact ⟨r, rfl⟩
      | error e => cases h
  · rw [if_neg hen] at h
    cases h

theorem Settled.done (h : Settled s) (hen : c.enabled s p)
    (hrun : runCall p c s = (.ok r, t)) : CallDone s p c r t :=
  wp_ok (runCall_spec h.inv hen) hrun

theorem Settled.stopped {e : Stop} (h : Settled s) (hen : c.enabled s p)
    (hrun : runCall p c s = (.error e, t)) :
    Stops s.node (c.LinksOntoSelf s p ∨ ¬Tame s.node) e := by
  have hspec := runCall_spec h.inv hen
  unfold wp at hspec
  rw [hrun] at hspec
  exact hspec

theorem CallDone.settled (h : CallDone s p c r t) (hs : Settled s) : Settled t :=
  ⟨h.returned.inv, h.returned.outstanding.trans hs.outstanding⟩

theorem Settled.step (h : Settled s) (hstep : step s l = some t) : Settled t := by
  obtain ⟨hen, r, hrun⟩ := runCall_of_step hstep
  exact (h.done hen hrun).settled h

theorem settled_of_reachable {disk : Disk} (h : Consistent disk)
    (hr : Reachable step (boot disk tty) s) : Settled s :=
  hr.invariant Settled h.settled fun _ _ _ hs hstep => hs.step hstep

end Xv6.Fs
