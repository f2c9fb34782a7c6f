import Xv6.Fs.Sys

/-!
# Runs of the file system

One specification for all calls, and what follows for runs from a consistent
image: blocks are owned, and files have no holes.
-/

namespace Xv6.Fs

open Lib Lib.Prog Log Ptable

variable {s : State} {p : Slot} {c : Call} {m : FM Int} {E E' : Stop → State → Prop}

/-- The calls that take a path and change the file system or what a process refers to. -/
def Call.onPath : Call → Bool
  | .link .. | .unlink .. | .openf .. | .mkdir .. | .mknod .. | .chdir .. => true
  | _ => false

/-- `open` with `O_CREATE` of a path that names no file yet. -/
def Call.Creates (s : State) (p : Slot) : Call → Prop
  | .openf (some path) omode => omode &&& O_CREATE ≠ 0 ∧ s.Missing p path
  | _ => False

/-- `link` onto an entry of a directory for the directory itself. -/
def Call.LinksOntoSelf (s : State) (p : Slot) : Call → Prop
  | .link (some old) (some new) => s.LinksOntoSelf p old new
  | _ => False

/-- A call that is `link` is not stopped before it has looked up the new name. -/
def Call.LinkRoom (s : State) (p : Slot) : Call → Prop
  | .link (some old) (some new) => s.LinkRoom p old new
  | _ => True

structure CallDone (s : State) (p : Slot) (c : Call) (r : Int) (s' : State) : Prop where
  returned : Returned s s'
  failed : c.onPath = true → r = -1 → (Unchanged s s' ↔ ¬c.Creates s p)
  clear : ¬c.LinksOntoSelf s p

theorem unchanged_refl (s : State) : Unchanged s s :=
  ⟨rfl, fun _ => rfl, rfl, rfl, fun _ _ => rfl⟩

theorem returned_refl (h : In s 0 ∅ ∅) : Returned s s :=
  ⟨h, rfl, effect_of_eq rfl⟩

theorem withFd_spec {fd : Fin NOFILE} {body : Fin NFILE → FM Int} (h : In s 0 ∅ ∅)
    (hbody : ∀ i, wp (body i) (fun _ s' => Returned s s') (fun e _ => e.expected = true) s) :
    wp (withFd p fd body) (fun _ s' => Returned s s') (fun e _ => e.expected = true) s := by
  unfold withFd
  rw [wp_bind, wp_get]
  cases hfd : (s.proc p).ofile fd with
  | none => exact returned_refl h
  | some i => exact hbody i

theorem Stops.mono {node : Nat → Node} {D D' : Prop} {e : Stop} (h : Stops node D e) (hD : D → D') :
    Stops node D' e := by
  rcases h with h | h | ⟨h, hd⟩
  · exact .inl h
  · exact .inr (.inl h)
  · exact .inr (.inr ⟨h, hD hd⟩)

theorem plain_spec (hpath : c.onPath = false) (hself : ¬c.LinksOntoSelf s p)
    (h : wp m (fun _ s' => Returned s s') E s)
    (hE : ∀ e t, E e t → E' e t) : wp m (CallDone s p c) E' s := by
  refine wp_mono h ?_ hE
  intro r s' hr
  refine ⟨hr, ?_, hself⟩
  intro hp
  rw [hpath] at hp
  cases hp

theorem path_spec (hcreate : ¬c.Creates s p) (hself : ¬c.LinksOntoSelf s p)
    (h : wp m (fun r s' => Returned s s' ∧ (r = -1 → Unchanged s s')) E s)
    (hE : ∀ e t, E e t → E' e t) : wp m (CallDone s p c) E' s := by
  refine wp_mono h ?_ hE
  rintro r s' ⟨hr, hfail⟩
  exact ⟨hr, fun _ h1 => ⟨fun _ => hcreate, fun _ => hfail h1⟩, hself⟩

/-- Every call keeps the invariant and changes the table of files in one of the known ways; it
waits for itself only in `link` onto a directory's own entry, or in a directory that is not tame. -/
theorem runCall_spec (h : In s 0 ∅ ∅) (hen : c.enabled s p) :
    wp (runCall p c) (CallDone s p c)
      (fun e _ => Stops s.node (c.LinksOntoSelf s p ∨ ¬Tame s.node) e) s := by
  have hexp : ∀ (D : Prop) (e : Stop) (_ : State), e.expected = true → Stops s.node D e :=
    fun _ _ _ he => .inl he
  have hstop : ∀ (e : Stop) (_ : State), Stops s.node False e →
      Stops s.node (c.LinksOntoSelf s p ∨ ¬Tame s.node) e :=
    fun _ _ he => he.mono False.elim
  have hsome : (s.proc p).cwd.isSome := by
    cases c with
    | fork np => exact hen.1
    | _ => exact hen
  obtain ⟨b, hcwd⟩ := Option.isSome_iff_exists.mp hsome
  cases c with
  | link old new =>
    have hbad : ∀ old new, (old = none ∨ new = none) →
        wp (sysLink p old new) (CallDone s p (.link old new))
          (fun e _ =>
            Stops s.node (Call.LinksOntoSelf s p (.link old new) ∨ ¬Tame s.node) e) s := by
      rintro old new (rfl | rfl)
      · exact ⟨returned_refl h, fun _ _ => ⟨fun _ => id, fun _ => unchanged_refl s⟩, id⟩
      · cases old with
        | none => exact ⟨returned_refl h, fun _ _ => ⟨fun _ => id, fun _ => unchanged_refl s⟩, id⟩
        | some old =>
          exact ⟨returned_refl h, fun _ _ => ⟨fun _ => id, fun _ => unchanged_refl s⟩, id⟩
    cases old with
    | none => exact hbad none new (.inl rfl)
    | some old =>
      cases new with
      | none => exact hbad (some old) none (.inr rfl)
      | some new =>
        refine wp_mono (linkStr_spec h hcwd) ?_ fun _ _ he => he.1.mono fun hw => .inl hw.1
        rintro r s' ⟨hself, t, rfl, ht, hf, hend⟩
        rcases hend with ⟨rfl, hs⟩ | ⟨rfl, i, d, name, _, hi, hfile, hd, hnew, hfrees⟩
        · exact ⟨returned_still ht hs, fun _ _ => ⟨fun _ => id, fun _ => unchanged_ended hs⟩, hself⟩
        · refine ⟨returned_ended ht hf (.link hi hfile hd hnew hfrees), fun _ h0 => ?_, hself⟩
          exact absurd h0 (by decide)
  | unlink path =>
    cases path with
    | none => exact ⟨returned_refl h, fun _ _ => ⟨fun _ => id, fun _ => unchanged_refl s⟩, id⟩
    | some path =>
      refine wp_mono (unlinkStr_spec h hcwd) ?_ fun _ _ he => he.mono Or.inr
      rintro r s' ⟨t, rfl, ht, hf, hend⟩
      rcases hend with ⟨rfl, hs⟩ | ⟨rfl, heff⟩
      · exact ⟨returned_still ht hs, fun _ _ => ⟨fun _ => id, fun _ => unchanged_ended hs⟩, id⟩
      · refine ⟨returned_ended ht hf heff, fun _ h0 => ?_, id⟩
        exact absurd h0 (by decide)
  | openf path omode =>
    cases path with
    | none => exact ⟨returned_refl h, fun _ _ => ⟨fun _ => id, fun _ => unchanged_refl s⟩, id⟩
    | some path =>
      refine wp_mono (openStr_spec h hcwd) ?_ hstop
      rintro r s' ⟨hr, hfail⟩
      exact ⟨hr, fun _ => hfail, id⟩
  | mkdir path => exact path_spec id id (makeNode_spec (.inl rfl) h hcwd) hstop
  | mknod path major minor => exact path_spec id id (makeNode_spec (.inr rfl) h hcwd) hstop
  | chdir path => exact path_spec id id (sysChdir_spec h hcwd) hstop
  | exec path parts =>
    cases path with
    | none => exact plain_spec rfl id (m := pure (-1)) (returned_refl h) hstop
    | some path => exact plain_spec rfl id (execRead_spec h hcwd) hstop
  | dup fd => exact plain_spec rfl id (withFd_spec h fun i => dupFile_spec h) (hexp _)
  | close fd => exact plain_spec rfl id (withFd_spec h fun i => closeFile_spec h) (hexp _)
  | read fd n => exact plain_spec rfl id (withFd_spec h fun i => fileread_spec h) (hexp _)
  | write fd src => exact plain_spec rfl id (withFd_spec h fun i => filewrite_spec h) (hexp _)
  | fork np => exact plain_spec rfl id (fork_spec h hcwd hen.2) (hexp _)
  | exit => exact plain_spec rfl id (exit_spec h hcwd) (hexp _)

end Xv6.Fs
