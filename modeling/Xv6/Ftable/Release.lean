import Xv6.Ftable.Sound

/-!
# Inodes, pipe ends and pages are released once

The history of a run records when a file gets an inode or a pipe end, when `fileclose`
releases one, and when the page of a pipe is taken from and given back to `kalloc`.  What
has been opened and not yet released is in one entry of the table, or in the hands of one
call of `fileclose`.
-/

namespace Xv6.Ftable

open Lib Function
open Ptable (NOFILE NFILE)

variable {f f0 f1 : Fin NFILE} {k : Rest}

/-- What is opened and released. -/
inductive Event (I G : Type) where
  | opened (o : Obj I G)
  | released (o : Obj I G)
  | allocated (g : G)
  | freed (g : G)
deriving DecidableEq

section Definitions

variable {P I G : Type} [DecidableEq P] [DecidableEq I] [DecidableEq G]

/-- What a step opens and releases. -/
def shows (s : State P I G) (l : P × Act P I G) : List (Event I G) :=
  match l.2, (s.proc l.1).pc with
  | .turn, .typing ip _ _ => [.opened (.inode ip)]
  | .kalloc (some g), .pipePage _ _ =>
    [.opened (.pipe g false), .opened (.pipe g true), .allocated g]
  | .turn, .releasing o _ => [.released o]
  | .turn, .freeing g _ => [.freed g]
  | _, _ => []

abbrev recorded :
    State P I G × List (Event I G) → P × Act P I G → Option (State P I G × List (Event I G)) :=
  recordStep step shows

def hasObj (o : Obj I G) (x : File I G) : Nat :=
  if x.obj = some o then 1 else 0

def releases (o : Obj I G) (pr : Proc P I G) : Nat :=
  match pr.pc with
  | .releasing o' _ => if o' = o then 1 else 0
  | _ => 0

def frees (g : G) (pr : Proc P I G) : Nat :=
  match pr.pc with
  | .freeing g' _ => if g' = g then 1 else 0
  | _ => 0

/-- How often an object is open. -/
def outstanding [Fintype P] (o : Obj I G) (s : State P I G) : Nat :=
  total (hasObj o) s.file + total (releases o) s.proc

/-- The ends of a pipe that are open. -/
def ends (w : Bool) : Option Pipe → Nat
  | none => 0
  | some e => if (if w = true then e.writeopen else e.readopen) = true then 1 else 0

def shut (e : Option Pipe) : Nat :=
  if e = some ⟨false, false⟩ then 1 else 0

end Definitions

section Steps

variable {P I G : Type} [Fintype P] [DecidableEq P] [DecidableEq I] [DecidableEq G]
variable {s t : State P I G} {l : P × Act P I G}

omit [Fintype P] [DecidableEq P] in
@[simp, grind =] theorem releases_rest
    (o : Obj I G) (k : Rest) (ofile : Fin NOFILE → Option (Fin NFILE)) :
    releases o (⟨k.pc, ofile⟩ : Proc P I G) = 0 := by
  rcases k with ⟨_ | ⟨f, fs⟩⟩ | ⟨fd, f⟩ <;> rfl

omit [Fintype P] [DecidableEq P] [DecidableEq I] in
@[simp, grind =] theorem frees_rest (g : G) (k : Rest) (ofile : Fin NOFILE → Option (Fin NFILE)) :
    frees g (⟨k.pc, ofile⟩ : Proc P I G) = 0 := by
  rcases k with ⟨_ | ⟨f, fs⟩⟩ | ⟨fd, f⟩ <;> rfl

omit [Fintype P] [DecidableEq P] [DecidableEq I] in
theorem Closes.frees {pr : Proc P I G} (g : G) (h : Closes pr f k) : frees g pr = 0 := by
  cases h with
  | call fs hpc => simp [Ftable.frees, hpc]
  | exit fd hpc hslot => simp [Ftable.frees, hpc]

omit [Fintype P] [DecidableEq P] in
theorem Closes.releases {pr : Proc P I G} (o : Obj I G)
    (h : Closes pr f k) : releases o pr = 0 := by
  cases h with
  | call fs hpc => simp [Ftable.releases, hpc]
  | exit fd hpc hslot => simp [Ftable.releases, hpc]

omit [Fintype P] [DecidableEq P] [DecidableEq I] [DecidableEq G] in
theorem Closes.shows {p : P} (h : Closes (s.proc p) f k) : shows s (p, .turn) = [] := by
  cases h with
  | call fs hpc => simp [Ftable.shows, hpc]
  | exit fd hpc hslot => simp [Ftable.shows, hpc]

omit [Fintype P] [DecidableEq P] [DecidableEq I] [DecidableEq G] in
theorem obj_of_fresh {p : P} (h : s.Fresh) (hf : f ∈ (s.proc p).pc.fresh) :
    (s.file f).obj = none := by
  simp only [File.obj, (h.taken p f hf).2]

def Balanced (o : Obj I G) (s t : State P I G) (l : P × Act P I G) : Prop :=
  outstanding o t + (shows s l).count (.released o) =
    outstanding o s + (shows s l).count (.opened o)

omit [DecidableEq P] in
theorem balanced_quiet (o : Obj I G) (hshows : shows s l = [])
    (hfile : ∀ f, (t.file f).obj = (s.file f).obj)
    (hproc : ∀ q, releases o (t.proc q) = releases o (s.proc q)) : Balanced o s t l := by
  simp only [Balanced, hshows, List.count_nil, outstanding, total, hasObj, hfile, hproc]

section
variable (o : Obj I G)

theorem balanced_proc {p : P} {pr : Proc P I G} (hfile : t.file = s.file)
    (hproc : t.proc = update s.proc p pr)
    (hshows : releases o pr + (shows s l).count (.released o) =
      releases o (s.proc p) + (shows s l).count (.opened o)) :
    Balanced o s t l := by
  have htotal := total_update (releases o) s.proc p pr
  simp only [Balanced, outstanding, hproc, hfile]
  omega

theorem balanced_file {p : P} {pr : Proc P I G} {x : File I G} (hfile : t.file = update s.file f x)
    (hproc : t.proc = update s.proc p pr)
    (hshows : hasObj o x + releases o pr + (shows s l).count (.released o) =
      hasObj o (s.file f) + releases o (s.proc p) + (shows s l).count (.opened o)) :
    Balanced o s t l := by
  have hprocs := total_update (releases o) s.proc p pr
  have hfiles := total_update (hasObj o) s.file f x
  simp only [Balanced, outstanding, hproc, hfile]
  omega

theorem balanced_pipe {p : P} {pr : Proc P I G} {g : G}
    (hpc : (s.proc p).pc = .pipePage f0 f1) (h : s.Fresh) (hpr : releases o pr = 0) :
    Balanced o s ((pipeMade s f0 f1 g).setProc p pr) (p, .kalloc (some g)) := by
  have hapart : f0 ≠ f1 := by
    have hnodup := h.apart p
    simpa [hpc, Pc.fresh] using hnodup
  have hnone0 := obj_of_fresh h (p := p) (f := f0) (by simp [hpc, Pc.fresh])
  have hnone1 := obj_of_fresh h (p := p) (f := f1) (by simp [hpc, Pc.fresh])
  have hprocs := total_update (releases o) s.proc p pr
  have hfirst := total_update (hasObj o) s.file f0 (pipeFile (s.file f0) g false)
  have hsecond := total_update (hasObj o)
    (update s.file f0 (pipeFile (s.file f0) g false)) f1 (pipeFile (s.file f1) g true)
  rw [update_of_ne (Ne.symm hapart)] at hsecond
  have hold : releases o (s.proc p) = 0 := by simp [releases, hpc]
  have hout : outstanding o ((pipeMade s f0 f1 g).setProc p pr) =
      outstanding o s + hasObj o (pipeFile (s.file f0) g false) +
        hasObj o (pipeFile (s.file f1) g true) := by
    simp only [hasObj, hnone0, hnone1] at hfirst hsecond
    simp only [hold, hpr] at hprocs
    simp only [outstanding, hasObj, pipeMade, State.setProc, State.setFile, State.setPipe]
    simp at hfirst hsecond hprocs
    omega
  simp only [Balanced, hout, shows, hpc]
  grind [hasObj, pipeFile, File.obj]

theorem balanced_step (h : s.Sound) (hstep : step s l = some t) : Balanced o s t l := by
  cases h.move hstep with
  | same l hpc =>
    have hshows : shows s l = [] := by
      simp only [shows, hpc]
      split <;> simp_all
    exact balanced_quiet o hshows (fun f => rfl) fun q => rfl
  | typed p ip omode f hpc =>
    have hold := obj_of_fresh h.fresh (p := p) (f := f) (by simp [hpc, Pc.fresh])
    refine balanced_file o rfl rfl ?_
    grind [shows, hasObj, releases, openedFile, File.obj]
  | shared p f k hclose =>
    have hold := hclose.releases o
    exact balanced_quiet o hclose.shows (by grind [File.obj]) (by grind)
  | last p f k hclose href hobj =>
    have hold := hclose.releases o
    exact balanced_quiet o hclose.shows (by grind [File.obj]) (by grind)
  | lastOf p f k o' hclose href hobj =>
    have hold := hclose.releases o
    have hshows := hclose.shows
    refine balanced_file o rfl rfl ?_
    grind [hasObj, releases, File.obj]
  | iput p ip k hpc =>
    refine balanced_proc o rfl rfl ?_
    grind [shows, releases]
  | pipeclose p g w k e hpc =>
    refine balanced_proc o rfl rfl ?_
    grind [shows, releases]
  | pipecloseBoth p g w k e hpc =>
    refine balanced_proc o rfl rfl ?_
    grind [shows, releases]
  | freed p g k hpc =>
    refine balanced_proc o rfl rfl ?_
    grind [shows, releases]
  | pipeFull p f0 f1 g hpc => exact balanced_pipe o hpc h.fresh rfl
  | piped p f0 f1 g fd0 fd1 hpc => exact balanced_pipe o hpc h.fresh rfl
  | forkFail p np hpc =>
    have hnp := (h.family.child p np 0 (by rw [hpc]; rfl)).1
    exact balanced_quiet o (by simp [shows]) (by grind) (by grind [releases])
  | forkDup p np fd f hpc =>
    have hnp := (h.family.child p np fd.val (by rw [hpc]; rfl)).1
    exact balanced_quiet o (by simp [shows, hpc]) (by grind [File.obj]) (by grind [releases])
  | forked p np i hpc hi =>
    have hnp := (h.family.child p np i (by rw [hpc]; rfl)).1
    exact balanced_quiet o (by simp [shows, hpc]) (by grind) (by grind [releases])
  | _ => exact balanced_quiet o (by simp [shows, *]) (by grind [File.obj]) (by grind [releases])

end

/-- The open ends of a pipe are those that are in use, and a pipe without one is being freed. -/
structure State.Piped (s : State P I G) : Prop where
  used : ∀ g w, ends w (s.pipe g) = outstanding (.pipe g w) s
  unused : ∀ g, shut (s.pipe g) = total (frees g) s.proc

omit [DecidableEq P] in
theorem outstanding_pos {p : P} {o : Obj I G} (hpc : (s.proc p).pc = .releasing o k) :
    1 ≤ outstanding o s := by
  have hle := le_total (w := releases o) (f := s.proc) (fun q => Nat.zero_le _) p
  simp only [releases, hpc, if_pos] at hle
  exact le_trans hle (Nat.le_add_left _ _)

omit [DecidableEq P] in
theorem State.Piped.shut_of_freeing {p : P} {g : G} (h : s.Piped)
    (hpc : (s.proc p).pc = .freeing g k) : s.pipe g = some ⟨false, false⟩ := by
  have hle := le_total (w := frees g) (f := s.proc) (fun q => Nat.zero_le _) p
  simp only [frees, hpc, if_pos, ← h.unused g, shut] at hle
  by_contra hne
  rw [if_neg hne] at hle
  omega

omit [DecidableEq P] in
theorem State.Piped.keep (h : s.Piped) (hbalanced : ∀ g w, Balanced (.pipe g w) s t l)
    (hpipe : t.pipe = s.pipe) (hshows : ∀ g w, (shows s l).count (.released (.pipe g w)) = 0 ∧
      (shows s l).count (.opened (.pipe g w)) = 0)
    (hfrees : ∀ g q, frees g (t.proc q) = frees g (s.proc q)) :
    t.Piped where
  used := by
    intro g w
    have hsame := hbalanced g w
    rw [Balanced, (hshows g w).1, (hshows g w).2] at hsame
    have hold := h.used g w
    rw [hpipe]
    omega
  unused := by
    intro g
    rw [hpipe, h.unused g]
    simp only [total, hfrees]

theorem State.Piped.made {p : P} {pr : Proc P I G} {g : G} (h : s.Piped)
    (hpc : (s.proc p).pc = .pipePage f0 f1) (hg : s.pipe g = none)
    (hbalanced : ∀ g' w, Balanced (.pipe g' w) s ((pipeMade s f0 f1 g).setProc p pr)
      (p, .kalloc (some g)))
    (hpr : ∀ g', frees g' pr = 0) :
    ((pipeMade s f0 f1 g).setProc p pr).Piped where
  used := by
    intro g' w
    have hbal := hbalanced g' w
    have hold := h.used g' w
    simp only [Balanced, shows, hpc] at hbal
    cases w <;> grind [ends]
  unused := by
    intro g'
    have htotal := total_update (frees g') s.proc p pr
    have hzero : frees g' (s.proc p) = 0 := by simp [frees, hpc]
    have hold := h.unused g'
    have hnew : total (frees g') ((pipeMade s f0 f1 g).setProc p pr).proc =
        total (frees g') s.proc := by
      rw [hzero, hpr g'] at htotal
      exact htotal
    rw [hnew, ← hold]
    grind [shut]

theorem State.Piped.closed {p : P} {c : Pc P I G} {g : G} {w : Bool} {e : Pipe} (h : s.Piped)
    (hpc : (s.proc p).pc = .releasing (.pipe g w) k) (hg : s.pipe g = some e)
    (hbalanced : ∀ g' w', Balanced (.pipe g' w') s
      ((s.setPipe g (some (e.close w))).setPc p c) (p, .turn))
    (hc : ∀ g', frees g' ({ s.proc p with pc := c } : Proc P I G) =
      if g' = g then shut (some (e.close w)) else 0) :
    ((s.setPipe g (some (e.close w))).setPc p c).Piped where
  used := by
    intro g' w'
    have hbal := hbalanced g' w'
    have hold := h.used g' w'
    simp only [Balanced, shows, hpc] at hbal
    cases w <;> cases w' <;> grind [ends, Pipe.close]
  unused := by
    intro g'
    have hopen := outstanding_pos hpc
    rw [← h.used g w, hg] at hopen
    have htotal := total_update (frees g') s.proc p { s.proc p with pc := c }
    have hzero : frees g' (s.proc p) = 0 := by simp [frees, hpc]
    have hold := h.unused g'
    have hnew : total (frees g') ((s.setPipe g (some (e.close w))).setPc p c).proc =
        total (frees g') s.proc + frees g' { s.proc p with pc := c } := by
      rw [hzero] at htotal
      exact htotal
    rw [hnew, hc g', ← hold]
    cases w <;> grind [shut, ends]

theorem piped_step (h : s.Sound) (hpiped : s.Piped) (hstep : step s l = some t) : t.Piped := by
  have hbalanced : ∀ g w, Balanced (.pipe g w) s t l := fun g w => balanced_step _ h hstep
  cases h.move hstep with
  | same l hpc => exact hpiped
  | typed p ip omode f hpc =>
    exact hpiped.keep hbalanced rfl (by simp [shows, hpc]) (by grind [frees])
  | shared p f k hclose =>
    have hold := fun g => hclose.frees g
    exact hpiped.keep hbalanced rfl (by simp [hclose.shows]) (by grind)
  | last p f k hclose href hobj =>
    have hold := fun g => hclose.frees g
    exact hpiped.keep hbalanced rfl (by simp [hclose.shows]) (by grind)
  | lastOf p f k o' hclose href hobj =>
    have hold := fun g => hclose.frees g
    exact hpiped.keep hbalanced rfl (by simp [hclose.shows]) (by grind [frees])
  | iput p ip k hpc => exact hpiped.keep hbalanced rfl (by simp [shows, hpc]) (by grind [frees])
  | pipeclose p g w k e hpc hg hopen =>
    refine hpiped.closed hpc hg hbalanced fun g' => ?_
    simp [shut, hopen]
  | pipecloseBoth p g w k e hpc hg hopen =>
    refine hpiped.closed hpc hg hbalanced fun g' => ?_
    simp [shut, hopen, frees, eq_comm]
  | freed p g k hpc =>
    have hshut := hpiped.shut_of_freeing hpc
    constructor
    · intro g' w
      have hbal := hbalanced g' w
      have hold := hpiped.used g' w
      simp only [Balanced, shows, hpc] at hbal
      cases w <;> grind [ends]
    intro g'
    have htotal := total_update (frees g') s.proc p { s.proc p with pc := k.pc }
    have hold := hpiped.unused g'
    have hone : frees g' (s.proc p) = if g = g' then 1 else 0 := by simp only [frees, hpc]
    rw [hone, frees_rest] at htotal
    simp only [State.setPc, State.setProc, State.setPipe]
    grind [shut]
  | pipeFull p f0 f1 g hpc hg => exact hpiped.made hpc hg hbalanced fun g' => rfl
  | piped p f0 f1 g fd0 fd1 hpc hg => exact hpiped.made hpc hg hbalanced fun g' => rfl
  | forkFail p np hpc =>
    have hnp := (h.family.child p np 0 (by rw [hpc]; rfl)).1
    exact hpiped.keep hbalanced rfl (by simp [shows]) (by grind [frees])
  | forkDup p np fd f hpc =>
    have hnp := (h.family.child p np fd.val (by rw [hpc]; rfl)).1
    exact hpiped.keep hbalanced rfl (by simp [shows, hpc]) (by grind [frees])
  | forked p np i hpc hi =>
    have hnp := (h.family.child p np i (by rw [hpc]; rfl)).1
    exact hpiped.keep hbalanced rfl (by simp [shows, hpc]) (by grind [frees])
  | _ => exact hpiped.keep hbalanced rfl (by simp [shows, *]) (by grind [frees])

theorem pipe_step (h : s.Sound) (hpiped : s.Piped) (hstep : step s l = some t) (g : G) :
    (t.pipe g = none ∧ s.pipe g = some ⟨false, false⟩ ∧ (shows s l).count (.freed g) = 1 ∧
        (shows s l).count (.allocated g) = 0) ∨
      ((t.pipe g).isSome = true ∧ s.pipe g = none ∧ (shows s l).count (.freed g) = 0 ∧
        (shows s l).count (.allocated g) = 1) ∨
      ((t.pipe g).isSome = (s.pipe g).isSome ∧ (shows s l).count (.freed g) = 0 ∧
        (shows s l).count (.allocated g) = 0) := by
  cases h.move hstep with
  | same l hpc =>
    have hshows : shows s l = [] := by
      simp only [shows, hpc]
      split <;> simp_all
    exact .inr (.inr ⟨rfl, by simp [hshows], by simp [hshows]⟩)
  | shared p f k hclose =>
    exact .inr (.inr ⟨rfl, by simp [hclose.shows], by simp [hclose.shows]⟩)
  | last p f k hclose => exact .inr (.inr ⟨rfl, by simp [hclose.shows], by simp [hclose.shows]⟩)
  | lastOf p f k o hclose =>
    exact .inr (.inr ⟨rfl, by simp [hclose.shows], by simp [hclose.shows]⟩)
  | pipeclose p g' w k e hpc hg => grind [shows]
  | pipecloseBoth p g' w k e hpc hg => grind [shows]
  | freed p g' k hpc =>
    have hshut := hpiped.shut_of_freeing hpc
    grind [shows]
  | pipeFull p f0 f1 g' hpc hg => grind [shows]
  | piped p f0 f1 g' fd0 fd1 hpc hg => grind [shows]
  | _ => exact .inr (.inr ⟨rfl, by simp [shows, *], by simp [shows, *]⟩)

theorem obj_step {o : Obj I G} (h : s.Sound) (hstep : step s l = some t)
    (hobj : (s.file f).obj = some o) :
    (t.file f).obj = some o ∨
      (s.file f).ref = 1 ∧ (t.file f).ref = 0 ∧ ∃ k, (t.proc l.1).pc = .releasing o k := by
  cases h.move hstep with
  | typed p ip omode f' hpc =>
    have hold := obj_of_fresh h.fresh (p := p) (f := f') (by simp [hpc, Pc.fresh])
    grind
  | pipeFull p f0 f1 g hpc =>
    have hnone0 := obj_of_fresh h.fresh (p := p) (f := f0) (by simp [hpc, Pc.fresh])
    have hnone1 := obj_of_fresh h.fresh (p := p) (f := f1) (by simp [hpc, Pc.fresh])
    grind
  | piped p f0 f1 g fd0 fd1 hpc =>
    have hnone0 := obj_of_fresh h.fresh (p := p) (f := f0) (by simp [hpc, Pc.fresh])
    have hnone1 := obj_of_fresh h.fresh (p := p) (f := f1) (by simp [hpc, Pc.fresh])
    grind
  | lastOf p f' k o' hclose href hobj' =>
    by_cases hf : f = f'
    · subst hf
      rw [hobj] at hobj'
      cases hobj'
      exact .inr ⟨href, by simp, k, by simp⟩
    · exact .inl (by simpa [hf] using hobj)
  | _ => exact .inl (by grind [File.obj])

structure Told (sh : State P I G × List (Event I G)) : Prop where
  sound : sh.1.Sound
  piped : sh.1.Piped
  objects : ∀ o, sh.2.count (.opened o) = sh.2.count (.released o) + outstanding o sh.1
  pages : ∀ g, sh.2.count (.allocated g) =
    sh.2.count (.freed g) + if (sh.1.pipe g).isSome = true then 1 else 0

omit [DecidableEq P] in
theorem outstanding_eq_zero (o : Obj I G) (hfile : ∀ f, (s.file f).obj = none)
    (hproc : ∀ p, releases o (s.proc p) = 0) : outstanding o s = 0 := by
  simp [outstanding, total, hasObj, hfile, hproc]

theorem told_boot (init : P) : Told ((boot init : State P I G), []) := by
  have hquiet : ∀ p, ((boot init : State P I G).proc p).pc = .idle ∨
      ((boot init : State P I G).proc p).pc = .unused := by
    intro p
    by_cases hp : p = init
    · exact .inl (by simp [boot, hp])
    · exact .inr (by simp [boot, hp])
  have hout : ∀ o, outstanding o (boot init : State P I G) = 0 := by
    intro o
    refine outstanding_eq_zero o (fun f => rfl) fun p => ?_
    obtain hpc | hpc := hquiet p
    · simp only [releases, hpc]
    · simp only [releases, hpc]
  have hfrees : ∀ g, total (frees g) (boot init : State P I G).proc = 0 := by
    intro g
    refine Finset.sum_eq_zero fun p _ => ?_
    obtain hpc | hpc := hquiet p
    · simp only [frees, hpc]
    · simp only [frees, hpc]
  constructor
  · exact sound_boot init
  · constructor
    · intro g w
      rw [hout]
      rfl
    · intro g
      rw [hfrees]
      rfl
  · intro o
    simp [hout]
  · intro g
    rfl

theorem told_step {sh th : State P I G × List (Event I G)} (h : Told sh)
    (hstep : recorded sh l = some th) : Told th := by
  obtain ⟨hs, hh⟩ := recordStep_eq_some.mp hstep
  constructor
  · exact sound_step h.sound hs
  · exact piped_step h.sound h.piped hs
  · intro o
    have hbalanced := balanced_step o h.sound hs
    have hold := h.objects o
    rw [Balanced] at hbalanced
    rw [hh, List.count_append, List.count_append]
    omega
  · intro g
    have hpipe := pipe_step h.sound h.piped hs g
    have hold := h.pages g
    rw [hh, List.count_append, List.count_append]
    grind

end Steps

section Main

variable {P I G : Type} [Fintype P] [DecidableEq P] [DecidableEq I] [DecidableEq G]

/-- The count of an entry is the number of descriptors that point to it and of references that
calls in progress hold, less the descriptors that `sys_dup` has filled before `filedup` and
that `exit` has not cleared after `fileclose`.  An entry without references has no type.  What
a file holds is released once, after the last reference has gone, and the page of a pipe is
freed once, when both ends are closed.  No call panics. -/
theorem file_table_references {init : P} {s : State P I G} {h : List (Event I G)}
    (hreach : Reachable recorded (boot init, []) (s, h)) :
    (∀ f, (s.file f).ref + ∑ p, (s.proc p).pc.owes.count f =
        (∑ p, slots f (s.proc p).ofile) + ∑ p, (s.proc p).pc.holds.count f) ∧
      (∀ f, (s.file f).ref = 0 → (s.file f).kind = .none) ∧
      (∀ o, h.count (.opened o) = h.count (.released o) + outstanding o s) ∧
      (∀ l t f o, step s l = some t → (s.file f).obj = some o → (t.file f).obj = some o ∨
          (s.file f).ref = 1 ∧ (t.file f).ref = 0 ∧ ∃ k, (t.proc l.1).pc = .releasing o k) ∧
      (∀ g w, outstanding (.pipe g w) s = ends w (s.pipe g)) ∧
      (∀ g, h.count (.allocated g) =
        h.count (.freed g) + if (s.pipe g).isSome = true then 1 else 0) ∧
      (∀ g, s.pipe g = some ⟨false, false⟩ ↔ ∃ p k, (s.proc p).pc = .freeing g k) ∧
      (∀ l t g, step s l = some t → (s.pipe g).isSome = true → t.pipe g = none →
        s.pipe g = some ⟨false, false⟩) ∧
      ∀ p m, (s.proc p).pc ≠ .panic m := by
  have htold := hreach.invariant Told (told_boot init) fun sh l th => told_step
  have hsound := htold.sound
  refine ⟨?_, hsound.fresh.blank, htold.objects, ?_, ?_, htold.pages, ?_, ?_, ?_⟩
  · intro f
    have hcount := hsound.counted f
    simp only [total, net, Finset.sum_sub_distrib, Finset.sum_add_distrib] at hcount
    zify
    omega
  · intro l t f o hstep hobj
    exact obj_step hsound hstep hobj
  · intro g w
    exact (htold.piped.used g w).symm
  · intro g
    constructor
    · intro hshut
      have hone := htold.piped.unused g
      simp only [hshut, shut, if_pos] at hone
      obtain ⟨p, _, hp⟩ := Finset.exists_ne_zero_of_sum_ne_zero (hone ▸ one_ne_zero)
      have hfrees : frees g (s.proc p) ≠ 0 := hp
      unfold frees at hfrees
      split at hfrees
      case h_1 g' k hpc =>
          by_cases hg : g' = g
          · exact ⟨p, k, hg ▸ hpc⟩
          · simp [hg] at hfrees
      case h_2 => exact absurd rfl hfrees
    · rintro ⟨p, k, hpc⟩
      exact htold.piped.shut_of_freeing hpc
  · intro l t g hstep hsome hnone
    have hpipe := pipe_step hsound htold.piped hstep g
    grind
  · intro p m hpc
    have hfits := hsound.fits p
    simp only [Proc.Fits, hpc] at hfits

def forkChild {P I G : Type} (p q : P) : List (P × Act P I G) :=
  [(p, .fork q), (p, .copyuvm true)] ++ List.replicate 17 (p, .turn)

/-- A child of init opens a file and exits.  While `exit` releases the inode, the descriptor still
points to the entry. -/
theorem exit_counts_slot :
    ∃ (s : State (Fin 2) (Fin 1) (Fin 1)) (h : List (Event (Fin 1) (Fin 1))),
      Reachable recorded (boot 0, []) (s, h) ∧ (s.file 0).ref ≠
          (∑ p, slots 0 (s.proc p).ofile) + ∑ p, (s.proc p).pc.holds.count 0 := by
  let ls : List (Fin 2 × Act (Fin 2) (Fin 1) (Fin 1)) :=
    forkChild 0 1 ++ [(1, .open 0 0), (1, .turn), (1, .exit), (1, .turn)]
  obtain ⟨⟨s, h⟩, hrun, hne⟩ := exists_of_run_map recorded (boot 0, []) ls
    (fun sh => decide ((sh.1.file 0).ref ≠
      (∑ p, slots 0 (sh.1.proc p).ofile) + ∑ p, (sh.1.proc p).pc.holds.count 0))
    (by decide +kernel)
  exact ⟨s, h, ⟨ls, hrun⟩, of_decide_eq_true hne⟩

/-- Init makes a pipe, forks and closes both ends, and the child exits: both ends are released and
the page is freed. -/
theorem pipe_is_released :
    ∃ (s : State (Fin 2) (Fin 1) (Fin 1)) (h : List (Event (Fin 1) (Fin 1))),
      Reachable recorded (boot 0, []) (s, h) ∧
        h.count (.opened (.pipe 0 true)) = 1 ∧ h.count (.released (.pipe 0 true)) = 1 ∧
          h.count (.freed 0) = 1 ∧ ∀ f, (s.file f).ref = 0 → (s.file f).kind = .none := by
  let ls : List (Fin 2 × Act (Fin 2) (Fin 1) (Fin 1)) :=
    [(0, .pipe), (0, .turn), (0, .kalloc (some 0))] ++ forkChild 0 1 ++
    [(0, .close 0), (0, .turn), (0, .close 1), (0, .turn), (1, .exit)] ++
      List.replicate 22 (1, .turn)
  obtain ⟨⟨s, h⟩, hrun, htest⟩ := exists_of_run_map recorded (boot 0, []) ls
    (fun sh => decide (sh.2.count (.opened (.pipe 0 true)) = 1 ∧
      sh.2.count (.released (.pipe 0 true)) = 1 ∧ sh.2.count (.freed 0) = 1))
    (by decide +kernel)
  obtain ⟨hopened, hreleased, hfreed⟩ := of_decide_eq_true htest
  exact ⟨s, h, ⟨ls, hrun⟩, hopened, hreleased, hfreed, (file_table_references ⟨ls, hrun⟩).2.1⟩

end Main

end Xv6.Ftable
