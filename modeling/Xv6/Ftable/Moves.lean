import Xv6.Ftable.Ftable

/-!
# What a step on the file table can do

One constructor for each way out of a critical section, and the fields of the states that
the steps lead to.
-/

namespace Xv6.Ftable

open Lib Function
open Ptable (NOFILE NFILE)

section Fields

variable {P I G : Type} (s : State P I G)

@[simp, grind =] theorem setFile_file (f f' : Fin NFILE) (x : File I G) :
    (s.setFile f x).file f' = if f' = f then x else s.file f' := by
  simp [State.setFile, update_apply]

@[simp, grind =] theorem setFile_proc (f : Fin NFILE) (x : File I G) (q : P) :
    (s.setFile f x).proc q = s.proc q := rfl

@[simp, grind =] theorem setFile_pipe (f : Fin NFILE) (x : File I G) (g : G) :
    (s.setFile f x).pipe g = s.pipe g := rfl

section Pages

variable [DecidableEq G]

@[simp, grind =] theorem setPipe_file (g : G) (e : Option Pipe) (f : Fin NFILE) :
    (s.setPipe g e).file f = s.file f := rfl

@[simp, grind =] theorem setPipe_pipe (g g' : G) (e : Option Pipe) :
    (s.setPipe g e).pipe g' = if g' = g then e else s.pipe g' := by
  simp [State.setPipe, update_apply]

@[simp, grind =] theorem setPipe_proc (g : G) (e : Option Pipe) (q : P) :
    (s.setPipe g e).proc q = s.proc q := rfl

@[simp, grind =] theorem pipeMade_file (f0 f1 f : Fin NFILE) (g : G) :
    (pipeMade s f0 f1 g).file f = if f = f1 then pipeFile (s.file f1) g true
      else if f = f0 then pipeFile (s.file f0) g false else s.file f := by
  simp [pipeMade]

@[simp, grind =] theorem pipeMade_pipe (f0 f1 : Fin NFILE) (g g' : G) :
    (pipeMade s f0 f1 g).pipe g' = if g' = g then some ⟨true, true⟩ else s.pipe g' := by
  simp [pipeMade]

@[simp, grind =] theorem pipeMade_proc (f0 f1 : Fin NFILE) (g : G) (q : P) :
    (pipeMade s f0 f1 g).proc q = s.proc q := rfl

end Pages

variable [DecidableEq P]

@[simp, grind =] theorem setProc_file (p : P) (pr : Proc P I G) (f : Fin NFILE) :
    (s.setProc p pr).file f = s.file f := rfl

@[simp, grind =] theorem setProc_pipe (p : P) (pr : Proc P I G) (g : G) :
    (s.setProc p pr).pipe g = s.pipe g := rfl

@[simp, grind =] theorem setProc_proc (p : P) (pr : Proc P I G) (q : P) :
    (s.setProc p pr).proc q = if q = p then pr else s.proc q := by
  simp [State.setProc, update_apply]

@[simp, grind =] theorem setPc_file (p : P) (c : Pc P I G) (f : Fin NFILE) :
    (s.setPc p c).file f = s.file f := rfl

@[simp, grind =] theorem setPc_pipe (p : P) (c : Pc P I G) (g : G) :
    (s.setPc p c).pipe g = s.pipe g := rfl

@[simp, grind =] theorem setPc_proc (p : P) (c : Pc P I G) (q : P) :
    (s.setPc p c).proc q = if q = p then { s.proc p with pc := c } else s.proc q := by
  simp [State.setPc]

end Fields

section Free

variable {P I G : Type}

theorem ref_of_filealloc {s : State P I G} {f : Fin NFILE} (h : filealloc s = some f) :
    (s.file f).ref = 0 := by
  have htest := List.find?_some h
  simpa using htest

theorem none_of_fdalloc {ofile : Fin NOFILE → Option (Fin NFILE)} {fd : Fin NOFILE}
    (h : fdalloc ofile = some fd) : ofile fd = none := by
  have htest := List.find?_some h
  simpa using htest

end Free

variable {P I G : Type} [DecidableEq P] [DecidableEq G]

inductive Closes (pr : Proc P I G) (f : Fin NFILE) : Rest → Prop where
  | call (fs : List (Fin NFILE)) (hpc : pr.pc = .closing f fs) : Closes pr f (.files fs)
  | exit (fd : Fin NOFILE) (hpc : pr.pc = .exiting fd) (hslot : pr.ofile fd = some f) :
      Closes pr f (.exit fd f)

inductive Dups (pr : Proc P I G) (f : Fin NFILE) : Prop where
  | dup (hpc : pr.pc = .duping f)
  | fork (np : P) (fd : Fin NOFILE) (hpc : pr.pc = .forking np fd) (hslot : pr.ofile fd = some f)

/-- The ways in which a step changes the state, one for each way out of a critical section. -/
inductive Move (s : State P I G) : P × Act P I G → State P I G → Prop where
  | same (l : P × Act P I G) (hpc : (s.proc l.1).pc = .idle) : Move s l s
  | opened (p : P) (ip : I) (omode : Nat) (f : Fin NFILE) (fd : Fin NOFILE)
      (hpc : (s.proc p).pc = .idle) (hf : filealloc s = some f)
      (hfd : fdalloc (s.proc p).ofile = some fd) :
      Move s (p, .open ip omode)
        ((s.setFile f { s.file f with ref := 1 }).setProc p
          ⟨.typing ip omode f, update (s.proc p).ofile fd (some f)⟩)
  | openFull (p : P) (ip : I) (omode : Nat) (f : Fin NFILE)
      (hpc : (s.proc p).pc = .idle) (hf : filealloc s = some f) :
      Move s (p, .open ip omode)
        ((s.setFile f { s.file f with ref := 1 }).setPc p (.closing f []))
  | typed (p : P) (ip : I) (omode : Nat) (f : Fin NFILE)
    (hpc : (s.proc p).pc = .typing ip omode f) :
      Move s (p, .turn) ((s.setFile f (openedFile (s.file f) ip omode)).setPc p .idle)
  | duped (p : P) (fd fd' : Fin NOFILE) (f : Fin NFILE) (hpc : (s.proc p).pc = .idle)
      (hf : (s.proc p).ofile fd = some f) (hfd : fdalloc (s.proc p).ofile = some fd') :
      Move s (p, .dup fd)
        (s.setProc p ⟨.duping f, update (s.proc p).ofile fd' (some f)⟩)
  | filedup (p : P) (f : Fin NFILE) (hpc : (s.proc p).pc = .duping f) (href : 1 ≤ (s.file f).ref) :
      Move s (p, .turn)
        ((s.setFile f { s.file f with ref := (s.file f).ref + 1 }).setPc p .idle)
  | closed (p : P) (fd : Fin NOFILE) (f : Fin NFILE) (hpc : (s.proc p).pc = .idle)
      (hf : (s.proc p).ofile fd = some f) :
      Move s (p, .close fd)
        (s.setProc p ⟨.closing f [], update (s.proc p).ofile fd none⟩)
  | shared (p : P) (f : Fin NFILE) (k : Rest) (hclose : Closes (s.proc p) f k)
      (href : 1 < (s.file f).ref) :
      Move s (p, .turn)
        ((s.setFile f { s.file f with ref := (s.file f).ref - 1 }).setPc p k.pc)
  | last (p : P) (f : Fin NFILE) (k : Rest) (hclose : Closes (s.proc p) f k)
      (href : (s.file f).ref = 1) (hobj : (s.file f).obj = none) :
      Move s (p, .turn)
        ((s.setFile f { s.file f with ref := 0, kind := .none }).setPc p k.pc)
  | lastOf (p : P) (f : Fin NFILE) (k : Rest) (o : Obj I G) (hclose : Closes (s.proc p) f k)
      (href : (s.file f).ref = 1) (hobj : (s.file f).obj = some o) :
      Move s (p, .turn)
        ((s.setFile f { s.file f with ref := 0, kind := .none }).setPc p (.releasing o k))
  | iput (p : P) (ip : I) (k : Rest) (hpc : (s.proc p).pc = .releasing (.inode ip) k) :
      Move s (p, .turn) (s.setPc p k.pc)
  | pipeclose (p : P) (g : G) (w : Bool) (k : Rest) (e : Pipe)
      (hpc : (s.proc p).pc = .releasing (.pipe g w) k) (hg : s.pipe g = some e)
      (hopen : e.close w ≠ ⟨false, false⟩) :
      Move s (p, .turn) ((s.setPipe g (some (e.close w))).setPc p k.pc)
  | pipecloseBoth (p : P) (g : G) (w : Bool) (k : Rest) (e : Pipe)
      (hpc : (s.proc p).pc = .releasing (.pipe g w) k) (hg : s.pipe g = some e)
      (hopen : e.close w = ⟨false, false⟩) :
      Move s (p, .turn) ((s.setPipe g (some (e.close w))).setPc p (.freeing g k))
  | freed (p : P) (g : G) (k : Rest) (hpc : (s.proc p).pc = .freeing g k) :
      Move s (p, .turn) ((s.setPipe g none).setPc p k.pc)
  | pipeFirst (p : P) (f₀ : Fin NFILE) (hpc : (s.proc p).pc = .idle) (hf : filealloc s = some f₀) :
      Move s (p, .pipe)
        ((s.setFile f₀ { s.file f₀ with ref := 1 }).setPc p (.pipeSecond f₀))
  | pipeNoSecond (p : P) (f₀ : Fin NFILE) (hpc : (s.proc p).pc = .pipeSecond f₀) :
      Move s (p, .turn) (s.setPc p (.closing f₀ []))
  | pipeSecond (p : P) (f₀ f₁ : Fin NFILE) (hpc : (s.proc p).pc = .pipeSecond f₀)
      (hf : filealloc s = some f₁) :
      Move s (p, .turn)
        ((s.setFile f₁ { s.file f₁ with ref := 1 }).setPc p (.pipePage f₀ f₁))
  | pipeNoPage (p : P) (f₀ f₁ : Fin NFILE) (hpc : (s.proc p).pc = .pipePage f₀ f₁) :
      Move s (p, .kalloc none) (s.setPc p (.closing f₀ [f₁]))
  | pipeFull (p : P) (f₀ f₁ : Fin NFILE) (g : G) (hpc : (s.proc p).pc = .pipePage f₀ f₁)
      (hg : s.pipe g = none) :
      Move s (p, .kalloc (some g)) ((pipeMade s f₀ f₁ g).setPc p (.closing f₀ [f₁]))
  | piped (p : P) (f₀ f₁ : Fin NFILE) (g : G) (fd₀ fd₁ : Fin NOFILE)
      (hpc : (s.proc p).pc = .pipePage f₀ f₁) (hg : s.pipe g = none)
      (hfd₀ : fdalloc (s.proc p).ofile = some fd₀)
      (hfd₁ : fdalloc (update (s.proc p).ofile fd₀ (some f₀)) = some fd₁) :
      Move s (p, .kalloc (some g))
        ((pipeMade s f₀ f₁ g).setProc p
          ⟨.idle, update (update (s.proc p).ofile fd₀ (some f₀)) fd₁ (some f₁)⟩)
  | fork (p np : P) (hpc : (s.proc p).pc = .idle) (hnp : (s.proc np).pc = .unused) :
      Move s (p, .fork np) ((s.setPc np .embryo).setPc p (.copying np))
  | forkFail (p np : P) (hpc : (s.proc p).pc = .copying np) :
      Move s (p, .copyuvm false) ((s.setPc np .unused).setPc p .idle)
  | copied (p np : P) (hpc : (s.proc p).pc = .copying np) :
      Move s (p, .copyuvm true) (s.setPc p (.forking np 0))
  | forkDup (p np : P) (fd : Fin NOFILE) (f : Fin NFILE) (hpc : (s.proc p).pc = .forking np fd)
      (hf : (s.proc p).ofile fd = some f) (href : 1 ≤ (s.file f).ref) :
      Move s (p, .turn)
        (((s.setFile f { s.file f with ref := (s.file f).ref + 1 }).setProc np
          ⟨(s.proc np).pc, update (s.proc np).ofile fd (some f)⟩).setPc p
            (.forking np (fd + 1)))
  | forkSkip (p np : P) (fd : Fin NOFILE) (hpc : (s.proc p).pc = .forking np fd)
      (hf : (s.proc p).ofile fd = none) :
      Move s (p, .turn) (s.setPc p (.forking np (fd + 1)))
  | forked (p np : P) (i : Nat) (hpc : (s.proc p).pc = .forking np i) (hi : NOFILE ≤ i) :
      Move s (p, .turn) ((s.setPc np .idle).setPc p .idle)
  | exit (p : P) (hpc : (s.proc p).pc = .idle) : Move s (p, .exit) (s.setPc p (.exiting 0))
  | exitSkip (p : P) (fd : Fin NOFILE) (hpc : (s.proc p).pc = .exiting fd)
      (hf : (s.proc p).ofile fd = none) :
      Move s (p, .turn) (s.setPc p (.exiting (fd + 1)))
  | exited (p : P) (i : Nat) (hpc : (s.proc p).pc = .exiting i) (hi : NOFILE ≤ i) :
      Move s (p, .turn) (s.setPc p .zombie)
  | cleared (p : P) (fd : Fin NOFILE) (f : Fin NFILE) (hpc : (s.proc p).pc = .clearing fd f) :
      Move s (p, .turn)
        (s.setProc p ⟨.exiting (fd + 1), update (s.proc p).ofile fd none⟩)
  | wait (p np : P) (hpc : (s.proc p).pc = .idle) (hnp : (s.proc np).pc = .zombie) :
      Move s (p, .wait np) (s.setPc np .unused)

inductive Panics (s : State P I G) : P × Act P I G → Prop where
  | dup (p : P) (f : Fin NFILE) (hdup : Dups (s.proc p) f) (href : (s.file f).ref < 1) :
      Panics s (p, .turn)
  | close (p : P) (f : Fin NFILE) (k : Rest) (hclose : Closes (s.proc p) f k)
      (href : (s.file f).ref < 1) : Panics s (p, .turn)

theorem move_of_fileclose {s : State P I G} {p : P} {f : Fin NFILE} {k : Rest}
    (hok : ¬Panics s (p, .turn)) (h : Closes (s.proc p) f k) :
    Move s (p, .turn) (fileclose s p f k) := by
  unfold fileclose
  split
  case isTrue href => exact absurd (.close p f k h href) hok
  case isFalse href =>
      split
      case isTrue hmore => exact .shared p f k h (by omega)
      case isFalse hlast =>
          have hone : (s.file f).ref = 1 := by omega
          cases hobj : (s.file f).obj with
          | none => exact .last p f k h hone hobj
          | some o => exact .lastOf p f k o h hone hobj

theorem move_of_release {s t : State P I G} {p : P} {o : Obj I G} {k : Rest}
    (hpc : (s.proc p).pc = .releasing o k) (h : release s p o k = some t) :
    Move s (p, .turn) t := by
  cases o with
  | inode ip =>
    cases h
    exact .iput p ip k hpc
  | pipe g w =>
    cases hg : s.pipe g with
    | none => simp [release, hg] at h
    | some e =>
      simp only [release, hg] at h
      cases h
      cases hclose : e.close w with
      | mk r v =>
        split
        case isTrue hboth =>
            obtain ⟨rfl, rfl⟩ := hboth
            rw [← hclose]
            exact .pipecloseBoth p g w k e hpc hg hclose
        case isFalse hopen =>
            rw [← hclose]
            refine .pipeclose p g w k e hpc hg ?_
            rw [hclose]
            intro heq
            cases heq
            exact hopen ⟨rfl, rfl⟩

theorem move_of_step [DecidableEq I] {s t : State P I G} {l : P × Act P I G}
    (hok : ¬Panics s l) (h : step s l = some t) : Move s l t := by
  obtain ⟨p, act⟩ := l
  simp only [step] at h
  split at h
  case h_1 ip omode hpc =>
      split at h
      case h_1 => cases h; exact .same _ hpc
      case h_2 f hf _ => cases h; exact .openFull p ip omode f hpc hf
      case h_3 f fd hf hfd => cases h; exact .opened p ip omode f fd hpc hf hfd
  case h_2 ip omode f hpc =>
      cases h
      exact .typed p ip omode f hpc
  case h_3 fd hpc =>
      split at h
      case h_1 f fd' hf hfd => cases h; exact .duped p fd fd' f hpc hf hfd
      case h_2 => cases h; exact .same _ hpc
  case h_4 f hpc =>
      cases h
      unfold filedup
      split
      case isTrue href => exact absurd (.dup p f (.dup hpc) href) hok
      case isFalse href => exact .filedup p f hpc (by omega)
  case h_5 fd hpc =>
      split at h
      case h_1 f hf => cases h; exact .closed p fd f hpc hf
      case h_2 => cases h; exact .same _ hpc
  case h_6 f fs hpc =>
      cases h
      exact move_of_fileclose hok (.call fs hpc)
  case h_7 o k hpc => exact move_of_release hpc h
  case h_8 g k hpc =>
      cases h
      exact .freed p g k hpc
  case h_9 hpc =>
      split at h
      case h_1 => cases h; exact .same _ hpc
      case h_2 f0 hf => cases h; exact .pipeFirst p f0 hpc hf
  case h_10 f0 hpc =>
      split at h
      case h_1 => cases h; exact .pipeNoSecond p f0 hpc
      case h_2 f1 hf => cases h; exact .pipeSecond p f0 f1 hpc hf
  case h_11 r f0 f1 hpc =>
      split at h
      case h_1 => cases h; exact .pipeNoPage p f0 f1 hpc
      case h_2 g =>
          split at h
          case isTrue => cases h
          case isFalse hg =>
              have hnone : s.pipe g = none := by simpa using hg
              split at h
              case h_1 => cases h; exact .pipeFull p f0 f1 g hpc hnone
              case h_2 fd0 hfd0 =>
                  split at h
                  case h_1 =>
                      -- the first slot is given back
                      rw [update_idem, ← none_of_fdalloc hfd0, update_eq_self] at h
                      cases h
                      exact .pipeFull p f0 f1 g hpc hnone
                  case h_2 fd1 hfd1 =>
                      cases h
                      exact .piped p f0 f1 g fd0 fd1 hpc hnone hfd0 hfd1
  case h_12 np hpc =>
      split at h
      case isTrue hnp => cases h; exact .fork p np hpc hnp
      case isFalse => cases h
  case h_13 ok np hpc =>
      split at h
      case isTrue hok => subst hok; cases h; exact .copied p np hpc
      case isFalse hok =>
          simp only [Bool.not_eq_true] at hok
          subst hok
          cases h
          exact .forkFail p np hpc
  case h_14 np i hpc =>
      split at h
      case isTrue hi =>
          split at h
          case h_1 f hf =>
              cases h
              unfold filedup
              split
              case isTrue href => exact absurd (.dup p f (.fork np ⟨i, hi⟩ hpc hf) href) hok
              case isFalse href => exact .forkDup p np ⟨i, hi⟩ f hpc hf (by omega)
          case h_2 hf => cases h; exact .forkSkip p np ⟨i, hi⟩ hpc hf
      case isFalse hi => cases h; exact .forked p np i hpc (by omega)
  case h_15 hpc =>
      split at h
      case isTrue => cases h
      case isFalse => cases h; exact .exit p hpc
  case h_16 i hpc =>
      split at h
      case isTrue hi =>
          split at h
          case h_1 f hf => cases h; exact move_of_fileclose hok (.exit ⟨i, hi⟩ hpc hf)
          case h_2 hf => cases h; exact .exitSkip p ⟨i, hi⟩ hpc hf
      case isFalse hi => cases h; exact .exited p i hpc (by omega)
  case h_17 fd f hpc => cases h; exact .cleared p fd f hpc
  case h_18 np hpc =>
      split at h
      case isTrue hnp => cases h; exact .wait p np hpc hnp
      case isFalse => cases h
  case h_19 => cases h

end Xv6.Ftable
