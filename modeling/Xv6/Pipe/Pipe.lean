import Xv6.Lib.RingBuf
import Xv6.Lib.Transition

/-!
# Pipes

`piperead`, `pipewrite` and `pipeclose` (pipe.c) called by any number of
processes.  What a process does while it holds `p->lock` is one step: it ends when
the call returns or sleeps.  `sleep` gives up the lock and goes to sleep in one
step; a process that has been woken takes the lock again and makes its tests again.

The test of `myproc()->killed` comes once in such a step.  A `kill` that comes
before it is a step of its own; one that comes after it, when the process is not
yet asleep, sets the flag and wakes nobody: the flag `late` of a step.
-/

namespace Xv6.Pipe

open Lib

abbrev PIPESIZE : Nat := 512

/-- The counters are `uint`. -/
abbrev UINT : Nat := 2 ^ 32

/-- Where a process is; `i` is the loop variable of `pipewrite`. -/
inductive Pc where
  | idle
  | writing (src : List UInt8) (i : Nat) (asleep : Bool)
  | reading (n : Nat) (asleep : Bool)
deriving DecidableEq, Repr

inductive Chan where
  | nread
  | nwrite
deriving DecidableEq, Repr

/-- `struct pipe`, and the processes. -/
structure State (P : Type) where
  ring : RingBuf UInt8
  readopen : Bool
  writeopen : Bool
  pc : P → Pc
  killed : P → Bool

inductive Act where
  | read (n : Nat)
  | write (src : List UInt8)
  | turn (late : Bool)
  | close (writable : Bool)
  | kill
deriving DecidableEq, Repr

def Pc.wake : Chan → Pc → Pc
  | .nread, .reading n _ => .reading n false
  | .nwrite, .writing src i _ => .writing src i false
  | _, c => c

def Pc.rouse : Pc → Pc
  | .reading n _ => .reading n false
  | .writing src i _ => .writing src i false
  | .idle => .idle

section Steps

variable {P : Type} [DecidableEq P] (s : State P) (p : P)

namespace State

def setPc (c : Pc) : State P :=
  { s with pc := Function.update s.pc p c }

def wakeup (c : Chan) : State P :=
  { s with pc := fun q => (s.pc q).wake c }

def Full : Prop :=
  s.ring.Full PIPESIZE UINT

def Empty : Prop :=
  s.ring.Empty

instance : Decidable s.Full :=
  inferInstanceAs (Decidable (s.ring.Full PIPESIZE UINT))

instance : Decidable s.Empty :=
  inferInstanceAs (Decidable s.ring.Empty)

end State

/-- What `pipewrite` stores before it sleeps or returns, and what is left over. -/
def stores (src : List UInt8) (i : Nat) : RingBuf UInt8 × List UInt8 :=
  s.ring.putAll PIPESIZE UINT (src.drop i)

/-- `pipewrite` from where it holds the lock to the next `sleep` or to its end, and the value it
returns. -/
def pipewrite (src : List UInt8) (i : Nat) : State P × Option Int :=
  if (stores s src i).2 = [] then
    ((({ s with ring := (stores s src i).1 }).wakeup .nread).setPc p .idle, some src.length)
  else if s.readopen = false ∨ s.killed p = true then
    (({ s with ring := (stores s src i).1 }).setPc p .idle, some (-1))
  else
    ((({ s with ring := (stores s src i).1 }).wakeup .nread).setPc p
      (.writing src (src.length - (stores s src i).2.length) true), none)

def copies (n : Nat) : List UInt8 × RingBuf UInt8 :=
  s.ring.takeMax PIPESIZE UINT n

/-- `piperead` from where it holds the lock to the next `sleep` or to its end, and what it returns:
`some none` is -1, `none` is that it has not returned. -/
def piperead (n : Nat) : State P × Option (Option (List UInt8)) :=
  if s.Empty ∧ s.writeopen = true then
    if s.killed p = true then (s.setPc p .idle, some none)
    else (s.setPc p (.reading n true), none)
  else
    ((({ s with ring := (copies s n).2 }).wakeup .nwrite).setPc p .idle, some (some (copies s n).1))

def pipeclose (writable : Bool) : State P :=
  if writable = true then ({ s with writeopen := false }).wakeup .nread
  else ({ s with readopen := false }).wakeup .nwrite

/-- `p->killed = 1`, without waking the process. -/
def setKilled (killed : Bool) : State P :=
  { s with killed := Function.update s.killed p (s.killed p || killed) }

/-- One step of a process. -/
def step (s : State P) (l : P × Act) : Option (State P) :=
  match l.2, s.pc l.1 with
  | .read n, .idle => some (s.setPc l.1 (.reading n false))
  | .write src, .idle => some (s.setPc l.1 (.writing src 0 false))
  | .turn late, .reading n false => some (setKilled (piperead s l.1 n).1 l.1 late)
  | .turn late, .writing src i false => some (setKilled (pipewrite s l.1 src i).1 l.1 late)
  | .close writable, .idle => some (pipeclose s writable)
  | .kill, c => some (setKilled (s.setPc l.1 c.rouse) l.1 true)
  | _, _ => none

end Steps

section Moves

variable {P : Type} [DecidableEq P]

/-- The ways in which a step changes the state, one for each way out of a critical section. -/
inductive Move (s : State P) : P × Act → State P → Prop where
  | read (p : P) (n : Nat) (hpc : s.pc p = .idle) :
      Move s (p, .read n) (s.setPc p (.reading n false))
  | write (p : P) (src : List UInt8) (hpc : s.pc p = .idle) :
      Move s (p, .write src) (s.setPc p (.writing src 0 false))
  | copied (p : P) (n : Nat) (late : Bool) (hpc : s.pc p = .reading n false)
      (hready : ¬ (s.Empty ∧ s.writeopen = true)) :
      Move s (p, .turn late)
        (setKilled ((({ s with ring := (copies s n).2 }).wakeup .nwrite).setPc p .idle) p late)
  | gaveUp (p : P) (n : Nat) (late : Bool) (hpc : s.pc p = .reading n false)
      (hwait : s.Empty ∧ s.writeopen = true) (hkilled : s.killed p = true) :
      Move s (p, .turn late) (setKilled (s.setPc p .idle) p late)
  | waited (p : P) (n : Nat) (late : Bool) (hpc : s.pc p = .reading n false)
      (hwait : s.Empty ∧ s.writeopen = true) (hkilled : ¬ s.killed p = true) :
      Move s (p, .turn late) (setKilled (s.setPc p (.reading n true)) p late)
  | stored (p : P) (src : List UInt8) (i : Nat) (late : Bool) (hpc : s.pc p = .writing src i false)
      (hall : (stores s src i).2 = []) :
      Move s (p, .turn late)
        (setKilled ((({ s with ring := (stores s src i).1 }).wakeup .nread).setPc p .idle) p late)
  | refused (p : P) (src : List UInt8) (i : Nat) (late : Bool) (hpc : s.pc p = .writing src i false)
      (hrest : ¬ (stores s src i).2 = []) (hstop : s.readopen = false ∨ s.killed p = true) :
      Move s (p, .turn late)
        (setKilled (({ s with ring := (stores s src i).1 }).setPc p .idle) p late)
  | filled (p : P) (src : List UInt8) (i : Nat) (late : Bool) (hpc : s.pc p = .writing src i false)
      (hrest : ¬ (stores s src i).2 = []) (hgo : ¬ (s.readopen = false ∨ s.killed p = true)) :
      Move s (p, .turn late)
        (setKilled ((({ s with ring := (stores s src i).1 }).wakeup .nread).setPc p
          (.writing src (src.length - (stores s src i).2.length) true)) p late)
  | close (p : P) (writable : Bool) (hpc : s.pc p = .idle) :
      Move s (p, .close writable) (pipeclose s writable)
  | kill (p : P) :
      Move s (p, .kill) (setKilled (s.setPc p (s.pc p).rouse) p true)

theorem move_of_piperead {s : State P} {p : P} {n : Nat} {late : Bool}
    (hpc : s.pc p = .reading n false) :
    Move s (p, .turn late) (setKilled (piperead s p n).1 p late) := by
  unfold piperead
  split
  case isTrue hwait =>
      split
      case isTrue hkilled => exact .gaveUp p n late hpc hwait hkilled
      case isFalse hkilled => exact .waited p n late hpc hwait hkilled
  case isFalse hready => exact .copied p n late hpc hready

theorem move_of_pipewrite {s : State P} {p : P} {src : List UInt8} {i : Nat} {late : Bool}
    (hpc : s.pc p = .writing src i false) :
    Move s (p, .turn late) (setKilled (pipewrite s p src i).1 p late) := by
  unfold pipewrite
  split
  case isTrue hall => exact .stored p src i late hpc hall
  case isFalse hrest =>
      split
      case isTrue hstop => exact .refused p src i late hpc hrest hstop
      case isFalse hgo => exact .filled p src i late hpc hrest hgo

theorem move_of_step {s t : State P} {l : P × Act} (h : step s l = some t) : Move s l t := by
  obtain ⟨p, a⟩ := l
  unfold step at h
  split at h
  case h_1 n ha hpc =>
      cases ha
      cases h
      exact .read p n hpc
  case h_2 src ha hpc =>
      cases ha
      cases h
      exact .write p src hpc
  case h_3 late n ha hpc =>
      cases ha
      cases h
      exact move_of_piperead hpc
  case h_4 late src i ha hpc =>
      cases ha
      cases h
      exact move_of_pipewrite hpc
  case h_5 writable ha hpc =>
      cases ha
      cases h
      exact .close p writable hpc
  case h_6 ha =>
      cases ha
      cases h
      exact .kill p
  case h_7 => cases h

end Moves

/-- The pipe after `pipealloc`. -/
def init (P : Type) : State P where
  ring := ⟨fun _ => 0, 0, 0⟩
  readopen := true
  writeopen := true
  pc := fun _ => .idle
  killed := fun _ => false

end Xv6.Pipe
