import Xv6.Lib.Transition
import Xv6.Ptable.Table

/-!
# CPUs, context switches and `ptable.lock`

This module puts the process table on any number of CPUs.  A label names one
piece of kernel code that runs between two synchronization points: the places
where `ptable.lock` is taken or released and where `swtch` changes stacks.  The
lock is explicit, because it is taken in one context and released in another:

* `scheduler` takes it, picks a process and switches to it (`pass`);
* the process it switched to releases it in `forkret`, at the end of `yield` or
  `sleep`, or after another turn of the loop in `wait` (`resume`);
* a process that gives up the CPU takes it in `yield`, `sleep`, `exit` or `wait`
  and switches to the scheduler of its CPU with the lock held;
* the scheduler clears `c->proc` and releases it (`back`).

`fork` touches its new slot without the lock: only the search for the slot and
the final `np->state = RUNNABLE` are locked.  Its other pieces are labels of
their own that may fall anywhere, in particular while another CPU holds the
lock.  The answers of `kalloc` and `copyuvm` are part of the label, so every
success and failure of an allocation is covered.

A step that would panic is not enabled: the machine stops there.
-/

namespace Xv6.Ptable

open Lib Function

set_option linter.unusedSectionVars false

inductive Mode where
  /-- in the loop of `scheduler`, without the lock -/
  | idle
  /-- just switched to a process, which holds the lock -/
  | entering
  /-- the process runs, in user or kernel mode, without the lock -/
  | running
  /-- switched back to `scheduler`, with the lock held -/
  | leaving
deriving DecidableEq, Repr

structure Cpu where
  proc : Option Slot
  mode : Mode
deriving DecidableEq, Repr

/-- How far a process has come in `fork`; the new slot is its local `np`. -/
inductive ForkPc where
  | none
  /-- `allocproc` has marked the slot and is about to call `kalloc` -/
  | stack (np : Slot)
  /-- about to call `copyuvm` -/
  | copy (np : Slot)
  /-- about to read `curproc->priority` -/
  | load (np : Slot)
  /-- about to write `np->priority` -/
  | store (np : Slot) (prio : Int)
  /-- about to make the child RUNNABLE -/
  | publish (np : Slot)
deriving DecidableEq, Repr

def ForkPc.child : ForkPc → Option Slot
  | .none => Option.none
  | .stack np => some np
  | .copy np => some np
  | .load np => some np
  | .store np _ => some np
  | .publish np => some np

/-- The state of the machine; `C` is the type of CPUs. -/
structure Sys (C : Type) where
  proc : Table
  nextpid : Int
  initproc : Slot
  lock : Option C
  cpu : C → Cpu
  fork : Slot → ForkPc

/-- The pieces of kernel code. -/
inductive Label (C : Type) where
  | pass (c : C)
  | back (c : C)
  | resume (c : C)
  | yield (c : C)
  | sleep (c : C) (a : Nat)
  | exit (c : C)
  | wait (c : C)
  | wakeup (chan : Chan)
  | kill (pid : Int)
  | setpriority (pid prio : Int)
  /-- `trap` marks the process it interrupted as killed -/
  | trap (c : C)
  | forkAlloc (c : C)
  | forkStack (c : C) (mem : Option Frame)
  | forkCopy (c : C) (dir : Option Frame)
  | forkLoad (c : C)
  | forkStore (c : C)
  | forkPublish (c : C)
deriving DecidableEq, Repr

section Machine

variable {C : Type} [DecidableEq C]

namespace Sys

/-- `myproc()` for code that runs on `c` without the lock. -/
def current (s : Sys C) (c : C) : Option Slot :=
  if (s.cpu c).mode = .running then (s.cpu c).proc else none

def setProc (s : Sys C) (p : Slot) (v : Proc) : Sys C :=
  { s with proc := set s.proc p v }

def setFork (s : Sys C) (p : Slot) (pc : ForkPc) : Sys C :=
  { s with fork := update s.fork p pc }

/-- `swtch` to the scheduler of `c`, with the lock held and the caller's slot written. -/
def leave (s : Sys C) (c : C) (p : Slot) (v : Proc) : Sys C :=
  { s with
    proc := set s.proc p v
    lock := some c
    cpu := update s.cpu c ⟨some p, .leaving⟩ }

def release (s : Sys C) (c : C) (p : Slot) : Sys C :=
  { s with
    lock := none
    cpu := update s.cpu c ⟨some p, .running⟩ }

/-- One turn of the loop of `wait` by `p` on `c`, entered with the lock held. -/
def waitTurn (s : Sys C) (c : C) (p : Slot) : Sys C :=
  match waitScan s.proc p with
  | .reap k => (s.setProc k (s.proc k).reap).release c p
  | .fail => s.release c p
  | .block =>
    s.leave c p
      { s.proc p with chan := some (.proc p), state := .sleeping, context := .wait }

def exitTable (s : Sys C) (p : Slot) : Table :=
  reparent p s.initproc (wakeup1 s.proc ((s.proc p).parent.map .proc))

end Sys

open Sys

/-- `scheduler` from `acquire` to `swtch`, or to `release` if nothing can run. -/
def pass (s : Sys C) (c : C) : Option (Sys C) :=
  if s.lock = none ∧ (s.cpu c).mode = .idle then
    let t := age s.proc
    match select t with
    | none => some { s with proc := t }
    | some p =>
      -- `switchuvm` panics without a kernel stack or a page directory
      if (t p).kstack = none ∨ (t p).pgdir = none then none
      else
        some
          { s with
            proc := set t p { t p with state := .running }
            lock := some c
            cpu := update s.cpu c ⟨some p, .entering⟩ }
  else none

def resume (s : Sys C) (c : C) : Option (Sys C) :=
  if (s.cpu c).mode = .entering then
    match (s.cpu c).proc with
    | none => none
    | some p =>
      match (s.proc p).context with
      | .forkret => some (s.release c p)
      | .yield => some (s.release c p)
      | .sleep => some ((s.setProc p { s.proc p with chan := none }).release c p)
      | .wait => some ((s.setProc p { s.proc p with chan := none }).waitTurn c p)
  else none

/-- Code of a running process that starts by taking the lock. -/
def locked (s : Sys C) (c : C) (k : Slot → Option (Sys C)) : Option (Sys C) :=
  match s.current c with
  | none => none
  | some p => if s.lock = none then k p else none

def unlocked (s : Sys C) (c : C) (k : Slot → Option (Sys C)) : Option (Sys C) :=
  match s.current c with
  | none => none
  | some p => k p

/-- The search for a slot at the start of `fork`. -/
def forkAlloc (s : Sys C) (p : Slot) : Sys C :=
  match allocproc s.proc s.nextpid with
  | none => s
  | some (np, t, n) => { s with proc := t, nextpid := n }.setFork p (.stack np)

def forkStack (s : Sys C) (p np : Slot) (mem : Option Frame) : Sys C :=
  match mem with
  | none =>
    (s.setProc np { s.proc np with kstack := none, state := .unused }).setFork p .none
  | some k =>
    (s.setProc np { s.proc np with kstack := some k, context := .forkret }).setFork p
      (.copy np)

def forkCopy (s : Sys C) (p np : Slot) (dir : Option Frame) : Sys C :=
  match dir with
  | none =>
    (s.setProc np
      { s.proc np with pgdir := none, kstack := none, state := .unused }).setFork p .none
  | some d =>
    (s.setProc np
      { s.proc np with pgdir := some d, sz := (s.proc p).sz, parent := some p }).setFork p
      (.load np)

/-- The whole machine. -/
def step (s : Sys C) : Label C → Option (Sys C)
  | .pass c => pass s c
  | .back c =>
    if (s.cpu c).mode = .leaving then
      some { s with lock := none, cpu := update s.cpu c ⟨none, .idle⟩ }
    else none
  | .resume c => resume s c
  | .yield c =>
    locked s c fun p => some (s.leave c p { s.proc p with state := .runnable, context := .yield })
  | .sleep c a =>
    locked s c fun p => if s.fork p = .none then
        some (s.leave c p
          { s.proc p with chan := some (.addr a), state := .sleeping, context := .sleep })
      else none
  | .exit c =>
    locked s c fun p =>
      -- `exit` panics in the init process
      if s.fork p = .none ∧ p ≠ s.initproc then
        let t := s.exitTable p
        some ({ s with proc := t }.leave c p
          { t p with state := .zombie, ofile := fun _ => none })
      else none
  | .wait c =>
    locked s c fun p => if s.fork p = .none then some (s.waitTurn c p) else none
  | .wakeup chan =>
    if s.lock = none then some { s with proc := wakeup1 s.proc (some chan) } else none
  | .kill pid =>
    if s.lock = none then some { s with proc := (kill s.proc pid).2 } else none
  | .setpriority pid prio =>
    if s.lock = none then some { s with proc := (setpriority s.proc pid prio).2 } else none
  | .trap c =>
    unlocked s c fun p => some (s.setProc p { s.proc p with killed := true })
  | .forkAlloc c =>
    locked s c fun p => if s.fork p = .none then some (forkAlloc s p) else none
  | .forkStack c mem =>
    unlocked s c fun p =>
      match s.fork p with
      | .stack np => some (forkStack s p np mem)
      | _ => none
  | .forkCopy c dir =>
    unlocked s c fun p =>
      match s.fork p with
      | .copy np => some (forkCopy s p np dir)
      | _ => none
  | .forkLoad c =>
    unlocked s c fun p =>
      match s.fork p with
      | .load np => some (s.setFork p (.store np (s.proc p).priority))
      | _ => none
  | .forkStore c =>
    unlocked s c fun p =>
      match s.fork p with
      | .store np prio =>
        some ((s.setProc np { s.proc np with priority := prio }).setFork p (.publish np))
      | _ => none
  | .forkPublish c =>
    locked s c fun p =>
      match s.fork p with
      | .publish np =>
        some ((s.setProc np
          { s.proc np with
            ofile := fun i => ((s.proc p).ofile i).or ((s.proc np).ofile i)
            state := .runnable }).setFork p .none)
      | _ => none

def reapedBy (t : Table) (p : Slot) : Option Slot :=
  match waitScan t p with
  | .reap k => some k
  | _ => none

/-- The caller of `wait` that this step returns to, and the child it returns. -/
def waitReturns (s : Sys C) : Label C → Option (Slot × Slot)
  | .wait c =>
    match s.current c with
    | some p => (reapedBy s.proc p).map fun k => (p, k)
    | none => none
  | .resume c =>
    match (s.cpu c).proc with
    | some p =>
      if (s.proc p).context = .wait then
        (reapedBy (set s.proc p { s.proc p with chan := none }) p).map fun k => (p, k)
      else none
    | none => none
  | _ => none

section Inversion

variable {s s' : Sys C} {c : C} {k : Slot → Option (Sys C)}

theorem current_eq_some {p : Slot} :
    s.current c = some p ↔ (s.cpu c).mode = .running ∧ (s.cpu c).proc = some p := by
  simp [current]

theorem locked_eq_some :
    locked s c k = some s' ↔
      ∃ p, s.current c = some p ∧ s.lock = none ∧ k p = some s' := by
  unfold locked
  cases hc : s.current c with
  | none => simp
  | some p => simp

theorem unlocked_eq_some :
    unlocked s c k = some s' ↔ ∃ p, s.current c = some p ∧ k p = some s' := by
  unfold unlocked
  cases hc : s.current c with
  | none => simp
  | some p => simp

theorem pass_cases (h : pass s c = some s') :
    s.lock = none ∧ (s.cpu c).mode = .idle ∧
      ((select (age s.proc) = none ∧ s' = { s with proc := age s.proc }) ∨
        ∃ p, select (age s.proc) = some p ∧ s' =
            { s with
              proc := set (age s.proc) p { age s.proc p with state := .running }
              lock := some c
              cpu := update s.cpu c ⟨some p, .entering⟩ }) := by
  unfold pass at h
  by_cases hg : s.lock = none ∧ (s.cpu c).mode = .idle
  · rw [if_pos hg] at h
    refine ⟨hg.1, hg.2, ?_⟩
    dsimp only at h
    cases hsel : select (age s.proc) with
    | none =>
      rw [hsel] at h
      cases h
      exact .inl ⟨rfl, rfl⟩
    | some p =>
      rw [hsel] at h
      dsimp only at h
      split_ifs at h
      cases h
      exact .inr ⟨p, rfl, rfl⟩
  · rw [if_neg hg] at h
    cases h

theorem resume_cases (h : resume s c = some s') :
    (s.cpu c).mode = .entering ∧ ∃ p, (s.cpu c).proc = some p ∧ (s' = s.release c p ∨
          s' = (s.setProc p { s.proc p with chan := none }).release c p ∨
          ((s.proc p).context = .wait ∧
            s' = (s.setProc p { s.proc p with chan := none }).waitTurn c p)) := by
  unfold resume at h
  by_cases hg : (s.cpu c).mode = .entering
  · rw [if_pos hg] at h
    refine ⟨hg, ?_⟩
    cases hp : (s.cpu c).proc with
    | none => simp [hp] at h
    | some p =>
      simp only [hp] at h
      refine ⟨p, rfl, ?_⟩
      split at h
      · cases h
        exact .inl rfl
      · cases h
        exact .inl rfl
      · cases h
        exact .inr (.inl rfl)
      · rename_i hx
        cases h
        exact .inr (.inr ⟨hx, rfl⟩)
  · rw [if_neg hg] at h
    cases h

theorem waitTurn_cases (s : Sys C) (c : C) (p : Slot) :
    (∃ k, waitScan s.proc p = .reap k ∧
      s.waitTurn c p = (s.setProc k (s.proc k).reap).release c p) ∨
    s.waitTurn c p = s.release c p ∨
    (waitScan s.proc p = .block ∧ s.waitTurn c p = s.leave c p
          { s.proc p with chan := some (.proc p), state := .sleeping, context := .wait }) := by
  unfold waitTurn
  cases hw : waitScan s.proc p with
  | reap k => exact .inl ⟨k, rfl, rfl⟩
  | fail => exact .inr (.inl rfl)
  | block => exact .inr (.inr ⟨rfl, rfl⟩)

theorem reapedBy_eq_some {t : Table} {p k : Slot} :
    reapedBy t p = some k ↔ waitScan t p = .reap k := by
  unfold reapedBy
  cases hw : waitScan t p with
  | reap m => simp
  | fail => simp
  | block => simp

theorem forkAlloc_cases (s : Sys C) (p : Slot) :
    forkAlloc s p = s ∨ ∃ np, firstSlot s.proc (fun v => v.state = .unused) = some np ∧
        forkAlloc s p =
          { s with
            proc := set s.proc np ((s.proc np).embryo s.nextpid)
            nextpid := toInt32 (s.nextpid + 1) }.setFork p (.stack np) := by
  unfold forkAlloc
  cases ha : allocproc s.proc s.nextpid with
  | none => exact .inl rfl
  | some r =>
    obtain ⟨np, t, n⟩ := r
    obtain ⟨hf, rfl, rfl⟩ := allocproc_eq_some.mp ha
    exact .inr ⟨np, hf, rfl⟩

end Inversion

def initProc (kstack pgdir : Frame) : Proc :=
  { Proc.zero.embryo 1 with
    sz := 4096
    kstack := some kstack
    pgdir := some pgdir
    state := .runnable }

/-- The machine when `main` has run `userinit` and every CPU is in `scheduler`. -/
def boot (C : Type) (kstack pgdir : Frame) : Sys C where
  proc := set (fun _ => Proc.zero) 0 (initProc kstack pgdir)
  nextpid := 2
  initproc := 0
  lock := none
  cpu := fun _ => ⟨none, .idle⟩
  fork := fun _ => .none

/-- The steps of `fork` on the CPU `true`, with the two pages that it gets. -/
def forkSteps (kstack pgdir : Frame) : List (Label Bool) :=
  [.forkAlloc true, .forkStack true (some kstack), .forkCopy true (some pgdir), .forkLoad true,
    .forkStore true, .forkPublish true]

/-- The first process is dispatched and forks. -/
def bootFork : List (Label Bool) :=
  .pass true :: .resume true :: forkSteps 3 4

/-- States of the machine that some run from boot ends in. -/
def Reached (s : Sys C) : Prop :=
  ∃ kstack pgdir, Reachable step (boot C kstack pgdir) s

end Machine

end Xv6.Ptable
