import Xv6.Lib.Transition
import Xv6.Ptable.Table

/-!
# The file table with any number of processes

`filealloc`, `filedup` and `fileclose` (file.c), `fdalloc`, `sys_dup`, `sys_close` and the
end of `sys_open` (sysfile.c), `sys_pipe` with `pipealloc` and `pipeclose` (pipe.c), and the
loops over the descriptors in `fork` and `exit` (proc.c), called by any number of processes.

What a process does while it holds `ftable.lock`, the lock of a pipe or `kmem.lock` is one
step, with the accesses to its own descriptors that follow.  A slot that is written long
before or after the count it belongs to is a step of its own: `sys_dup` fills a slot before
`filedup`, and `exit` clears one after `fileclose`.

`sys_open` starts where the inode has been found and is held by the call; `fork` takes some
slot that is not used.  Which page `kalloc` returns, whether `copyuvm` succeeds and when a
zombie is waited for is left open.  `f->pipe` and `f->ip` are part of the type of the file,
and `f->off` is left out.
-/

namespace Xv6.Ftable

open Lib Function
open Ptable (NOFILE NFILE)

abbrev O_WRONLY : Nat := 1
abbrev O_RDWR : Nat := 2

inductive Kind (I G : Type) where
  | none
  | pipe (g : G)
  | inode (ip : I)

structure File (I G : Type) where
  kind : Kind I G
  ref : Nat
  readable : Bool
  writable : Bool

/-- What `fileclose` releases: an end of a pipe, or the reference to an inode. -/
inductive Obj (I G : Type) where
  | pipe (g : G) (writable : Bool)
  | inode (ip : I)
deriving DecidableEq

def File.obj {I G : Type} (x : File I G) : Option (Obj I G) :=
  match x.kind with
  | .none => none
  | .pipe g => some (.pipe g x.writable)
  | .inode ip => some (.inode ip)

structure Pipe where
  readopen : Bool
  writeopen : Bool
deriving DecidableEq

inductive Panic where
  | filedup
  | fileclose
deriving DecidableEq

/-- What a call does after `fileclose`: it closes more files, or it goes on in `exit`. -/
inductive Rest where
  | files (fs : List (Fin NFILE))
  | exit (fd : Fin NOFILE) (f : Fin NFILE)
deriving DecidableEq

/-- Where a process is. -/
inductive Pc (P I G : Type) where
  | unused
  | embryo
  | zombie
  | idle
  | typing (ip : I) (omode : Nat) (f : Fin NFILE)
  | duping (f : Fin NFILE)
  | pipeSecond (f₀ : Fin NFILE)
  | pipePage (f₀ f₁ : Fin NFILE)
  | closing (f : Fin NFILE) (fs : List (Fin NFILE))
  | releasing (o : Obj I G) (k : Rest)
  | freeing (g : G) (k : Rest)
  | copying (np : P)
  | forking (np : P) (i : Nat)
  | exiting (i : Nat)
  | clearing (fd : Fin NOFILE) (f : Fin NFILE)
  | panic (m : Panic)
deriving DecidableEq

/-- The fields of `struct proc` that matter here. -/
structure Proc (P I G : Type) where
  pc : Pc P I G
  ofile : Fin NOFILE → Option (Fin NFILE)

/-- `ftable`, the pages that hold pipes, the processes and `initproc`. -/
structure State (P I G : Type) where
  file : Fin NFILE → File I G
  pipe : G → Option Pipe
  proc : P → Proc P I G
  initproc : P

inductive Act (P I G : Type) where
  | open (ip : I) (omode : Nat)
  | dup (fd : Fin NOFILE)
  | close (fd : Fin NOFILE)
  | pipe
  | fork (np : P)
  | exit
  | wait (np : P)
  | kalloc (r : Option G)
  | copyuvm (ok : Bool)
  | turn

section Steps

variable {P I G : Type} [DecidableEq P] [DecidableEq I] [DecidableEq G]

namespace State

def setFile (s : State P I G) (f : Fin NFILE) (x : File I G) : State P I G :=
  { s with file := update s.file f x }

def setPipe (s : State P I G) (g : G) (e : Option Pipe) : State P I G :=
  { s with pipe := update s.pipe g e }

def setProc (s : State P I G) (p : P) (pr : Proc P I G) : State P I G :=
  { s with proc := update s.proc p pr }

def setPc (s : State P I G) (p : P) (c : Pc P I G) : State P I G :=
  s.setProc p { s.proc p with pc := c }

end State

/-- `filealloc` with `ftable.lock` held: the entry that gets its first reference. -/
def filealloc (s : State P I G) : Option (Fin NFILE) :=
  (List.finRange NFILE).find? fun f => (s.file f).ref = 0

def fdalloc (ofile : Fin NOFILE → Option (Fin NFILE)) : Option (Fin NOFILE) :=
  (List.finRange NOFILE).find? fun fd => (ofile fd).isNone

/-- `filedup`; the caller goes on with `t`. -/
def filedup (s : State P I G) (p : P) (f : Fin NFILE) (t : State P I G → State P I G) :
    State P I G :=
  if (s.file f).ref < 1 then s.setPc p (.panic .filedup)
  else t (s.setFile f { s.file f with ref := (s.file f).ref + 1 })

/-- Where a call goes on after a `fileclose`. -/
def Rest.pc : Rest → Pc P I G
  | .files [] => .idle
  | .files (f :: fs) => .closing f fs
  | .exit fd f => .clearing fd f

def fileclose (s : State P I G) (p : P) (f : Fin NFILE) (k : Rest) : State P I G :=
  if (s.file f).ref < 1 then s.setPc p (.panic .fileclose)
  else if 0 < (s.file f).ref - 1 then
    (s.setFile f { s.file f with ref := (s.file f).ref - 1 }).setPc p k.pc
  else
    (s.setFile f { s.file f with ref := 0, kind := .none }).setPc p
      (match (s.file f).obj with
      | none => k.pc
      | some o => .releasing o k)

def Pipe.close (e : Pipe) (writable : Bool) : Pipe :=
  if writable = true then { e with writeopen := false } else { e with readopen := false }

/-- The end of `fileclose`, without `ftable.lock`: `pipeclose` or `iput`. -/
def release (s : State P I G) (p : P) (o : Obj I G) (k : Rest) : Option (State P I G) :=
  match o with
  | .inode _ => some (s.setPc p k.pc)
  | .pipe g writable =>
    match s.pipe g with
    | none => none
    | some e =>
      some ((s.setPipe g (some (e.close writable))).setPc p
        (if (e.close writable).readopen = false ∧ (e.close writable).writeopen = false then
          .freeing g k
        else k.pc))

def openedFile (x : File I G) (ip : I) (omode : Nat) : File I G :=
  { x with
    kind := .inode ip
    readable := omode &&& O_WRONLY = 0
    writable := omode &&& O_WRONLY ≠ 0 ∨ omode &&& O_RDWR ≠ 0 }

def pipeFile (x : File I G) (g : G) (writable : Bool) : File I G :=
  { x with kind := .pipe g, readable := !writable, writable := writable }

def pipeMade (s : State P I G) (f₀ f₁ : Fin NFILE) (g : G) : State P I G :=
  ((s.setPipe g (some ⟨true, true⟩)).setFile f₀ (pipeFile (s.file f₀) g false)).setFile f₁
    (pipeFile (s.file f₁) g true)

/-- One step of a process. -/
def step (s : State P I G) (l : P × Act P I G) : Option (State P I G) :=
  let ofile := (s.proc l.1).ofile
  match l.2, (s.proc l.1).pc with
  | .open ip omode, .idle =>
    match filealloc s, fdalloc ofile with
    | none, _ => some s
    | some f, none =>
      some ((s.setFile f { s.file f with ref := 1 }).setPc l.1 (.closing f []))
    | some f, some fd =>
      some ((s.setFile f { s.file f with ref := 1 }).setProc l.1
        ⟨.typing ip omode f, update ofile fd (some f)⟩)
  | .turn, .typing ip omode f =>
    some ((s.setFile f (openedFile (s.file f) ip omode)).setPc l.1 .idle)
  | .dup fd, .idle =>
    match ofile fd, fdalloc ofile with
    | some f, some fd' => some (s.setProc l.1 ⟨.duping f, update ofile fd' (some f)⟩)
    | _, _ => some s
  | .turn, .duping f => some (filedup s l.1 f fun t => t.setPc l.1 .idle)
  | .close fd, .idle =>
    match ofile fd with
    | some f => some (s.setProc l.1 ⟨.closing f [], update ofile fd none⟩)
    | none => some s
  | .turn, .closing f fs => some (fileclose s l.1 f (.files fs))
  | .turn, .releasing o k => release s l.1 o k
  | .turn, .freeing g k => some ((s.setPipe g none).setPc l.1 k.pc)
  | .pipe, .idle =>
    match filealloc s with
    | none => some s
    | some f₀ =>
      some ((s.setFile f₀ { s.file f₀ with ref := 1 }).setPc l.1 (.pipeSecond f₀))
  | .turn, .pipeSecond f₀ =>
    match filealloc s with
    | none => some (s.setPc l.1 (.closing f₀ []))
    | some f₁ =>
      some ((s.setFile f₁ { s.file f₁ with ref := 1 }).setPc l.1 (.pipePage f₀ f₁))
  | .kalloc r, .pipePage f₀ f₁ =>
    match r with
    | none => some (s.setPc l.1 (.closing f₀ [f₁]))
    | some g =>
      if (s.pipe g).isSome then none
      else
        match fdalloc ofile with
        | none => some ((pipeMade s f₀ f₁ g).setPc l.1 (.closing f₀ [f₁]))
        | some fd₀ =>
          match fdalloc (update ofile fd₀ (some f₀)) with
          | none =>
            some ((pipeMade s f₀ f₁ g).setProc l.1 ⟨.closing f₀ [f₁],
              update (update ofile fd₀ (some f₀)) fd₀ none⟩)
          | some fd₁ =>
            some ((pipeMade s f₀ f₁ g).setProc l.1 ⟨.idle,
              update (update ofile fd₀ (some f₀)) fd₁ (some f₁)⟩)
  | .fork np, .idle =>
    if (s.proc np).pc = .unused then some ((s.setPc np .embryo).setPc l.1 (.copying np))
    else none
  | .copyuvm ok, .copying np =>
    if ok = true then some (s.setPc l.1 (.forking np 0))
    else some ((s.setPc np .unused).setPc l.1 .idle)
  | .turn, .forking np i =>
    if hi : i < NOFILE then
      match ofile ⟨i, hi⟩ with
      | some f =>
        some (filedup s l.1 f fun t => (t.setProc np
            ⟨(s.proc np).pc, update (s.proc np).ofile ⟨i, hi⟩ (some f)⟩).setPc l.1
              (.forking np (i + 1)))
      | none => some (s.setPc l.1 (.forking np (i + 1)))
    else some ((s.setPc np .idle).setPc l.1 .idle)
  -- `panic("init exiting")` stops the machine
  | .exit, .idle => if l.1 = s.initproc then none else some (s.setPc l.1 (.exiting 0))
  | .turn, .exiting i =>
    if hi : i < NOFILE then
      match ofile ⟨i, hi⟩ with
      | some f => some (fileclose s l.1 f (.exit ⟨i, hi⟩ f))
      | none => some (s.setPc l.1 (.exiting (i + 1)))
    else some (s.setPc l.1 .zombie)
  | .turn, .clearing fd _ =>
    some (s.setProc l.1 ⟨.exiting (fd + 1), update ofile fd none⟩)
  | .wait np, .idle =>
    if (s.proc np).pc = .zombie then some (s.setPc np .unused) else none
  | _, _ => none

/-- The table at boot: one process runs, and nothing is open. -/
def boot (init : P) : State P I G where
  file := fun _ => { kind := .none, ref := 0, readable := false, writable := false }
  pipe := fun _ => none
  proc := fun p => ⟨if p = init then .idle else .unused, fun _ => none⟩
  initproc := init

end Steps

end Xv6.Ftable
