import Xv6.Lib.Transition
import Xv6.Ptable.Table
import Xv6.Vm.Fault

/-!
# System calls that allocate and free memory

The process table, the open files and physical memory together: `fork`, `exec`,
`sbrk`, `exit`, `wait`, the calls on file descriptors, and the accesses of user
code with the page faults they cause.

A label is one call or one access, from its start to its end.  Scheduling is left
out: any process that is RUNNABLE may make the next call.  A call that would sleep
is not taken before it can go on, and a call that would panic or use a null
pointer is not enabled: the machine stops there.

`struct pipe` lies in a page of its own; only whether its ends are open is
modelled, beside the page.  The inode that a file refers to is left out.
-/

namespace Xv6.Kernel

open Lib Lib.Prog Ptable Vm Function

inductive FileType where
  | none
  | pipe
  | inode
deriving DecidableEq, Repr

structure OpenFile where
  ref : Nat
  type : FileType
  readable : Bool
  writable : Bool
  pipe : Option Frame
deriving DecidableEq

structure Pipe where
  readopen : Bool
  writeopen : Bool
deriving DecidableEq

/-- The state of the machine. -/
structure State where
  mem : Mem
  proc : Table
  nextpid : Int
  initproc : Slot
  file : Fin NFILE → OpenFile
  pipe : Frame → Pipe
  /-- the page directory for when no process is running -/
  kpgdir : Frame
  /-- the stacks that `startothers` has given to the other processors -/
  apStacks : List Frame

abbrev KM := Prog State Stop

def onMem {α : Type} (x : M α) : KM α :=
  zoom State.mem (fun s m => { s with mem := m }) x

def updProc (p : Slot) (f : Proc → Proc) : KM Unit :=
  modify fun s => { s with proc := set s.proc p (f (s.proc p)) }

def updFile (i : Fin NFILE) (f : OpenFile → OpenFile) : KM Unit :=
  modify fun s => { s with file := update s.file i (f (s.file i)) }

def pgdirOf (p : Slot) : KM Frame := do
  let s ← get
  match (s.proc p).pgdir with
  | none => throw .nullPage
  | some D => pure D

def OpenFile.setRef (f : OpenFile) (n : Nat) : OpenFile :=
  { f with ref := n }

def filealloc : KM (Option (Fin NFILE)) := do
  let s ← get
  match (List.finRange NFILE).find? fun i => (s.file i).ref = 0 with
  | none => pure none
  | some i =>
    updFile i fun f => f.setRef 1
    pure (some i)

def filedup (i : Fin NFILE) : KM Unit := do
  let s ← get
  if (s.file i).ref < 1 then throw .filedup
  else updFile i fun f => f.setRef (f.ref + 1)

def Pipe.shut (q : Pipe) (writable : Bool) : Pipe :=
  if writable then { q with writeopen := false } else { q with readopen := false }

def pipeclose (K : Symbols) (P : Frame) (writable : Bool) : KM Unit := do
  modify fun s => { s with pipe := update s.pipe P ((s.pipe P).shut writable) }
  let s ← get
  if (s.pipe P).readopen = false ∧ (s.pipe P).writeopen = false then onMem (kfree K P)
  else pure ()

def fileclose (K : Symbols) (i : Fin NFILE) : KM Unit := do
  let s ← get
  if (s.file i).ref < 1 then throw .fileclose
  else if 1 < (s.file i).ref then updFile i fun f => f.setRef (f.ref - 1)
  else do
    updFile i fun f => { f with ref := 0, type := .none }
    if (s.file i).type = .pipe then
      match (s.file i).pipe with
      | none => throw .nullPage
      | some P => pipeclose K P (s.file i).writable
    else pure ()

def OpenFile.asPipe (f : OpenFile) (P : Frame) (writable : Bool) : OpenFile :=
  { f with type := .pipe, readable := !writable, writable := writable, pipe := some P }

def pipealloc (K : Symbols) : KM (Option (Fin NFILE × Fin NFILE)) := do
  match ← filealloc with
  | none => pure none
  | some i =>
    match ← filealloc with
    | none =>
      fileclose K i
      pure none
    | some j =>
      match ← onMem kalloc with
      | none =>
        fileclose K i
        fileclose K j
        pure none
      | some P =>
        modify fun s => { s with pipe := update s.pipe P ⟨true, true⟩ }
        updFile i fun f => f.asPipe P false
        updFile j fun f => f.asPipe P true
        pure (some (i, j))

def fdalloc (p : Slot) (i : Fin NFILE) : KM (Option (Fin NOFILE)) := do
  let s ← get
  match (List.finRange NOFILE).find? fun fd => ((s.proc p).ofile fd).isNone with
  | none => pure none
  | some fd =>
    updProc p fun v => { v with ofile := update v.ofile fd (some i) }
    pure (some fd)

def clearFd (p : Slot) (fd : Fin NOFILE) : KM Unit :=
  updProc p fun v => { v with ofile := update v.ofile fd none }

def dup (p : Slot) (fd : Fin NOFILE) : KM Int := do
  let s ← get
  match (s.proc p).ofile fd with
  | none => pure (-1)
  | some i =>
    match ← fdalloc p i with
    | none => pure (-1)
    | some fd' =>
      filedup i
      pure fd'

def close (K : Symbols) (p : Slot) (fd : Fin NOFILE) : KM Int := do
  let s ← get
  match (s.proc p).ofile fd with
  | none => pure (-1)
  | some i =>
    clearFd p fd
    fileclose K i
    pure 0

def openInode (K : Symbols) (p : Slot) (readable writable : Bool) : KM Int := do
  match ← filealloc with
  | none => pure (-1)
  | some i =>
    match ← fdalloc p i with
    | none =>
      fileclose K i
      pure (-1)
    | some fd =>
      updFile i fun f => { f with type := .inode, readable := readable, writable := writable }
      pure fd

def dupFd (p np : Slot) (fd : Fin NOFILE) : KM Unit := do
  let s ← get
  match (s.proc p).ofile fd with
  | none => pure ()
  | some i =>
    filedup i
    updProc np fun v => { v with ofile := update v.ofile fd (some i) }

def fork (K : Symbols) (p : Slot) : KM Int := do
  let s ← get
  match allocproc s.proc s.nextpid with
  | none => pure (-1)
  | some (np, t, n) =>
    modify fun s => { s with proc := t, nextpid := n }
    match ← onMem kalloc with
    | none =>
      updProc np fun v => { v with kstack := none, state := .unused }
      pure (-1)
    | some k =>
      updProc np fun v => { v with kstack := some k, context := .forkret }
      let D ← pgdirOf p
      match ← onMem (copyuvm K D (s.proc p).sz) with
      | none =>
        onMem (kfree K k)
        updProc np fun v => { v with pgdir := none, kstack := none, state := .unused }
        pure (-1)
      | some d =>
        updProc np fun v =>
          { v with
            pgdir := some d
            sz := (s.proc p).sz
            parent := some p
            priority := (s.proc p).priority }
        forEach (List.finRange NOFILE) (dupFd p np)
        updProc np fun v => { v with state := .runnable }
        pure s.nextpid

def closeFd (K : Symbols) (p : Slot) (fd : Fin NOFILE) : KM Unit := do
  let s ← get
  match (s.proc p).ofile fd with
  | none => pure ()
  | some i =>
    fileclose K i
    clearFd p fd

def exit (K : Symbols) (p : Slot) : KM Unit := do
  let s ← get
  if p = s.initproc then throw .initExiting
  else do
    forEach (List.finRange NOFILE) (closeFd K p)
    modify fun s => let t := reparent p s.initproc (wakeup1 s.proc ((s.proc p).parent.map .proc))
      { s with proc := set t p { t p with state := .zombie } }

def kfreePtr (K : Symbols) : Option Frame → M Unit
  | none => throw .kfree
  | some f => kfree K f

def wait (K : Symbols) (p : Slot) : KM Int := do
  let s ← get
  match waitScan s.proc p with
  | .fail => pure (-1)
  | .block => throw .sleep
  | .reap k =>
    onMem (kfreePtr K (s.proc k).kstack)
    onMem (freevm K (s.proc k).pgdir)
    updProc k Proc.reap
    pure (s.proc k).pid

/-- `growproc` and `sys_sbrk`. -/
def sbrk (K : Symbols) (p : Slot) (n : Int) : KM Int := do
  let s ← get
  let sz := (s.proc p).sz
  let newsz := ((sz + n) % 2 ^ 32).toNat
  let D ← pgdirOf p
  if n = 0 then pure sz
  else do
    let r ← onMem (if 0 < n then allocuvm K D sz newsz else deallocuvm K D sz newsz)
    if r = 0 then pure (-1)
    else do
      updProc p fun v => { v with sz := r }
      pure sz

/-- `exec` of a file; `none` if the path is not found. -/
def execFile (K : Symbols) (p : Slot) (ip : Option Vm.File) (argv : List (List UInt8)) :
    KM Int := do
  let s ← get
  match ip with
  | none => pure (-1)
  | some ip =>
    match ← onMem (Vm.exec K ip argv) with
    | none => pure (-1)
    | some img =>
      updProc p fun v => { v with pgdir := some img.pgdir, sz := img.sz }
      onMem (freevm K (s.proc p).pgdir)
      pure 0

/--
The frame for an access of process `p`, after a page fault if need be.  If the
fault is not resolved, user code is killed: `trap` calls `exit`.  Kernel code
would fault again and again.
-/
def access (K : Symbols) (p : Slot) (user write : Bool) (a : Nat) : KM (Option Frame) := do
  let D ← pgdirOf p
  let s ← get
  match s.mem.translate D user write a with
  | some f => pure (some f)
  | none =>
    let r ← onMem (handleLazyAllocation K D (s.proc p).sz a)
    if r = 0 then do
      let s ← get
      match s.mem.translate D user write a with
      | some f => pure (some f)
      | none => throw .refault
    else if user then do
      updProc p fun v => { v with killed := true }
      exit K p
      pure none
    else throw .refault

def byteAt (m : Mem) (f a : Nat) : UInt8 :=
  getByte (m.page f) (a % 4096)

def setByteAt (m : Mem) (f a : Nat) (b : UInt8) : Mem :=
  m.setPage f fun j => if j.val = a % 4096 then b else m.page f j

/-- A load of a byte; `none` if the process is killed. -/
def load (K : Symbols) (p : Slot) (user : Bool) (a : Nat) : KM (Option UInt8) := do
  match ← access K p user false a with
  | none => pure none
  | some f =>
    let s ← get
    pure (some (byteAt s.mem f a))

/-- A store of a byte; `false` if the process is killed. -/
def store (K : Symbols) (p : Slot) (user : Bool) (a : Nat) (b : UInt8) : KM Bool := do
  match ← access K p user true a with
  | none => pure false
  | some f =>
    modify fun s => { s with mem := setByteAt s.mem f a b }
    pure true

/-- `sys_pipe`; the two descriptors are written to user memory at `addr`. -/
def pipe (K : Symbols) (p : Slot) (addr : Nat) : KM Int := do
  let s ← get
  if (s.proc p).sz ≤ addr ∨ (s.proc p).sz < addr + 8 then pure (-1)
  else do
    match ← pipealloc K with
    | none => pure (-1)
    | some (rf, wf) =>
      match ← fdalloc p rf with
      | none =>
        fileclose K rf
        fileclose K wf
        pure (-1)
      | some fd₀ =>
        match ← fdalloc p wf with
        | none =>
          clearFd p fd₀
          fileclose K rf
          fileclose K wf
          pure (-1)
        | some fd₁ =>
          forEach ((wordBytes fd₀ ++ wordBytes fd₁).zipIdx addr) fun x => do
            let _ ← store K p false x.2 x.1
            pure ()
          pure 0

inductive Call where
  | fork
  | exec (ip : Option Vm.File) (argv : List (List UInt8))
  | sbrk (n : Int)
  | exit
  | wait
  | pipe (addr : Nat)
  | dup (fd : Fin NOFILE)
  | close (fd : Fin NOFILE)
  | openInode (readable writable : Bool)
  /-- an instruction of the user -/
  | load (a : Nat)
  | store (a : Nat) (b : UInt8)
  /-- kernel code that reads or writes a user buffer whose bounds have been checked -/
  | copyIn (a : Nat)
  | copyOut (a : Nat) (b : UInt8)

/-- The process that makes a call, and the call. -/
structure Label where
  proc : Slot
  call : Call

inductive Result where
  | ret (r : Int)
  | byte (b : UInt8)
  | done
  /-- the caller has exited or was killed -/
  | gone
deriving DecidableEq, Repr

def addr32 (a : Nat) : Nat :=
  a % 2 ^ 32

/-- A call from start to end. -/
def runCall (K : Symbols) (p : Slot) : Call → KM Result
  | .fork => do
    let r ← fork K p
    pure (.ret r)
  | .exec ip argv => do
    let r ← execFile K p ip argv
    pure (.ret r)
  | .sbrk n => do
    let r ← sbrk K p n
    pure (.ret r)
  | .exit => do
    exit K p
    pure .gone
  | .wait => do
    let r ← wait K p
    pure (.ret r)
  | .pipe addr => do
    let r ← pipe K p (addr32 addr)
    pure (.ret r)
  | .dup fd => do
    let r ← dup p fd
    pure (.ret r)
  | .close fd => do
    let r ← close K p fd
    pure (.ret r)
  | .openInode readable writable => do
    let r ← openInode K p readable writable
    pure (.ret r)
  | .load a => do
    let r ← load K p true (addr32 a)
    pure (match r with | none => .gone | some b => .byte b)
  | .store a b => do
    let r ← store K p true (addr32 a) b
    pure (if r then .done else .gone)
  | .copyIn a => do
    let s ← get
    if (s.proc p).sz ≤ addr32 a then pure (.ret (-1))
    else do
      let r ← load K p false (addr32 a)
      pure (match r with | none => .gone | some b => .byte b)
  | .copyOut a b => do
    let s ← get
    if (s.proc p).sz ≤ addr32 a then pure (.ret (-1))
    else do
      let r ← store K p false (addr32 a) b
      pure (if r then .done else .gone)

/-- One step: the process can run and the call comes to an end. -/
def step (K : Symbols) (s : State) (l : Label) : Option State :=
  if (s.proc l.proc).state = .runnable then
    match runCall K l.proc l.call s with
    | (.ok _, t) => some t
    | (.error _, _) => none
  else none

end Xv6.Kernel
