import Xv6.Fs.Image
import Xv6.Kernel.State

/-!
# `exec` with its transaction

exec.c as a whole.  The path is looked up and the file read inside an operation of the
log, with the inode locked; the operation ends before the stack is built.  At the end the
process gets its name, page directory and size, and the trap frame its program counter and
stack pointer.

The file is read while its inode is locked, so what `loaduvm` and the loop over the
program headers read is the content at that time.  A device is asked for the ELF header
only: it starts with 0x7f, which `consoleintr` takes for a backspace, so the check of the
magic number fails.
-/

namespace Xv6.Exec

open Lib Lib.Prog Ptable

structure Trapframe where
  eip : Nat
  esp : Nat

/-- The kernel, the file system, and what else `exec` changes in a process. -/
structure State where
  kernel : Kernel.State
  fs : Fs.State
  tf : Slot → Trapframe
  name : Slot → Fs.Str

inductive Stop where
  | fs (e : Fs.Stop)
  | mem (e : Vm.Stop)

abbrev XM := Prog State Stop

def onFs {α : Type} (x : Fs.FM α) : XM α :=
  zoom State.fs (fun s t => { s with fs := t }) (mapError Stop.fs x)

def onMem {α : Type} (x : Vm.M α) : XM α :=
  zoom (fun s => s.kernel.mem) (fun s m => { s with kernel := { s.kernel with mem := m } })
    (mapError Stop.mem x)

def fileOf (data : List UInt8) : Vm.File where
  size := data.length
  data := fun i => data.getD i 0

/-- The content of a locked inode. -/
def contents (s : Fs.State) (ip : Fs.Ino) : Vm.File :=
  fileOf (s.image ip).data

/-- `exec` up to the ELF header: the locked inode and the bytes read, if there are any. -/
def openProgram (p : Slot) (path : Fs.Str) : Fs.FM (Option (Fs.Ino × List UInt8)) := do
  Fs.beginOp
  match ← Fs.namei p path with
  | none => do
    Fs.endOp
    pure none
  | some (ip, _) => do
    Fs.ilock ip
    let elf ← Fs.readi ip 0 Vm.elfhdrSize
    pure (some (ip, elf.getD []))

/-- `iunlockput(ip); end_op();` -/
def closeProgram (ip : Fs.Ino) : Fs.FM Unit := do
  Fs.iunlockput ip
  Fs.endOp

/-- `if(pgdir) freevm(pgdir);` -/
def freePgdir (K : Vm.Symbols) : Option Frame → XM Unit
  | none => pure ()
  | some pgdir => onMem (Vm.freevm K (some pgdir))

/-- `if(ip){ iunlockput(ip); end_op(); }` -/
def putInode : Option Fs.Ino → XM Unit
  | none => pure ()
  | some ip => onFs (closeProgram ip)

def bad (K : Vm.Symbols) (pgdir : Option Frame) (ip : Option Fs.Ino) : XM Int := do
  freePgdir K pgdir
  putInode ip
  pure (-1)

def lastElem : Fs.Str → Fs.Str → Fs.Str
  | last, [] => last
  | last, c :: s => if c = Fs.slash then lastElem s s else lastElem last s

def nameSize : Nat :=
  16

def State.install (s : State) (p : Slot) (path : Fs.Str) (img : Vm.Image) : State :=
  { s with
    name := Function.update s.name p ((lastElem path path).take (nameSize - 1))
    kernel := { s.kernel with
      proc := set s.kernel.proc p { s.kernel.proc p with pgdir := some img.pgdir, sz := img.sz } }
    tf := Function.update s.tf p { eip := img.eip, esp := img.esp } }

/-- `exec` from saving the name to the end. -/
def commit (K : Vm.Symbols) (p : Slot) (path : Fs.Str) (img : Vm.Image) : XM Int := do
  let s ← get
  modify fun s => s.install p path img
  onMem (Vm.freevm K (s.kernel.proc p).pgdir)
  pure 0

def execImage (K : Vm.Symbols) (p : Slot) (path : Fs.Str) (argv : List (List UInt8)) (ip : Fs.Ino)
    (elf : Vm.Elfhdr) : XM Int := do
  match ← onMem (Vm.setupkvm K) with
  | none => bad K none (some ip)
  | some pgdir => do
    let s ← get
    match ← onMem (Vm.loadSegments K pgdir (contents s.fs ip) elf.phnum elf.phoff 0) with
    | none => bad K (some pgdir) (some ip)
    | some sz => do
      onFs (closeProgram ip)
      match ← onMem (Vm.buildStack K pgdir elf.entry argv (Vm.PGROUNDUP sz)) with
      | none => bad K (some pgdir) none
      | some img => commit K p path img

def exec (K : Vm.Symbols) (p : Slot) (path : Fs.Str) (argv : List (List UInt8)) : XM Int := do
  match ← onFs (openProgram p path) with
  | none => pure (-1)
  | some (ip, elf) =>
    if elf.length ≠ Vm.elfhdrSize then bad K none (some ip)
    else if (fileOf elf).elfhdr.magic ≠ Vm.ELF_MAGIC then bad K none (some ip)
    else execImage K p path argv ip (fileOf elf).elfhdr

end Xv6.Exec
