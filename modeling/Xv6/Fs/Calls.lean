import Xv6.Lib.Transition
import Xv6.Fs.Dir

/-!
# System calls on files

file.c and sysfile.c without pipes.  A path argument that `argstr` rejects is
`none`.  A label of the machine is one call of one process from its start to its
end; a call that panics or never returns is not enabled.
-/

namespace Xv6.Fs

open Lib Lib.Prog Ptable Function

def setFile (i : Fin NFILE) (f : File → File) : FM Unit :=
  modify fun s => { s with file := update s.file i (f (s.file i)) }

def setProc (p : Slot) (f : Proc → Proc) : FM Unit :=
  modify fun s => { s with proc := update s.proc p (f (s.proc p)) }

def filealloc : FM (Option (Fin NFILE)) := do
  let s ← get
  match (List.finRange NFILE).find? fun i => (s.file i).ref = 0 with
  | none => pure none
  | some i => do
    setFile i fun f => { f with ref := 1 }
    pure (some i)

def filedup (i : Fin NFILE) : FM Unit := do
  let s ← get
  if (s.file i).ref < 1 then throw .filedup
  else setFile i fun f => { f with ref := f.ref + 1 }

/-- `begin_op(); iput(ip); end_op();` -/
def iputOp (ip : Ino) : FM Unit := do
  beginOp
  iput ip
  endOp

def fileclose (i : Fin NFILE) : FM Unit := do
  let s ← get
  if (s.file i).ref < 1 then throw .fileclose
  else if 1 < (s.file i).ref then setFile i fun f => { f with ref := f.ref - 1 }
  else do
    setFile i fun f => { f with ref := 0, ip := none }
    match (s.file i).ip with
    | none => pure ()
    | some ip => iputOp ip

def fileread (i : Fin NFILE) (n : Nat) : FM Int := do
  let s ← get
  if (s.file i).readable = false then pure (-1)
  else
    match (s.file i).ip with
    | none => throw .fileread
    | some ip => do
      ilock ip
      let r ← readi ip (s.file i).off n
      setFile i fun f => { f with off := f.off + (r.getD []).length }
      iunlock ip
      match r with
      | none => pure (-1)
      | some l => pure l.length

/-- `((MAXOPBLOCKS-1-1-2) / 2) * 512`. -/
abbrev writeMax : Nat := 1536

/-- One turn of the loop in `filewrite`. -/
def writeChunk (i : Fin NFILE) (ip : Ino) (src : List UInt8) : FM Int := do
  beginOp
  ilock ip
  let s ← get
  let r ← writei ip (s.file i).off src
  setFile i fun f => { f with off := f.off + r.toNat }
  iunlock ip
  endOp
  pure r

def writeChunks (i : Fin NFILE) (ip : Ino) : Nat → List UInt8 → FM Bool
  | 0, src => pure (src = [])
  | fuel + 1, src =>
    if src = [] then pure true
    else do
      let r ← writeChunk i ip (src.take writeMax)
      if r < 0 then pure false
      else if r ≠ (src.take writeMax).length then throw .shortWrite
      else writeChunks i ip fuel (src.drop writeMax)

def filewrite (i : Fin NFILE) (src : List UInt8) : FM Int := do
  let s ← get
  if (s.file i).writable = false then pure (-1)
  else
    match (s.file i).ip with
    | none => throw .filewrite
    | some ip => do
      let done ← writeChunks i ip src.length src
      if done = true then pure src.length else pure (-1)

def fdalloc (p : Slot) (i : Fin NFILE) : FM (Option (Fin NOFILE)) := do
  let s ← get
  match (List.finRange NOFILE).find? fun fd => (s.proc p).ofile fd = none with
  | none => pure none
  | some fd => do
    setProc p fun q => { q with ofile := update q.ofile fd (some i) }
    pure (some fd)

def endFail : FM Int := do
  endOp
  pure (-1)

def endDone : FM Int := do
  endOp
  pure 0

/-- `iunlockput(ip); end_op(); return -1;` -/
def putFail (ip : Ino) : FM Int := do
  iunlockput ip
  endFail

def addNlink (ip : Ino) (n : Int) : FM Unit :=
  updateInode ip fun d => d.setNlink (d.nlink + n)

def linkBad (ip : Ino) : FM Int := do
  ilock ip
  addNlink ip (-1)
  putFail ip

def linkNew (p : Slot) (ip : Ino) (new : Str) : FM Int := do
  let r ← nameiparent p new
  match r with
  | none => linkBad ip
  | some (dp, name) => do
    ilock dp
    let s ← get
    let r ← dirlink dp name (s.icache ip).inum
    iunlockput dp
    if r < 0 then linkBad ip
    else do
      iput ip
      endDone

def linkStr (p : Slot) (old new : Str) : FM Int := do
  beginOp
  let r ← namei p old
  match r with
  | none => endFail
  | some (ip, _) => do
    ilock ip
    let s ← get
    if (s.icache ip).d.type = T_DIR then putFail ip
    else do
      addNlink ip 1
      iunlock ip
      linkNew p ip new

def sysLink (p : Slot) : Option Str → Option Str → FM Int
  | some old, some new => linkStr p old new
  | _, _ => pure (-1)

def isdirempty (dp : Ino) : FM Bool := do
  let s ← get
  let r ← dirScan .dirEmptyRead dp (fun de => de.inum ≠ 0) ((s.icache dp).d.size + 1) 32
  pure r.isNone

/-- `ip->type == T_DIR && !isdirempty(ip)`. -/
def dirInUse (ip : Ino) : FM Bool := do
  let s ← get
  if (s.icache ip).d.type = T_DIR then do
    let empty ← isdirempty ip
    pure !empty
  else pure false

def clearEntry (dp : Ino) (off : Nat) : FM Unit := do
  let n ← writei dp off (List.replicate 16 0)
  if n = 16 then pure () else throw .unlinkWrite

def unlinkParent (dp ip : Ino) : FM Unit := do
  let s ← get
  if (s.icache ip).d.type = T_DIR then addNlink dp (-1) else pure ()

def unlinkFound (dp ip : Ino) (off : Nat) : FM Int := do
  ilock ip
  let s ← get
  if (s.icache ip).d.nlink < 1 then throw .unlinkNlink
  else do
    let inUse ← dirInUse ip
    if inUse = true then do
      iunlockput ip
      putFail dp
    else do
      clearEntry dp off
      unlinkParent dp ip
      iunlockput dp
      addNlink ip (-1)
      iunlockput ip
      endDone

/-- The name ".". -/
abbrev dot : Str := [46]

abbrev dotdot : Str := [46, 46]

def unlinkStr (p : Slot) (path : Str) : FM Int := do
  beginOp
  let r ← nameiparent p path
  match r with
  | none => endFail
  | some (dp, name) => do
    ilock dp
    if namecmp name dot = 0 ∨ namecmp name dotdot = 0 then putFail dp
    else do
      let r ← dirlookup dp name
      match r with
      | none => putFail dp
      | some (off, ip) => unlinkFound dp ip off

def sysUnlink (p : Slot) : Option Str → FM Int
  | some path => unlinkStr p path
  | none => pure (-1)

def makeDots (dp ip : Ino) : FM Unit := do
  addNlink dp 1
  let s ← get
  let r ← dirlink ip dot (s.icache ip).inum
  if r < 0 then throw .createDots
  else do
    let r ← dirlink ip dotdot (s.icache dp).inum
    if r < 0 then throw .createDots else pure ()

/-- The body of `if(type == T_DIR)` in `create`. -/
def createDots (dp ip : Ino) (type : Int) : FM Unit :=
  if type = T_DIR then makeDots dp ip else pure ()

def createFound (dp ip : Ino) (type : Int) : FM (Option Ino) := do
  iunlockput dp
  ilock ip
  let s ← get
  if type = T_FILE ∧ (s.icache ip).d.type = T_FILE then pure (some ip)
  else do
    iunlockput ip
    pure none

def createNew (dp : Ino) (name : Str) (type major minor : Int) : FM (Option Ino) := do
  let ip ← ialloc type
  ilock ip
  updateInode ip fun d => { d with major := short major, minor := short minor, nlink := 1 }
  createDots dp ip type
  let s ← get
  let r ← dirlink dp name (s.icache ip).inum
  if r < 0 then throw .createDirlink
  else do
    iunlockput dp
    pure (some ip)

def create (p : Slot) (path : Str) (type major minor : Int) : FM (Option Ino) := do
  let r ← nameiparent p path
  match r with
  | none => pure none
  | some (dp, name) => do
    ilock dp
    let r ← dirlookup dp name
    match r with
    | some (_, ip) => createFound dp ip type
    | none => createNew dp name type major minor

abbrev O_WRONLY : Nat := 1
abbrev O_RDWR : Nat := 2
abbrev O_CREATE : Nat := 512

def openInode (p : Slot) (path : Str) (omode : Nat) : FM (Option Ino) :=
  if omode &&& O_CREATE ≠ 0 then create p path T_FILE 0 0
  else do
    let r ← namei p path
    match r with
    | none => pure none
    | some (ip, _) => do
      ilock ip
      let s ← get
      if (s.icache ip).d.type = T_DIR ∧ omode ≠ 0 then do
        iunlockput ip
        pure none
      else pure (some ip)

def openDone (ip : Ino) (i : Fin NFILE) (fd : Fin NOFILE) (omode : Nat) : FM Int := do
  iunlock ip
  endOp
  setFile i fun f =>
    { f with
      ip := some ip
      off := 0
      readable := omode &&& O_WRONLY = 0
      writable := omode &&& O_WRONLY ≠ 0 ∨ omode &&& O_RDWR ≠ 0 }
  pure fd.val

def openFile (p : Slot) (ip : Ino) (omode : Nat) : FM Int := do
  let f ← filealloc
  match f with
  | none => putFail ip
  | some i => do
    let fd ← fdalloc p i
    match fd with
    | none => do
      fileclose i
      putFail ip
    | some fd => openDone ip i fd omode

def openStr (p : Slot) (path : Str) (omode : Nat) : FM Int := do
  beginOp
  let r ← openInode p path omode
  match r with
  | none => endFail
  | some ip => openFile p ip omode

def sysOpen (p : Slot) (path : Option Str) (omode : Nat) : FM Int :=
  match path with
  | some path => openStr p path omode
  | none => pure (-1)

def makeNode (p : Slot) (path : Option Str) (type major minor : Int) : FM Int := do
  beginOp
  match path with
  | none => endFail
  | some path => do
    let r ← create p path type major minor
    match r with
    | none => endFail
    | some ip => do
      iunlockput ip
      endDone

def sysMkdir (p : Slot) (path : Option Str) : FM Int :=
  makeNode p path T_DIR 0 0

def sysMknod (p : Slot) (path : Option Str) (major minor : Int) : FM Int :=
  makeNode p path T_DEV major minor

def chdirTo (p : Slot) (ip : Ino) : FM Int := do
  ilock ip
  let s ← get
  if (s.icache ip).d.type ≠ T_DIR then putFail ip
  else do
    iunlock ip
    let old ← cwdOf p
    iput old
    endOp
    setProc p fun q => { q with cwd := some ip }
    pure 0

def sysChdir (p : Slot) (path : Option Str) : FM Int := do
  beginOp
  match path with
  | none => endFail
  | some path => do
    let r ← namei p path
    match r with
    | none => endFail
    | some (ip, _) => chdirTo p ip

def readPart (ip : Ino) (part : Nat × Nat) : FM Unit := do
  let _ ← readi ip part.1 part.2
  pure ()

/-- What `exec` does with the file: it reads the parts that the headers ask for. -/
def execRead (p : Slot) (path : Str) (parts : List (Nat × Nat)) : FM Int := do
  beginOp
  let r ← namei p path
  match r with
  | none => endFail
  | some (ip, _) => do
    ilock ip
    forEach parts (readPart ip)
    iunlockput ip
    endDone

def sysExec (p : Slot) (path : Option Str) (parts : List (Nat × Nat)) : FM Int :=
  match path with
  | some path => execRead p path parts
  | none => pure (-1)

def withFd (p : Slot) (fd : Fin NOFILE) (body : Fin NFILE → FM Int) : FM Int := do
  let s ← get
  match (s.proc p).ofile fd with
  | none => pure (-1)
  | some i => body i

def dupFile (p : Slot) (i : Fin NFILE) : FM Int := do
  let r ← fdalloc p i
  match r with
  | none => pure (-1)
  | some fd => do
    filedup i
    pure fd.val

def closeFile (p : Slot) (fd : Fin NOFILE) (i : Fin NFILE) : FM Int := do
  setProc p fun q => { q with ofile := update q.ofile fd none }
  fileclose i
  pure 0

def forkFd (p np : Slot) (fd : Fin NOFILE) : FM Unit := do
  let s ← get
  match (s.proc p).ofile fd with
  | none => pure ()
  | some i => do
    filedup i
    setProc np fun q => { q with ofile := update q.ofile fd (some i) }

/-- What `fork` does with files: the child `np` gets the descriptors and the directory. -/
def fork (p np : Slot) : FM Int := do
  forEach (List.finRange NOFILE) (forkFd p np)
  let ip ← cwdOf p
  let ip ← idup ip
  setProc np fun q => { q with cwd := some ip }
  pure 0

def exitFd (p : Slot) (fd : Fin NOFILE) : FM Unit := do
  let s ← get
  match (s.proc p).ofile fd with
  | none => pure ()
  | some i => do
    fileclose i
    setProc p fun q => { q with ofile := update q.ofile fd none }

/-- What `exit` does with files; the first process is `initproc`. -/
def exit (p : Slot) : FM Int :=
  if p = 0 then throw .initExiting
  else do
    forEach (List.finRange NOFILE) (exitFd p)
    let ip ← cwdOf p
    iputOp ip
    setProc p fun q => { q with cwd := none }
    pure 0

/-- A call with its arguments. -/
inductive Call where
  | link (old new : Option Str)
  | unlink (path : Option Str)
  | openf (path : Option Str) (omode : Nat)
  | mkdir (path : Option Str)
  | mknod (path : Option Str) (major minor : Int)
  | chdir (path : Option Str)
  | exec (path : Option Str) (parts : List (Nat × Nat))
  | dup (fd : Fin NOFILE)
  | close (fd : Fin NOFILE)
  | read (fd : Fin NOFILE) (n : Nat)
  | write (fd : Fin NOFILE) (src : List UInt8)
  | fork (child : Slot)
  | exit

def runCall (p : Slot) : Call → FM Int
  | .link old new => sysLink p old new
  | .unlink path => sysUnlink p path
  | .openf path omode => sysOpen p path omode
  | .mkdir path => sysMkdir p path
  | .mknod path major minor => sysMknod p path major minor
  | .chdir path => sysChdir p path
  | .exec path parts => sysExec p path parts
  | .dup fd => withFd p fd (dupFile p)
  | .close fd => withFd p fd (closeFile p fd)
  | .read fd n => withFd p fd fun i => fileread i n
  | .write fd src => withFd p fd fun i => filewrite i src
  | .fork np => fork p np
  | .exit => exit p

/-- A process makes calls while it has a current directory; a child is put into a slot that is
not in use. -/
def Call.enabled (s : State) (p : Slot) : Call → Prop
  | .fork np => (s.proc p).cwd.isSome ∧ (s.proc np).cwd = none
  | _ => (s.proc p).cwd.isSome

instance (s : State) (p : Slot) (c : Call) : Decidable (c.enabled s p) := by
  unfold Call.enabled
  split <;> infer_instance

/-- One call of one process. -/
def step (s : State) (l : Slot × Call) : Option State :=
  if l.2.enabled s l.1 then
    match runCall l.1 l.2 s with
    | (.ok _, t) => some t
    | (.error _, _) => none
  else none

def readsb (disk : Disk) : Superblock where
  size := readWord (disk 1) 0
  nblocks := readWord (disk 1) 4
  ninodes := readWord (disk 1) 8
  nlog := readWord (disk 1) 12
  logstart := readWord (disk 1) 16
  inodestart := readWord (disk 1) 20
  bmapstart := readWord (disk 1) 24

/-- The cache after `iinit`, with the reference that `userinit` takes by `namei("/")`. -/
def bootCache : Ino → Inode :=
  update (fun _ => ⟨0, 0, false, false, Dinode.zero⟩) 0
    ⟨ROOTINO, 1, false, false, Dinode.zero⟩

/-- The state in which the first process starts. -/
def boot (disk : Disk) (tty : List (Option (List UInt8))) : State where
  sb := readsb disk
  disk := disk
  outstanding := 0
  logged := []
  icache := bootCache
  file := fun _ => ⟨0, none, false, false, 0⟩
  proc := update (fun _ => ⟨none, fun _ => none⟩) 0 ⟨some 0, fun _ => none⟩
  tty := tty

end Xv6.Fs
