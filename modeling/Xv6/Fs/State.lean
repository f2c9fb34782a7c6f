import Xv6.Fs.Dirent
import Xv6.Ptable.Table

/-!
# Inodes

fs.c up to `writei`: the block allocator, inodes on disk and in the inode cache,
and their contents.

Calls run one after the other.  The disk is what the buffer cache shows of it, so
`bread` reads the block and `log_write` stores it; of the log only the number of
operations in progress and the blocks recorded so far are kept.  An inode in
memory is known by its index in `icache.inode`.

A kernel panic stops the program.  So does an `acquiresleep` on a lock that is
taken: only the running call holds locks, so it would wait for itself.
-/

namespace Xv6.Fs

open Lib Lib.Prog Log Ptable

abbrev NINODE : Nat := 50

instance : NeZero NINODE := ⟨by decide⟩

/-- A `struct inode *`. -/
abbrev Ino := Fin NINODE

structure Inode where
  inum : Nat
  ref : Nat
  locked : Bool
  valid : Bool
  d : Dinode

/-- `struct file`; `ip` is set when the type is `FD_INODE`. -/
structure File where
  ref : Nat
  ip : Option Ino
  readable : Bool
  writable : Bool
  off : Nat
deriving DecidableEq

/-- The fields of `struct proc` that the file system uses; a process that has exited has no
current directory. -/
structure Proc where
  cwd : Option Ino
  ofile : Fin NOFILE → Option (Fin NFILE)

structure State where
  sb : Superblock
  disk : Disk
  /-- operations between `begin_op` and `end_op` -/
  outstanding : Nat
  /-- the block numbers in the log header -/
  logged : List Nat
  icache : Ino → Inode
  file : Fin NFILE → File
  proc : Slot → Proc
  /-- what the coming calls of `consoleread` return; `none` when the process is killed -/
  tty : List (Option (List UInt8))

/-- Why the program does not go on. -/
inductive Stop where
  | tooBig
  | outsideTrans
  | outOfBlocks
  | freeingFree
  | iallocNoInodes
  | igetNoInodes
  | ilock
  | noType
  | iunlock
  | bmapRange
  | notDir
  | dirlookupRead
  | dirlinkRead
  | dirlinkWrite
  | dirEmptyRead
  | unlinkNlink
  | unlinkWrite
  | createDots
  | createDirlink
  | filedup
  | fileclose
  | fileread
  | filewrite
  | shortWrite
  | initExiting
  /-- the current directory of a process that has none -/
  | nullCwd
  /-- `acquiresleep` on a lock that is held -/
  | deadlock
  | fuel
deriving DecidableEq, Repr

abbrev FM := Prog State Stop

def bread (b : Nat) : FM Block := do
  let s ← get
  pure (s.disk b)

def recordBlock (b : Nat) (data : Block) (s : State) : State :=
  { s with
    disk := setBlock s.disk b data
    logged := if b ∈ s.logged then s.logged else s.logged ++ [b] }

def logWrite (b : Nat) (data : Block) : FM Unit := do
  let s ← get
  if LOGSIZE ≤ s.logged.length ∨ s.sb.nlog - 1 ≤ s.logged.length then throw .tooBig
  else if s.outstanding < 1 then throw .outsideTrans
  else modify (recordBlock b data)

/-- `begin_op`; with one call at a time the log is empty and it does not wait. -/
def beginOp : FM Unit :=
  modify fun s => { s with outstanding := s.outstanding + 1 }

/-- `end_op`: the last operation commits, which empties the log. -/
def endOp : FM Unit :=
  modify fun s =>
    { s with
      outstanding := s.outstanding - 1
      logged := if s.outstanding - 1 = 0 then [] else s.logged }

def zeroBlock : Block :=
  fun _ => 0

def bzero (b : Nat) : FM Unit :=
  logWrite b zeroBlock

def balloc : FM Nat := do
  let s ← get
  match (List.range s.sb.size).find? fun b => bitAt s.sb s.disk b = false with
  | none => throw .outOfBlocks
  | some b => do
    logWrite (s.sb.BBLOCK b) (putBit s.sb s.disk b true)
    bzero b
    pure b

def bfree (b : Nat) : FM Unit := do
  let s ← get
  if bitAt s.sb s.disk b = false then throw .freeingFree
  else logWrite (s.sb.BBLOCK b) (putBit s.sb s.disk b false)

def setInode (e : Ino) (f : Inode → Inode) : FM Unit :=
  modify fun s => { s with icache := Function.update s.icache e (f (s.icache e)) }

def setDinode (e : Ino) (f : Dinode → Dinode) : FM Unit :=
  setInode e fun i => { i with d := f i.d }

def Dinode.setAddr (d : Dinode) (k b : Nat) : Dinode :=
  { d with addrs := Function.update d.addrs k b }

def Dinode.setNlink (d : Dinode) (n : Int) : Dinode :=
  { d with nlink := short n }

def iget (inum : Nat) : FM Ino := do
  let s ← get
  match (List.finRange NINODE).find? fun e =>
      0 < (s.icache e).ref ∧ (s.icache e).inum = inum with
  | some e => do
    setInode e fun i => { i with ref := i.ref + 1 }
    pure e
  | none =>
    match (List.finRange NINODE).find? fun e => (s.icache e).ref = 0 with
    | none => throw .igetNoInodes
    | some e => do
      setInode e fun i => { i with inum := inum, ref := 1, valid := false }
      pure e

def Dinode.new (type : Int) : Dinode :=
  { Dinode.zero with type := short type }

def ialloc (type : Int) : FM Ino := do
  let s ← get
  match (List.range s.sb.ninodes).find? fun i =>
      1 ≤ i ∧ (dinodeAt s.sb s.disk i).type = 0 with
  | none => throw .iallocNoInodes
  | some i => do
    logWrite (s.sb.IBLOCK i) (putDinode s.sb s.disk i (Dinode.new type))
    iget i

def iupdate (e : Ino) : FM Unit := do
  let s ← get
  logWrite (s.sb.IBLOCK (s.icache e).inum)
    (putDinode s.sb s.disk (s.icache e).inum (s.icache e).d)

def updateInode (e : Ino) (f : Dinode → Dinode) : FM Unit := do
  setDinode e f
  iupdate e

def idup (e : Ino) : FM Ino := do
  setInode e fun i => { i with ref := i.ref + 1 }
  pure e

/-- `acquiresleep(&ip->lock)`. -/
def acquiresleep (e : Ino) : FM Unit := do
  let s ← get
  if (s.icache e).locked = true then throw .deadlock
  else setInode e fun i => { i with locked := true }

/-- `releasesleep(&ip->lock)`. -/
def releasesleep (e : Ino) : FM Unit :=
  setInode e fun i => { i with locked := false }

def loadInode (e : Ino) : FM Unit := do
  let s ← get
  setInode e fun i => { i with valid := true, d := dinodeAt s.sb s.disk i.inum }
  if (dinodeAt s.sb s.disk (s.icache e).inum).type = 0 then throw .noType else pure ()

def ilock (e : Ino) : FM Unit := do
  let s ← get
  if (s.icache e).ref < 1 then throw .ilock
  else do
    acquiresleep e
    if (s.icache e).valid = true then pure () else loadInode e

def iunlock (e : Ino) : FM Unit := do
  let s ← get
  if (s.icache e).locked = false ∨ (s.icache e).ref < 1 then throw .iunlock
  else releasesleep e

def freeDirect (e : Ino) (k : Nat) : FM Unit := do
  let s ← get
  if (s.icache e).d.addrs k = 0 then pure ()
  else do
    bfree ((s.icache e).d.addrs k)
    setDinode e fun d => d.setAddr k 0

/-- One turn of the loop over the entries of the indirect block in `itrunc`. -/
def freeIndirect (a : Block) (j : Nat) : FM Unit :=
  if readWord a (4 * j) = 0 then pure () else bfree (readWord a (4 * j))

def truncIndirect (e : Ino) : FM Unit := do
  let s ← get
  if (s.icache e).d.addrs NDIRECT = 0 then pure ()
  else do
    let a ← bread ((s.icache e).d.addrs NDIRECT)
    forEach (List.range NINDIRECT) (freeIndirect a)
    bfree ((s.icache e).d.addrs NDIRECT)
    setDinode e fun d => d.setAddr NDIRECT 0

def itrunc (e : Ino) : FM Unit := do
  forEach (List.range NDIRECT) (freeDirect e)
  truncIndirect e
  updateInode e fun d => { d with size := 0 }

/-- The part of `iput` that frees an inode without links and without other references. -/
def ifree (e : Ino) : FM Unit := do
  itrunc e
  updateInode e fun d => { d with type := 0 }
  setInode e fun i => { i with valid := false }

def ifreeUnused (e : Ino) : FM Unit := do
  let s ← get
  if (s.icache e).valid = true ∧ (s.icache e).d.nlink = 0 ∧ (s.icache e).ref = 1 then ifree e
  else pure ()

def iput (e : Ino) : FM Unit := do
  acquiresleep e
  ifreeUnused e
  releasesleep e
  setInode e fun i => { i with ref := i.ref - 1 }

def iunlockput (e : Ino) : FM Unit := do
  iunlock e
  iput e

/-- `if((addr = ip->addrs[k]) == 0) ip->addrs[k] = addr = balloc(ip->dev);` -/
def bmapAddr (e : Ino) (k : Nat) : FM Nat := do
  let s ← get
  if (s.icache e).d.addrs k = 0 then do
    let b ← balloc
    setDinode e fun d => d.setAddr k b
    pure b
  else pure ((s.icache e).d.addrs k)

/-- The entry `a[j]` of the indirect block, allocated if necessary. -/
def bmapEntry (ind j : Nat) : FM Nat := do
  let a ← bread ind
  if readWord a (4 * j) = 0 then do
    let b ← balloc
    logWrite ind (writeWord a (4 * j) b)
    pure b
  else pure (readWord a (4 * j))

def bmap (e : Ino) (bn : Nat) : FM Nat :=
  if bn < NDIRECT then bmapAddr e bn
  else if bn - NDIRECT < NINDIRECT then do
    let ind ← bmapAddr e NDIRECT
    bmapEntry ind (bn - NDIRECT)
  else throw .bmapRange

def consoleread (e : Ino) (n : Nat) : FM (Option (List UInt8)) := do
  iunlock e
  let s ← get
  modify fun s => { s with tty := s.tty.tail }
  ilock e
  pure ((s.tty.headD none).map (List.take n))

def consolewrite (e : Ino) (n : Nat) : FM Int := do
  iunlock e
  ilock e
  pure n

abbrev CONSOLE : Int := 1

def slice (data : Block) (off m : Nat) : List UInt8 :=
  (List.range m).map fun i => getByte data (off + i)

def readLoop (e : Ino) : Nat → Nat → Nat → FM (List UInt8)
  | 0, _, _ => pure []
  | fuel + 1, off, n =>
    if n = 0 then pure []
    else do
      let b ← bmap e (off / 512)
      let data ← bread b
      let rest ← readLoop e fuel (off + min n (512 - off % 512)) (n - min n (512 - off % 512))
      pure (slice data (off % 512) (min n (512 - off % 512)) ++ rest)

def readi (e : Ino) (off n : Nat) : FM (Option (List UInt8)) := do
  let s ← get
  if (s.icache e).d.type = T_DEV then
    if (s.icache e).d.major = CONSOLE then consoleread e n else pure none
  else if (s.icache e).d.size < off ∨ (off + n) % 2 ^ 32 < off then pure none
  else do
    let l ← readLoop e (min n ((s.icache e).d.size - off)) off (min n ((s.icache e).d.size - off))
    pure (some l)

def writeLoop (e : Ino) : Nat → Nat → List UInt8 → FM Unit
  | 0, _, _ => pure ()
  | fuel + 1, off, src =>
    if src = [] then pure ()
    else do
      let b ← bmap e (off / 512)
      let data ← bread b
      logWrite b
        (blit data (off % 512) (min src.length (512 - off % 512)) fun i => src.getD i 0)
      writeLoop e fuel (off + min src.length (512 - off % 512))
        (src.drop (min src.length (512 - off % 512)))

def writeSize (e : Ino) (off n : Nat) : FM Unit := do
  let s ← get
  if 0 < n ∧ (s.icache e).d.size < off + n then
    updateInode e fun d => { d with size := off + n }
  else pure ()

/-- `writei` of the bytes `src`. -/
def writei (e : Ino) (off : Nat) (src : List UInt8) : FM Int := do
  let s ← get
  if (s.icache e).d.type = T_DEV then
    if (s.icache e).d.major = CONSOLE then consolewrite e src.length else pure (-1)
  else if (s.icache e).d.size < off ∨ (off + src.length) % 2 ^ 32 < off then pure (-1)
  else if MAXFILE * 512 < off + src.length then pure (-1)
  else do
    writeLoop e src.length off src
    writeSize e off src.length
    pure src.length

end Xv6.Fs
