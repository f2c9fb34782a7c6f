import Xv6.Fs.Calls

/-!
# mkfs

mkfs.c: the program on the host that writes the first image of the file system.
The image is a file of `FSSIZE` sectors; blocks and inodes are handed out by
counters, and the free map is written at the end from the counter of blocks.

A file of the host is its name and what the calls of `read` return for it, one
buffer after the other.  Byte order is that of the machine, so `xshort` and `xint`
are left out.
-/

namespace Xv6.Mkfs

open Lib Lib.Prog Fs
open Log (Block LOGSIZE)

abbrev FSSIZE : Nat := 1000

abbrev NINODES : Nat := 200

abbrev nbitmap : Nat := FSSIZE / 4096 + 1
abbrev ninodeblocks : Nat := NINODES / 8 + 1
abbrev nlog : Nat := LOGSIZE
abbrev nmeta : Nat := 2 + nlog + ninodeblocks + nbitmap
abbrev nblocks : Nat := FSSIZE - nmeta

/-- The superblock of the image. -/
def sb : Superblock where
  size := FSSIZE
  nblocks := nblocks
  ninodes := NINODES
  nlog := nlog
  logstart := 2
  inodestart := 2 + nlog
  bmapstart := 2 + nlog + ninodeblocks

structure HostFile where
  name : Str
  chunks : List (List UInt8)
  nul : 0 ∉ name

namespace HostFile

/-- All bytes of the file. -/
def content (f : HostFile) : List UInt8 :=
  f.chunks.flatten

/-- The name in the image: one leading `_` is skipped. -/
def entryName (f : HostFile) : Str :=
  if f.name.head? = some 95 then f.name.tail else f.name

end HostFile

structure State where
  /-- the image file -/
  disk : Disk
  freeinode : Nat
  freeblock : Nat

inductive Failure where
  /-- `assert(index(argv[i], '/') == 0)` -/
  | slash
  /-- `assert(rootino == ROOTINO)` -/
  | rootino
  /-- `assert(fbn < MAXFILE)` -/
  | maxfile
  /-- `assert(used < BSIZE*8)` -/
  | used
  /-- a sector past the end of the image -/
  | read
deriving DecidableEq, Repr

abbrev MM := Prog State Failure

def wsect (sec : Nat) (buf : Block) : MM Unit :=
  modify fun s => { s with disk := setBlock s.disk sec buf }

/-- `rsect`; a sector past the end is always read before it would be written, so the image keeps
its length. -/
def rsect (sec : Nat) : MM Block := do
  let s ← get
  if FSSIZE ≤ sec then throw .read else pure (s.disk sec)

def winode (inum : Nat) (ip : Dinode) : MM Unit := do
  let buf ← rsect (sb.IBLOCK inum)
  wsect (sb.IBLOCK inum) (blit buf (64 * (inum % 8)) 64 ip.byte)

def rinode (inum : Nat) : MM Dinode := do
  let buf ← rsect (sb.IBLOCK inum)
  pure (Dinode.decode fun r => getByte buf (64 * (inum % 8) + r))

def newInode (type : Int) : Dinode :=
  { Dinode.zero with type := short type, nlink := 1 }

def ialloc (type : Int) : MM Nat := do
  let s ← get
  modify fun s => { s with freeinode := s.freeinode + 1 }
  winode s.freeinode (newInode type)
  pure s.freeinode

/-- `buf[i/8] = buf[i/8] | (0x1 << (i%8))` -/
def markBlock (buf : Block) (i : Nat) : Block :=
  setByte buf (i / 8) (maskByte (getByte buf (i / 8)) (i % 8) true)

/-- The block of the free map in which the first `used` blocks are marked. -/
def markUsed (used : Nat) : Block :=
  (List.range used).foldl markBlock zeroBlock

def balloc (used : Nat) : MM Unit :=
  if 4096 ≤ used then throw .used else wsect sb.bmapstart (markUsed used)

def takeBlock : MM Nat := do
  let s ← get
  modify fun s => { s with freeblock := s.freeblock + 1 }
  pure s.freeblock

/-- `if(xint(din.addrs[k]) == 0) din.addrs[k] = xint(freeblock++);` -/
def appendAddr (din : Dinode) (k : Nat) : MM Dinode :=
  if din.addrs k = 0 then do
    let b ← takeBlock
    pure (din.setAddr k b)
  else pure din

/-- The entry `indirect[j]` of the indirect block, allocated if necessary. -/
def appendEntry (ind j : Nat) : MM Nat := do
  let a ← rsect ind
  if readWord a (4 * j) = 0 then do
    let b ← takeBlock
    wsect ind (writeWord a (4 * j) b)
    pure b
  else pure (readWord a (4 * j))

def appendBlock (din : Dinode) (fbn : Nat) : MM (Dinode × Nat) :=
  if fbn < NDIRECT then do
    let din ← appendAddr din fbn
    pure (din, din.addrs fbn)
  else do
    let din ← appendAddr din NDIRECT
    let x ← appendEntry (din.addrs NDIRECT) (fbn - NDIRECT)
    pure (din, x)

def appendLoop : Nat → Dinode → Nat → List UInt8 → MM (Dinode × Nat)
  | 0, din, off, _ => pure (din, off)
  | fuel + 1, din, off, p =>
    if p = [] then pure (din, off)
    else if MAXFILE ≤ off / 512 then throw .maxfile
    else do
      let r ← appendBlock din (off / 512)
      let buf ← rsect r.2
      wsect r.2 (blit buf (off % 512) (min p.length (512 - off % 512)) fun i => p.getD i 0)
      appendLoop fuel r.1 (off + min p.length (512 - off % 512))
        (p.drop (min p.length (512 - off % 512)))

def iappend (inum : Nat) (p : List UInt8) : MM Unit := do
  let din ← rinode inum
  let r ← appendLoop p.length din din.size p
  winode inum { r.1 with size := r.2 }

def superBlock : Block :=
  writeWord (writeWord (writeWord (writeWord (writeWord (writeWord (writeWord zeroBlock
    0 sb.size) 4 sb.nblocks) 8 sb.ninodes) 12 sb.nlog) 16 sb.logstart) 20 sb.inodestart)
    24 sb.bmapstart

def addFile (f : HostFile) : MM Unit :=
  if slash ∈ f.name then throw .slash
  else do
    let inum ← ialloc T_FILE
    iappend ROOTINO (Dirent.bytes ⟨inum, strncpy 14 f.entryName⟩)
    forEach f.chunks (iappend inum)

def fixSize : MM Unit := do
  let din ← rinode ROOTINO
  winode ROOTINO { din with size := (din.size / 512 + 1) * 512 }

def makeRoot : MM Unit := do
  let rootino ← ialloc T_DIR
  if rootino ≠ ROOTINO then throw .rootino
  else do
    iappend rootino (Dirent.bytes ⟨rootino, dot⟩)
    iappend rootino (Dirent.bytes ⟨rootino, dotdot⟩)

/-- `main` after the image has been filled with zeros. -/
def main (files : List HostFile) : MM Unit := do
  wsect 1 superBlock
  makeRoot
  forEach files addFile
  fixSize
  let s ← get
  balloc s.freeblock

/-- The image filled with zeros. -/
def start : State where
  disk := fun _ => zeroBlock
  freeinode := 1
  freeblock := nmeta

/-- The image for a list of files. -/
def image (files : List HostFile) : Disk :=
  (main files start).2.disk

end Xv6.Mkfs
