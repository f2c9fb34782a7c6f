import Xv6.Fs.State

/-!
# Directories and paths

The rest of fs.c: `dirlookup`, `dirlink` and the path walk.  The loops over the
entries of a directory differ in what they look for and in their panic; `dirScan`
is that loop.
-/

namespace Xv6.Fs

open Lib Lib.Prog Ptable

/-- `dp->size` rounded up to whole entries: where a loop over the entries ends. -/
def Dinode.dirEnd (d : Dinode) : Nat :=
  16 * ((d.size + 15) / 16)

def dirScan (short : Stop) (dp : Ino) (test : Dirent → Bool) :
    Nat → Nat → FM (Option (Nat × Dirent))
  | 0, _ => pure none
  | fuel + 1, off => do
    let s ← get
    if (s.icache dp).d.size ≤ off then pure none
    else do
      let r ← readi dp off 16
      match r with
      | none => throw short
      | some l =>
        if l.length ≠ 16 then throw short
        else if test (Dirent.decode fun i => l.getD i 0) then
          pure (some (off, Dirent.decode fun i => l.getD i 0))
        else dirScan short dp test fuel (off + 16)

def dirlookup (dp : Ino) (name : Str) : FM (Option (Nat × Ino)) := do
  let s ← get
  if (s.icache dp).d.type ≠ T_DIR then throw .notDir
  else do
    let r ← dirScan .dirlookupRead dp (fun de => de.inum ≠ 0 ∧ namecmp name de.name = 0)
      ((s.icache dp).d.size + 1) 0
    match r with
    | none => pure none
    | some (off, de) => do
      let ip ← iget de.inum
      pure (some (off, ip))

def dirlinkAt (dp : Ino) (off : Nat) (name : Str) (inum : Nat) : FM Int := do
  let n ← writei dp off (Dirent.bytes ⟨inum, strncpy 14 name⟩)
  if n = 16 then pure 0 else throw .dirlinkWrite

def dirlink (dp : Ino) (name : Str) (inum : Nat) : FM Int := do
  let r ← dirlookup dp name
  match r with
  | some (_, ip) => do
    iput ip
    pure (-1)
  | none => do
    let s ← get
    let r ← dirScan .dirlinkRead dp (fun de => de.inum = 0) ((s.icache dp).d.size + 1) 0
    match r with
    | none => dirlinkAt dp (s.icache dp).d.dirEnd name inum
    | some (off, _) => dirlinkAt dp off name inum

def namexLoop (nameiparent : Bool) : Nat → Ino → Str → FM (Option (Ino × Str))
  | 0, _, _ => throw .fuel
  | fuel + 1, ip, path =>
    match skipelem path with
    | none =>
      if nameiparent = true then do
        iput ip
        pure none
      else pure (some (ip, []))
    | some (name, rest) => do
      ilock ip
      let s ← get
      if (s.icache ip).d.type ≠ T_DIR then do
        iunlockput ip
        pure none
      else if nameiparent = true ∧ rest = [] then do
        iunlock ip
        pure (some (ip, name))
      else do
        let r ← dirlookup ip name
        iunlockput ip
        match r with
        | none => pure none
        | some (_, next) => namexLoop nameiparent fuel next rest

def cwdOf (p : Slot) : FM Ino := do
  let s ← get
  match (s.proc p).cwd with
  | none => throw .nullCwd
  | some ip => pure ip

def namexStart (p : Slot) (path : Str) : FM Ino :=
  if path.head? = some slash then iget ROOTINO
  else do
    let ip ← cwdOf p
    idup ip

def namex (p : Slot) (nameiparent : Bool) (path : Str) : FM (Option (Ino × Str)) := do
  let ip ← namexStart p path
  namexLoop nameiparent (path.length + 1) ip path

def namei (p : Slot) (path : Str) : FM (Option (Ino × Str)) :=
  namex p false path

def nameiparent (p : Slot) (path : Str) : FM (Option (Ino × Str)) :=
  namex p true path

end Xv6.Fs
