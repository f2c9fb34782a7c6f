import Xv6.Vm.Vm

/-!
# `exec`

exec.c, up to the point where the new image is handed to the process.  The file
is any content, the arguments are the strings that `sys_exec` has fetched.

Looking up the path, the locks and the log transaction are left out: they use no
pages.  So is the name that is saved for debugging.
-/

namespace Xv6.Vm

open Lib Lib.Prog

def ELF_MAGIC : Nat :=
  0x464C457F

def ELF_PROG_LOAD : Nat :=
  1

/-- Maximum number of arguments. -/
def MAXARG : Nat :=
  32

def elfhdrSize : Nat :=
  52

def proghdrSize : Nat :=
  32

namespace File

def u16 (ip : File) (off : Nat) : Nat :=
  (ip.data off).toNat + 256 * (ip.data (off + 1)).toNat

def u32 (ip : File) (off : Nat) : Nat :=
  ip.u16 off + 65536 * ip.u16 (off + 2)

end File

structure Elfhdr where
  magic : Nat
  entry : Nat
  phoff : Nat
  phnum : Nat

def File.elfhdr (ip : File) : Elfhdr where
  magic := ip.u32 0
  entry := ip.u32 24
  phoff := ip.u32 28
  phnum := ip.u16 44

structure Proghdr where
  type : Nat
  off : Nat
  vaddr : Nat
  filesz : Nat
  memsz : Nat

def File.proghdr (ip : File) (off : Nat) : Proghdr where
  type := ip.u32 off
  off := ip.u32 (off + 4)
  vaddr := ip.u32 (off + 8)
  filesz := ip.u32 (off + 16)
  memsz := ip.u32 (off + 20)

def loadSegment (K : Symbols) (pgdir : Nat) (ip : File) (off sz : Nat) : M (Option Nat) :=
  let ph := ip.proghdr off
  if readi ip off proghdrSize ≠ some proghdrSize then pure none
  else if ph.type ≠ ELF_PROG_LOAD then pure (some sz)
  else if ph.memsz < ph.filesz then pure none
  else if (ph.vaddr + ph.memsz) % 2 ^ 32 < ph.vaddr then pure none
  else do
    let sz' ← allocuvm K pgdir sz ((ph.vaddr + ph.memsz) % 2 ^ 32)
    if sz' = 0 then pure none
    else if ph.vaddr % 4096 ≠ 0 then pure none
    else do
      let r ← loaduvm pgdir ph.vaddr ip ph.off ph.filesz
      if r < 0 then pure none else pure (some sz')

/-- The loop over the program headers: the number left, the offset and the size so far. -/
def loadSegments (K : Symbols) (pgdir : Nat) (ip : File) : Nat → Nat → Nat → M (Option Nat)
  | 0, _, sz => pure (some sz)
  | n + 1, off, sz => do
    match ← loadSegment K pgdir ip off sz with
    | none => pure none
    | some sz' => loadSegments K pgdir ip n ((off + proghdrSize) % 2 ^ 32) sz'

/-- The loop that pushes the argument strings: the stack pointer and the addresses pushed. -/
def pushArgs (pgdir : Nat) : List (List UInt8) → Nat → List Nat → M (Option (Nat × List Nat))
  | [], sp, ptrs => pure (some (sp, ptrs))
  | arg :: argv, sp, ptrs =>
    if MAXARG ≤ ptrs.length then pure none
    else do
      let sp' := (sp + 2 ^ 32 - (arg.length + 1) % 2 ^ 32) % 2 ^ 32 / 4 * 4
      let r ← copyout pgdir (arg.length + 1) sp' (arg ++ [0])
      if r < 0 then pure none else pushArgs pgdir argv sp' (ptrs ++ [sp'])

def wordBytes (w : Nat) : List UInt8 :=
  [UInt8.ofNat w, UInt8.ofNat (w / 256), UInt8.ofNat (w / 65536), UInt8.ofNat (w / 16777216)]

/-- `ustack`: a fake return address, `argc`, `argv`, and the array itself. -/
def ustack (sp : Nat) (ptrs : List Nat) : List Nat :=
  [0xffffffff, ptrs.length, (sp + 2 ^ 32 - (ptrs.length + 1) * 4) % 2 ^ 32] ++ ptrs ++ [0]

/-- What `exec` commits to: the page directory, the size, the entry and the stack pointer. -/
structure Image where
  pgdir : Nat
  sz : Nat
  eip : Nat
  esp : Nat

/--
`exec` from the rounded size to the last `copyout`: two more pages, the first
inaccessible, the second the stack.  `none` is `goto bad`.
-/
@[irreducible] def buildStack (K : Symbols) (pgdir entry : Nat) (argv : List (List UInt8))
    (sz : Nat) :
    M (Option Image) := do
  let sz' ← allocuvm K pgdir sz ((sz + 2 * 4096) % 2 ^ 32)
  if sz' = 0 then pure none
  else do
    clearpteu pgdir (sz' - 2 * 4096)
    match ← pushArgs pgdir argv sz' [] with
    | none => pure none
    | some (sp, ptrs) =>
      let sp' := (sp + 2 ^ 32 - (3 + ptrs.length + 1) * 4) % 2 ^ 32
      let r ← copyout pgdir ((3 + ptrs.length + 1) * 4) sp'
        ((ustack sp ptrs).flatMap wordBytes)
      if r < 0 then pure none
      else pure (some { pgdir := pgdir, sz := sz', eip := entry, esp := sp' })

/-- `exec` from the program headers to the last `copyout`; `none` is `goto bad`. -/
def buildImage (K : Symbols) (pgdir : Nat) (ip : File) (argv : List (List UInt8)) :
    M (Option Image) := do
  match ← loadSegments K pgdir ip ip.elfhdr.phnum ip.elfhdr.phoff 0 with
  | none => pure none
  | some sz => buildStack K pgdir ip.elfhdr.entry argv (PGROUNDUP sz)

/-- `exec` before it commits to the new image; `none` if it returns -1. -/
def exec (K : Symbols) (ip : File) (argv : List (List UInt8)) : M (Option Image) :=
  if readi ip 0 elfhdrSize ≠ some elfhdrSize then pure none
  else if ip.elfhdr.magic ≠ ELF_MAGIC then pure none
  else do
    match ← setupkvm K with
    | none => pure none
    | some pgdir =>
      match ← buildImage K pgdir ip argv with
      | none =>
        freevm K (some pgdir)
        pure none
      | some img => pure (some img)

end Xv6.Vm
