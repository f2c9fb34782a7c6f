import Xv6.Vm.Kalloc

/-!
# Page tables

The functions of vm.c.  A page directory is a frame; a pointer to an entry is a
frame and an index in it, and `walkpgdir` returns `none` for the null pointer.
Entries are words of physical memory.

A loop over addresses carries the address as the code does, modulo `2 ^ 32`.  It
runs on fuel: there is one unit for every page of the address space, and no loop
visits a page twice.
-/

namespace Xv6.Vm

open Lib Lib.Prog

abbrev PtePtr := Nat × Nat

def readPte (p : PtePtr) : M Nat := do
  let m ← get
  pure (m.word p.1 p.2)

def writePte (p : PtePtr) (w : Nat) : M Unit :=
  modify fun m => m.setWord p.1 p.2 w

def maxPages : Nat :=
  1048576

def walkpgdir (pgdir va : Nat) (alloc : Bool) : M (Option PtePtr) := do
  let pde ← readPte (pgdir, PDX va)
  if flag pde PTE_P then pure (some (pteFrame pde, PTX va))
  else if alloc = false then pure none
  else
    match ← kalloc with
    | none => pure none
    | some pgtab =>
      memset pgtab 0
      writePte (pgdir, PDX va) (mkPte pgtab (PTE_P ||| PTE_W ||| PTE_U))
      pure (some (pgtab, PTX va))

def mapLoop (pgdir last perm : Nat) : Nat → Nat → Nat → M Int
  | 0, _, _ => throw .fuel
  | fuel + 1, a, pa => do
    match ← walkpgdir pgdir a true with
    | none => pure (-1)
    | some pte =>
      let w ← readPte pte
      if flag w PTE_P then throw .remap
      else
        writePte pte (pa ||| perm ||| PTE_P)
        if a = last then pure 0
        else mapLoop pgdir last perm fuel ((a + 4096) % 2 ^ 32) ((pa + 4096) % 2 ^ 32)

def mappages (pgdir va size pa perm : Nat) : M Int :=
  mapLoop pgdir (PGROUNDDOWN ((va + size + (2 ^ 32 - 1)) % 2 ^ 32)) perm maxPages
    (PGROUNDDOWN va) pa

def deallocLoop (K : Symbols) (pgdir oldsz : Nat) : Nat → Nat → M Unit
  | 0, _ => throw .fuel
  | fuel + 1, a =>
    if a < oldsz then do
      match ← walkpgdir pgdir a false with
      | none =>
        -- go on with the next page table
        deallocLoop K pgdir oldsz fuel ((PDX a + 1) * 4194304 % 2 ^ 32)
      | some pte =>
        let w ← readPte pte
        if flag w PTE_P then
          if pteFrame w = 0 then throw .kfree
          else
            kfree K (pteFrame w)
            writePte pte 0
            deallocLoop K pgdir oldsz fuel ((a + 4096) % 2 ^ 32)
        else deallocLoop K pgdir oldsz fuel ((a + 4096) % 2 ^ 32)
    else pure ()

def deallocuvm (K : Symbols) (pgdir oldsz newsz : Nat) : M Nat :=
  if oldsz ≤ newsz then pure oldsz
  else do
    deallocLoop K pgdir oldsz maxPages (PGROUNDUP newsz)
    pure newsz

def freeTable (K : Symbols) (pgdir i : Nat) : M Unit := do
  let pde ← readPte (pgdir, i)
  if flag pde PTE_P then kfree K (pteFrame pde) else pure ()

def freevm (K : Symbols) : Option Nat → M Unit
  | none => throw .freevm
  | some pgdir => do
    let _ ← deallocuvm K pgdir KERNBASE 0
    forEach (List.range NPDENTRIES) (freeTable K pgdir)
    kfree K pgdir

structure Kmap where
  virt : Nat
  physStart : Nat
  physEnd : Nat
  perm : Nat

def kmap (K : Symbols) : List Kmap :=
  [ { virt := KERNBASE, physStart := 0, physEnd := EXTMEM, perm := PTE_W },
    { virt := KERNLINK, physStart := KERNLINK - KERNBASE, physEnd := K.kdata - KERNBASE,
      perm := 0 },
    { virt := K.kdata, physStart := K.kdata - KERNBASE, physEnd := PHYSTOP, perm := PTE_W },
    { virt := DEVSPACE, physStart := DEVSPACE, physEnd := 0, perm := PTE_W } ]

def setupLoop (K : Symbols) (pgdir : Nat) : List Kmap → M (Option Nat)
  | [] => pure (some pgdir)
  | k :: ks => do
    let r ← mappages pgdir k.virt ((k.physEnd + 2 ^ 32 - k.physStart) % 2 ^ 32) k.physStart
      k.perm
    if r < 0 then
      freevm K (some pgdir)
      pure none
    else setupLoop K pgdir ks

def setupkvm (K : Symbols) : M (Option Nat) := do
  match ← kalloc with
  | none => pure none
  | some pgdir =>
    memset pgdir 0
    if DEVSPACE < KERNBASE + PHYSTOP then throw .phystop
    else setupLoop K pgdir (kmap K)

def inituvm (pgdir : Nat) (init : List UInt8) : M Unit :=
  if PGSIZE ≤ init.length then throw .inituvm
  else do
    match ← kalloc with
    | none => throw .nullPage
    | some mem =>
      memset mem 0
      let _ ← mappages pgdir 0 PGSIZE (mem * 4096) (PTE_W ||| PTE_U)
      modify fun m => m.setPage mem fun j => init.getD j.val (m.page mem j)

def allocLoop (K : Symbols) (pgdir oldsz newsz : Nat) : Nat → Nat → M Nat
  | 0, _ => throw .fuel
  | fuel + 1, a =>
    if a < newsz then do
      match ← kalloc with
      | none =>
        let _ ← deallocuvm K pgdir newsz oldsz
        pure 0
      | some mem =>
        memset mem 0
        let r ← mappages pgdir a PGSIZE (mem * 4096) (PTE_W ||| PTE_U)
        if r < 0 then
          let _ ← deallocuvm K pgdir newsz oldsz
          kfree K mem
          pure 0
        else allocLoop K pgdir oldsz newsz fuel ((a + 4096) % 2 ^ 32)
    else pure newsz

def allocuvm (K : Symbols) (pgdir oldsz newsz : Nat) : M Nat :=
  if KERNBASE ≤ newsz then pure 0
  else if newsz < oldsz then pure oldsz
  else if 0 < oldsz ∧ newsz - oldsz ≤ 2 * 4096 ∧ oldsz < 10 * 4096 then
    allocLoop K pgdir oldsz newsz maxPages (PGROUNDUP oldsz)
  else pure newsz

/-- `w & ~PTE_U`. -/
def clearU (w : Nat) : Nat :=
  if flag w PTE_U then w - PTE_U else w

def clearpteu (pgdir uva : Nat) : M Unit := do
  match ← walkpgdir pgdir uva false with
  | none => throw .clearpteu
  | some pte =>
    let w ← readPte pte
    writePte pte (clearU w)

def copyLoop (K : Symbols) (pgdir sz d : Nat) : Nat → Nat → M (Option Nat)
  | 0, _ => throw .fuel
  | fuel + 1, i =>
    if i < sz then do
      match ← walkpgdir pgdir i false with
      | none => copyLoop K pgdir sz d fuel ((i + 4096) % 2 ^ 32)
      | some pte =>
        let w ← readPte pte
        if flag w PTE_P then
          match ← kalloc with
          | none =>
            freevm K (some d)
            pure none
          | some mem =>
            modify fun m => m.setPage mem (m.page (pteFrame w))
            let r ← mappages d i PGSIZE (mem * 4096) (PTE_FLAGS w)
            if r < 0 then
              kfree K mem
              freevm K (some d)
              pure none
            else copyLoop K pgdir sz d fuel ((i + 4096) % 2 ^ 32)
        else copyLoop K pgdir sz d fuel ((i + 4096) % 2 ^ 32)
    else pure (some d)

def copyuvm (K : Symbols) (pgdir sz : Nat) : M (Option Nat) := do
  match ← setupkvm K with
  | none => pure none
  | some d => copyLoop K pgdir sz d maxPages 0

def uva2ka (pgdir uva : Nat) : M (Option Nat) := do
  match ← walkpgdir pgdir uva false with
  | none => throw .nullPte
  | some pte =>
    let w ← readPte pte
    if flag w PTE_P = false then pure none
    else if flag w PTE_U = false then pure none
    else pure (some (pteFrame w))

def Mem.copyIn (m : Mem) (f off : Nat) (bytes : List UInt8) : Mem :=
  m.setPage f fun j => if off ≤ j.val then bytes.getD (j.val - off) (m.page f j) else m.page f j

def copyout (pgdir : Nat) : Nat → Nat → List UInt8 → M Int
  | 0, _, buf => if buf = [] then pure 0 else throw .fuel
  | fuel + 1, va, buf =>
    if buf = [] then pure 0
    else do
      let va0 := PGROUNDDOWN va
      match ← uva2ka pgdir va0 with
      | none => pure (-1)
      | some pa0 =>
        let n := min (4096 - (va - va0)) buf.length
        modify fun m => m.copyIn pa0 (va - va0) (buf.take n)
        copyout pgdir fuel ((va0 + 4096) % 2 ^ 32) (buf.drop n)

structure File where
  size : Nat
  data : Nat → UInt8

def readi (ip : File) (off n : Nat) : Option Nat :=
  if ip.size < off ∨ 2 ^ 32 ≤ off + n then none
  else if ip.size < off + n then some (ip.size - off)
  else some n

def Mem.readInto (m : Mem) (f : Nat) (ip : File) (off n : Nat) : Mem :=
  m.setPage f fun j => if j.val < n then ip.data (off + j.val) else m.page f j

def loadLoop (pgdir addr : Nat) (ip : File) (offset sz : Nat) : Nat → Nat → M Int
  | 0, _ => throw .fuel
  | fuel + 1, i =>
    if i < sz then do
      -- the first walk finds the entry or the second one makes the page table
      match ← walkpgdir pgdir ((addr + i) % 2 ^ 32) true with
      | none => throw .loaduvm
      | some pte =>
        let w ← readPte pte
        let f ←
          if flag w PTE_P then pure (some (pteFrame w))
          else do
            match ← kalloc with
            | none => pure none
            | some mem =>
              memset mem 0
              writePte pte (mkPte mem (PTE_P ||| PTE_W ||| PTE_U))
              pure (some mem)
        match f with
        | none => pure (-1)
        | some f =>
          let n := if sz - i < 4096 then sz - i else 4096
          match readi ip ((offset + i) % 2 ^ 32) n with
          | none => pure (-1)
          | some cnt =>
            modify fun m => m.readInto f ip ((offset + i) % 2 ^ 32) cnt
            if cnt ≠ n then pure (-1)
            else loadLoop pgdir addr ip offset sz fuel ((i + 4096) % 2 ^ 32)
    else pure 0

def loaduvm (pgdir addr : Nat) (ip : File) (offset sz : Nat) : M Int :=
  if addr % 4096 ≠ 0 then throw .loaduvm
  else loadLoop pgdir addr ip offset sz maxPages 0

end Xv6.Vm
