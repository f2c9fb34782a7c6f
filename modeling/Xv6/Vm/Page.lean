import Xv6.Lib.Bytes
import Mathlib.Data.Nat.Bitwise

/-!
# Addresses, pages and page table entries

The constants of memlayout.h and mmu.h and the arithmetic on 32-bit addresses
and page table entries that vm.c uses.  An address is a natural number below
`2 ^ 32`; a page of physical memory is named by its frame number, the physical
address divided by `PGSIZE`, and a kernel pointer to a page is that number as
well, since the kernel maps physical memory at `KERNBASE`.
-/

namespace Xv6.Vm

open Lib

variable {f w perm : Nat}

abbrev PGSIZE : Nat := 4096

abbrev NPDENTRIES : Nat := 1024

/-- First kernel virtual address. -/
abbrev KERNBASE : Nat := 0x80000000

abbrev EXTMEM : Nat := 0x100000

/-- Address where the kernel is linked. -/
abbrev KERNLINK : Nat := KERNBASE + EXTMEM

abbrev PHYSTOP : Nat := 0xE000000

abbrev DEVSPACE : Nat := 0xFE000000

abbrev PTE_P : Nat := 1

abbrev PTE_W : Nat := 2

abbrev PTE_U : Nat := 4

abbrev Page := Bytes PGSIZE

/-- The linker's symbols: `data` starts the writable part of the kernel, `end` is its end. -/
structure Symbols where
  kdata : Nat
  kend : Nat

/-- What kernel.ld and the size of the kernel guarantee. -/
structure Symbols.Ok (K : Symbols) : Prop where
  aligned : K.kdata % PGSIZE = 0
  data_pos : KERNLINK < K.kdata
  data_end : K.kdata ≤ K.kend
  end_small : K.kend ≤ KERNBASE + 0x400000

def PDX (va : Nat) : Nat :=
  va / 4194304 % 1024

def PTX (va : Nat) : Nat :=
  va / 4096 % 1024

def PGROUNDUP (sz : Nat) : Nat :=
  (sz + 4095) % 4294967296 / 4096 * 4096

def PGROUNDDOWN (a : Nat) : Nat :=
  a / 4096 * 4096

/-- `*pte & PTE_P` and the like. -/
def flag (w bit : Nat) : Bool :=
  w &&& bit != 0

def pteFrame (w : Nat) : Nat :=
  w / 4096

def PTE_FLAGS (w : Nat) : Nat :=
  w % 4096

/-- The word for a frame and permission bits; the address has its low bits clear. -/
def mkPte (frame perm : Nat) : Nat :=
  frame * 4096 ||| perm

theorem flag_P : flag w PTE_P = w.testBit 0 := by
  unfold flag
  rw [show w &&& PTE_P = (w.testBit 0).toNat * 2 ^ 0 from Nat.and_two_pow w 0]
  cases w.testBit 0 <;> rfl

theorem flag_W : flag w PTE_W = w.testBit 1 := by
  unfold flag
  rw [show w &&& PTE_W = (w.testBit 1).toNat * 2 ^ 1 from Nat.and_two_pow w 1]
  cases w.testBit 1 <;> rfl

theorem flag_U : flag w PTE_U = w.testBit 2 := by
  unfold flag
  rw [show w &&& PTE_U = (w.testBit 2).toNat * 2 ^ 2 from Nat.and_two_pow w 2]
  cases w.testBit 2 <;> rfl

section
variable (hperm : perm < 4096)
include hperm

theorem mkPte_eq : mkPte f perm = 4096 * f + perm := by
  unfold mkPte
  rw [Nat.mul_comm]
  exact (Nat.two_pow_add_eq_or_of_lt (i := 12) hperm f).symm

theorem pteFrame_mkPte : pteFrame (mkPte f perm) = f := by
  rw [mkPte_eq hperm]
  unfold pteFrame
  omega

theorem PTE_FLAGS_mkPte : PTE_FLAGS (mkPte f perm) = perm := by
  rw [mkPte_eq hperm]
  unfold PTE_FLAGS
  omega

theorem mkPte_lt (hf : f < 1048576) : mkPte f perm < 2 ^ 32 := by
  rw [mkPte_eq hperm]
  omega

theorem testBit_mkPte {i : Nat} (hi : i < 12) : (mkPte f perm).testBit i = perm.testBit i := by
  have h := Nat.testBit_mod_two_pow (mkPte f perm) 12 i
  rw [show mkPte f perm % 2 ^ 12 = perm from PTE_FLAGS_mkPte hperm] at h
  simp [h, hi]

end

end Xv6.Vm
