import Xv6.Lib.LinkedRing
import Xv6.Lib.Tiling
import Xv6.Lib.Transition

/-!
# The user level allocator

`malloc`, `free` and `morecore` (umalloc.c).  An address counts headers, 8 bytes
each, and the memory has a header in every cell: all blocks begin at a multiple of
8 bytes from the first break.  `base` is the address of the static header of that
name; a null `freep` is `none`.  Whether the kernel has the memory that a call needs
is given by the caller.
-/

namespace Xv6.User

open Lib

structure Header where
  ptr : Nat
  size : Nat
deriving DecidableEq

structure Heap where
  mem : Nat → Header
  freep : Option Nat
  brk : Nat

namespace Heap

variable (s : Heap)

def ptr (p : Nat) : Nat :=
  (s.mem p).ptr

def size (p : Nat) : Nat :=
  (s.mem p).size

def set (p : Nat) (h : Header) : Heap :=
  { s with mem := Function.update s.mem p h }

end Heap

def Stops (s : Heap) (bp p : Nat) : Prop :=
  (bp > p ∧ bp < s.ptr p) ∨ (p ≥ s.ptr p ∧ (bp > p ∨ bp < s.ptr p))

instance (s : Heap) (bp p : Nat) : Decidable (Stops s bp p) :=
  inferInstanceAs (Decidable (_ ∨ _))

def joinUp (s : Heap) (bp p : Nat) : Heap :=
  if bp + s.size bp = s.ptr p then
    s.set bp ⟨s.ptr (s.ptr p), s.size bp + s.size (s.ptr p)⟩
  else s.set bp ⟨s.ptr p, s.size bp⟩

def joinDown (s : Heap) (bp p : Nat) : Heap :=
  if p + s.size p = bp then s.set p ⟨s.ptr bp, s.size p + s.size bp⟩
  else s.set p ⟨bp, s.size p⟩

def free (s : Heap) (ap : Nat) : Option Heap :=
  match s.freep with
  | none => none
  | some q =>
    (seek s.ptr (fun p => Stops s (ap - 1) p) (2 * s.brk + 2) q).map fun p =>
      { joinDown (joinUp s (ap - 1) p) (ap - 1) p with freep := some p }

/-- The argument of `sbrk` in `morecore`: `nu * sizeof(Header)` as an `int`. -/
def sbrkAmount (nu : Nat) : Int :=
  if max nu 4096 * 8 % 2 ^ 32 < 2 ^ 31 then (max nu 4096 * 8 % 2 ^ 32 : Nat)
  else (max nu 4096 * 8 % 2 ^ 32 : Nat) - 2 ^ 32

/-- The break after `sbrk(n)`, which returns the old one; `none` when it returns -1. -/
def sbrk (grows : Bool) (brk : Nat) (n : Int) : Option Nat :=
  if 0 < n then if grows = true then some (brk + n.toNat / 8) else none
  -- `deallocuvm` does nothing when the new size, a `uint`, has wrapped around
  else if brk + n / 8 < 0 then some brk
  else some (brk + n / 8).toNat

/-- `morecore`: `some none` when `sbrk` fails, `none` when the store into the header kills the
process.  A header at or above the break can be written only in a page (512 headers) that begins
below it, if the kernel has that page. -/
def morecore (grows : Bool) (s : Heap) (nu : Nat) : Option (Option Heap) :=
  match sbrk grows s.brk (sbrkAmount nu) with
  | none => some none
  | some brk =>
    if s.brk < brk ∨ (s.brk / 512 * 512 < brk ∧ grows = true) then
      (free (({ s with brk := brk }).set s.brk ⟨s.ptr s.brk, max nu 4096⟩) (s.brk + 1)).map some
    else none

/-- The number of headers that a request needs. -/
def nunits (nbytes : Nat) : Nat :=
  (nbytes + 8 - 1) % 2 ^ 32 / 8 + 1

/-- Take the block, or the upper part of it, from the list; the pointer that `malloc` returns. -/
def take (s : Heap) (prevp p n : Nat) : Heap × Nat :=
  if s.size p = n then
    ({ s.set prevp ⟨s.ptr p, s.size prevp⟩ with freep := some prevp }, p + 1)
  else
    let q := p + (s.size p - n)
    let s₁ := s.set p ⟨s.ptr p, s.size p - n⟩
    ({ s₁.set q ⟨s₁.ptr q, n⟩ with freep := some prevp }, q + 1)

/-- The loop in `malloc`; the pointer returned is `none` when there is no memory. -/
def mallocLoop (grows : Bool) (n : Nat) : Nat → Heap → Nat → Option (Heap × Option Nat)
  | 0, _, _ => none
  | fuel + 1, s, prevp =>
    if n ≤ s.size (s.ptr prevp) then
      some ((take s prevp (s.ptr prevp) n).1, some (take s prevp (s.ptr prevp) n).2)
    else if s.freep = some (s.ptr prevp) then
      match morecore grows s n with
      | none => none
      | some none => some (s, none)
      | some (some t) =>
        match t.freep with
        | none => none
        | some q => mallocLoop grows n fuel t q
    else mallocLoop grows n fuel s (s.ptr prevp)

def mallocFuel (s : Heap) (n : Nat) : Nat :=
  2 * (s.brk + max n 4096) + 2

def malloc (base : Nat) (grows : Bool) (s : Heap) (nbytes : Nat) : Option (Heap × Option Nat) :=
  match s.freep with
  | none =>
    mallocLoop grows (nunits nbytes) (mallocFuel s (nunits nbytes))
      { s.set base ⟨base, 0⟩ with freep := some base } base
  | some q => mallocLoop grows (nunits nbytes) (mallocFuel s (nunits nbytes)) s q

/-- The heap, and the pointers in use with the sizes asked for. -/
structure Sys where
  heap : Heap
  live : List (Nat × Nat)

inductive Act where
  | malloc (nbytes : Nat) (grows : Bool)
  | free (ap : Nat)
  | store (a : Nat) (h : Header)

/-- Requests are below 2 GB, blocks that are freed are in use, and the program stores into the
blocks it has. -/
def Allowed (s : Sys) : Act → Prop
  | .malloc nbytes _ => 8 * ((nbytes + 7) / 8 + 1) < 2 ^ 31
  | .free ap => ∃ n, (ap, n) ∈ s.live
  | .store a _ => ∃ ap n, (ap, n) ∈ s.live ∧ ap ≤ a ∧ a < ap - 1 + s.heap.size (ap - 1)

def received (live : List (Nat × Nat)) (nbytes : Nat) (r : Heap × Option Nat) : Sys :=
  match r.2 with
  | none => { heap := r.1, live := live }
  | some ap => { heap := r.1, live := (ap, nbytes) :: live }

/-- What a call does. -/
def act (base : Nat) (s : Sys) : Act → Option Sys
  | .malloc nbytes grows =>
    (malloc base grows s.heap nbytes).map (received s.live nbytes)
  | .free ap =>
    (free s.heap ap).map fun t => { heap := t, live := s.live.eraseP fun x => x.1 = ap }
  | .store a h => some { s with heap := s.heap.set a h }

/-- The program before its first call. -/
def init (mem : Nat → Header) (brk : Nat) : Sys where
  heap := { mem := mem, freep := none, brk := brk }
  live := []

end Xv6.User
