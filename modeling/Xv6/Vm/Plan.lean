import Xv6.Vm.Image

/-!
# The plan of a new image

What `exec` does, told in pages: the set of pages below `KERNBASE` that the new
address space maps, and how many frames are left.  A page costs one frame, and the
first page of every 4 MiB costs one more for its page table.

A stage of the plan goes on, takes the way out at `bad`, or stops the kernel:
`loaduvm` panics when there is no frame for a page table, `clearpteu` panics when
the guard page has none, and `copyout` uses the null entry that `walkpgdir` returns
for a page without one.  The plan has no memory and no page tables, only numbers.
-/

namespace Xv6.Vm

open Finset

inductive Fate (α : Type) where
  | more (a : α)
  | bad
  | stop
deriving DecidableEq

namespace Fate

variable {α β : Type} {x : Fate α} {f : α → Fate β}

def bind (x : Fate α) (f : α → Fate β) : Fate β :=
  match x with
  | .more a => f a
  | .bad => .bad
  | .stop => .stop

@[simp] theorem more_bind (a : α) : (Fate.more a).bind f = f a :=
  rfl

@[simp] theorem bad_bind : (Fate.bad : Fate α).bind f = .bad :=
  rfl

@[simp] theorem stop_bind : (Fate.stop : Fate α).bind f = .stop :=
  rfl

theorem bind_eq_more {b : β} : x.bind f = .more b ↔ ∃ a, x = .more a ∧ f a = .more b := by
  cases x with
  | more a => simp
  | bad => simp
  | stop => simp

theorem bind_eq_stop : x.bind f = .stop ↔ x = .stop ∨ ∃ a, x = .more a ∧ f a = .stop := by
  cases x with
  | more a => simp
  | bad => simp
  | stop => simp

end Fate

def framesOf (S : Finset Nat) : Nat :=
  S.card + (tablesOf S).card

def HasTable (S : Finset Nat) (v : Nat) : Prop :=
  v / 1024 ∈ kernelTables ∪ tablesOf S

instance (S : Finset Nat) (v : Nat) : Decidable (HasTable S v) :=
  inferInstanceAs (Decidable (_ ∈ _))

/-- `allocuvm`: it returns 0 when frames run out, and never stops the kernel. -/
def planAlloc (room : Nat) (S : Finset Nat) (oldsz newsz : Nat) : Fate (Nat × Finset Nat) :=
  if KERNBASE ≤ newsz then .bad
  else if newsz < oldsz then .more (oldsz, S)
  else if Eager oldsz newsz then
    if room < framesOf (S ∪ Finset.Ico (pages oldsz) (pages newsz)) then .bad
    else .more (newsz, S ∪ Finset.Ico (pages oldsz) (pages newsz))
  else if newsz = 0 then .bad
  else .more (newsz, S)

def planPage (room : Nat) (S : Finset Nat) (v : Nat) : Fate (Finset Nat) :=
  if v ∈ S then .more S
  else if room ≤ framesOf S ∧ ¬HasTable S v then .stop
  else if room < framesOf (insert v S) then .bad
  else .more (insert v S)

def pageBytes (filesz k : Nat) : Nat :=
  min (filesz - 4096 * k) 4096

/-- The loop of `loaduvm` for a segment that starts at page `a`: the pages left, and the turn. -/
def planLoad (room a : Nat) (ip : File) (offset filesz : Nat) :
    Nat → Nat → Finset Nat → Fate (Finset Nat)
  | 0, _, S => .more S
  | left + 1, k, S =>
    (planPage room S (a + k)).bind fun S' =>
      if readi ip ((offset + 4096 * k) % 2 ^ 32) (pageBytes filesz k) =
          some (pageBytes filesz k) then
        planLoad room a ip offset filesz left (k + 1) S'
      else .bad

/-- One turn of the loop over the program headers, from a size and a set of pages. -/
def planSegment (room : Nat) (ip : File) (off : Nat) (x : Nat × Finset Nat) :
    Fate (Nat × Finset Nat) :=
  let ph := ip.proghdr off
  if readi ip off proghdrSize ≠ some proghdrSize then .bad
  else if ph.type ≠ ELF_PROG_LOAD then .more x
  else if ph.memsz < ph.filesz then .bad
  else if (ph.vaddr + ph.memsz) % 2 ^ 32 < ph.vaddr then .bad
  else
    (planAlloc room x.2 x.1 ((ph.vaddr + ph.memsz) % 2 ^ 32)).bind fun y =>
      if ph.vaddr % 4096 ≠ 0 then .bad
      else
        (planLoad room (ph.vaddr / 4096) ip ph.off ph.filesz (pages ph.filesz) 0 y.2).bind
          fun S => .more (y.1, S)

def planSegments (room : Nat) (ip : File) : Nat → Nat → Nat × Finset Nat → Fate (Nat × Finset Nat)
  | 0, _, x => .more x
  | n + 1, off, x =>
    (planSegment room ip off x).bind fun y =>
      planSegments room ip n ((off + proghdrSize) % 2 ^ 32) y

/--
Writing to pages one after the other, where those of `S` are mapped and `g` is the
guard page: the first one that the user may not write decides.
-/
def planWrite (S : Finset Nat) (g : Nat) : List Nat → Fate Unit
  | [] => .more ()
  | u :: us =>
    if u ∈ S.erase g then planWrite S g us
    else if HasTable S u then .bad
    else .stop

def planCopy (S : Finset Nat) (g va len : Nat) : Fate Unit :=
  planWrite S g (List.range' (va / 4096) (pages (va % 4096 + len)))

def pushSp (sp len : Nat) : Nat :=
  (sp + 2 ^ 32 - (len + 1) % 2 ^ 32) % 2 ^ 32 / 4 * 4

/-- The loop that pushes the argument strings: the stack pointer and how many there are. -/
def planPush (S : Finset Nat) (g : Nat) : List (List UInt8) → Nat → Nat → Fate (Nat × Nat)
  | [], sp, argc => .more (sp, argc)
  | arg :: argv, sp, argc =>
    if MAXARG ≤ argc then .bad
    else
      (planCopy S g (pushSp sp arg.length) (arg.length + 1)).bind fun _ =>
        planPush S g argv (pushSp sp arg.length) (argc + 1)

def planArgs (S : Finset Nat) (g : Nat) (argv : List (List UInt8)) (sz : Nat) : Fate Unit :=
  (planPush S g argv sz 0).bind fun x =>
    planCopy S g ((x.1 + 2 ^ 32 - (3 + x.2 + 1) * 4) % 2 ^ 32) ((3 + x.2 + 1) * 4)

def planStack (room : Nat) (argv : List (List UInt8)) (x : Nat × Finset Nat) : Fate Unit :=
  (planAlloc room x.2 (4096 * pages x.1) (4096 * pages x.1 + 8192)).bind fun y =>
    if HasTable y.2 (pages x.1) then planArgs y.2 (pages x.1) argv y.1 else .stop

/-- The file starts with an ELF header. -/
def File.IsElf (ip : File) : Prop :=
  readi ip 0 elfhdrSize = some elfhdrSize ∧ ip.elfhdr.magic = ELF_MAGIC

instance (ip : File) : Decidable ip.IsElf :=
  inferInstanceAs (Decidable (_ ∧ _))

def planImage (room : Nat) (ip : File) : Fate (Nat × Finset Nat) :=
  planSegments room ip ip.elfhdr.phnum ip.elfhdr.phoff (0, ∅)

def planExec (ip : File) (argv : List (List UInt8)) (free : Nat) : Fate Unit :=
  if ip.IsElf ∧ kernelFrames ≤ free then
    (planImage (free - kernelFrames) ip).bind (planStack (free - kernelFrames) argv)
  else .bad

section Frames

variable {S T : Finset Nat} {v : Nat}

theorem tablesOf_subset (h : S ⊆ T) : tablesOf S ⊆ tablesOf T :=
  image_subset_image h

theorem framesOf_le (h : S ⊆ T) : framesOf S ≤ framesOf T :=
  Nat.add_le_add (card_le_card h) (card_le_card (tablesOf_subset h))

theorem hasTable_of_mem (h : v ∈ S) : HasTable S v :=
  mem_union_right _ (mem_image_of_mem _ h)

theorem hasTable_iff (hv : v < userPages) : HasTable S v ↔ v / 1024 ∈ tablesOf S := by
  have hlow : v / 1024 ∉ kernelTables := by
    rw [mem_kernelTables]
    unfold userPages at hv
    omega
  constructor
  · intro h
    exact (mem_union.mp h).resolve_left hlow
  · intro h
    exact mem_union_right _ h

theorem framesOf_insert (hv : v ∉ S) :
    framesOf (insert v S) = framesOf S + if v / 1024 ∈ tablesOf S then 1 else 2 := by
  unfold framesOf
  rw [tablesOf_insert, card_insert_of_notMem hv]
  by_cases hT : v / 1024 ∈ tablesOf S
  · rw [if_pos hT, insert_eq_of_mem hT]
    omega
  · rw [if_neg hT, card_insert_of_notMem hT]
    omega

theorem framesOf_lt_insert (hv : v ∉ S) : framesOf S < framesOf (insert v S) := by
  rw [framesOf_insert hv]
  split
  · omega
  · omega

end Frames

end Xv6.Vm
