import Xv6.Lib.Prog
import Xv6.Lib.Collect
import Xv6.Vm.Page

/-!
# Physical memory and its allocator

kalloc.c.  Physical memory is a function from frame numbers to pages.  The free
list is the list of the frames that are linked from `kmem.freelist`; that the
link to the next one is kept in the first word of a free page is left out, since
nothing else reads a free page.

`oom` counts the calls of `kalloc` that returned 0.  The code has no such
counter; it is there to say that memory did not run out.
-/

namespace Xv6.Vm

open Lib Lib.Prog

variable {K : Symbols} {m : Mem} {f g i w j vstart vend : Nat} {E : Stop → Mem → Prop}
variable {Q : Unit → Mem → Prop}

structure Mem where
  page : Nat → Page
  free : List Nat
  oom : Nat

/-- Panics, and accesses through a null pointer. -/
inductive Stop where
  | kfree
  | remap
  | phystop
  | freevm
  | clearpteu
  | loaduvm
  | inituvm
  /-- `uva2ka` reads the entry that `walkpgdir` did not find -/
  | nullPte
  /-- code that does not check what `kalloc` or `setupkvm` returned -/
  | nullPage
  /-- a loop that does not end -/
  | fuel
  | filedup
  | fileclose
  | initExiting
  | userinit
  /-- kernel code that faults on the same address again and again -/
  | refault
  /-- a call that has to sleep -/
  | sleep
  /-- `acquire` of a lock that this CPU holds -/
  | acquire
deriving DecidableEq, Repr

abbrev M := Prog Mem Stop

def Mem.setPage (m : Mem) (f : Nat) (p : Page) : Mem :=
  { m with page := Function.update m.page f p }

/-- A word of a page, by its index. -/
def Mem.word (m : Mem) (f i : Nat) : Nat :=
  readWord (m.page f) (4 * i)

def Mem.setWord (m : Mem) (f i w : Nat) : Mem :=
  m.setPage f (writeWord (m.page f) (4 * i) w)

def memset (f : Nat) (c : UInt8) : M Unit :=
  modify fun m => m.setPage f fun _ => c

/-- The frames that `kfree` accepts. -/
def Symbols.Valid (K : Symbols) (f : Nat) : Prop :=
  K.kend ≤ KERNBASE + f * 4096 ∧ f * 4096 < PHYSTOP

instance (K : Symbols) (f : Nat) : Decidable (K.Valid f) :=
  inferInstanceAs (Decidable (_ ∧ _))

def kfree (K : Symbols) (f : Nat) : M Unit :=
  if K.Valid f then do
    memset f 1
    modify fun m => { m with free := f :: m.free }
  else throw .kfree

def kalloc : M (Option Nat) := do
  let m ← get
  match m.free with
  | [] =>
    modify fun m => { m with oom := m.oom + 1 }
    pure none
  | f :: l =>
    modify fun m => { m with free := l }
    pure (some f)

def framesBetween (vstart vend : Nat) : List Nat :=
  List.range' ((PGROUNDUP vstart - KERNBASE) / 4096)
    ((vend - KERNBASE) / 4096 - (PGROUNDUP vstart - KERNBASE) / 4096)

def freerange (K : Symbols) (vstart vend : Nat) : M Unit :=
  forEach (framesBetween vstart vend) (kfree K)

@[simp] theorem setPage_page_self (p : Page) : (m.setPage f p).page f = p := by
  simp [Mem.setPage]

theorem setPage_page_of_ne (p : Page) (h : g ≠ f) : (m.setPage f p).page g = m.page g := by
  simp [Mem.setPage, h]

@[simp] theorem setPage_free (p : Page) : (m.setPage f p).free = m.free := by
  rfl

@[simp] theorem setPage_oom (p : Page) : (m.setPage f p).oom = m.oom := by
  rfl

@[simp] theorem setWord_free (i w : Nat) : (m.setWord f i w).free = m.free := by
  rfl

@[simp] theorem setWord_oom (i w : Nat) : (m.setWord f i w).oom = m.oom := by
  rfl

theorem setWord_page_of_ne (i w : Nat) (h : g ≠ f) : (m.setWord f i w).page g = m.page g :=
  setPage_page_of_ne _ h

theorem word_setWord_self (hi : i < 1024) (hw : w < 2 ^ 32) : (m.setWord f i w).word f i = w := by
  unfold Mem.word Mem.setWord
  rw [setPage_page_self]
  exact readWord_writeWord (show 4 * i + 4 ≤ 4096 by omega) hw

theorem word_setWord_of_ne (hi : i < 1024) (hne : g ≠ f ∨ j ≠ i) :
    (m.setWord f i w).word g j = m.word g j := by
  unfold Mem.word Mem.setWord
  by_cases hg : g = f
  · subst hg
    rw [setPage_page_self]
    exact readWord_writeWord_of_disjoint (show 4 * i + 4 ≤ 4096 by omega) (by omega) w
  · rw [setPage_page_of_ne _ hg]

theorem word_lt (i : Nat) : m.word f i < 2 ^ 32 :=
  readWord_lt _

theorem Symbols.Valid.lt (h : K.Valid f) : f < 1048576 := by
  have := h.2
  unfold PHYSTOP at this
  omega

theorem Symbols.Valid.pos (h : K.Valid f) (hK : K.Ok) : 0 < f := by
  have h1 := h.1
  have h2 := hK.data_pos
  have h3 := hK.data_end
  unfold KERNLINK EXTMEM at h2
  omega

theorem wp_kfree (hf : K.Valid f)
    (hQ : Q () { m.setPage f (fun _ => 1) with free := f :: m.free }) : wp (kfree K f) Q E m := by
  unfold kfree memset
  rw [if_pos hf]
  exact hQ

theorem wp_kalloc {Q : Option Nat → Mem → Prop}
    (hnone : m.free = [] → Q none { m with oom := m.oom + 1 })
    (hsome : ∀ f l, m.free = f :: l → Q (some f) { m with free := l }) : wp kalloc Q E m := by
  unfold kalloc
  rw [wp_bind, wp_get]
  split
  · rename_i h
    exact hnone h
  · rename_i f l h
    exact hsome f l h

theorem wp_freerange (hvalid : ∀ f ∈ framesBetween vstart vend, K.Valid f)
    (hQ : ∀ m', m'.free = (framesBetween vstart vend).reverse ++ m.free → m'.oom = m.oom →
      (∀ f, f ∉ framesBetween vstart vend → m'.page f = m.page f) → Q () m') :
    wp (freerange K vstart vend) Q E m := by
  unfold freerange
  generalize framesBetween vstart vend = l at hvalid hQ
  induction l generalizing m with
  | nil => exact hQ m (by simp) rfl fun _ _ => rfl
  | cons f l ih =>
    unfold forEach
    rw [wp_bind]
    refine wp_kfree (hvalid f List.mem_cons_self) ?_
    refine ih (fun g hg => hvalid g (List.mem_cons_of_mem f hg)) ?_
    intro m' hfree hoom hpage
    refine hQ m' ?_ hoom ?_
    · rw [hfree]
      simp
    · intro g hg
      rw [List.mem_cons, not_or] at hg
      rw [hpage g hg.2]
      exact setPage_page_of_ne _ hg.1

end Xv6.Vm
