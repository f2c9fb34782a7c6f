import Xv6.Vm.Image

/-!
# Page faults

How the processor translates an address, and `handle_lazy_allocation`, which
`trap` calls with the address when it cannot be translated.
-/

namespace Xv6.Vm

open Lib Lib.Prog

variable {K : Symbols} {A : Pool K} {m : Mem} {D sz a f w : Nat} {user write : Bool}
variable {R : Multiset Nat}

/-- Whether an entry lets an access through, in user or kernel mode; `CR0_WP` is set. -/
def allowed (user write : Bool) (w : Nat) : Bool :=
  flag w PTE_P && (!user || flag w PTE_U) && (!write || flag w PTE_W)

/-- The frame that the processor finds for an address; `none` is a page fault. -/
def Mem.translate (m : Mem) (pgdir : Nat) (user write : Bool) (a : Nat) : Option Nat :=
  let pde := m.word pgdir (PDX a)
  let pte := m.word (pteFrame pde) (PTX a)
  if allowed user write pde && allowed user write pte then some (pteFrame pte) else none

/-- `handle_lazy_allocation` for a process with this directory and size. -/
def handleLazyAllocation (K : Symbols) (pgdir sz faultaddr : Nat) : M Int :=
  if sz ≤ faultaddr then pure (-1)
  else if faultaddr < 4096 then pure (-1)
  else do
    match ← kalloc with
    | none => pure (-1)
    | some mem =>
      memset mem 0
      let r ← mappages pgdir (PGROUNDDOWN faultaddr) PGSIZE (mem * 4096) (PTE_W ||| PTE_U)
      if r < 0 then
        kfree K mem
        pure (-1)
      else pure 0

theorem testBit_of_flags {k : Nat} (h : PTE_FLAGS w = k) : ∀ i < 12, w.testBit i = k.testBit i := by
  intro i hi
  have hbit := Nat.testBit_mod_two_pow w 12 i
  rw [show w % 2 ^ 12 = k from h] at hbit
  simpa [hi] using hbit.symm

theorem allowed_seven (h : PTE_FLAGS w = 7) : allowed user write w = true := by
  have hbit := testBit_of_flags h
  have hP : flag w PTE_P = true := by rw [flag_P, hbit 0 (by omega)]; rfl
  have hU : flag w PTE_U = true := by rw [flag_U, hbit 2 (by omega)]; rfl
  have hW : flag w PTE_W = true := by rw [flag_W, hbit 1 (by omega)]; rfl
  simp [allowed, hP, hU, hW]

theorem allowed_three (h : PTE_FLAGS w = 3) : allowed false write w = true := by
  have hbit := testBit_of_flags h
  have hP : flag w PTE_P = true := by rw [flag_P, hbit 0 (by omega)]; rfl
  have hW : flag w PTE_W = true := by rw [flag_W, hbit 1 (by omega)]; rfl
  simp [allowed, hP, hW]

theorem flag_U_of_seven (h : PTE_FLAGS w = 7) : flag w PTE_U = true := by
  have hallowed : allowed true false w = true := allowed_seven h
  simp only [allowed, Bool.not_true, Bool.false_or, Bool.and_eq_true] at hallowed
  exact hallowed.1.2

theorem translate_some (ha : a < 2 ^ 32) (h : m.translate D user write a = some f) :
    m.frameAt D (a / 4096) = some f ∧ (user = true → flag (m.pte D (a / 4096)) PTE_U = true) := by
  unfold Mem.translate at h
  simp only [Option.ite_none_right_eq_some, Bool.and_eq_true, allowed, Option.some.injEq] at h
  obtain ⟨⟨⟨⟨hP, _⟩, _⟩, ⟨hP', hU'⟩, _⟩, hf⟩ := h
  have hT : m.table D (a / 4096 / 1024) = some (pteFrame (m.word D (PDX a))) := by
    rw [← PDX_eq ha]
    exact if_pos hP
  have hpte := pte_of_table hT
  rw [← PTX_eq] at hpte
  rw [frameAt_eq, hpte]
  refine ⟨?_, ?_⟩
  · unfold entryFrame
    rw [if_pos hP', hf]
  · intro huser
    simpa [huser] using hU'

theorem Space.translate_of_allowed (h : Space A m D sz R) (ha : a < 2 ^ 32)
    (hallowed : allowed user write (m.pte D (a / 4096)) = true) :
    m.translate D user write a = some (pteFrame (m.pte D (a / 4096))) := by
  have hP : flag (m.pte D (a / 4096)) PTE_P = true := by
    unfold allowed at hallowed
    simp only [Bool.and_eq_true] at hallowed
    exact hallowed.1.1
  cases hT : m.table D (a / 4096 / 1024) with
  | none =>
    rw [pte_of_table_none hT, flag_zero] at hP
    cases hP
  | some T =>
    have hpte := pte_of_table hT
    rw [← PTX_eq] at hpte
    rw [← PDX_eq ha] at hT
    have hPDX : PDX a < 1024 := Nat.mod_lt _ (by omega)
    unfold Mem.table at hT
    by_cases hpde : flag (m.word D (PDX a)) PTE_P = true
    · rw [if_pos hpde] at hT
      have hTe : pteFrame (m.word D (PDX a)) = T := by simpa using hT
      unfold Mem.translate
      simp only [hTe, ← hpte, hallowed, allowed_seven (h.dir.flags _ hPDX hpde)]
      rfl
    · rw [if_neg hpde] at hT
      cases hT

theorem Space.translate (h : Space A m D sz R) (ha : a < 2 ^ 32)
    (hflags : PTE_FLAGS (m.pte D (a / 4096)) = 7) :
    m.translate D user write a = some (pteFrame (m.pte D (a / 4096))) :=
  h.translate_of_allowed ha (allowed_seven hflags)

end Xv6.Vm
