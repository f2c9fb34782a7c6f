import Xv6.Vm.User

/-!
# Copying an address space

The specification of `copyuvm`: a second address space with frames of its own
that has the same content and the same guard pages, or no change at all.
-/

namespace Xv6.Vm

open Lib Lib.Prog

variable {K : Symbols} {A : Pool K} {m m₁ m' : Mem} {D d sz v : Nat} {R S : Multiset Nat}

theorem Fresh.space (h : Fresh A m D R) (hsz : sz < KERNBASE) : Space A m D sz R := by
  have habsent : ∀ u < userPages, flag (m.pte D u) PTE_P = false := by
    intro u hu
    rw [h.pte_eq_zero hu, flag_zero]
  refine ⟨h.dir, hsz, ?_, ?_, fun u _ => h.noUser u⟩
  · intro u hu hP
    rw [habsent u hu] at hP
    cases hP
  · intro u hu hP
    rw [habsent u hu] at hP
    cases hP

def SamePage (m : Mem) (D : Nat) (m' : Mem) (d u : Nat) : Prop :=
  m'.content d u = m.content D u ∧ m'.guarded d u = m.guarded D u

/-- The loop of `copyuvm` before page `v`; `S` are the frames in use at the start. -/
structure Copying (A : Pool K) (m : Mem) (D d sz v : Nat) (S : Multiset Nat) (m₁ : Mem) :
    Prop where
  space : Space A m₁ d sz S
  keeps : Keeps S m m₁
  done : ∀ u < userPages, u < v → SamePage m D m₁ d u
  todo : ∀ u < userPages, v ≤ u → flag (m₁.pte d u) PTE_P = false
  oom : m₁.oom = m.oom

theorem Copying.skip (h : Copying A m D d sz v S m₁) (habsent : flag (m.pte D v) PTE_P = false) :
    Copying A m D d sz (v + 1) S m₁ := by
  refine ⟨h.space, h.keeps, ?_, fun u hu hlt => h.todo u hu (by omega), h.oom⟩
  intro u hu hlt
  by_cases huv : u = v
  · subst huv
    have htodo := h.todo u hu le_rfl
    unfold SamePage
    rw [content_of_absent habsent, content_of_absent htodo, guarded_of_absent habsent,
      guarded_of_absent htodo]
    exact ⟨rfl, rfl⟩
  · exact h.done u hu (by omega)

theorem guarded_of_present (hP : flag (m.pte D v) PTE_P = true) :
    m.guarded D v = !(PTE_FLAGS (m.pte D v)).testBit 2 := by
  unfold Mem.guarded
  rw [hP, Bool.true_and, flag_U]
  have hbit := Nat.testBit_mod_two_pow (m.pte D v) 12 2
  rw [show m.pte D v % 2 ^ 12 = PTE_FLAGS (m.pte D v) from rfl] at hbit
  rw [hbit]
  simp

theorem Copying.next {f : Nat} {l : List Nat} (hparent : Space A m D sz R)
    (h : Copying A m D d sz v (m.own D + R) m₁) (hv : v < pages sz)
    (hP : flag (m.pte D v) PTE_P = true) (hfree : m₁.free = f :: l)
    (hm : Mapped A (Mem.setPage { m₁ with free := l } f (m₁.page (pteFrame (m.pte D v)))) d v
      (mkPte f (PTE_FLAGS (m.pte D v) ||| PTE_P))
      ((Mem.setPage { m₁ with free := l } f (m₁.page (pteFrame (m.pte D v)))).users d +
        f ::ₘ (m.own D + R)) (m.own D + R) m') :
    Copying A m D d sz (v + 1) (m.own D + R) m' := by
  have hvu : v < userPages := lt_of_lt_of_le hv (pages_le hparent.size)
  have hframe := frameAt_of_flag hP
  obtain ⟨hspace, hkeeps⟩ := h.space.take (m₁.page (pteFrame (m.pte D v))) hfree
  have hown : Keeps (m₁.own d) m₁ _ := hkeeps.left
  have hrights := hparent.rights v hvu hP
  have hlt : PTE_FLAGS (m.pte D v) < 4096 := by omega
  have hperm : PTE_FLAGS (m.pte D v) ||| PTE_P = 7 ∨ PTE_FLAGS (m.pte D v) ||| PTE_P = 3 := by
    rcases hrights with hr | hr
    · exact .inl (by rw [hr]; rfl)
    · exact .inr (by rw [hr]; rfl)
  have hpage : m₁.page (pteFrame (m.pte D v)) = m.page (pteFrame (m.pte D v)) :=
    h.keeps _ (Multiset.mem_add.mpr (.inl (by simp [Mem.own, mem_users hvu hframe])))
  refine ⟨hspace.map hperm hv hm, ?_, ?_, ?_, hm.oom.trans h.oom⟩
  · exact h.keeps.trans (hkeeps.right.trans hm.keeps.right.tail)
  · intro u hu hlt'
    by_cases huv : u = v
    · subst huv
      refine ⟨?_, ?_⟩
      · rw [hm.content_self hlt, setPage_page_self, hpage, content_of_frame hframe]
      · rw [hm.guarded_self hlt, guarded_of_present hP]
    · obtain ⟨h1, h2⟩ := hm.others_same hu huv
      obtain ⟨h3, h4⟩ := hown.same u hu
      obtain ⟨h5, h6⟩ := h.done u hu (by omega)
      exact ⟨h1.trans (h3.trans h5), h2.trans (h4.trans h6)⟩
  · intro u hu hle
    rw [hm.pte, Function.update_of_ne (by omega), hown.view.2.1]
    exact h.todo u hu (by omega)

def Copied (A : Pool K) (m : Mem) (D sz : Nat) (R : Multiset Nat) (r : Option Nat) (m' : Mem) :
    Prop :=
  (∃ d, r = some d ∧ Space A m' d sz (m.own D + R) ∧ Keeps (m.own D + R) m m' ∧
      m'.oom = m.oom ∧ ∀ u < userPages, SamePage m D m' d u) ∨
    r = none ∧ Uses A m' (m.own D + R) ∧ Keeps (m.own D + R) m m' ∧ m.oom < m'.oom

theorem copyLoop_spec {fuel : Nat} (hparent : Space A m D sz R) (hv : v ≤ pages sz)
    (hfuel : pages sz < v + fuel) (h : Copying A m D d sz v (m.own D + R) m₁) :
    wp (copyLoop K D sz d fuel (4096 * v)) (Copied A m D sz R) (fun _ _ => False) m₁ := by
  have hsize := hparent.size
  have hpages := pages_le hsize
  unfold KERNBASE at hsize
  unfold userPages at hpages
  induction fuel generalizing m₁ v with
  | zero => omega
  | succ fuel ih =>
    have hview : Keeps (m.own D) m m₁ :=
      h.keeps.left
    obtain ⟨htable, hpte, _⟩ := hview.view
    unfold copyLoop
    rw [wp_ite]
    by_cases hlt : 4096 * v < sz
    · have hv' := lt_pages.mpr hlt
      have hvu : v < userPages := by unfold userPages; omega
      have hpdx := PDX_page (v := v) (by omega)
      have hptx := PTX_page v
      have hnext : (4096 * v + 4096) % 2 ^ 32 = 4096 * (v + 1) := by omega
      rw [if_pos hlt, wp_bind, wp_walkpgdir_false, hpdx, hptx, hnext]
      cases hT : m₁.table D (v / 1024) with
      | none =>
        refine ih (by omega) (by omega) (h.skip ?_)
        rw [← hpte, pte_of_table_none hT, flag_zero]
      | some T =>
        simp only [Option.map_some, wp_bind, wp_readPte, wp_ite]
        rw [show m₁.word T (v % 1024) = m.pte D v by rw [← hpte, pte_of_table hT]]
        by_cases hP : flag (m.pte D v) PTE_P = true
        · rw [if_pos hP]
          refine wp_kalloc ?_ ?_
          · intro _
            have hspace := h.space.setOom (m₁.oom + 1)
            refine wp_seq (freevm_spec hspace.dir) ?_
            rintro _ m' ⟨huses, hkeeps, hoom⟩
            refine .inr ⟨rfl, huses, h.keeps.trans hkeeps, ?_⟩
            rw [hoom]
            exact Nat.lt_succ_of_le (le_of_eq h.oom.symm)
          intro f l hfree
          obtain ⟨hspace, hkeeps⟩ :=
            h.space.take (m₁.page (pteFrame (m.pte D v))) hfree
          have hown : Keeps (m₁.own d) m₁ _ :=
            hkeeps.left
          have hrights := hparent.rights v hvu hP
          simp only [wp_bind, wp_modify]
          refine mappages_user_spec hspace.dir hvu (by omega) ?_ ?_ ?_
          · intro m2 hP2
            rw [hown.view.2.1, h.todo v hvu le_rfl] at hP2
            cases hP2
          · intro _ _
            have hspace' := hspace.setOom (m₁.oom + 1)
            rw [wp_ite, if_pos (by omega), wp_bind]
            refine wp_kfree (hspace'.dir.uses.valid (by simp)) ?_
            obtain ⟨hspace2, hkeeps2⟩ := hspace'.freed
            refine wp_seq (freevm_spec hspace2.dir) ?_
            rintro _ m' ⟨huses, hkeeps3, hoom⟩
            refine .inr ⟨rfl, huses,
              h.keeps.trans (hkeeps.right.trans (hkeeps2.right.trans hkeeps3)), ?_⟩
            rw [hoom]
            exact Nat.lt_succ_of_le (le_of_eq h.oom.symm)
          · intro m2 hm2 _
            rw [wp_ite, if_neg (by omega)]
            exact ih (by omega) (by omega) (h.next hparent hv' hP hfree hm2)
        · rw [if_neg hP]
          exact ih (by omega) (by omega) (h.skip (by simpa using hP))
    rw [if_neg hlt]
    have hveq : v = pages sz := by
      have := lt_pages.not.mpr hlt
      omega
    subst hveq
    refine .inl ⟨d, rfl, h.space, h.keeps, h.oom, ?_⟩
    intro u hu
    by_cases hlo : u < pages sz
    · exact h.done u hu hlo
    · have habs := hparent.absent hu (by omega)
      have htodo := h.todo u hu (by omega)
      unfold SamePage
      rw [content_of_absent habs, content_of_absent htodo, guarded_of_absent habs,
        guarded_of_absent htodo]
      exact ⟨rfl, rfl⟩

theorem copyuvm_spec (h : Space A m D sz R) :
    wp (copyuvm K D sz) (Copied A m D sz R) (fun _ _ => False) m := by
  unfold copyuvm
  refine wp_seq (setupkvm_spec h.dir.uses) ?_
  rintro r m₁ (⟨d, rfl, _, hfresh, hkeeps, hoom, _⟩ | ⟨rfl, huses, hkeeps, hoom, _⟩)
  · have hpages := pages_le h.size
    have hstart : Copying A m D d sz 0 (m.own D + R) m₁ := by
      refine ⟨hfresh.space h.size, hkeeps, fun u _ hlt => absurd hlt (by omega), ?_, hoom⟩
      intro u hu _
      rw [hfresh.pte_eq_zero hu, flag_zero]
    refine copyLoop_spec h (by omega) ?_ hstart
    unfold userPages at hpages
    unfold maxPages
    omega
  · exact .inr ⟨rfl, huses, hkeeps, hoom⟩

end Xv6.Vm
