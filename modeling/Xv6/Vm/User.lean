import Xv6.Vm.Layout

/-!
# User memory

The user part of an address space of size `sz`: which pages may be mapped, with
which rights, and what they hold.  A page that is not mapped counts as a page of
zeros, so that a page left to be allocated at the first access and a page that is
allocated at once look the same.
-/

namespace Xv6.Vm

open Lib Lib.Prog Function

variable {K : Symbols} {A : Pool K} {R R' : Multiset Nat} {m m' m'' m₀ : Mem}
variable {D sz u v w f oldsz newsz sz' perm : Nat} {P : Finset Nat} {l : List Nat}

/-- What a virtual page holds; a page that is not mapped reads as zeros. -/
def Mem.content (m : Mem) (D v : Nat) : Page :=
  match m.frameAt D v with
  | none => fun _ => 0
  | some f => m.page f

/-- A page that is mapped, but not for the user. -/
def Mem.guarded (m : Mem) (D v : Nat) : Bool :=
  flag (m.pte D v) PTE_P && !flag (m.pte D v) PTE_U

/-- The address space of a process of size `sz`, next to other frames in use. -/
structure Space {K : Symbols} (A : Pool K) (m : Mem) (D sz : Nat) (R : Multiset Nat) : Prop where
  dir : Dir A m D R
  size : sz < KERNBASE
  below : ∀ u < userPages, flag (m.pte D u) PTE_P = true → u < pages sz
  rights : ∀ u < userPages, flag (m.pte D u) PTE_P = true →
    PTE_FLAGS (m.pte D u) = 7 ∨ PTE_FLAGS (m.pte D u) = 3
  kernel : ∀ u, userPages ≤ u → flag (m.pte D u) PTE_U = false

def Same (m m' : Mem) (D : Nat) : Prop :=
  ∀ u < userPages, m'.content D u = m.content D u ∧ m'.guarded D u = m.guarded D u

theorem Same.refl (m : Mem) (D : Nat) : Same m m D :=
  fun _ _ => ⟨rfl, rfl⟩

theorem Same.trans (h : Same m m' D) (h' : Same m' m'' D) : Same m m'' D :=
  fun u hu => ⟨(h' u hu).1.trans (h u hu).1, (h' u hu).2.trans (h u hu).2⟩

theorem content_of_frame (h : m.frameAt D v = some f) : m.content D v = m.page f := by
  unfold Mem.content
  rw [h]

theorem content_of_absent (h : flag (m.pte D v) PTE_P = false) : m.content D v = fun _ => 0 := by
  unfold Mem.content
  rw [frameAt_eq, entryFrame_of_flag h]

theorem guarded_of_absent (h : flag (m.pte D v) PTE_P = false) : m.guarded D v = false := by
  unfold Mem.guarded
  rw [h, Bool.false_and]

theorem frameAt_of_flag (h : flag (m.pte D v) PTE_P = true) :
    m.frameAt D v = some (pteFrame (m.pte D v)) :=
  if_pos h

theorem content_congr (hpte : m'.pte D u = m.pte D u)
    (hpage : ∀ f, m.frameAt D u = some f → m'.page f = m.page f) :
    m'.content D u = m.content D u := by
  unfold Mem.content
  rw [frameAt_congr hpte]
  cases hf : m.frameAt D u with
  | none => rfl
  | some f => exact hpage f hf

theorem guarded_congr (hpte : m'.pte D u = m.pte D u) : m'.guarded D u = m.guarded D u := by
  unfold Mem.guarded
  rw [hpte]

theorem Keeps.same (h : Keeps (m.own D) m m') : Same m m' D := by
  obtain ⟨_, hpte, _⟩ := h.view
  intro u hu
  have hu' := congrFun hpte u
  refine ⟨content_congr hu' ?_, guarded_congr hu'⟩
  intro f hf
  exact h f (by simp [Mem.own, mem_users hu hf])

theorem pages_le (h : sz < KERNBASE) : pages sz ≤ userPages := by
  unfold KERNBASE at h
  unfold pages userPages
  omega

theorem pages_mono (h : sz ≤ sz') : pages sz ≤ pages sz' := by
  unfold pages
  omega

theorem lt_pages {sz : Nat} : u < pages sz ↔ 4096 * u < sz := by
  unfold pages
  omega

section
variable (h : Space A m D sz R)
include h

theorem Space.absent (hu : u < userPages) (hsz : pages sz ≤ u) :
    flag (m.pte D u) PTE_P = false := by
  by_contra hP
  have := h.below u hu (by simpa using hP)
  omega

theorem Space.grow (hle : sz ≤ sz') (hsz' : sz' < KERNBASE) : Space A m D sz' R :=
  ⟨h.dir, hsz', fun u hu hP => lt_of_lt_of_le (h.below u hu hP) (pages_mono hle), h.rights,
    h.kernel⟩

theorem Space.congr (hkeeps : Keeps (m.own D) m m')
    (huses : Uses A m' (m.own D + R')) : Space A m' D sz R' := by
  obtain ⟨_, hpte, hown⟩ := hkeeps.view
  refine ⟨⟨?_, ?_⟩, h.size, ?_, ?_, ?_⟩
  · rw [hown]
    exact huses
  · intro i hi hP
    have hword : m'.word D i = m.word D i := by
      unfold Mem.word
      rw [hkeeps D (by simp [Mem.own])]
    rw [hword] at hP ⊢
    exact h.dir.flags i hi hP
  · rw [hpte]
    exact h.below
  · rw [hpte]
    exact h.rights
  · rw [hpte]
    exact h.kernel

theorem Space.setOom (n : Nat) : Space A { m with oom := n } D sz R :=
  ⟨⟨h.dir.uses, h.dir.flags⟩, h.size, h.below, h.rights, h.kernel⟩

end

theorem Space.take (p : Page) (h : Space A m D sz R) (hfree : m.free = f :: l) :
    Space A (Mem.setPage { m with free := l } f p) D sz (f ::ₘ R) ∧
      Keeps (m.own D + R) m (Mem.setPage { m with free := l } f p) := by
  have hkeeps : Keeps (m.own D + R) m (Mem.setPage { m with free := l } f p) := by
    intro g hg
    refine setPage_page_of_ne (m := { m with free := l }) _ ?_
    rintro rfl
    exact h.dir.uses.notMem_free hg (by simp [hfree])
  refine ⟨h.congr hkeeps.left ?_, hkeeps⟩
  rw [Multiset.add_cons]
  exact h.dir.uses.alloc hfree rfl

theorem Space.freed (h : Space A m D sz (f ::ₘ R)) :
    Space A (freed m f) D sz R ∧ Keeps (m.own D + R) m (freed m f) := by
  obtain ⟨hdir, _, hpte, hkeeps⟩ := h.dir.freed
  refine ⟨⟨hdir, h.size, ?_, ?_, ?_⟩, hkeeps⟩
  · rw [hpte]
    exact h.below
  · rw [hpte]
    exact h.rights
  · rw [hpte]
    exact h.kernel

theorem Space.map (h : Space A m D sz (f ::ₘ R))
    (hperm : perm ||| PTE_P = 7 ∨ perm ||| PTE_P = 3) (hv : v < pages sz)
    (hm : Mapped A m D v (mkPte f (perm ||| PTE_P)) (m.users D + f ::ₘ R) R m') :
    Space A m' D sz R := by
  have hlt : perm ||| PTE_P < 4096 := by omega
  have hvu : v < userPages := lt_of_lt_of_le hv (pages_le h.size)
  refine ⟨hm.dir, h.size, ?_, ?_, ?_⟩
  · intro u hu hP
    rw [hm.pte] at hP
    by_cases huv : u = v
    · omega
    · rw [update_of_ne huv] at hP
      exact h.below u hu hP
  · intro u hu hP
    rw [hm.pte] at hP ⊢
    by_cases huv : u = v
    · rw [huv, update_self, PTE_FLAGS_mkPte hlt]
      exact hperm
    · rw [update_of_ne huv] at hP ⊢
      exact h.rights u hu hP
  · intro u hu
    rw [hm.pte, update_of_ne (by omega)]
    exact h.kernel u hu

theorem Mapped.others_same (hm : Mapped A m D v w (m.users D + f ::ₘ R) R m') (hu : u < userPages)
    (huv : u ≠ v) : m'.content D u = m.content D u ∧ m'.guarded D u = m.guarded D u := by
  have hpte : m'.pte D u = m.pte D u := by rw [hm.pte, update_of_ne huv]
  refine ⟨content_congr hpte ?_, guarded_congr hpte⟩
  intro g hg
  exact hm.keeps g (Multiset.mem_add.mpr (.inl (mem_users hu hg)))

section
variable (hperm : perm < 4096)
  (hm : Mapped A m D v (mkPte f (perm ||| PTE_P)) (m.users D + f ::ₘ R) R m')
include hperm hm

theorem Mapped.content_self : m'.content D v = m.page f := by
  have hframe : m'.frameAt D v = some f := by
    rw [frameAt_eq, hm.pte, update_self, entryFrame_mkPte hperm]
  rw [content_of_frame hframe]
  exact hm.keeps f (by simp)

theorem Mapped.guarded_self : m'.guarded D v = !perm.testBit 2 := by
  have hlt := or_P_lt hperm
  unfold Mem.guarded
  rw [hm.pte, update_self, flag_or_P hperm, Bool.true_and, flag_U,
    testBit_mkPte hlt (by omega), Nat.testBit_or, show (PTE_P).testBit 2 = false from rfl,
    Bool.or_false]

end

theorem Mapped.same
    (hm : Mapped A m D v (mkPte f (PTE_W ||| PTE_U ||| PTE_P)) (m.users D + f ::ₘ R) R m')
    (habsent : flag (m.pte D v) PTE_P = false) (hzero : m.page f = fun _ => 0) : Same m m' D := by
  intro u hu
  by_cases huv : u = v
  · subst huv
    rw [hm.content_self (by decide), hm.guarded_self (by decide), content_of_absent habsent,
      guarded_of_absent habsent]
    exact ⟨hzero, rfl⟩
  · exact hm.others_same hu huv

section
variable (hd : Dealloced A m D (pages newsz) oldsz R m')
include hd

theorem Dealloced.absent (h : Space A m D oldsz R)
    (hu : u < userPages) (hlo : pages newsz ≤ u) : flag (m'.pte D u) PTE_P = false := by
  rw [hd.pte u]
  by_cases hP : flag (m.pte D u) PTE_P = true
  · rw [if_pos ⟨hlo, lt_pages.mp (h.below u hu hP), hP⟩, flag_zero]
  · rw [if_neg fun hc => hP hc.2.2]
    simpa using hP

theorem Dealloced.space (h : Space A m D oldsz R) (hle : newsz ≤ oldsz) : Space A m' D newsz R := by
  have hsame : ∀ u, u < pages newsz → m'.pte D u = m.pte D u := by
    intro u hu
    rw [hd.pte u, if_neg (by omega)]
  refine ⟨hd.dir, lt_of_le_of_lt hle h.size, ?_, ?_, ?_⟩
  · intro u hu hP
    by_contra hlo
    rw [hd.absent h hu (by omega)] at hP
    cases hP
  · intro u hu hP
    have hlo : u < pages newsz := by
      by_contra hlo
      rw [hd.absent h hu (by omega)] at hP
      cases hP
    rw [hsame u hlo] at hP ⊢
    exact h.rights u hu hP
  intro u hu
  have hnot : ¬4096 * u < oldsz := by
    have := h.size
    unfold KERNBASE at this
    unfold userPages at hu
    omega
  rw [hd.pte u, if_neg fun hc => hnot hc.2.1]
  exact h.kernel u hu

theorem Dealloced.same_below (hu : u < userPages)
    (hlo : u < pages newsz) : m'.content D u = m.content D u ∧ m'.guarded D u = m.guarded D u := by
  have hpte : m'.pte D u = m.pte D u := by rw [hd.pte u, if_neg (by omega)]
  exact ⟨content_congr hpte fun f hf => hd.stays u hu (by omega) f hf, guarded_congr hpte⟩

end

/-- The entry of a page that is present. -/
def Mem.mapping (m : Mem) (D u : Nat) : Option Nat :=
  if flag (m.pte D u) PTE_P then some (m.pte D u) else none

theorem mapping_of_absent (h : flag (m.pte D u) PTE_P = false) : m.mapping D u = none := by
  unfold Mem.mapping
  rw [h]
  rfl

theorem mapping_congr (h : m'.pte D u = m.pte D u) : m'.mapping D u = m.mapping D u := by
  unfold Mem.mapping
  rw [h]

structure Grown (A : Pool K) (m₀ : Mem) (D sz : Nat) (P : Finset Nat) (R : Multiset Nat)
    (m : Mem) : Prop where
  space : Space A m D sz R
  same : Same m₀ m D
  outside : ∀ u ∉ P, m.pte D u = m₀.pte D u
  user : ∀ u ∈ P, PTE_FLAGS (m.pte D u) = 7
  shows : ∀ T S, Shows m₀ D T S → Shows m D (T ∪ tablesOf P) (S ∪ P)
  keeps : Keeps R m₀ m
  oom : m.oom = m₀.oom

/-- There were not enough frames for the pages of `P` and their page tables. -/
structure NotGrown (A : Pool K) (m₀ : Mem) (D oldsz : Nat) (P : Finset Nat) (R : Multiset Nat)
    (m : Mem) : Prop where
  space : Space A m D oldsz R
  same : Same m₀ m D
  mapping : m.mapping D = m₀.mapping D
  keeps : Keeps R m₀ m
  few : ∀ T S, Shows m₀ D T S → A.frames.card < 1 + (T ∪ tablesOf P).card + (S ∪ P).card + R.card
  oom : m₀.oom < m.oom

theorem Grown.refl (h : Space A m D newsz R) :
    Grown A m D newsz ∅ R m where
  space := h
  same := Same.refl m D
  outside := fun _ _ => rfl
  user := by simp
  shows := by
    intro T S hshows
    simpa [tablesOf] using hshows
  keeps := Keeps.refl _ m
  oom := rfl

theorem Grown.insert (h : Grown A m₀ D newsz P R m) (hv : v < pages newsz)
    (habsent : flag (m.pte D v) PTE_P = false) (hfree : m.free = f :: l)
    (hm : Mapped A (Mem.setPage { m with free := l } f fun _ => 0) D v
      (mkPte f (PTE_W ||| PTE_U ||| PTE_P))
      ((Mem.setPage { m with free := l } f fun _ => 0).users D + f ::ₘ R) R m') :
    Grown A m₀ D newsz (insert v P) R m' := by
  obtain ⟨hspace, hkeeps⟩ := h.space.take (fun _ => 0) hfree
  have hown : Keeps (m.own D) m _ := hkeeps.left
  have hpte := hown.view.2.1
  have hvu : v < userPages := lt_of_lt_of_le hv (pages_le h.space.size)
  refine ⟨hspace.map (.inl (by decide)) hv hm, ?_, ?_, ?_, ?_, ?_, hm.oom.trans h.oom⟩
  · exact h.same.trans (hown.same.trans (hm.same (by rw [hpte]; exact habsent)
      (setPage_page_self _)))
  · intro u hu
    rw [Finset.mem_insert, not_or] at hu
    rw [hm.pte, update_of_ne hu.1, hpte]
    exact h.outside u hu.2
  · intro u hu
    rw [hm.pte]
    by_cases huv : u = v
    · rw [huv, update_self]
      exact PTE_FLAGS_mkPte (by decide)
    · rw [update_of_ne huv, hpte]
      exact h.user u (Finset.mem_of_mem_insert_of_ne hu huv)
  · intro T S hshows
    have hmap := ((h.shows T S hshows).congr hown).map hvu hm
    rwa [← Finset.union_insert, ← Finset.union_insert, ← tablesOf_insert] at hmap
  · exact h.keeps.trans (hkeeps.right.trans hm.keeps.right.tail)

theorem Dealloced.undo {m1 : Mem} (h0 : Space A m₀ D oldsz R)
    (hle : oldsz ≤ newsz) (hspace : Space A m D newsz R') (hsame : Same m₀ m D)
    (houtside : ∀ u, u < pages oldsz ∨ pages newsz ≤ u → m.pte D u = m₀.pte D u)
    (hd : Dealloced A m D (pages oldsz) newsz R' m1) :
    Space A m1 D oldsz R' ∧ Same m₀ m1 D ∧ m1.mapping D = m₀.mapping D := by
  refine ⟨hd.space hspace hle, ?_, ?_⟩
  · intro u hu
    by_cases hlo : u < pages oldsz
    · obtain ⟨h1, h2⟩ := hd.same_below hu hlo
      exact ⟨h1.trans (hsame u hu).1, h2.trans (hsame u hu).2⟩
    · have habs := hd.absent hspace hu (by omega)
      have habs0 := h0.absent hu (by omega)
      rw [content_of_absent habs, content_of_absent habs0, guarded_of_absent habs,
        guarded_of_absent habs0]
      exact ⟨rfl, rfl⟩
  funext u
  by_cases hu : pages oldsz ≤ u ∧ u < pages newsz
  · have hlt := lt_of_lt_of_le hu.2 (pages_le hspace.size)
    rw [mapping_of_absent (hd.absent hspace hlt hu.1), mapping_of_absent (h0.absent hlt hu.1)]
  · refine mapping_congr ?_
    rw [hd.pte u, if_neg fun hc => hu ⟨hc.1, lt_pages.mpr hc.2.1⟩]
    exact houtside u (by omega)

theorem allocLoop_spec {fuel : Nat} (h0 : Space A m₀ D oldsz R) (hle : oldsz ≤ newsz)
    (hlo : pages oldsz ≤ v) (hv : v ≤ pages newsz) (hfuel : pages newsz < v + fuel)
    (h : Grown A m₀ D newsz (Finset.Ico (pages oldsz) v) R m) :
    wp (allocLoop K D oldsz newsz fuel (4096 * v))
      (fun r m' => r = newsz ∧ Grown A m₀ D newsz (Finset.Ico (pages oldsz) (pages newsz)) R m' ∨
        r = 0 ∧ NotGrown A m₀ D oldsz (Finset.Ico (pages oldsz) (pages newsz)) R m')
      (fun _ _ => False) m := by
  have hsize := h.space.size
  have hpages := pages_le hsize
  unfold KERNBASE at hsize
  unfold userPages at hpages
  induction fuel generalizing m v with
  | zero => omega
  | succ fuel ih =>
    unfold allocLoop
    rw [wp_ite]
    by_cases hlt : 4096 * v < newsz
    · have hv' := lt_pages.mpr hlt
      have hvu : v < userPages := by
        unfold userPages
        omega
      have houtside : ∀ u, u < pages oldsz ∨ pages newsz ≤ u → m.pte D u = m₀.pte D u := by
        intro u hu
        refine h.outside u ?_
        rw [Finset.mem_Ico]
        omega
      have habsent : flag (m.pte D v) PTE_P = false := by
        rw [h.outside v (by simp)]
        exact h0.absent hvu hlo
      have hsub : insert v (Finset.Ico (pages oldsz) v) ⊆
          Finset.Ico (pages oldsz) (pages newsz) := by
        rw [Finset.insert_Ico_right_eq_Ico_add_one hlo]
        exact Finset.Ico_subset_Ico_right hv'
      rw [if_pos hlt, wp_bind]
      refine wp_kalloc ?_ ?_
      · intro hfree
        -- no page: undo and fail
        have hspace := h.space.setOom (m.oom + 1)
        refine wp_seq (deallocuvm_spec hspace.dir (le_of_lt hspace.size)) ?_
        rintro _ m1 ⟨_, hd⟩
        obtain ⟨hspace1, hsame1, hmap1⟩ := hd.undo h0 hle hspace h.same houtside
        refine .inr ⟨rfl, hspace1, hsame1, hmap1, h.keeps.trans hd.keeps, ?_, ?_⟩
        · intro T S hshows
          have hcount := (h.shows T S hshows).free_length h.space.dir
          have hmore := (h.shows T S hshows).card_lt hvu habsent hsub
          rw [hfree, List.length_nil] at hcount
          omega
        · rw [hd.oom]
          exact Nat.lt_succ_of_le (le_of_eq h.oom.symm)
      intro f l hfree
      obtain ⟨hspace, hkeeps⟩ := h.space.take (fun _ => 0) hfree
      have hown : Keeps (m.own D) m _ := hkeeps.left
      have hview := hown.view
      simp only [memset, wp_bind, wp_modify]
      refine mappages_user_table hspace.dir hvu (by decide) ?_ ?_ ?_
      · intro m1 hP
        rw [hview.2.1, habsent] at hP
        cases hP
      · intro hfree1 hnone
        -- no page for the page table: undo, give the page back and fail
        have hspace' := hspace.setOom (m.oom + 1)
        rw [wp_ite, if_pos (by omega)]
        refine wp_seq (deallocuvm_spec hspace'.dir (le_of_lt hspace'.size)) ?_
        rintro _ m1 ⟨_, hd⟩
        obtain ⟨hspace1, hsame1, hmap1⟩ := hd.undo h0 hle hspace' (h.same.trans hown.same)
          fun u hu => (congrFun hview.2.1 u).trans (houtside u hu)
        obtain ⟨hspace2, hkeeps2⟩ := hspace1.freed
        have hown2 : Keeps (m1.own D) m1 _ := hkeeps2.left
        rw [wp_bind]
        refine wp_kfree (hspace1.dir.uses.valid (by simp)) ?_
        refine .inr ⟨rfl, hspace2, hsame1.trans hown2.same, ?_, ?_, ?_, ?_⟩
        · funext u
          exact (mapping_congr (congrFun hown2.view.2.1 u)).trans (congrFun hmap1 u)
        · exact h.keeps.trans (hkeeps.right.trans (hd.keeps.tail.trans hkeeps2.right))
        · intro T S hshows
          have hcount := (h.shows T S hshows).free_length h.space.dir
          have hmore := (h.shows T S hshows).card_lt hvu habsent hsub
          rw [hview.1] at hnone
          rw [tableFrames_of_none hnone] at hmore
          rw [hfree, show l = [] from hfree1, List.length_singleton] at hcount
          omega
        · show m₀.oom < m1.oom
          rw [hd.oom]
          exact Nat.lt_succ_of_le (le_of_eq h.oom.symm)
      · intro m1 hm1 _
        have hnext : (4096 * v + 4096) % 2 ^ 32 = 4096 * (v + 1) := by omega
        rw [wp_ite, if_neg (by omega), hnext]
        refine ih (by omega) (by omega) (by omega) ?_
        rw [← Finset.insert_Ico_right_eq_Ico_add_one hlo]
        exact h.insert hv' habsent hfree hm1
    · rw [if_neg hlt]
      have hveq : v = pages newsz := by
        have := lt_pages.not.mpr hlt
        omega
      subst hveq
      exact .inl ⟨rfl, h⟩

def Eager (oldsz newsz : Nat) : Prop :=
  0 < oldsz ∧ newsz - oldsz ≤ 8192 ∧ oldsz < 40960

instance (oldsz newsz : Nat) : Decidable (Eager oldsz newsz) :=
  inferInstanceAs (Decidable (_ ∧ _))

def grownPages (oldsz newsz : Nat) : Finset Nat :=
  if Eager oldsz newsz then Finset.Ico (pages oldsz) (pages newsz) else ∅

theorem allocuvm_spec (h : Space A m D oldsz R) (hle : oldsz ≤ newsz) (hsize : newsz < KERNBASE) :
    wp (allocuvm K D oldsz newsz)
      (fun r m' => r = newsz ∧ Grown A m D newsz (grownPages oldsz newsz) R m' ∨
        r = 0 ∧ NotGrown A m D oldsz (grownPages oldsz newsz) R m')
      (fun _ _ => False) m := by
  have hgrown := Grown.refl (h.grow hle hsize)
  unfold allocuvm grownPages
  rw [wp_ite, if_neg (by omega), wp_ite, if_neg (by omega), wp_ite]
  by_cases heager : Eager oldsz newsz
  · rw [if_pos heager, if_pos (show 0 < oldsz ∧ newsz - oldsz ≤ 2 * 4096 ∧ oldsz < 10 * 4096
      from heager), PGROUNDUP_eq (le_of_lt h.size)]
    rw [← Finset.Ico_self (pages oldsz)] at hgrown
    refine allocLoop_spec h hle le_rfl (pages_mono hle) ?_ hgrown
    have hpages := pages_le hsize
    unfold userPages at hpages
    unfold maxPages
    omega
  · rw [if_neg heager, if_neg (show ¬(0 < oldsz ∧ newsz - oldsz ≤ 2 * 4096 ∧ oldsz < 10 * 4096)
      from heager)]
    exact .inl ⟨rfl, hgrown⟩

theorem allocuvm_any {E : Stop → Mem → Prop} (h : Space A m D oldsz R) :
    wp (allocuvm K D oldsz newsz)
      (fun r m' => (r = 0 ∧ Space A m' D oldsz R ∨ Space A m' D r R) ∧ Keeps R m m') E m := by
  by_cases hbig : KERNBASE ≤ newsz
  · unfold allocuvm
    rw [wp_ite, if_pos hbig]
    exact ⟨.inl ⟨rfl, h⟩, Keeps.refl _ m⟩
  by_cases hlt : newsz < oldsz
  · unfold allocuvm
    rw [wp_ite, if_neg hbig, wp_ite, if_pos hlt]
    exact ⟨.inr h, Keeps.refl _ m⟩
  · refine wp_mono (allocuvm_spec h (by omega) (by omega)) ?_ fun _ _ he => he.elim
    rintro r m' (⟨rfl, hm'⟩ | ⟨rfl, hm'⟩)
    · exact ⟨.inr hm'.space, hm'.keeps⟩
    · exact ⟨.inl ⟨rfl, hm'.space⟩, hm'.keeps⟩

end Xv6.Vm
