import Xv6.Vm.Fault

/-!
# The frames that a process takes, exactly

`allocuvm` maps the new pages at once when the process is small and grows by little, and
leaves them to `handle_lazy_allocation` otherwise.  For an arbitrary address space the frames
that the two take are counted here: a frame for each page, and one for a page table that is
missing.  They fail if and only if there are fewer, and then every mapping is as before.
-/

namespace Xv6.Vm

open Lib Lib.Prog

variable {K : Symbols} {A : Pool K} {m m' : Mem} {R S' : Multiset Nat}
variable {D v f i oldsz newsz sz fa : Nat}

/--
The frames that `allocuvm` takes.  The pages that it maps at once all lie in the first
4 MB, so at most one page table is new.
-/
def growFrames (m : Mem) (D oldsz newsz : Nat) : Nat :=
  if Eager oldsz newsz ∧ pages oldsz < pages newsz then
    pages newsz - pages oldsz + tableFrames m D 0
  else 0

/-- The frames that `handle_lazy_allocation` takes. -/
def lazyFrames (m : Mem) (D fa : Nat) : Nat :=
  1 + tableFrames m D (fa / 4096 / 1024)

theorem Mapped.free_length (hm : Mapped A m D v (mkPte f 7) S' R m') (hdir : Dir A m D (f ::ₘ R))
    (hv : v < userPages) (habsent : flag (m.pte D v) PTE_P = false) :
    m'.free.length + tableFrames m D (v / 1024) = m.free.length := by
  obtain ⟨T, S, hshows⟩ := exists_shows m D
  have hcount := hshows.free_length hdir
  have hcount' := (hshows.map hv hm).free_length hm.dir
  rw [Multiset.card_cons] at hcount
  rw [Finset.card_insert_of_notMem (hshows.notMem hv habsent),
    hshows.card_insert (by unfold userPages at hv; omega)] at hcount'
  omega

theorem card_grown {T S : Finset Nat} (hshows : Shows m D T S) (h : Space A m D oldsz R)
    (newsz : Nat) :
    (T ∪ tablesOf (grownPages oldsz newsz)).card + (S ∪ grownPages oldsz newsz).card =
      T.card + S.card + growFrames m D oldsz newsz := by
  unfold grownPages growFrames
  by_cases hgrow : Eager oldsz newsz ∧ pages oldsz < pages newsz
  · obtain ⟨heager, hlt⟩ := hgrow
    have hsmall : pages newsz ≤ 1024 := by
      unfold Eager at heager
      unfold pages
      omega
    have htables : tablesOf (Finset.Ico (pages oldsz) (pages newsz)) = {0} := by
      ext i
      simp only [tablesOf, Finset.mem_image, Finset.mem_Ico, Finset.mem_singleton]
      constructor
      · rintro ⟨u, hu, rfl⟩
        exact Nat.div_eq_of_lt (by omega)
      · rintro rfl
        exact ⟨pages oldsz, ⟨le_rfl, hlt⟩, Nat.div_eq_of_lt (by omega)⟩
    have hdisjoint : Disjoint S (Finset.Ico (pages oldsz) (pages newsz)) := by
      rw [Finset.disjoint_left]
      intro u hu hmem
      exact hshows.notMem (hshows.pages_lt u hu)
        (h.absent (hshows.pages_lt u hu) (Finset.mem_Ico.mp hmem).1) hu
    rw [if_pos heager, if_pos ⟨heager, hlt⟩, htables, Finset.card_union_of_disjoint hdisjoint,
      Nat.card_Ico, Finset.union_comm, ← Finset.insert_eq, hshows.card_insert (by omega)]
    omega
  · have hempty : (if Eager oldsz newsz then Finset.Ico (pages oldsz) (pages newsz) else ∅) =
      ∅ := by
      split
      · exact Finset.Ico_eq_empty fun hc => hgrow ⟨by assumption, hc⟩
      · rfl
    rw [hempty, if_neg hgrow]
    simp [tablesOf]

theorem allocuvm_grow (h : Space A m D oldsz R) (hle : oldsz ≤ newsz) (hsize : newsz < KERNBASE) :
    wp (allocuvm K D oldsz newsz)
      (fun r m' =>
        r = newsz ∧ Space A m' D newsz R ∧ growFrames m D oldsz newsz ≤ m.free.length ∨
          r = 0 ∧ m'.mapping D = m.mapping D ∧ m.free.length < growFrames m D oldsz newsz)
      (fun _ _ => False) m := by
  obtain ⟨T, S, hshows⟩ := exists_shows m D
  have hcount := hshows.free_length h.dir
  have hcard := card_grown hshows h newsz
  refine wp_post (allocuvm_spec h hle hsize) ?_
  rintro r m' (⟨hr, hm'⟩ | ⟨hr, hm'⟩)
  · have hcount' := (hm'.shows T S hshows).free_length hm'.space.dir
    exact .inl ⟨hr, hm'.space, by omega⟩
  · have hfew := hm'.few T S hshows
    exact .inr ⟨hr, hm'.mapping, by omega⟩

/-- `handle_lazy_allocation` returned 0: the page was missing and is there now. -/
structure Resolved (A : Pool K) (m : Mem) (D sz fa : Nat) (R : Multiset Nat) (m' : Mem) :
    Prop where
  space : Space A m' D sz R
  same : Same m m' D
  keeps : Keeps R m m'
  low : 4096 ≤ fa
  high : fa < sz
  missing : flag (m.pte D (fa / 4096)) PTE_P = false
  flags : PTE_FLAGS (m'.pte D (fa / 4096)) = 7
  oom : m'.oom = m.oom

/-- It returned -1: the address is out of range, or there was no page left. -/
structure Refused (A : Pool K) (m : Mem) (D sz fa : Nat) (R : Multiset Nat) (m' : Mem) :
    Prop where
  space : Space A m' D sz R
  same : Same m m' D
  keeps : Keeps R m m'
  cause : fa < 4096 ∨ sz ≤ fa ∨ m.oom < m'.oom ∧ (m.free = [] ∨
      m.free.length = 1 ∧ flag (m.pte D (fa / 4096)) PTE_P = false)

/-- `handle_lazy_allocation` has mapped the page, with the frames that it took. -/
structure Served (m : Mem) (D sz fa : Nat) (m' : Mem) : Prop where
  low : 4096 ≤ fa
  high : fa < sz
  self : flag (m'.pte D (fa / 4096)) PTE_P = true
  others : ∀ u, u ≠ fa / 4096 → m'.pte D u = m.pte D u
  free : m'.free.length + lazyFrames m D fa = m.free.length

structure Unserved (m : Mem) (D sz fa : Nat) (m' : Mem) : Prop where
  cause : fa < 4096 ∨ sz ≤ fa ∨ m.free.length < lazyFrames m D fa
  pte : m'.pte D = m.pte D
  table : m'.table D = m.table D
  free : m'.free.length = m.free.length

/-- `handle_lazy_allocation` serves a page in range if and only if the frames suffice.  The panic of
`mappages` is reached exactly on a page that is present. -/
theorem handleLazyAllocation_spec (h : Space A m D sz R) :
    wp (handleLazyAllocation K D sz fa)
      (fun r m' => r = 0 ∧ Resolved A m D sz fa R m' ∧ Served m D sz fa m' ∨
        r = -1 ∧ Refused A m D sz fa R m' ∧ Unserved m D sz fa m')
      (fun e _ => e = .remap ∧ 4096 ≤ fa ∧ fa < sz ∧ m.free ≠ [] ∧
        flag (m.pte D (fa / 4096)) PTE_P = true) m := by
  have hrefl := Keeps.refl R m
  unfold handleLazyAllocation
  rw [wp_ite]
  by_cases hhigh : sz ≤ fa
  · rw [if_pos hhigh]
    exact .inr ⟨rfl, ⟨h, Same.refl m D, hrefl, .inr (.inl hhigh)⟩,
      .inr (.inl hhigh), rfl, rfl, rfl⟩
  rw [if_neg hhigh, wp_ite]
  by_cases hlow : fa < 4096
  · rw [if_pos hlow]
    exact .inr ⟨rfl, ⟨h, Same.refl m D, hrefl, .inl hlow⟩, .inl hlow, rfl, rfl, rfl⟩
  rw [if_neg hlow, wp_bind]
  have hv : fa / 4096 < pages sz := lt_pages.mpr (by omega)
  have hvu : fa / 4096 < userPages := lt_of_lt_of_le hv (pages_le h.size)
  refine wp_kalloc ?_ ?_
  · intro hfree
    have hfew : m.free.length < lazyFrames m D fa := by
      unfold lazyFrames
      rw [hfree, List.length_nil]
      omega
    exact .inr ⟨rfl, ⟨h.setOom _, Same.refl m D, Keeps.refl _ m,
      .inr (.inr ⟨Nat.lt_succ_self _, .inl hfree⟩)⟩, .inr (.inr hfew), rfl, rfl, rfl⟩
  intro f l hfree
  obtain ⟨hspace, hkeeps⟩ := h.take (fun _ => 0) hfree
  have hown : Keeps (m.own D) m _ := hkeeps.left
  have hview := hown.view
  have hdown : PGROUNDDOWN fa = 4096 * (fa / 4096) := by
    unfold PGROUNDDOWN
    omega
  have hframes : tableFrames (Mem.setPage { m with free := l } f fun _ => 0) D
      (fa / 4096 / 1024) = tableFrames m D (fa / 4096 / 1024) := by
    unfold tableFrames
    rw [hview.1]
  simp only [memset, wp_bind, wp_modify, hdown]
  refine mappages_user_table hspace.dir hvu (by decide) ?_ ?_ ?_
  · intro _ hP
    rw [hview.2.1] at hP
    exact ⟨rfl, by omega, by omega, by simp [hfree], hP⟩
  · intro hnil hnone
    have hl : l = [] := hnil
    have hspace' := hspace.setOom (m.oom + 1)
    obtain ⟨hspace2, hkeeps2⟩ := hspace'.freed
    rw [hview.1] at hnone
    rw [wp_ite, if_pos (by omega), wp_bind]
    refine wp_kfree (hspace'.dir.uses.valid (by simp)) ?_
    obtain ⟨_, htable, hpte, _⟩ := hspace'.dir.freed
    have hone : m.free.length = 1 := by
      rw [hfree, hl]
      rfl
    have habsent : flag (m.pte D (fa / 4096)) PTE_P = false := by
      rw [pte_of_table_none hnone, flag_zero]
    have hfew : m.free.length < lazyFrames m D fa := by
      unfold lazyFrames
      rw [tableFrames_of_none hnone]
      omega
    refine .inr ⟨rfl, ⟨hspace2, hown.same.trans (hkeeps2.left : Keeps _ _ _).same,
      hkeeps.right.trans hkeeps2.right,
      .inr (.inr ⟨Nat.lt_succ_self _, .inr ⟨hone, habsent⟩⟩)⟩,
      .inr (.inr hfew), hpte.trans hview.2.1, htable.trans hview.1, ?_⟩
    rw [hfree]
    rfl
  intro m' hm' habsent
  have hcount := hm'.free_length hspace.dir hvu habsent
  rw [hframes, setPage_free] at hcount
  simp only at hcount
  have hpte : m'.pte D (fa / 4096) = mkPte f (PTE_W ||| PTE_U ||| PTE_P) := by
    rw [hm'.pte, Function.update_self]
  rw [wp_ite, if_neg (by omega)]
  refine .inl ⟨rfl, ⟨hspace.map (.inl (by decide)) hv hm',
    hown.same.trans (hm'.same habsent (setPage_page_self _)),
    hkeeps.right.trans hm'.keeps.right.tail, by omega, by omega, ?_, ?_, hm'.oom⟩,
    by omega, by omega, ?_, ?_, ?_⟩
  · rw [← hview.2.1]
    exact habsent
  · rw [hpte]
    exact PTE_FLAGS_mkPte (by decide)
  · rw [hpte]
    exact flag_or_P (show 6 < 4096 by decide)
  · intro u hu
    rw [hm'.pte, Function.update_of_ne hu, hview.2.1]
  · unfold lazyFrames
    rw [hfree, List.length_cons]
    omega

end Xv6.Vm
