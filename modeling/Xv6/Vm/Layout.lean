import Xv6.Vm.Setup

/-!
# The layout of an address space

Which page tables and which pages below `KERNBASE` an address space has.  Every
frame has one owner, so the layout determines how many frames are free.
-/

namespace Xv6.Vm

open Lib Lib.Prog Finset

variable {K : Symbols} {A : Pool K} {T S P P' : Finset Nat} {R S' : Multiset Nat} {m m1 m' : Mem}
variable {D v f i u t : Nat}

def tablesOf (S : Finset Nat) : Finset Nat :=
  S.image (· / 1024)

theorem tablesOf_insert : tablesOf (insert v S) = insert (v / 1024) (tablesOf S) :=
  image_insert _ _ _

def tableFrames (m : Mem) (D i : Nat) : Nat :=
  if (m.table D i).isSome then 0 else 1

/-- The page tables at the indices `T`, and the pages `S` below `KERNBASE`. -/
structure Shows (m : Mem) (D : Nat) (T S : Finset Nat) : Prop where
  tables : ∀ i < 1024, (m.table D i).isSome = true ↔ i ∈ T
  tables_lt : ∀ i ∈ T, i < 1024
  pages : ∀ u < userPages, flag (m.pte D u) PTE_P = true ↔ u ∈ S
  pages_lt : ∀ u ∈ S, u < userPages

theorem isSome_frameAt (m : Mem) (D u : Nat) : (m.frameAt D u).isSome = flag (m.pte D u) PTE_P := by
  unfold Mem.frameAt
  cases flag (m.pte D u) PTE_P with
  | false => rfl
  | true => rfl

theorem Shows.card_own (h : Shows m D T S) : (m.own D).card = 1 + T.card + S.card := by
  have htables : (Finset.range 1024).filter (fun i => (m.table D i).isSome = true) = T := by
    ext i
    rw [mem_filter, mem_range]
    constructor
    · rintro ⟨hi, hsome⟩
      exact (h.tables i hi).mp hsome
    · intro hi
      exact ⟨h.tables_lt i hi, (h.tables i (h.tables_lt i hi)).mpr hi⟩
  have hpages : (Finset.range userPages).filter (fun u => (m.frameAt D u).isSome = true) = S := by
    ext u
    rw [mem_filter, mem_range, isSome_frameAt]
    constructor
    · rintro ⟨hu, hP⟩
      exact (h.pages u hu).mp hP
    · intro hu
      exact ⟨h.pages_lt u hu, (h.pages u (h.pages_lt u hu)).mpr hu⟩
  unfold Mem.own Mem.tables Mem.users
  rw [Multiset.card_cons, Multiset.card_add, card_collect, card_collect, hpages,
    show NPDENTRIES = 1024 from rfl, htables]
  omega

theorem Shows.free_length (h : Shows m D T S) (hdir : Dir A m D R) :
    m.free.length + (1 + T.card + S.card) + R.card = A.frames.card := by
  have hcard := congrArg Multiset.card (show _ = A.frames from hdir.uses)
  rw [Multiset.card_add, Multiset.card_add, Multiset.coe_card, h.card_own] at hcard
  omega

theorem isSome_table_of_pte (h : flag (m.pte D u) PTE_P = true) :
    (m.table D (u / 1024)).isSome = true := by
  cases hT : m.table D (u / 1024) with
  | none =>
    rw [pte_of_table_none hT, flag_zero] at h
    cases h
  | some _ => rfl

theorem exists_shows (m : Mem) (D : Nat) : ∃ T S, Shows m D T S := by
  refine ⟨(Finset.range 1024).filter fun i => (m.table D i).isSome = true,
    (Finset.range userPages).filter fun u => flag (m.pte D u) PTE_P = true, ?_⟩
  constructor
  · intro i hi
    simp [hi]
  · intro i hi
    exact mem_range.mp (mem_filter.mp hi).1
  · intro u hu
    simp [hu]
  · intro u hu
    exact mem_range.mp (mem_filter.mp hu).1

theorem tableFrames_of_none (h : m.table D i = none) : tableFrames m D i = 1 := by
  unfold tableFrames
  rw [h]
  rfl

theorem Shows.card_insert (h : Shows m D T S) (hi : i < 1024) :
    (insert i T).card = T.card + tableFrames m D i := by
  unfold tableFrames
  by_cases hT : i ∈ T
  · rw [insert_eq_of_mem hT, if_pos ((h.tables i hi).mpr hT), Nat.add_zero]
  · rw [card_insert_of_notMem hT, if_neg fun hc => hT ((h.tables i hi).mp hc)]

theorem Shows.notMem (h : Shows m D T S) (hv : v < userPages)
    (habsent : flag (m.pte D v) PTE_P = false) : v ∉ S := by
  intro hmem
  rw [(h.pages v hv).mpr hmem] at habsent
  cases habsent

theorem Shows.card_lt (h : Shows m D (T ∪ tablesOf P) (S ∪ P))
    (hv : v < userPages) (habsent : flag (m.pte D v) PTE_P = false) (hsub : insert v P ⊆ P') :
    (T ∪ tablesOf P).card + (S ∪ P).card + tableFrames m D (v / 1024) <
      (T ∪ tablesOf P').card + (S ∪ P').card := by
  have hS : insert v (S ∪ P) ⊆ S ∪ P' := by
    rw [← union_insert]
    exact union_subset_union_right hsub
  have hT : insert (v / 1024) (T ∪ tablesOf P) ⊆ T ∪ tablesOf P' := by
    rw [← union_insert, ← tablesOf_insert]
    exact union_subset_union_right (image_subset_image hsub)
  have hcardS := card_le_card hS
  have hcardT := card_le_card hT
  rw [card_insert_of_notMem (h.notMem hv habsent)] at hcardS
  rw [h.card_insert (by unfold userPages at hv; omega)] at hcardT
  omega

theorem Shows.map (h : Shows m D T S) (hv : v < userPages)
    (hm : Mapped A m D v (mkPte f 7) S' R m') : Shows m' D (insert (v / 1024) T) (insert v S) := by
  have hpte := hm.pte
  have hP : flag (m'.pte D v) PTE_P = true := by
    rw [hpte, Function.update_self]
    exact flag_or_P (show 6 < 4096 by decide)
  constructor
  · intro i hi
    rw [mem_insert]
    by_cases hiv : i = v / 1024
    · rw [hiv]
      exact ⟨fun _ => .inl rfl, fun _ => isSome_table_of_pte hP⟩
    · rw [hm.others i hiv, h.tables i hi]
      simp [hiv]
  · intro i hi
    rcases mem_insert.mp hi with rfl | hi
    · unfold userPages at hv
      omega
    · exact h.tables_lt i hi
  · intro u hu
    by_cases huv : u = v
    · subst huv
      simp [hP]
    · rw [hpte, Function.update_of_ne huv, h.pages u hu]
      simp [huv]
  · intro u hu
    rcases mem_insert.mp hu with rfl | hu
    · exact hv
    · exact h.pages_lt u hu

theorem Shows.congr (h : Shows m D T S) (hkeeps : Keeps (m.own D) m m') : Shows m' D T S := by
  obtain ⟨htable, hpte, _⟩ := hkeeps.view
  constructor
  · rw [htable]
    exact h.tables
  · exact h.tables_lt
  · rw [hpte]
    exact h.pages
  · exact h.pages_lt

theorem Shows.walked (h : Shows m D T S) (hv : v < userPages)
    (hw : Walked A m D (4096 * v) R t m1) : Shows m1 D (insert (v / 1024) T) S := by
  have hv' : v < 524288 := hv
  have hpdx := PDX_page (v := v) (by omega)
  refine ⟨?_, ?_, ?_, h.pages_lt⟩
  · intro i hi
    rw [mem_insert]
    by_cases hiv : i = v / 1024
    · rw [hiv, ← hpdx, hw.table]
      exact ⟨fun _ => .inl rfl, fun _ => rfl⟩
    · rw [hw.others i (by rw [hpdx]; exact hiv), h.tables i hi]
      simp [hiv]
  · intro i hi
    rcases mem_insert.mp hi with rfl | hi
    · omega
    · exact h.tables_lt i hi
  · intro u hu
    rw [hw.pte]
    exact h.pages u hu

end Xv6.Vm
