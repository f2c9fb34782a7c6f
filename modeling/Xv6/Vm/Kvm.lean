import Xv6.Vm.Plan

/-!
# The layout that `setupkvm` leaves

It is known exactly: page tables for the memory up to `PHYSTOP` and from `DEVSPACE` on,
and no others.
-/

namespace Xv6.Vm

open Lib Lib.Prog

variable {K : Symbols} {A : Pool K} {m m' : Mem} {D i : Nat} {R : Multiset Nat}

theorem exists_range (hK : K.Ok) (hi : i ∈ kernelTables) :
    ∃ k ∈ kmap K, ∃ v n p, k.Range v n p ∧ v ≤ 1024 * i ∧ 1024 * i ≤ v + n := by
  obtain ⟨v1, n1, p1, h1, _, v2, n2, p2, h2, _, v3, n3, p3, h3, _, v4, n4, p4, h4, _⟩ :=
    kmap_ascending hK.placed
  have hdata := hK.data_end
  have hpos := hK.data_pos
  have hsmall := hK.end_small
  have hv1 := h1.virt
  have hn1 := h1.size
  have hv3 := h3.virt
  have hn3 := h3.size
  have hv4 := h4.virt
  have hn4 := h4.size
  unfold KERNLINK EXTMEM KERNBASE at hpos
  unfold KERNBASE at hsmall
  unfold Kmap.size at hn1 hn3 hn4
  unfold KERNBASE at hv1 hn3
  unfold EXTMEM at hn1
  unfold PHYSTOP at hn3
  unfold DEVSPACE at hv4 hn4
  simp only at hv1 hn1 hv3 hn3 hv4 hn4
  rcases mem_kernelTables.mp hi with hi | hi
  · by_cases hfirst : i = 512
    · exact ⟨_, List.mem_cons_self .., v1, n1, p1, h1, by omega, by omega⟩
    · exact ⟨_, List.mem_cons_of_mem _ (List.mem_cons_of_mem _ (List.mem_cons_self ..)),
        v3, n3, p3, h3, by omega, by omega⟩
  · exact ⟨_, List.mem_cons_of_mem _ (List.mem_cons_of_mem _ (List.mem_cons_of_mem _
      (List.mem_cons_self ..))), v4, n4, p4, h4, by omega, by omega⟩

theorem setupkvm_shows (h : Uses A m R) :
    wp (setupkvm K)
      (fun r m' => (∃ D, r = some D ∧ Fresh A m' D R ∧ Keeps R m m' ∧ Shows m' D kernelTables ∅) ∨
        r = none ∧ Uses A m' R ∧ Keeps R m m' ∧ m.free.length < kernelFrames)
      (fun _ _ => False) m := by
  refine wp_post (setupkvm_spec h) ?_
  rintro r m' (⟨D, rfl, _, hfresh, hkeeps, _, hranges⟩ | ⟨rfl, huses, hkeeps, _, hbound⟩)
  · refine .inl ⟨D, rfl, hfresh, hkeeps, ?_, ?_, ?_, ?_⟩
    · intro i _
      constructor
      · exact hfresh.tables i
      intro hi
      obtain ⟨k, hk, v, n, p, hrange, hlo, hhi⟩ := exists_range A.ok hi
      have hpte := hranges k hk v n p hrange (1024 * i) hlo hhi
      have hP : flag (m'.pte D (1024 * i)) PTE_P = true := by
        rw [hpte]
        exact flag_or_P (lt_trans hrange.perm (by decide))
      have hsome := isSome_table_of_pte hP
      rwa [Nat.mul_div_cancel_left i (by decide)] at hsome
    · intro i hi
      have := mem_kernelTables.mp hi
      omega
    · intro u hu
      rw [hfresh.pte_eq_zero hu, flag_zero]
      simp
    · simp
  · exact .inr ⟨rfl, huses, hkeeps, hbound⟩

end Xv6.Vm
