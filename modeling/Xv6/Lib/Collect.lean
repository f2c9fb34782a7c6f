import Mathlib.Tactic

/-!
# The values of a partial function on an initial segment

`collect n g` is the multiset of the values that `g` takes below `n`.  Changing
`g` at one place adds or removes one value, and if the multiset has no
duplicates then `g` is injective.
-/

namespace Xv6.Lib

open Function Multiset

variable {α : Type} {n i : Nat} {g g' : Nat → Option α} {x : α}

/-- The values of `g` below `n`, with multiplicity. -/
def collect (n : Nat) (g : Nat → Option α) : Multiset α :=
  (Multiset.range n).filterMap g

theorem mem_collect : x ∈ collect n g ↔ ∃ i < n, g i = some x := by
  simp [collect, mem_filterMap]

theorem collect_congr (h : ∀ i < n, g i = g' i) : collect n g = collect n g' := by
  unfold collect
  induction n with
  | zero => simp
  | succ n ih =>
    have ih := ih fun i hi => h i (by omega)
    rw [range_succ]
    cases hx : g n with
    | none =>
      rw [filterMap_cons_none _ _ hx, filterMap_cons_none _ _ ((h n (by omega)).symm.trans hx), ih]
    | some x =>
      rw [filterMap_cons_some _ _ _ hx,
        filterMap_cons_some _ _ _ ((h n (by omega)).symm.trans hx), ih]

theorem collect_eq_zero (h : ∀ i < n, g i = none) : collect n g = 0 := by
  refine eq_zero_of_forall_notMem ?_
  intro x hx
  obtain ⟨i, hi, hix⟩ := mem_collect.mp hx
  rw [h i hi] at hix
  cases hix

theorem collect_put (hi : i < n) (hg : g i = none) (x : α) :
    collect n (update g i (some x)) = x ::ₘ collect n g := by
  unfold collect
  induction n with
  | zero => omega
  | succ n ih =>
    rw [range_succ]
    by_cases hin : i = n
    · subst hin
      have hrest : collect i (update g i (some x)) = collect i g :=
        collect_congr fun j hj => update_of_ne (by omega) _ _
      unfold collect at hrest
      rw [filterMap_cons_some _ _ _ (update_self _ _ _), filterMap_cons_none _ _ hg, hrest]
    have ih := ih (by omega)
    have hn : update g i (some x) n = g n :=
      update_of_ne (Ne.symm hin) _ _
    cases hy : g n with
    | none => rw [filterMap_cons_none _ _ (hn.trans hy), filterMap_cons_none _ _ hy, ih]
    | some y =>
      rw [filterMap_cons_some _ _ _ (hn.trans hy), filterMap_cons_some _ _ _ hy, ih, cons_swap]

theorem collect_take (hi : i < n) (hg : g i = some x) :
    collect n g = x ::ₘ collect n (update g i none) := by
  have hput := collect_put (g := update g i none) hi (update_self _ _ _) x
  rw [update_idem, ← hg, update_eq_self] at hput
  exact hput

theorem collect_split (n : Nat) (g : Nat → Option α) (P : Nat → Prop) [DecidablePred P] :
    collect n g = collect n (fun i => if P i then g i else none) +
      collect n fun i => if P i then none else g i := by
  have hsum := congrArg (filterMap g) (filter_add_not P (Multiset.range n))
  rw [filterMap_add, filterMap_filter, filterMap_filter] at hsum
  simp only [ite_not] at hsum
  exact hsum.symm

theorem eq_of_nodup_collect (h : (collect n g).Nodup) {j : Nat} (hi : i < n) (hj : j < n)
    (hgi : g i = some x) (hgj : g j = some x) : i = j := by
  by_contra hne
  rw [collect_take hi hgi] at h
  refine (nodup_cons.mp h).1 (mem_collect.mpr ⟨j, hj, ?_⟩)
  rw [update_of_ne (Ne.symm hne)]
  exact hgj

theorem card_collect_le {m : Nat} (h : ∀ i < m, g i = none) : (collect n g).card ≤ n - m := by
  unfold collect
  induction n with
  | zero => simp
  | succ n ih =>
    rw [range_succ]
    by_cases hn : n < m
    · rw [filterMap_cons_none _ _ (h n hn)]
      omega
    cases hx : g n with
    | none =>
      rw [filterMap_cons_none _ _ hx]
      omega
    | some x =>
      rw [filterMap_cons_some _ _ _ hx, card_cons]
      omega

theorem card_collect (n : Nat) (g : Nat → Option α) :
    (collect n g).card = ((Finset.range n).filter fun i => (g i).isSome).card := by
  unfold collect
  induction n with
  | zero => simp
  | succ n ih =>
    rw [range_succ, Finset.range_add_one, Finset.filter_insert]
    cases hx : g n with
    | none =>
      rw [filterMap_cons_none _ _ hx, ih]
      simp
    | some x =>
      rw [filterMap_cons_some _ _ _ hx, card_cons, ih]
      simp

end Xv6.Lib
