import Mathlib.Tactic

/-!
# Counting

The elements of a list that pass a test, counted separately for each value of a
function into a finite type, and sums of weights over a finite type.
-/

namespace Xv6.Lib

open Finset

section Counting

variable {α ι : Type} [DecidableEq ι]

/-- How many elements of the fibre over `i` pass the test. -/
def countAt (f : α → ι) (test : α → Bool) (l : List α) (i : ι) : Nat :=
  l.countP fun a => test a && decide (f a = i)

variable {f : α → ι} {test : α → Bool}

@[simp] theorem countAt_nil (i : ι) : countAt f test [] i = 0 := by
  rfl

@[simp] theorem countAt_append (l1 l2 : List α) (i : ι) :
    countAt f test (l1 ++ l2) i = countAt f test l1 i + countAt f test l2 i := by
  simp [countAt]

@[simp] theorem countAt_singleton (a : α) (i : ι) :
    countAt f test [a] i = if test a = true ∧ f a = i then 1 else 0 := by
  simp [countAt, List.countP_cons]

theorem countAt_eq_zero {l : List α} {i : ι} (h : ∀ a ∈ l, f a ≠ i) : countAt f test l i = 0 := by
  simp only [countAt, List.countP_eq_zero, Bool.and_eq_true, decide_eq_true_eq, not_and]
  intro a ha _
  exact h a ha

theorem sum_countAt [Fintype ι] (l : List α) : ∑ i, countAt f test l i = l.countP test := by
  induction l with
  | nil => simp
  | cons a l ih =>
    have hcons : ∀ i, countAt f test (a :: l) i =
        countAt f test [a] i + countAt f test l i := by
      intro i
      exact countAt_append [a] l i
    have hone : ∑ i, countAt f test [a] i = if test a = true then 1 else 0 := by
      by_cases ha : test a = true
      · simp [ha]
      · simp [ha]
    simp only [hcons, sum_add_distrib, ih, hone, List.countP_cons]
    omega

end Counting

section Weights

variable {ι α M : Type} [Fintype ι] [AddCommMonoid M]

/-- The sum of the weights of the values of a function. -/
def total (w : α → M) (f : ι → α) : M :=
  ∑ i, w (f i)

theorem total_update [DecidableEq ι] (w : α → M) (f : ι → α) (i : ι) (a : α) :
    total w (Function.update f i a) + w (f i) = total w f + w a := by
  have hcomp : (fun j => w (Function.update f i a j)) =
      Function.update (fun j => w (f j)) i (w a) := by
    funext j
    exact Function.apply_update (fun _ => w) f i a j
  unfold total
  rw [hcomp, sum_update_of_mem (mem_univ i),
    sum_eq_add_sum_sdiff_singleton_of_mem (mem_univ i) fun j => w (f j)]
  abel

end Weights

section OrderedWeights

variable {ι α M : Type} [Fintype ι] [AddCommMonoid M] [PartialOrder M] [IsOrderedAddMonoid M]
variable {w : α → M} {f : ι → α}

theorem le_total (hw : ∀ i, 0 ≤ w (f i)) (i : ι) : w (f i) ≤ total w f :=
  single_le_sum (fun j _ => hw j) (mem_univ i)

theorem add_le_total [DecidableEq ι] {i j : ι} (hw : ∀ i, 0 ≤ w (f i)) (hij : i ≠ j) :
    w (f i) + w (f j) ≤ total w f := by
  rw [← sum_pair (f := fun k => w (f k)) hij]
  exact sum_le_sum_of_subset_of_nonneg (subset_univ _) fun k _ _ => hw k

end OrderedWeights

end Xv6.Lib
