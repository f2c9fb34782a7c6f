import Mathlib.Tactic

/-!
# Slots that own resources

A slot holds a resource, or `0` for none.  A table of marks says which resources
of a region are taken.  `Own R U H B` says that the slots `H` own what they hold:
no resource is held by two slots or by a slot and the rest of the world `U`, and
exactly what is held is marked.
-/

namespace Xv6.Lib

open Function

section Owner

variable {α ι κ : Type} [Zero α]

structure Own (R : α → Prop) (U : Set α) (H : ι → α) (B : α → Bool) : Prop where
  zero : ¬R 0
  region : ∀ k, H k ≠ 0 → R (H k)
  apart : ∀ k, H k ≠ 0 → H k ∉ U
  inj : ∀ k k', H k ≠ 0 → H k = H k' → k = k'
  marked : ∀ b, R b → (B b = true ↔ b ∈ U ∨ ∃ k, H k = b)

namespace Own

variable {R : α → Prop} {U : Set α} {H : ι → α} {B : α → Bool}

section
variable (h : Own R U H B)
include h

theorem congr {H' : ι → α} {B' : α → Bool} (hH : ∀ k, H' k = H k)
    (hB : ∀ b, R b → B' b = B b) : Own R U H' B' := by
  have hfun : H' = H := funext hH
  subst hfun
  refine ⟨h.zero, h.region, h.apart, h.inj, ?_⟩
  intro b hb
  rw [hB b hb]
  exact h.marked b hb

theorem ne_zero {b : α} (hb : R b) : b ≠ 0 := by
  intro h0
  subst h0
  exact h.zero hb

theorem marked_of_held {k : ι} (hk : H k ≠ 0) : B (H k) = true :=
  (h.marked _ (h.region k hk)).mpr (.inr ⟨k, rfl⟩)

theorem fresh {b : α} (hb : R b) (hfree : B b = false) : b ∉ U ∧ ∀ k, H k ≠ b := by
  have hnot : ¬(b ∈ U ∨ ∃ k, H k = b) := by
    intro hheld
    have htrue := (h.marked b hb).mpr hheld
    rw [hfree] at htrue
    cases htrue
  push Not at hnot
  exact hnot

end

variable [DecidableEq ι] [DecidableEq α]

theorem take (h : Own R U H B) {k : ι} {b : α} (hk : H k = 0) (hb : R b) (hfree : B b = false) :
    Own R U (update H k b) (update B b true) := by
  obtain ⟨hbU, hbH⟩ := h.fresh hb hfree
  refine ⟨h.zero, ?_, ?_, ?_, ?_⟩
  · intro j hj
    by_cases hjk : j = k
    · subst hjk
      simpa using hb
    · rw [update_of_ne hjk] at hj ⊢
      exact h.region j hj
  · intro j hj
    by_cases hjk : j = k
    · subst hjk
      simpa using hbU
    · rw [update_of_ne hjk] at hj ⊢
      exact h.apart j hj
  · intro j j' hj heq
    by_cases hjk : j = k
    · subst hjk
      by_cases hjk' : j' = j
      · exact hjk'.symm
      · rw [update_self, update_of_ne hjk'] at heq
        exact absurd heq.symm (hbH j')
    rw [update_of_ne hjk] at hj heq
    by_cases hjk' : j' = k
    · subst hjk'
      rw [update_self] at heq
      exact absurd heq (hbH j)
    · rw [update_of_ne hjk'] at heq
      exact h.inj j j' hj heq
  intro c hc
  by_cases hcb : c = b
  · subst hcb
    simp only [update_self, true_iff]
    exact .inr ⟨k, by simp⟩
  rw [update_of_ne hcb, h.marked c hc]
  apply or_congr Iff.rfl
  constructor
  · rintro ⟨j, hj⟩
    have hjk : j ≠ k := by
      rintro rfl
      exact h.ne_zero hc (hj.symm.trans hk)
    exact ⟨j, by rw [update_of_ne hjk]; exact hj⟩
  rintro ⟨j, hj⟩
  by_cases hjk : j = k
  · subst hjk
    rw [update_self] at hj
    exact absurd hj.symm hcb
  · rw [update_of_ne hjk] at hj
    exact ⟨j, hj⟩

theorem drop (h : Own R U H B) {k : ι} (hk : H k ≠ 0) :
    Own R U (update H k 0) (update B (H k) false) := by
  refine ⟨h.zero, ?_, ?_, ?_, ?_⟩
  · intro j hj
    have hjk : j ≠ k := by
      rintro rfl
      simp at hj
    rw [update_of_ne hjk] at hj ⊢
    exact h.region j hj
  · intro j hj
    have hjk : j ≠ k := by
      rintro rfl
      simp at hj
    rw [update_of_ne hjk] at hj ⊢
    exact h.apart j hj
  · intro j j' hj heq
    have hjk : j ≠ k := by
      rintro rfl
      simp at hj
    rw [update_of_ne hjk] at hj heq
    have hjk' : j' ≠ k := by
      rintro rfl
      rw [update_self] at heq
      exact hj heq
    rw [update_of_ne hjk'] at heq
    exact h.inj j j' hj heq
  intro c hc
  by_cases hcb : c = H k
  · subst hcb
    simp only [update_self, Bool.false_eq_true, false_iff, not_or, not_exists]
    refine ⟨h.apart k hk, ?_⟩
    intro j hj
    by_cases hjk : j = k
    · subst hjk
      rw [update_self] at hj
      exact hk hj.symm
    · rw [update_of_ne hjk] at hj
      exact hjk (h.inj k j hk hj.symm).symm
  rw [update_of_ne hcb, h.marked c hc]
  apply or_congr Iff.rfl
  constructor
  · rintro ⟨j, hj⟩
    have hjk : j ≠ k := by
      rintro rfl
      exact hcb hj.symm
    exact ⟨j, by rw [update_of_ne hjk]; exact hj⟩
  rintro ⟨j, hj⟩
  have hjk : j ≠ k := by
    rintro rfl
    rw [update_self] at hj
    exact h.ne_zero hc hj.symm
  rw [update_of_ne hjk] at hj
  exact ⟨j, hj⟩

end Own

section Rows

variable {R : α → Prop} {B : α → Bool} {H : ι → κ → α}

/-- What the rows other than `i` hold. -/
def heldElsewhere (H : ι → κ → α) (i : ι) : Set α :=
  { b | b ≠ 0 ∧ ∃ j k, j ≠ i ∧ H j k = b }

/-- All slots of a table with rows. -/
def slots (H : ι → κ → α) : ι × κ → α :=
  fun p => H p.1 p.2

theorem Own.row (h : Own R ∅ (slots H) B) (i : ι) : Own R (heldElsewhere H i) (H i) B := by
  refine ⟨h.zero, ?_, ?_, ?_, ?_⟩
  · intro k hk
    exact h.region (i, k) hk
  · rintro k hk ⟨_, j, k', hj, heq⟩
    have hpair := h.inj (i, k) (j, k') hk heq.symm
    exact hj (Prod.mk.inj hpair).1.symm
  · intro k k' hk heq
    exact (Prod.mk.inj (h.inj (i, k) (i, k') hk heq)).2
  intro b hb
  have h0 := h.ne_zero hb
  rw [h.marked b hb]
  simp only [Set.mem_empty_iff_false, false_or, heldElsewhere, Set.mem_ofPred_eq, slots]
  constructor
  · rintro ⟨⟨j, k⟩, hjk⟩
    by_cases hj : j = i
    · subst hj
      exact .inr ⟨k, hjk⟩
    · exact .inl ⟨h0, j, k, hj, hjk⟩
  · rintro (⟨_, j, k, _, hjk⟩ | ⟨k, hk⟩)
    · exact ⟨(j, k), hjk⟩
    · exact ⟨(i, k), hk⟩

theorem Own.ofRow {H' : ι → κ → α} {B' : α → Bool} (h : Own R ∅ (slots H) B) (i : ι)
    (hrow : Own R (heldElsewhere H i) (H' i) B') (hrest : ∀ j, j ≠ i → ∀ k, H' j k = H j k) :
    Own R ∅ (slots H') B' := by
  refine ⟨h.zero, ?_, ?_, ?_, ?_⟩
  · rintro ⟨j, k⟩ hjk
    simp only [slots] at hjk ⊢
    by_cases hj : j = i
    · subst hj
      exact hrow.region k hjk
    · rw [hrest j hj k] at hjk ⊢
      exact h.region (j, k) hjk
  · intro p _
    exact Set.notMem_empty _
  · rintro ⟨j, k⟩ ⟨j', k'⟩ hjk heq
    simp only [slots] at hjk heq
    by_cases hj : j = i
    · subst hj
      by_cases hj' : j' = j
      · subst hj'
        rw [hrow.inj k k' hjk heq]
      · rw [hrest j' hj' k'] at heq
        exact absurd ⟨hjk, j', k', hj', heq.symm⟩ (hrow.apart k hjk)
    rw [hrest j hj k] at hjk heq
    by_cases hj' : j' = i
    · subst hj'
      have hne : H' j' k' ≠ 0 := by
        rw [← heq]
        exact hjk
      exact absurd ⟨hne, j, k, hj, heq⟩ (hrow.apart k' hne)
    · rw [hrest j' hj' k'] at heq
      exact h.inj (j, k) (j', k') hjk heq
  intro b hb
  have h0 := h.ne_zero hb
  rw [hrow.marked b hb]
  simp only [Set.mem_empty_iff_false, false_or, heldElsewhere, Set.mem_ofPred_eq, slots]
  constructor
  · rintro (⟨_, j, k, hj, hjk⟩ | ⟨k, hk⟩)
    · exact ⟨(j, k), (hrest j hj k).trans hjk⟩
    · exact ⟨(i, k), hk⟩
  · rintro ⟨⟨j, k⟩, hjk⟩
    by_cases hj : j = i
    · subst hj
      exact .inr ⟨k, hjk⟩
    · exact .inl ⟨h0, j, k, hj, (hrest j hj k).symm.trans hjk⟩

end Rows

end Owner

end Xv6.Lib
