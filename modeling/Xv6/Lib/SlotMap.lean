import Mathlib.Tactic

/-!
# A map kept in a table of slots

The first `n` slots of a table are empty or hold a key and a value, and a lookup
scans them in order.  As long as no key occurs twice the order does not matter:
the table is a map, filling an empty slot (or the one behind the last) adds a
binding and emptying a slot removes one.
-/

namespace Xv6.Lib

open Function

section SlotMap

variable {κ ν : Type} [DecidableEq κ] {n i : Nat} {t : Nat → Option (κ × ν)} {k : κ} {v : ν}

/-- The value in a slot that holds the key. -/
def slotValue (k : κ) : Option (κ × ν) → Option ν
  | none => none
  | some (k', v) => if k' = k then some v else none

theorem slotValue_eq_some {o : Option (κ × ν)} : slotValue k o = some v ↔ o = some (k, v) := by
  cases o with
  | none => simp [slotValue]
  | some kv =>
    obtain ⟨k', v'⟩ := kv
    by_cases hk : k' = k
    · simp [slotValue, hk]
    · simp [slotValue, hk]

/-- The value in the first slot that holds the key. -/
def slotFind (n : Nat) (t : Nat → Option (κ × ν)) (k : κ) : Option ν :=
  (List.range n).findSome? fun j => slotValue k (t j)

omit [DecidableEq κ] in
/-- No key occurs twice. -/
def SlotsDistinct (n : Nat) (t : Nat → Option (κ × ν)) : Prop :=
  ∀ i < n, ∀ j < n, ∀ k v w, t i = some (k, v) → t j = some (k, w) → i = j

theorem slotFind_eq_none_iff : slotFind n t k = none ↔ ∀ j < n, ∀ v, t j ≠ some (k, v) := by
  unfold slotFind
  rw [List.findSome?_eq_none_iff]
  constructor
  · intro h j hj v hslot
    have hnone := h j (List.mem_range.mpr hj)
    rw [slotValue_eq_some.mpr hslot] at hnone
    cases hnone
  · intro h j hj
    by_contra hne
    obtain ⟨v, hv⟩ := Option.ne_none_iff_exists'.mp hne
    exact h j (List.mem_range.mp hj) v (slotValue_eq_some.mp hv)

section
variable (h : SlotsDistinct n t)
include h

theorem slotFind_eq_some_iff : slotFind n t k = some v ↔ ∃ j < n, t j = some (k, v) := by
  constructor
  · intro hfind
    obtain ⟨j, hj, hv⟩ := List.exists_of_findSome?_eq_some hfind
    exact ⟨j, List.mem_range.mp hj, slotValue_eq_some.mp hv⟩
  rintro ⟨j, hj, hslot⟩
  cases hfind : slotFind n t k with
  | none => exact absurd hslot (slotFind_eq_none_iff.mp hfind j hj v)
  | some w =>
    obtain ⟨i, hi, hw⟩ := List.exists_of_findSome?_eq_some hfind
    have hslot' := slotValue_eq_some.mp hw
    have hij := h i (List.mem_range.mp hi) j hj k w v hslot' hslot
    rw [hij, hslot] at hslot'
    cases hslot'
    rfl

theorem slotsDistinct_fill (hk : slotFind n t k = none) (hin : i ≤ n) :
    SlotsDistinct (max n (i + 1)) (update t i (some (k, v))) := by
  have hnone := slotFind_eq_none_iff.mp hk
  intro a ha b hb k' u w hu hw
  by_cases hai : a = i
  · by_cases hbi : b = i
    · rw [hai, hbi]
    · rw [hai, update_self] at hu
      rw [update_of_ne hbi] at hw
      cases hu
      exact absurd hw (hnone b (by omega) w)
  rw [update_of_ne hai] at hu
  by_cases hbi : b = i
  · rw [hbi, update_self] at hw
    cases hw
    exact absurd hu (hnone a (by omega) u)
  · rw [update_of_ne hbi] at hw
    exact h a (by omega) b (by omega) k' u w hu hw

theorem slotFind_fill (hk : slotFind n t k = none) (hi : i < n → t i = none) (hin : i ≤ n) :
    slotFind (max n (i + 1)) (update t i (some (k, v))) =
      update (slotFind n t) k (some v) := by
  funext k'
  apply Option.ext
  intro w
  rw [slotFind_eq_some_iff (slotsDistinct_fill h hk hin)]
  by_cases hk' : k' = k
  · subst hk'
    rw [update_self]
    constructor
    · rintro ⟨j, hj, hslot⟩
      by_cases hji : j = i
      · rw [hji, update_self] at hslot
        cases hslot
        rfl
      · rw [update_of_ne hji] at hslot
        exact absurd hslot (slotFind_eq_none_iff.mp hk j (by omega) w)
    · intro hw
      cases hw
      exact ⟨i, by omega, update_self _ _ _⟩
  rw [update_of_ne hk', slotFind_eq_some_iff h]
  constructor
  · rintro ⟨j, hj, hslot⟩
    by_cases hji : j = i
    · rw [hji, update_self] at hslot
      cases hslot
      exact absurd rfl hk'
    · rw [update_of_ne hji] at hslot
      exact ⟨j, by omega, hslot⟩
  · rintro ⟨j, hj, hslot⟩
    have hji : j ≠ i := by
      rintro rfl
      rw [hi hj] at hslot
      cases hslot
    exact ⟨j, by omega, by rw [update_of_ne hji]; exact hslot⟩

end

omit [DecidableEq κ] in
theorem slotsDistinct_clear (h : SlotsDistinct n t) (i : Nat) :
    SlotsDistinct n (update t i none) := by
  intro a ha b hb k' u w hu hw
  have hai : a ≠ i := by
    rintro rfl
    rw [update_self] at hu
    cases hu
  have hbi : b ≠ i := by
    rintro rfl
    rw [update_self] at hw
    cases hw
  rw [update_of_ne hai] at hu
  rw [update_of_ne hbi] at hw
  exact h a ha b hb k' u w hu hw

theorem slotFind_clear (h : SlotsDistinct n t) (hi : i < n) (hslot : t i = some (k, v)) :
    slotFind n (update t i none) = update (slotFind n t) k none := by
  funext k'
  apply Option.ext
  intro w
  rw [slotFind_eq_some_iff (slotsDistinct_clear h i)]
  by_cases hk' : k' = k
  · subst hk'
    rw [update_self]
    constructor
    · rintro ⟨j, hj, hj'⟩
      by_cases hji : j = i
      · rw [hji, update_self] at hj'
        cases hj'
      · rw [update_of_ne hji] at hj'
        exact absurd (h j hj i hi k' w v hj' hslot) hji
    · intro hw
      cases hw
  rw [update_of_ne hk', slotFind_eq_some_iff h]
  constructor
  · rintro ⟨j, hj, hj'⟩
    have hji : j ≠ i := by
      rintro rfl
      rw [update_self] at hj'
      cases hj'
    rw [update_of_ne hji] at hj'
    exact ⟨j, hj, hj'⟩
  rintro ⟨j, hj, hj'⟩
  have hji : j ≠ i := by
    rintro rfl
    rw [hslot] at hj'
    cases hj'
    exact hk' rfl
  exact ⟨j, hj, by rw [update_of_ne hji]; exact hj'⟩

end SlotMap

end Xv6.Lib
