import Mathlib.Tactic

/-!
# Lists linked by pointers

A function `next` gives the pointer of each node.  A list is linked when each of
its nodes points to the one after it; a ring is a linked list `b :: xs ++ [b]`.
A search follows the pointers until a test accepts; in a ring with exactly one node
that the test accepts it finds that node, wherever it starts.
-/

namespace Xv6.Lib

open List

variable {α : Type u} {next : α → α} {stop : α → Bool}

universe u

/-- Each node points to the one after it. -/
def Linked (next : α → α) (xs : List α) : Prop :=
  xs.IsChain fun x y => next x = y

theorem linked_cons_cons {x y : α} {xs : List α} :
    Linked next (x :: y :: xs) ↔ next x = y ∧ Linked next (y :: xs) :=
  isChain_cons_cons

theorem linked_split {us ws : List α} {y w : α} :
    Linked next (us ++ y :: w :: ws) ↔
      Linked next (us ++ [y]) ∧ next y = w ∧ Linked next (w :: ws) :=
  isChain_append_cons_cons

theorem Linked.congr {next' : α → α} {xs : List α} {z : α} (h : Linked next (xs ++ [z]))
    (heq : ∀ x ∈ xs, next' x = next x) : Linked next' (xs ++ [z]) := by
  induction xs with
  | nil => exact isChain_singleton z
  | cons x xs ih =>
    have htail : Linked next' (xs ++ [z]) := by
      refine ih ?_ fun y hy => heq y (mem_cons_of_mem x hy)
      exact List.IsChain.tail h
    have hx := heq x mem_cons_self
    cases xs with
    | nil =>
      have hz : next x = z := (linked_cons_cons.mp h).1
      exact linked_cons_cons.mpr ⟨hx.trans hz, htail⟩
    | cons y xs =>
      have hy : next x = y := (linked_cons_cons.mp h).1
      exact linked_cons_cons.mpr ⟨hx.trans hy, htail⟩

theorem Linked.next_cases {b : α} {xs : List α} (h : Linked next (b :: xs ++ [b])) {v : α}
    (hv : v ∈ b :: xs) :
    (∃ us ws, b :: xs = us ++ v :: next v :: ws) ∨ (next v = b ∧ ∃ us, b :: xs = us ++ [v]) := by
  obtain ⟨us, ws, hsplit⟩ := append_of_mem hv
  rw [hsplit] at h
  cases ws with
  | nil =>
    rw [append_assoc] at h
    exact .inr ⟨(linked_split.mp h).2.1, us, hsplit⟩
  | cons w ws =>
    rw [append_assoc] at h
    have hw : next v = w := (linked_split.mp h).2.1
    exact .inl ⟨us, ws, by rw [hw, hsplit]⟩

theorem Linked.next_mem {b : α} {xs : List α} (h : Linked next (b :: xs ++ [b])) {v : α}
    (hv : v ∈ b :: xs) : next v ∈ b :: xs := by
  rcases h.next_cases hv with ⟨us, ws, hsplit⟩ | ⟨hb, _⟩
  · rw [hsplit]
    simp
  · rw [hb]
    exact mem_cons_self

theorem Linked.rotate {b f : α} {xs us vs : List α} (h : Linked next (b :: xs ++ [b]))
    (hsplit : b :: xs = us ++ f :: vs) : Linked next (f :: (vs ++ us) ++ [f]) := by
  cases us with
  | nil =>
    obtain ⟨rfl, rfl⟩ := cons_eq_cons.mp hsplit
    rw [append_nil]
    exact h
  | cons u us =>
    obtain ⟨rfl, _⟩ := cons_eq_cons.mp hsplit
    rw [hsplit, append_assoc] at h
    have hback : Linked next ((f :: vs) ++ [b]) := List.IsChain.right_of_append h
    have hfront : Linked next ([b] ++ (us ++ [f])) := by
      have hall : b :: us ++ (f :: vs ++ [b]) = (b :: us ++ [f]) ++ (vs ++ [b]) := by simp
      rw [hall] at h
      exact List.IsChain.left_of_append h
    have hwhole := List.IsChain.append_overlap hback hfront (cons_ne_nil b [])
    have heq : f :: (vs ++ b :: us) ++ [f] = f :: vs ++ [b] ++ (us ++ [f]) := by simp
    rw [heq]
    exact hwhole

/-- Follow the pointers to the first node that the test accepts. -/
def seek (next : α → α) (stop : α → Bool) : Nat → α → Option α
  | 0, _ => none
  | fuel + 1, x => if stop x = true then some x else seek next stop fuel (next x)

theorem seek_linked {x w : α} {xs : List α} {fuel : Nat} (h : Linked next (x :: xs))
    (hw : w ∈ x :: xs) (hstop : stop w = true) (huniq : ∀ v ∈ x :: xs, stop v = true → v = w)
    (hfuel : xs.length < fuel) : seek next stop fuel x = some w := by
  induction xs generalizing x fuel with
  | nil =>
    obtain ⟨k, rfl⟩ := Nat.exists_eq_add_of_lt hfuel
    obtain rfl := mem_singleton.mp hw
    simp [seek, hstop]
  | cons y xs ih =>
    cases fuel with
    | zero => cases hfuel
    | succ fuel =>
      obtain ⟨hnext, htail⟩ := linked_cons_cons.mp h
      simp only [seek]
      by_cases hx : stop x = true
      · rw [if_pos hx, huniq x mem_cons_self hx]
      · have hne : w ≠ x := by
          rintro rfl
          exact hx hstop
        rw [if_neg hx, hnext]
        exact ih htail (mem_of_ne_of_mem hne hw)
          (fun v hv => huniq v (mem_cons_of_mem x hv)) (Nat.lt_of_succ_lt_succ hfuel)

theorem seek_skip {x z : α} {xs : List α} {fuel : Nat} (h : Linked next (x :: xs ++ [z]))
    (hnone : ∀ v ∈ x :: xs, stop v ≠ true) :
    seek next stop (fuel + xs.length + 1) x = seek next stop fuel z := by
  have hx := hnone x mem_cons_self
  induction xs generalizing x with
  | nil =>
    have hnext : next x = z := (linked_cons_cons.mp h).1
    simp [seek, hx, hnext]
  | cons y xs ih =>
    obtain ⟨hnext, htail⟩ := linked_cons_cons.mp h
    have hy : ∀ v ∈ y :: xs, stop v ≠ true := fun v hv => hnone v (mem_cons_of_mem x hv)
    rw [seek, if_neg hx, hnext]
    exact ih htail hy (hy y mem_cons_self)

/-- In a ring with one node that the test accepts, the search finds it from everywhere. -/
theorem seek_ring {b q w : α} {xs : List α} {fuel : Nat} (h : Linked next (b :: xs ++ [b]))
    (hq : q ∈ b :: xs) (hw : w ∈ b :: xs) (hstop : stop w = true)
    (huniq : ∀ v ∈ b :: xs, stop v = true → v = w) (hfuel : 2 * xs.length + 2 ≤ fuel) :
    seek next stop fuel q = some w := by
  obtain ⟨us, vs, hsplit⟩ := append_of_mem hq
  have hlen := congrArg List.length hsplit
  simp only [length_cons, length_append] at hlen
  have hqv : Linked next (q :: vs ++ [b]) := by
    rw [hsplit, append_assoc] at h
    exact List.IsChain.right_of_append h
  by_cases hmem : w ∈ q :: vs
  · refine seek_linked (List.IsChain.left_of_append hqv) hmem hstop ?_ (by omega)
    intro v hv
    exact huniq v (by rw [hsplit]; exact mem_append_right us hv)
  -- The node comes before the start: the search goes round through `b`.
  have hnone : ∀ v ∈ q :: vs, stop v ≠ true := by
    intro v hv hv'
    have heq := huniq v (by rw [hsplit]; exact mem_append_right us hv) hv'
    exact hmem (heq ▸ hv)
  obtain ⟨k, rfl⟩ := Nat.exists_eq_add_of_le (show vs.length + 1 ≤ fuel by omega)
  have hcomm : vs.length + 1 + k = k + vs.length + 1 := by omega
  rw [hcomm, seek_skip hqv hnone]
  exact seek_linked (List.IsChain.left_of_append h) hw hstop huniq (by omega)

end Xv6.Lib
