import Xv6.Lib.LinkedRing

/-!
# Doubly linked rings

A ring of nodes through a head, linked forwards by `next` and backwards by `prev`.
Taking a node out and putting a node behind the head keep it a ring, with the list of
its nodes changed accordingly.  A walk from the head in either direction meets the
nodes in the order of the list and comes back to the head.
-/

namespace Xv6.Lib

open Function List

universe u

section Chains

variable {α : Type u} {next next' : α → α} {pre post : List α} {y b w : α}

theorem Linked.congr_dropLast {xs : List α} (h : Linked next xs)
    (heq : ∀ x ∈ xs.dropLast, next' x = next x) : Linked next' xs := by
  cases eq_nil_or_concat xs with
  | inl hnil =>
    rw [hnil]
    exact isChain_nil
  | inr hsplit =>
    obtain ⟨ys, z, rfl⟩ := hsplit
    rw [concat_eq_append] at h heq ⊢
    rw [dropLast_concat] at heq
    exact h.congr heq

variable [DecidableEq α]

theorem Linked.remove (h : Linked next (pre ++ y :: b :: w :: post)) (hpre : y ∉ pre)
    (hpost : y ∉ (w :: post).dropLast) : Linked (update next y w) (pre ++ y :: w :: post) := by
  obtain ⟨hfront, _, hrest⟩ := linked_split.mp h
  obtain ⟨_, hback⟩ := linked_cons_cons.mp hrest
  refine linked_split.mpr ⟨hfront.congr ?_, update_self .., hback.congr_dropLast ?_⟩
  · intro x hx
    exact update_of_ne (ne_of_mem_of_not_mem hx hpre) _ _
  · intro x hx
    exact update_of_ne (ne_of_mem_of_not_mem hx hpost) _ _

theorem Linked.insert (h : Linked next (pre ++ y :: w :: post)) (hpre : y ∉ pre)
    (hpost : y ∉ (w :: post).dropLast) (hbpre : b ∉ pre) (hbpost : b ∉ (w :: post).dropLast)
    (hby : b ≠ y) : Linked (update (update next b w) y b) (pre ++ y :: b :: w :: post) := by
  obtain ⟨hfront, _, hback⟩ := linked_split.mp h
  have hsame : ∀ x, x ≠ y → x ≠ b →
      update (update next b w) y b x = next x := by
    intro x hy hb
    rw [update_of_ne hy, update_of_ne hb]
  refine linked_split.mpr ⟨hfront.congr ?_, update_self .., linked_cons_cons.mpr ⟨?_, ?_⟩⟩
  · intro x hx
    exact hsame x (ne_of_mem_of_not_mem hx hpre) (ne_of_mem_of_not_mem hx hbpre)
  · rw [update_of_ne hby, update_self]
  · refine hback.congr_dropLast ?_
    intro x hx
    exact hsame x (ne_of_mem_of_not_mem hx hpost) (ne_of_mem_of_not_mem hx hbpost)

end Chains

/-- The two pointers of every node. -/
structure Links (α : Type u) where
  next : α → α
  prev : α → α

namespace Links

variable {α : Type u} [DecidableEq α]

/-- Take a node out. -/
def unlink (l : Links α) (b : α) : Links α :=
  let prev := update l.prev (l.next b) (l.prev b)
  { next := update l.next (prev b) (l.next b), prev := prev }

/-- Put a node behind the head. -/
def push (l : Links α) (head b : α) : Links α :=
  let next := update l.next b (l.next head)
  let prev := update l.prev b head
  { next := update next head b, prev := update prev (next head) b }

end Links

/-- A ring through `head` and then the nodes `xs`. -/
structure DoubleRing {α : Type u} (l : Links α) (head : α) (xs : List α) : Prop where
  forward : Linked l.next (head :: xs ++ [head])
  backward : Linked l.prev (head :: xs ++ [head]).reverse
  nodup : (head :: xs).Nodup

section Rings

variable {α : Type u} {l : Links α} {head b : α} {xs : List α}

theorem DoubleRing.symm (h : DoubleRing l head xs) :
    DoubleRing ⟨l.prev, l.next⟩ head xs.reverse := by
  refine ⟨?_, ?_, ?_⟩
  · have hback := h.backward
    rw [reverse_append, reverse_cons] at hback
    simpa using hback
  · have hforward := h.forward
    simpa using hforward
  · have hnodup := h.nodup
    simpa using hnodup

/-- The last node of a list that starts with the head, and the first of one that ends there. -/
theorem exists_neighbours (head : α) (us vs : List α) :
    ∃ pre y w post, head :: us = pre ++ [y] ∧ vs ++ [head] = w :: post := by
  obtain ⟨pre, y, hpre⟩ : ∃ pre y, head :: us = pre ++ [y] :=
    ⟨_, _, (dropLast_append_getLast (cons_ne_nil head us)).symm⟩
  cases vs with
  | nil => exact ⟨pre, y, head, [], hpre, rfl⟩
  | cons v vs => exact ⟨pre, y, v, vs ++ [head], hpre, rfl⟩

variable [DecidableEq α]

theorem DoubleRing.unlink {us vs : List α} (h : DoubleRing l head (us ++ b :: vs)) :
    DoubleRing (l.unlink b) head (us ++ vs) := by
  obtain ⟨pre, y, w, post, hpre, hpost⟩ := exists_neighbours head us vs
  have hwhole : head :: (us ++ b :: vs) ++ [head] = pre ++ y :: b :: w :: post := by
    rw [← cons_append, hpre]
    simp only [append_assoc, cons_append, nil_append, hpost]
  have hwhole' : head :: (us ++ vs) ++ [head] = pre ++ y :: w :: post := by
    rw [← cons_append, hpre]
    simp only [append_assoc, cons_append, nil_append, hpost]
  have hforward := h.forward
  have hbackward := h.backward
  rw [hwhole] at hforward hbackward
  simp only [reverse_append, reverse_cons, append_assoc, cons_append, nil_append] at hbackward
  -- the neighbours are found through the pointers of `b`
  have hnext : l.next b = w := by
    obtain ⟨_, _, hrest⟩ := linked_split.mp hforward
    exact (linked_cons_cons.mp hrest).1
  have hprev : l.prev b = y := by
    obtain ⟨_, _, hrest⟩ := linked_split.mp hbackward
    exact (linked_cons_cons.mp hrest).1
  have hnodup := h.nodup
  have hsources : (pre ++ y :: b :: vs).Nodup := by
    rw [← cons_append, hpre, append_assoc] at hnodup
    exact hnodup
  have htargets : (us ++ b :: w :: post).Nodup := by
    have hperm : (us ++ b :: w :: post).Perm (head :: (us ++ b :: vs)) := by
      rw [← hpost, ← cons_append, ← append_assoc]
      exact perm_append_singleton head _
    exact hperm.nodup_iff.mpr hnodup
  have hvs : (w :: post).dropLast = vs := by rw [← hpost, dropLast_concat]
  have hus : (y :: pre.reverse).dropLast = us.reverse := by
    have hrev : y :: pre.reverse = us.reverse ++ [head] := by
      rw [← reverse_cons, hpre, reverse_append]
      rfl
    rw [hrev, dropLast_concat]
  simp only [nodup_append, nodup_cons, mem_cons, not_or] at hsources htargets
  obtain ⟨_, ⟨⟨hyb, hyvs⟩, _⟩, hdisj⟩ := hsources
  obtain ⟨_, ⟨⟨hbw, _⟩, hwpost, _⟩, hdisj'⟩ := htargets
  have hypre : y ∉ pre := fun hy => hdisj y hy y (.inl rfl) rfl
  have hwus : w ∉ us := fun hw => hdisj' w hw w (.inr (.inl rfl)) rfl
  have hlinks : l.unlink b = ⟨update l.next y w, update l.prev w y⟩ := by
    unfold Links.unlink
    simp only [hnext, hprev, update_of_ne hbw]
  rw [hlinks]
  constructor
  · rw [hwhole']
    exact hforward.remove hypre (by rw [hvs]; exact hyvs)
  · rw [hwhole']
    simp only [reverse_append, reverse_cons, append_assoc, cons_append, nil_append]
    refine hbackward.remove (by simpa using hwpost) ?_
    rw [hus]
    simpa using hwus
  · refine hnodup.sublist (List.Sublist.cons_cons _ ?_)
    exact List.Sublist.append_left (sublist_cons_self b vs) us

theorem DoubleRing.push (h : DoubleRing l head xs) (hb : b ∉ head :: xs) :
    DoubleRing (l.push head b) head (b :: xs) := by
  obtain ⟨_, _, w, post, _, hpost⟩ := exists_neighbours head xs xs
  have hforward := h.forward
  have hbackward := h.backward
  have hnodup := h.nodup
  obtain ⟨hbh, hbxs⟩ := not_or.mp (mem_cons.not.mp hb)
  obtain ⟨hhead, hxs⟩ := nodup_cons.mp hnodup
  have hxs' : (w :: post).dropLast = xs := by rw [← hpost, dropLast_concat]
  have htargets : (w :: post).Nodup := by
    rw [← hpost]
    exact (perm_append_singleton head xs).nodup_iff.mpr hnodup
  rw [cons_append, hpost] at hforward hbackward
  have hnext : l.next head = w := (linked_cons_cons.mp hforward).1
  have hlinks : l.push head b = ⟨update (update l.next b w) head b,
      update (update l.prev b head) w b⟩ := by
    unfold Links.push
    simp only [hnext, update_of_ne (Ne.symm hbh)]
  rw [hlinks]
  constructor
  · rw [cons_append, cons_append, hpost]
    have hsplit : Linked l.next ([] ++ head :: w :: post) := hforward
    exact hsplit.insert not_mem_nil (by rw [hxs']; exact hhead) not_mem_nil
      (by rw [hxs']; exact hbxs) hbh
  · rw [cons_append, cons_append, hpost]
    have hbpost : b ∉ w :: post := by
      rw [← hpost]
      simpa [hbh] using hbxs
    obtain ⟨hbw, hbpost⟩ := not_or.mp (mem_cons.not.mp hbpost)
    have hwpost := (nodup_cons.mp htargets).1
    simp only [reverse_cons, append_assoc, cons_append, nil_append]
      at hbackward ⊢
    exact hbackward.insert (by simpa using hwpost) not_mem_nil (by simpa using hbpost)
      not_mem_nil hbw
  · exact nodup_cons.mpr ⟨by simpa [Ne.symm hbh] using hhead, nodup_cons.mpr ⟨hbxs, hxs⟩⟩

omit [DecidableEq α] in
/-- A walk along linked nodes stops at the first one that the test accepts. -/
theorem seek_eq_find {next : α → α} {stop : α → Bool} {x : α} {fuel : Nat}
    (h : Linked next (x :: xs)) (hstop : ∃ v ∈ x :: xs, stop v = true) (hfuel : xs.length < fuel) :
    seek next stop fuel x = (x :: xs).find? stop := by
  induction xs generalizing x fuel with
  | nil =>
    obtain ⟨k, rfl⟩ := Nat.exists_eq_add_of_lt hfuel
    obtain ⟨v, hv, hv'⟩ := hstop
    obtain rfl := mem_singleton.mp hv
    simp [seek, hv']
  | cons y xs ih =>
    cases fuel with
    | zero => cases hfuel
    | succ fuel =>
      obtain ⟨hnext, htail⟩ := linked_cons_cons.mp h
      cases hx : stop x with
      | true => simp [seek, hx]
      | false =>
        obtain ⟨v, hv, hv'⟩ := hstop
        have hvx : v ≠ x := by
          rintro rfl
          rw [hx] at hv'
          cases hv'
        rw [seek, hx, if_neg (by decide), hnext, List.find?_cons_of_neg (by simp [hx])]
        exact ih htail ⟨v, mem_of_ne_of_mem hvx hv, hv'⟩ (Nat.lt_of_succ_lt_succ hfuel)

omit [DecidableEq α] in
/-- A walk from the head meets the nodes in order, and then the head. -/
theorem DoubleRing.seek_next {stop : α → Bool} {fuel : Nat} (h : DoubleRing l head xs)
    (hstop : stop head = true) (hfuel : xs.length < fuel) :
    seek l.next stop fuel (l.next head) = (xs ++ [head]).find? stop := by
  have hforward := h.forward
  have hmem : ∃ v ∈ xs ++ [head], stop v = true := ⟨head, by simp, hstop⟩
  cases xs with
  | nil =>
    have hnext : l.next head = head := (linked_cons_cons.mp hforward).1
    rw [hnext]
    exact seek_eq_find (isChain_singleton head) hmem hfuel
  | cons x xs =>
    obtain ⟨hnext, htail⟩ := linked_cons_cons.mp hforward
    rw [hnext]
    refine seek_eq_find htail hmem ?_
    simpa using hfuel

end Rings

end Xv6.Lib
