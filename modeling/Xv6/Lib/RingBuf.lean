import Mathlib.Tactic

/-!
# Ring buffers with wrapping counters

A buffer of `C` cells with two counters that count modulo `M`: how many elements
have been taken out and how many have been put in.  The cell of an element is the
counter modulo `C`.  When `C` divides `M` and is smaller, the buffer is a queue of
at most `C` elements whatever the counters are.
-/

namespace Xv6.Lib

open List

structure RingBuf (α : Type) where
  data : Nat → α
  nread : Nat
  nwrite : Nat

namespace RingBuf

variable {α : Type}

section Defs

variable (C M : Nat) (r : RingBuf α)

def Full : Prop :=
  r.nwrite = (r.nread + C) % M

def Empty : Prop :=
  r.nread = r.nwrite

instance : Decidable (r.Full C M) :=
  inferInstanceAs (Decidable (_ = _))

instance : Decidable r.Empty :=
  inferInstanceAs (Decidable (_ = _))

def put (x : α) : RingBuf α :=
  { r with
    data := Function.update r.data (r.nwrite % C) x
    nwrite := (r.nwrite + 1) % M }

/-- The element that is taken out next. -/
def front : α :=
  r.data (r.nread % C)

def drop : RingBuf α :=
  { r with nread := (r.nread + 1) % M }

/-- Put elements in until there is no room: the buffer, and what is left over. -/
def putAll : RingBuf α → List α → RingBuf α × List α
  | r, [] => (r, [])
  | r, x :: xs => if r.Full C M then (r, x :: xs) else putAll (r.put C M x) xs

/-- Take out at most `n` elements. -/
def takeMax : Nat → RingBuf α → List α × RingBuf α
  | 0, r => ([], r)
  | n + 1, r =>
    if r.Empty then ([], r)
    else
      let rest := takeMax n (r.drop M)
      (r.front C :: rest.1, rest.2)

/-- The buffer holds the elements `xs`, the next one first. -/
structure Holds (xs : List α) : Prop where
  length : xs.length ≤ C
  nread : r.nread < M
  nwrite : r.nwrite = (r.nread + xs.length) % M
  cell : ∀ i (hi : i < xs.length), r.data ((r.nread + i) % C) = xs[i]

end Defs

section Queue

variable {C M : Nat} {r : RingBuf α} {xs : List α} {x : α}

theorem offset_inj {a i j : Nat} (hi : i < M) (hj : j < M) (h : (a + i) % M = (a + j) % M) :
    i = j := by
  have hmod : i ≡ j [MOD M] := Nat.ModEq.add_left_cancel' a h
  exact Nat.ModEq.eq_of_lt_of_lt hmod hi hj

section
variable (h : r.Holds C M xs) (hCM : C < M)
include h hCM

theorem Holds.full_iff : r.Full C M ↔ xs.length = C := by
  have hlen := h.length
  unfold Full
  rw [h.nwrite]
  constructor
  · intro heq
    exact offset_inj (by omega) hCM heq
  · intro heq
    rw [heq]

theorem Holds.empty_iff : r.Empty ↔ xs = [] := by
  have hlen := h.length
  have hread : (r.nread + 0) % M = r.nread := Nat.mod_eq_of_lt h.nread
  unfold Empty
  rw [h.nwrite]
  constructor
  · intro heq
    have h0 : 0 = xs.length := offset_inj (by omega) (by omega) (hread.trans heq)
    exact length_eq_zero_iff.mp h0.symm
  · rintro rfl
    exact hread.symm

theorem Holds.count : (r.nwrite + M - r.nread) % M = xs.length := by
  have hlen := h.length
  have hread := h.nread
  rw [h.nwrite]
  rcases Nat.lt_or_ge (r.nread + xs.length) M with hlt | hge
  · have hsum : (r.nread + xs.length) % M + M - r.nread = xs.length + M := by
      rw [Nat.mod_eq_of_lt hlt]
      omega
    rw [hsum, Nat.add_mod_right, Nat.mod_eq_of_lt (by omega)]
  · have hsum : (r.nread + xs.length) % M = r.nread + xs.length - M := by
      rw [Nat.mod_eq_sub_mod hge, Nat.mod_eq_of_lt (by omega)]
    have hdiff : r.nread + xs.length - M + M - r.nread = xs.length := by omega
    rw [hsum, hdiff, Nat.mod_eq_of_lt (by omega)]

end

theorem Holds.put (h : r.Holds C M xs) (hdvd : C ∣ M) (hlen : xs.length < C) (x : α) :
    (r.put C M x).Holds C M (xs ++ [x]) where
  length := by
    rw [length_append]
    exact hlen
  nread := h.nread
  nwrite := by
    change (r.nwrite + 1) % M = (r.nread + (xs ++ [x]).length) % M
    rw [h.nwrite, length_append, Nat.mod_add_mod, Nat.add_assoc]
    rfl
  cell := by
    intro i hi
    have hcell : r.nwrite % C = (r.nread + xs.length) % C := by
      rw [h.nwrite, Nat.mod_mod_of_dvd _ hdvd]
    change Function.update r.data (r.nwrite % C) x ((r.nread + i) % C) = _
    rw [hcell]
    rw [length_append, length_singleton] at hi
    by_cases hlast : i = xs.length
    · subst hlast
      rw [Function.update_self]
      simp
    · have hlt : i < xs.length := by omega
      have hne : (r.nread + i) % C ≠ (r.nread + xs.length) % C := by
        intro heq
        exact hlast (offset_inj (by omega) hlen heq)
      rw [Function.update_of_ne hne, getElem_append_left hlt]
      exact h.cell i hlt

theorem Holds.drop (h : r.Holds C M (x :: xs)) (hdvd : C ∣ M) :
    r.front C = x ∧ (r.drop M).Holds C M xs := by
  have hlen := h.length
  rw [length_cons] at hlen
  refine ⟨h.cell 0 (by simp), ?_, ?_, ?_, ?_⟩
  · omega
  · exact Nat.mod_lt _ (Nat.lt_of_le_of_lt (Nat.zero_le _) h.nread)
  · change r.nwrite = ((r.nread + 1) % M + xs.length) % M
    rw [h.nwrite, Nat.mod_add_mod, length_cons]
    congr 1
    omega
  intro i hi
  change r.data (((r.nread + 1) % M + i) % C) = xs[i]
  have hindex : ((r.nread + 1) % M + i) % C = (r.nread + (i + 1)) % C := by
    rw [Nat.add_mod, Nat.mod_mod_of_dvd _ hdvd, ← Nat.add_mod]
    congr 1
    omega
  rw [hindex]
  exact h.cell (i + 1) (by simpa using hi)

/-- What has been put in is a first part; if something is left over the buffer is full. -/
theorem Holds.putAll (h : r.Holds C M xs) (hdvd : C ∣ M) (hCM : C < M) (ys : List α) :
    ∃ zs, ys = zs ++ (r.putAll C M ys).2 ∧ (r.putAll C M ys).1.Holds C M (xs ++ zs) ∧
      ((r.putAll C M ys).2 ≠ [] → (r.putAll C M ys).1.Full C M) := by
  induction ys generalizing r xs with
  | nil =>
    refine ⟨[], rfl, ?_, ?_⟩
    · rw [append_nil]
      exact h
    · intro hne
      exact absurd rfl hne
  | cons y ys ih =>
    unfold RingBuf.putAll
    by_cases hfull : r.Full C M
    · rw [if_pos hfull]
      refine ⟨[], rfl, ?_, fun _ => hfull⟩
      rw [append_nil]
      exact h
    rw [if_neg hfull]
    have hlt : xs.length < C := by
      have hne : xs.length ≠ C := fun heq => hfull ((h.full_iff hCM).mpr heq)
      have hle := h.length
      omega
    obtain ⟨zs, hzs, hholds, hrest⟩ := ih (h.put hdvd hlt y)
    refine ⟨y :: zs, ?_, ?_, hrest⟩
    · rw [cons_append, ← hzs]
    · rw [append_cons]
      exact hholds

/-- What is taken out is a first part, of `n` elements unless the buffer is empty then. -/
theorem Holds.takeMax (h : r.Holds C M xs) (hdvd : C ∣ M) (hCM : C < M) (n : Nat) :
    (r.takeMax C M n).1 = xs.take n ∧ (r.takeMax C M n).2.Holds C M (xs.drop n) := by
  induction n generalizing r xs with
  | zero => exact ⟨rfl, h⟩
  | succ n ih =>
    unfold RingBuf.takeMax
    by_cases hempty : r.Empty
    · have hnil := (h.empty_iff hCM).mp hempty
      subst hnil
      rw [if_pos hempty]
      exact ⟨rfl, h⟩
    rw [if_neg hempty]
    cases xs with
    | nil => exact absurd ((h.empty_iff hCM).mpr rfl) hempty
    | cons x xs =>
      obtain ⟨hfront, hdrop⟩ := h.drop hdvd
      obtain ⟨htake, hrest⟩ := ih hdrop
      refine ⟨?_, hrest⟩
      simp only
      rw [hfront, htake, take_succ_cons]

end Queue

end RingBuf

end Xv6.Lib
