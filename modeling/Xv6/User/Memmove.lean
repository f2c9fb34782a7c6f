import Mathlib.Tactic

/-!
# The two versions of `memmove`

`memmove` of the kernel (string.c) copies downwards when the end of the source
overlaps the destination.  The one of the user library (ulib.c) always copies
upwards: it then reads bytes that it has written before, and repeats the first
`dst - src` bytes of the source.
-/

namespace Xv6.User

open Function

variable {m : Memory} {dst src n : Nat}

abbrev Memory := Nat → UInt8

/-- `while(n-- > 0) *d++ = *s++;` -/
def copyUp : Nat → Nat → Nat → Memory → Memory
  | 0, _, _, m => m
  | n + 1, d, s, m => copyUp n ((d + 1) % 2 ^ 32) ((s + 1) % 2 ^ 32) (update m d (m s))

/-- `while(n-- > 0) *--d = *--s;` -/
def copyDown : Nat → Nat → Nat → Memory → Memory
  | 0, _, _, m => m
  | n + 1, d, s, m =>
    let d := (d + 2 ^ 32 - 1) % 2 ^ 32
    let s := (s + 2 ^ 32 - 1) % 2 ^ 32
    copyDown n d s (update m d (m s))

/-- `memmove` of the kernel; `n` is unsigned. -/
def kernelMemmove (dst src n : Nat) (m : Memory) : Nat × Memory :=
  if src < dst ∧ (src + n) % 2 ^ 32 > dst then
    (dst, copyDown n ((dst + n) % 2 ^ 32) ((src + n) % 2 ^ 32) m)
  else (dst, copyUp n dst src m)

/-- `memmove` of the user library; `n` is signed. -/
def ulibMemmove (vdst vsrc : Nat) (n : Int) (m : Memory) : Nat × Memory :=
  (vdst, copyUp n.toNat vdst vsrc m)

/-- The bytes from `dst` on are those that `val` gives for the offsets below `n`. -/
def filled (m : Memory) (dst n : Nat) (val : Nat → UInt8) : Memory :=
  fun a => if dst ≤ a ∧ a < dst + n then val (a - dst) else m a

/-- What `memmove` is for. -/
def moved (m : Memory) (dst src n : Nat) : Memory :=
  filled m dst n fun i => m (src + i)

theorem filled_zero (m : Memory) (dst : Nat) (val : Nat → UInt8) : filled m dst 0 val = m := by
  funext a
  exact if_neg (by omega)

theorem filled_succ (m : Memory) (dst n : Nat) (val : Nat → UInt8) :
    filled m dst (n + 1) val = filled (update m dst (val 0)) (dst + 1) n fun i => val (i + 1) := by
  funext a
  unfold filled
  by_cases hfirst : a = dst
  · subst hfirst
    rw [if_pos (by omega), if_neg (by omega), update_self, Nat.sub_self]
  · rw [update_of_ne hfirst]
    by_cases hin : dst ≤ a ∧ a < dst + (n + 1)
    · rw [if_pos hin, if_pos (by omega)]
      exact congrArg val (by omega)
    · rw [if_neg hin, if_neg (by omega)]

theorem filled_inj {val val' : Nat → UInt8} :
    filled m dst n val = filled m dst n val' ↔ ∀ i < n, val i = val' i := by
  constructor
  · intro h i hi
    have hat := congrFun h (dst + i)
    unfold filled at hat
    rw [if_pos (by omega), if_pos (by omega), Nat.add_sub_cancel_left] at hat
    exact hat
  intro h
  funext a
  unfold filled
  by_cases hin : dst ≤ a ∧ a < dst + n
  · rw [if_pos hin, if_pos hin]
    exact h _ (by omega)
  · rw [if_neg hin, if_neg hin]

theorem copyUp_eq (hdst : dst + n ≤ 2 ^ 32) (hsrc : src + n ≤ 2 ^ 32) :
    copyUp n dst src m =
      filled m dst n fun i => m (src + if src < dst then i % (dst - src) else i) := by
  induction n generalizing m dst src with
  | zero => rw [filled_zero, copyUp]
  | succ n ih =>
    have hval : update m dst (m src) =
        update m dst (m (src + if src < dst then 0 % (dst - src) else 0)) := by
      rw [Nat.zero_mod, ite_self, Nat.add_zero]
    rw [copyUp, filled_succ, ← hval]
    cases n with
    | zero => rw [filled_zero, copyUp]
    | succ n =>
      rw [Nat.mod_eq_of_lt (by omega), Nat.mod_eq_of_lt (by omega), ih (by omega) (by omega)]
      refine filled_inj.mpr ?_
      intro i hi
      by_cases hlt : src < dst
      · -- offset `dst - src - 1` is the byte that has just been written
        simp only [hlt, if_true, show src + 1 < dst + 1 by omega,
          show dst + 1 - (src + 1) = dst - src by omega]
        have hmod := Nat.mod_lt i (show 0 < dst - src by omega)
        by_cases hwrap : i % (dst - src) + 1 = dst - src
        · have hnext : (i + 1) % (dst - src) = 0 := by
            rw [← Nat.mod_add_mod, hwrap, Nat.mod_self]
          rw [hnext, show src + 1 + i % (dst - src) = dst by omega, update_self, Nat.add_zero]
        · have hnext : (i + 1) % (dst - src) = i % (dst - src) + 1 := by
            rw [← Nat.mod_add_mod]
            exact Nat.mod_eq_of_lt (by omega)
          rw [hnext, update_of_ne (by omega),
            show src + 1 + i % (dst - src) = src + (i % (dst - src) + 1) by omega]
      · simp only [hlt, if_false, show ¬src + 1 < dst + 1 by omega]
        rw [update_of_ne (by omega), show src + 1 + i = src + (i + 1) by omega]

theorem copyDown_eq (hlt : src < dst) (hdst : dst + n ≤ 2 ^ 32) :
    copyDown n ((dst + n) % 2 ^ 32) ((src + n) % 2 ^ 32) m = moved m dst src n := by
  induction n generalizing m with
  | zero => exact (filled_zero m dst _).symm
  | succ n ih =>
    have hd : ((dst + (n + 1)) % 2 ^ 32 + 2 ^ 32 - 1) % 2 ^ 32 = dst + n := by omega
    have hs : ((src + (n + 1)) % 2 ^ 32 + 2 ^ 32 - 1) % 2 ^ 32 = src + n := by omega
    have hrest := ih (m := update m (dst + n) (m (src + n))) (by omega)
    rw [Nat.mod_eq_of_lt (by omega), Nat.mod_eq_of_lt (by omega)] at hrest
    simp only [copyDown, hd, hs, hrest]
    funext a
    unfold moved filled
    by_cases hlast : a = dst + n
    · subst hlast
      rw [if_neg (by omega), if_pos (by omega), update_self, Nat.add_sub_cancel_left]
    · by_cases hin : dst ≤ a ∧ a < dst + n
      · rw [if_pos hin, if_pos (by omega)]
        exact update_of_ne (by omega) _ _
      · rw [if_neg hin, if_neg (by omega), update_of_ne hlast]

theorem kernelMemmove_eq (hdst : dst + n ≤ 2 ^ 32) (hsrc : src + n ≤ 2 ^ 32) :
    kernelMemmove dst src n m = (dst, moved m dst src n) := by
  unfold kernelMemmove
  by_cases hover : src < dst ∧ (src + n) % 2 ^ 32 > dst
  · rw [if_pos hover, copyDown_eq hover.1 hdst]
  rw [if_neg hover, copyUp_eq hdst hsrc]
  refine congrArg (Prod.mk dst) (filled_inj.mpr ?_)
  intro i hi
  by_cases hlt : src < dst
  · -- the end of the source does not wrap, since that of the destination is above it
    rw [if_pos hlt, Nat.mod_eq_of_lt (by omega)]
  · rw [if_neg hlt]

/-- `memmove` of the kernel is right, and that of the user library gives the same memory if and only
if the bytes before the destination repeat. -/
theorem memmove_agree_iff (m : Memory) (dst src : Nat) (n : Int) (hn : 0 ≤ n)
    (hdst : dst + n ≤ 2 ^ 32) (hsrc : src + n ≤ 2 ^ 32) :
    kernelMemmove dst src n.toNat m = (dst, moved m dst src n.toNat) ∧
      (ulibMemmove dst src n m = (dst, moved m dst src n.toNat) ↔
        (src < dst → ∀ i < n.toNat, m (src + i % (dst - src)) = m (src + i))) := by
  refine ⟨kernelMemmove_eq (by omega) (by omega), ?_⟩
  unfold ulibMemmove moved
  rw [copyUp_eq (by omega) (by omega), Prod.mk.injEq, filled_inj]
  constructor
  · rintro ⟨_, h⟩ hlt i hi
    have hi' := h i hi
    rwa [if_pos hlt] at hi'
  · intro h
    refine ⟨rfl, fun i hi => ?_⟩
    by_cases hlt : src < dst
    · rw [if_pos hlt]
      exact h hlt i hi
    · rw [if_neg hlt]

/-- Two bytes moved down by one. -/
theorem memmove_agree_down :
    ulibMemmove 0 1 2 (fun a => if a = 0 then 7 else 8) =
      (0, moved (fun a => if a = 0 then 7 else 8) 0 1 2) :=
  (memmove_agree_iff (fun a => if a = 0 then 7 else 8) 0 1 2 (by decide) (by decide)
    (by decide)).2.mpr (fun h => absurd h (by decide))

/-- Two bytes moved up by one: the user library repeats the first one. -/
theorem ulib_memmove_repeats :
    (kernelMemmove 1 0 2 fun a => if a = 0 then 7 else 8).2 2 = 8 ∧
      (ulibMemmove 1 0 2 fun a => if a = 0 then 7 else 8).2 2 = 7 := by
  decide

end Xv6.User
