import Xv6.Vm.User

/-!
# The bytes of an address space

An address space read byte by byte, where an absent page reads as zeros, and what it
means that only a range of addresses has been written.
-/

namespace Xv6.Vm

open Lib

variable {m m1 m' : Mem} {D a lo hi lo' hi' : Nat} {val val' : Nat → UInt8}

def Mem.byte (m : Mem) (D a : Nat) : UInt8 :=
  getByte (m.content D (a / 4096)) (a % 4096)

/-- The bytes in `[lo, hi)` have been written, the others are as before. -/
def Patched (m m' : Mem) (D lo hi : Nat) (val : Nat → UInt8) : Prop :=
  ∀ a < KERNBASE, m'.byte D a = if lo ≤ a ∧ a < hi then val a else m.byte D a

theorem div_lt_userPages (ha : a < KERNBASE) : a / 4096 < userPages := by
  unfold KERNBASE at ha
  unfold userPages
  omega

theorem byte_congr (h : m'.content D (a / 4096) = m.content D (a / 4096)) :
    m'.byte D a = m.byte D a := by
  unfold Mem.byte
  rw [h]

theorem Same.byte (h : Same m m' D) (ha : a < KERNBASE) : m'.byte D a = m.byte D a :=
  byte_congr (h _ (div_lt_userPages ha)).1

theorem patched_of_same (h : Same m m' D) (hle : hi ≤ lo) : Patched m m' D lo hi val := by
  intro a ha
  rw [if_neg (by omega)]
  exact h.byte ha

theorem Patched.append (h : Patched m m1 D lo hi val) (h' : Patched m1 m' D lo' hi' val)
    {lo0 hi0 : Nat} (hsplit : ∀ a, lo0 ≤ a ∧ a < hi0 ↔ lo ≤ a ∧ a < hi ∨ lo' ≤ a ∧ a < hi') :
    Patched m m' D lo0 hi0 val := by
  intro a ha
  rw [h' a ha, h a ha]
  by_cases h2 : lo' ≤ a ∧ a < hi'
  · rw [if_pos h2, if_pos ((hsplit a).mpr (Or.inr h2))]
  · rw [if_neg h2]
    by_cases h1 : lo ≤ a ∧ a < hi
    · rw [if_pos h1, if_pos ((hsplit a).mpr (Or.inl h1))]
    · rw [if_neg h1, if_neg fun hc => ((hsplit a).mp hc).elim h1 h2]

theorem Patched.congr (h : Patched m m' D lo hi val)
    (hval : ∀ a, lo ≤ a → a < hi → val a = val' a) : Patched m m' D lo hi val' := by
  intro a ha
  rw [h a ha]
  by_cases hin : lo ≤ a ∧ a < hi
  · rw [if_pos hin, if_pos hin, hval a hin.1 hin.2]
  · rw [if_neg hin, if_neg hin]

theorem Patched.of_same (hs : Same m m1 D) (h : Patched m1 m' D lo hi val) :
    Patched m m' D lo hi val := by
  intro a ha
  rw [h a ha, hs.byte ha]

end Xv6.Vm
