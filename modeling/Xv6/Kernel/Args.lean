import Xv6.Kernel.Reach

/-!
# System call arguments

The functions of syscall.c that fetch the arguments of a system call from user memory.  The
memory is any function from addresses to bytes.  Addresses are computed in 32 bits; the word
that `argint` has fetched is any number below `2 ^ 32`.
-/

namespace Xv6.Syscall

open Lib Kernel Vm Ptable

structure Fetched where
  ret : Int
  out : Option Nat
  reads : List Nat

def intBytes (addr : Nat) : List Nat :=
  (List.range 4).map fun i => (addr + i) % 2 ^ 32

/-- `*(int*)(addr)`. -/
def intAt (mem : Nat → UInt8) (addr : Nat) : Nat :=
  (intBytes addr).foldr (fun a w => (mem a).toNat + 256 * w) 0

def fetchint (mem : Nat → UInt8) (sz addr : Nat) : Fetched :=
  if sz ≤ addr ∨ sz < (addr + 4) % 2 ^ 32 then ⟨-1, none, []⟩
  else ⟨0, some (intAt mem addr), intBytes addr⟩

/-- The loop of `fetchstr`, with `n` bytes left before the end of the process. -/
def scan (mem : Nat → UInt8) (addr : Nat) : Nat → Nat → Int × List Nat
  | 0, _ => (-1, [])
  | n + 1, s =>
    if mem s = 0 then (((s : Int) - addr).bmod (2 ^ 32), [s])
    else ((scan mem addr n (s + 1)).1, s :: (scan mem addr n (s + 1)).2)

def fetchstr (mem : Nat → UInt8) (sz addr : Nat) : Fetched :=
  if sz ≤ addr then ⟨-1, none, []⟩
  else ⟨(scan mem addr (sz - addr) addr).1, some addr, (scan mem addr (sz - addr) addr).2⟩

def argint (mem : Nat → UInt8) (sz esp : Nat) (n : Int) : Fetched :=
  fetchint mem sz ((esp + 4 + 4 * n) % 2 ^ 32).toNat

def argptr (mem : Nat → UInt8) (sz esp : Nat) (n size : Int) : Fetched :=
  match argint mem sz esp n with
  | ⟨_, none, reads⟩ => ⟨-1, none, reads⟩
  | ⟨_, some i, reads⟩ =>
    if size < 0 ∨ sz ≤ i ∨ (sz : Int) < (i + size) % 2 ^ 32 then ⟨-1, none, reads⟩
    else ⟨0, some i, reads⟩

def argstr (mem : Nat → UInt8) (sz esp : Nat) (n : Int) : Fetched :=
  match argint mem sz esp n with
  | ⟨_, none, reads⟩ => ⟨-1, none, reads⟩
  | ⟨_, some addr, reads⟩ =>
    let r := fetchstr mem sz addr
    { r with reads := reads ++ r.reads }

variable {mem : Nat → UInt8} {sz addr esp a k s : Nat} {n size : Int}

theorem fetchint_inside (hsz : sz < KERNBASE) (ha : a ∈ (fetchint mem sz addr).reads) : a < sz := by
  unfold KERNBASE at hsz
  unfold fetchint at ha
  split at ha
  · cases ha
  · unfold intBytes at ha
    simp only [List.mem_map, List.mem_range] at ha
    omega

theorem mem_scan {n : Nat} (ha : a ∈ (scan mem addr n s).2) : a < s + n := by
  induction n generalizing s with
  | zero => cases ha
  | succ n ih =>
    unfold scan at ha
    split at ha
    · simp only [List.mem_singleton] at ha
      omega
    · rcases List.mem_cons.mp ha with rfl | ha
      · omega
      · have := ih ha
        omega

theorem scan_eq_iff {n i : Nat} (hn : i + n < KERNBASE) :
    (scan mem addr n (addr + i)).1 = k ↔
      i ≤ k ∧ k < i + n ∧ mem (addr + k) = 0 ∧ ∀ j, i ≤ j → j < k → mem (addr + j) ≠ 0 := by
  induction n generalizing i with
  | zero =>
    simp only [scan]
    omega
  | succ n ih =>
    unfold scan
    by_cases hzero : mem (addr + i) = 0
    · have hret : (((addr + i : Nat) : Int) - addr).bmod (2 ^ 32) = i := by
        unfold KERNBASE at hn
        rw [Int.bmod_eq_of_le] <;> omega
      rw [if_pos hzero, hret]
      constructor
      · intro hk
        obtain rfl : i = k := by omega
        exact ⟨le_rfl, by omega, hzero, fun j hj hlt => absurd hj (by omega)⟩
      · rintro ⟨hle, _, _, hfirst⟩
        by_contra hne
        exact hfirst i le_rfl (by omega) hzero
    rw [if_neg hzero, Nat.add_assoc, ih (by omega)]
    constructor
    · rintro ⟨hle, hlt, hk, hfirst⟩
      refine ⟨by omega, by omega, hk, ?_⟩
      intro j hj hlt
      by_cases hji : j = i
      · rw [hji]
        exact hzero
      · exact hfirst j (by omega) hlt
    · rintro ⟨hle, hlt, hk, hfirst⟩
      have hne : i ≠ k := by
        rintro rfl
        exact hzero hk
      exact ⟨by omega, by omega, hk, fun j hj => hfirst j (by omega)⟩

theorem fetchstr_inside (ha : a ∈ (fetchstr mem sz addr).reads) : a < sz := by
  unfold fetchstr at ha
  split at ha
  · cases ha
  · have := mem_scan ha
    omega

theorem fetchstr_eq_iff (hsz : sz < KERNBASE) :
    (fetchstr mem sz addr).ret = k ↔
      mem (addr + k) = 0 ∧ addr + k < sz ∧ ∀ j < k, mem (addr + j) ≠ 0 := by
  unfold fetchstr
  split
  · simp only
    omega
  have hscan := @scan_eq_iff mem addr k (sz - addr) 0 (by omega)
  rw [Nat.add_zero] at hscan
  rw [hscan]
  constructor
  · rintro ⟨_, hlt, hk, hfirst⟩
    exact ⟨hk, by omega, fun j => hfirst j (Nat.zero_le j)⟩
  · rintro ⟨hk, hlt, hfirst⟩
    exact ⟨Nat.zero_le k, by omega, hk, fun j _ => hfirst j⟩

theorem argptr_reads (mem : Nat → UInt8) (sz esp : Nat) (n size : Int) :
    (argptr mem sz esp n size).reads = (argint mem sz esp n).reads := by
  unfold argptr
  split
  · rename_i h
    rw [h]
  · rename_i h
    rw [h]
    split <;> rfl

theorem argstr_inside (hsz : sz < KERNBASE) (ha : a ∈ (argstr mem sz esp n).reads) : a < sz := by
  have hint : ∀ b ∈ (argint mem sz esp n).reads, b < sz := fun b => fetchint_inside hsz
  unfold argstr at ha
  split at ha
  · rename_i h
    rw [h] at hint
    exact hint a ha
  · rename_i h
    rw [h] at hint
    rcases List.mem_append.mp ha with ha | ha
    · exact hint a ha
    · exact fetchstr_inside ha

theorem argptr_end {q : Nat} (hsz : sz < KERNBASE) (hsize : size < 2 ^ 31)
    (hq : (argptr mem sz esp n size).out = some q) : 0 ≤ size ∧ q + size ≤ sz := by
  unfold KERNBASE at hsz
  unfold argptr at hq
  split at hq
  · cases hq
  · split at hq
    · cases hq
    · cases hq
      omega

/-- In every reachable state the size of a process is below `KERNBASE`; hence whatever its stack
pointer, memory and arguments are, the functions that fetch arguments read inside the process, a
block that `argptr` accepts ends inside it, and `fetchstr` returns the index of the first zero. -/
theorem args_inside {K : Symbols} {initcode : List UInt8} {ncpu : Nat} {s₀ s : State} {p : Slot}
    (hK : K.Ok) (hboot : Booted K initcode ncpu s₀) (hs : Reachable (Kernel.step K) s₀ s)
    (hp : Alive (s.proc p)) :
    (s.proc p).sz < KERNBASE ∧
      ∀ (mem : Nat → UInt8) (esp addr : Nat) (n size : Int), size < 2 ^ 31 →
        (∀ f ∈ [fetchint mem (s.proc p).sz addr, fetchstr mem (s.proc p).sz addr,
          argint mem (s.proc p).sz esp n, argptr mem (s.proc p).sz esp n size,
          argstr mem (s.proc p).sz esp n], ∀ a ∈ f.reads, a < (s.proc p).sz) ∧
        (∀ q, (argptr mem (s.proc p).sz esp n size).out = some q →
          0 ≤ size ∧ q + size ≤ (s.proc p).sz) ∧
        ∀ k : Nat, (fetchstr mem (s.proc p).sz addr).ret = k ↔
          mem (addr + k) = 0 ∧ addr + k < (s.proc p).sz ∧ ∀ j < k, mem (addr + j) ≠ 0 := by
  obtain ⟨D, _, hspace⟩ := (Inv.reachable hK hboot hs).space p hp
  have hsz := hspace.size
  refine ⟨hsz, ?_⟩
  intro mem esp addr n size hsize
  refine ⟨?_, fun q => argptr_end hsz hsize, fun k => fetchstr_eq_iff hsz⟩
  intro f hf a ha
  simp only [List.mem_cons, List.not_mem_nil, or_false] at hf
  rcases hf with rfl | rfl | rfl | rfl | rfl
  · exact fetchint_inside hsz ha
  · exact fetchstr_inside ha
  · exact fetchint_inside hsz ha
  · rw [argptr_reads] at ha
    exact fetchint_inside hsz ha
  · exact argstr_inside hsz ha

def stringArg (a : Nat) : UInt8 :=
  if a = 8005 then 16 else if 4096 ≤ a ∧ a < 4099 then 97 else 0

theorem args_inside_after_exec :
    ∃ s₀ s, Booted sampleSymbols [] 1 s₀ ∧ Reachable (Kernel.step sampleSymbols) s₀ s ∧
      (s.proc 0).sz = 12288 ∧ 4099 ∈ (argstr stringArg 12288 8000 0).reads ∧
      ∀ a ∈ (argstr stringArg 12288 8000 0).reads, a < 12288 := by
  obtain ⟨s₀, s, _, hboot, hs, hstate, _, hsz, _⟩ := exists_guard_page
  obtain ⟨_, hargs⟩ := args_inside sampleSymbols_ok hboot hs (alive_of_runnable hstate)
  rw [hsz] at hargs
  have hreads := (hargs stringArg 8000 0 0 0 (by decide)).1 (argstr stringArg 12288 8000 0)
    (by simp)
  exact ⟨s₀, s, hboot, hs, hsz, by decide +kernel, hreads⟩

end Xv6.Syscall
