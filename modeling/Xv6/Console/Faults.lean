import Xv6.Console.Reading

/-!
# Console input and output on pages that are missing

Copying to or from a page that has not been allocated faults while `cons.lock` is held.
Whatever `handle_lazy_allocation` then finds, it prints a message, and `cprintf` takes
`cons.lock` again.  So the console can be used exactly with buffers whose pages are all there.
-/

namespace Xv6.Console

open Lib Lib.Prog Ptable Vm

variable {K : Symbols} {A : Pool K} {initcode : List UInt8} {ncpu addr : Nat} {k₀ k : Kernel.State}
variable {s : State} {p : Slot} {D : Frame} {n : Int} {x : CM Int} {Q : Int → State → Prop}
variable {E : Halt → State → Prop}

/-- The processor has not tried to take a spinlock that it held. -/
def NoReacquire {α : Type} (x : Except Halt α × State) : Prop :=
  ∀ l, x.1 ≠ .error (.acquire l)

theorem noReacquire_trapSyscall (halive : (s.kernel.proc p).killed = false)
    (h : wp x (fun _ _ => True) (fun e _ => e = .asleep) s) : NoReacquire (trapSyscall p x s) := by
  have hspec : wp (trapSyscall p x) (fun _ _ => True) (fun e _ => e = .asleep ∨ e = .exited) s := by
    unfold trapSyscall
    rw [wp_bind, wp_get, wp_ite, if_neg (by rw [halive]; decide), wp_bind]
    refine wp_mono h ?_ fun _ _ he => .inl he
    intro _ _ _
    rw [wp_bind, wp_get, wp_ite]
    split
    · exact .inr rfl
    · trivial
  intro l hl
  unfold wp at hspec
  rcases hrun : trapSyscall p x s with ⟨e | a, t⟩
  · rw [hrun] at hspec hl
    have hcases : e = .asleep ∨ e = .exited := hspec
    rcases hcases with rfl | rfl
    · cases hl
    · cases hl
  · rw [hrun] at hl
    cases hl

theorem reacquire_trapSyscall (halive : (s.kernel.proc p).killed = false)
    (h : wp x (fun _ _ => False) (fun e _ => e = .acquire .cons) s) :
    (trapSyscall p x s).1 = .error (.acquire .cons) := by
  have hspec : wp (trapSyscall p x) (fun _ _ => False) (fun e _ => e = .acquire .cons) s := by
    unfold trapSyscall
    rw [wp_bind, wp_get, wp_ite, if_neg (by rw [halive]; decide)]
    refine wp_seq h ?_
    intro _ _ hc
    exact hc.elim
  unfold wp at hspec
  rcases hrun : trapSyscall p x s with ⟨e | a, t⟩
  · rw [hrun] at hspec
    have hacquire : e = .acquire .cons := hspec
    rw [hacquire]
  · rw [hrun] at hspec
    exact hspec.elim

theorem noReacquire_killed (hkilled : (s.kernel.proc p).killed = true) :
    NoReacquire (trapSyscall p x s) := by
  have hexit : trapSyscall p x s = (.error .exited, s) := by
    unfold trapSyscall
    rw [bind_ok (show Prog.get s = (.ok s, s) from rfl), if_pos hkilled]
    rfl
  intro l
  rw [hexit]
  nofun

theorem exists_broken {m : Nat} (hinside : addr + m ≤ (k.proc p).sz)
    (h : ¬∀ i < m, Present k D (addr + i)) : ∃ j, Broken k p D addr m j := by
  classical
  have hex : ∃ i, i < m ∧ ¬Present k D (addr + i) := by
    by_contra hno
    apply h
    intro i hi
    by_contra hP
    exact hno ⟨i, hi, hP⟩
  obtain ⟨hlt, hmissing⟩ := Nat.find_spec hex
  refine ⟨Nat.find hex, hlt, by omega, ?_, hmissing⟩
  intro i hi
  refine ⟨by omega, ?_⟩
  by_contra hP
  exact Nat.find_min hex hi ⟨by omega, hP⟩

theorem argptr_inside {sz : Nat} (h : argptr sz addr n = true) (hsz : sz < KERNBASE)
    (hn : n < 2 ^ 31) : addr + n.toNat ≤ sz := by
  unfold argptr at h
  have hok := of_decide_eq_true h
  unfold KERNBASE at hsz
  omega

theorem wp_sysRead
    (h : argptr (s.kernel.proc p).sz addr n = true) (hread : wp (fileread K p addr n.toNat) Q E s) :
    wp (sysRead K p addr n) Q E s := by
  unfold sysRead
  rw [wp_bind, wp_get, wp_ite, if_pos h]
  exact hread

theorem wp_sysWrite (h : argptr (s.kernel.proc p).sz addr n = true)
    (hwrite : wp (filewrite K p addr n.toNat) Q E s) : wp (sysWrite K p addr n) Q E s := by
  unfold sysWrite
  rw [wp_bind, wp_get, wp_ite, if_pos h]
  exact hwrite

def emptyInput : Input where
  buf := fun _ => 0
  r := 0
  w := 0
  e := 0

/--
In every state that the machine reaches, whether or not the process has been killed, and for
every buffer that `argptr` accepts: `write` to the console does not take a spinlock twice if and
only if the process exits before, or all pages of the buffer are there; and the same holds for
`read`, whatever has been and will be typed.
-/
theorem console_io_iff {killed : Bool} (hK : K.Ok)
    (hboot : Kernel.Booted K initcode ncpu k₀) (hs : Reachable (Kernel.step K) k₀ k)
    (hp : (k.proc p).state = .runnable) (hD : (k.proc p).pgdir = some D)
    (hkernel : s.kernel = Kernel.setKilled k p killed) (hquiet : Quiet false s) (hn : n < 2 ^ 31)
    (hptr : argptr (k.proc p).sz addr n = true) :
    (NoReacquire (trapSyscall p (sysWrite K p addr n) s) ↔
      killed = true ∨ ∀ i < n.toNat, Present k D (addr + i)) ∧
    ((∀ input events, NoReacquire
        (trapSyscall p (sysRead K p addr n) { s with input := input, events := events })) ↔
      killed = true ∨ ∀ i < n.toNat, Present k D (addr + i)) := by
  have hproc : s.kernel.proc p = { k.proc p with killed := killed } := by
    rw [hkernel]
    exact Kernel.setKilled_proc k p killed
  have hpresent : ∀ a, Present s.kernel D a ↔ Present k D a := by
    intro a
    rw [hkernel]
    rfl
  have hcaller : Caller (Kernel.pool hK) s.kernel p D := by
    refine ⟨?_, ?_, ?_⟩
    · rw [hkernel]
      exact (Kernel.Inv.reachable hK hboot hs).setKilled killed
    · rw [hproc]
      exact hp
    · rw [hproc]
      exact hD
  have hptr' : argptr (s.kernel.proc p).sz addr n = true := by
    rw [hproc]
    exact hptr
  have hinside := argptr_inside hptr' hcaller.space.size hn
  cases killed with
  | true =>
    have hkilled : (s.kernel.proc p).killed = true := by rw [hproc]
    exact ⟨iff_of_true (noReacquire_killed hkilled) (.inl rfl),
      iff_of_true (fun _ _ => noReacquire_killed hkilled) (.inl rfl)⟩
  | false =>
    have halive : (s.kernel.proc p).killed = false := by rw [hproc]
    simp only [Bool.false_eq_true, false_or, ← hpresent]
    by_cases hall : ∀ i < n.toNat, Present s.kernel D (addr + i)
    · have hbuf : Buffer s.kernel p D addr n.toNat := fun i hi => ⟨by omega, hall i hi⟩
      refine ⟨iff_of_true ?_ hall, iff_of_true ?_ hall⟩
      · apply noReacquire_trapSyscall halive
        refine wp_sysWrite hptr' ?_
        exact wp_mono (writeLoop_safe hquiet hcaller hbuf (Nat.zero_le _) (by omega))
          (fun _ _ _ => trivial) fun _ _ he => he.elim
      · intro input events
        apply noReacquire_trapSyscall (by exact halive)
        refine wp_sysRead (by exact hptr') ?_
        exact fileread_safe ⟨hquiet.held, hquiet.locking, hquiet.ipLocked⟩ hcaller hbuf
    obtain ⟨j, hbroken⟩ := exists_broken hinside hall
    refine ⟨iff_of_false ?_ hall, iff_of_false ?_ hall⟩
    · intro hsafe
      refine hsafe .cons (reacquire_trapSyscall halive (wp_sysWrite hptr' ?_))
      exact writeLoop_panics hquiet hcaller hbroken (Nat.zero_le j) (by omega)
    · -- enough lines are typed for the read to get to the missing page
      intro hsafe
      refine hsafe emptyInput (List.replicate (j + 1) (.typed fullLine)) .cons
        (reacquire_trapSyscall (by exact halive) (wp_sysRead (by exact hptr') ?_))
      exact fileread_panics (m := j) ⟨hquiet.held, hquiet.locking, hquiet.ipLocked⟩ hcaller
        ⟨⟨rfl, fun hne => absurd rfl hne⟩, rfl, halive⟩ le_rfl hbroken

/-- The console when nothing is going on. -/
def idleConsole (k : Kernel.State) : State where
  kernel := k
  held := fun _ => false
  locking := true
  ipLocked := false
  outstanding := 0
  input := emptyInput
  out := []
  events := []

theorem quiet_idleConsole (k : Kernel.State) : Quiet false (idleConsole k) :=
  ⟨rfl, rfl, rfl⟩

/-- The guard page is there, and the kernel may read it. -/
theorem write_guard_page :
    ∃ k₀ k, Kernel.Booted Kernel.sampleSymbols [] 1 k₀ ∧
      Reachable (Kernel.step Kernel.sampleSymbols) k₀ k ∧
      (k.proc 0).state = .runnable ∧ argptr (k.proc 0).sz 4096 16 = true ∧
      NoReacquire (trapSyscall 0 (sysWrite Kernel.sampleSymbols 0 4096 16)
        (idleConsole (Kernel.setKilled k 0 false))) := by
  obtain ⟨k₀, k, D, hboot, hs, hstate, hD, hsz, hguard, _⟩ := Kernel.exists_guard_page
  have hptr : argptr (k.proc 0).sz 4096 16 = true := by
    rw [hsz]
    decide
  have hP := Kernel.present_of_guarded hguard
  refine ⟨k₀, k, hboot, hs, hstate, hptr, ?_⟩
  refine (console_io_iff Kernel.sampleSymbols_ok hboot hs hstate hD rfl (quiet_idleConsole _)
    (by decide) hptr).1.mpr (.inr ?_)
  intro i hi
  have hpage : (4096 + i) / 4096 = 1 := by
    have hlt : i < 16 := hi
    omega
  unfold Present
  rwa [hpage]

/--
A process writes one byte of its heap that it has not touched to the console.  The page fault
is served, but the message about it makes the processor take the lock of the console again.
-/
theorem write_untouched_page_panics :
    ∃ k₀ k, Kernel.Booted Kernel.sampleSymbols [] 1 k₀ ∧
      Reachable (Kernel.step Kernel.sampleSymbols) k₀ k ∧
      (k.proc 0).state = .runnable ∧ argptr (k.proc 0).sz 12288 1 = true ∧
      (trapSyscall 0 (sysWrite Kernel.sampleSymbols 0 12288 1)
        (idleConsole (Kernel.setKilled k 0 false))).1 = .error (.acquire .cons) := by
  obtain ⟨k₀, k, D, hboot, hs, hstate, hD, hsz, _, hmissing⟩ := Kernel.exists_lazy_heap
  have hproc := Kernel.setKilled_proc k 0 false
  have hcaller : Caller (Kernel.pool Kernel.sampleSymbols_ok) (Kernel.setKilled k 0 false) 0 D := by
    refine ⟨(Kernel.Inv.reachable Kernel.sampleSymbols_ok hboot hs).setKilled false, ?_, ?_⟩
    · rw [hproc]
      exact hstate
    · rw [hproc]
      exact hD
  have hptr : argptr (k.proc 0).sz 12288 1 = true := by
    rw [hsz]
    decide
  have hbroken : Broken (Kernel.setKilled k 0 false) 0 D 12288 1 0 := by
    refine ⟨Nat.one_pos, ?_, fun i hi => absurd hi (Nat.not_lt_zero i), ?_⟩
    · rw [hproc]
      simp only [hsz]
      decide
    · intro hP
      have hno := hmissing 3 le_rfl (by decide)
      rw [show flag (k.mem.pte D 3) PTE_P = true from hP] at hno
      cases hno
  refine ⟨k₀, k, hboot, hs, hstate, hptr, ?_⟩
  refine reacquire_trapSyscall (congrArg Proc.killed hproc) (wp_sysWrite ?_ ?_)
  · rw [show (idleConsole (Kernel.setKilled k 0 false)).kernel.proc 0 = _ from hproc]
    exact hptr
  · exact writeLoop_panics (quiet_idleConsole _) hcaller hbroken le_rfl (by decide)

end Xv6.Console
