import Xv6.Ptable.Moves

/-!
# Priorities and wait counters

`priority` is written in four places: `allocproc` (the default 3),
`sys_setpriority` (checked against the literals 1 and 5), the aging loop of
`scheduler` (one more, below `MAX_PRIORITY`), and `fork`, which copies the
parent's value without holding the lock.  `ticks_waiting` is written by the
first three and left alone by `fork`.
-/

namespace Xv6.Ptable

open Lib Sys

set_option linter.unusedSectionVars false

section Priority

variable {C : Type} [DecidableEq C]

def Proc.PrioOk (v : Proc) : Prop :=
  MIN_PRIORITY ≤ v.priority ∧ v.priority ≤ MAX_PRIORITY ∧
    (v.priority < MAX_PRIORITY → 0 ≤ v.ticksWaiting ∧ v.ticksWaiting < AGING_THRESHOLD)

theorem toInt32_succ {t : Int} (h0 : 0 ≤ t) (h1 : t < AGING_THRESHOLD) :
    toInt32 (t + 1) = t + 1 := by
  unfold AGING_THRESHOLD at h1
  unfold toInt32
  exact Int.bmod_eq_of_le (by omega) (by omega)

theorem Proc.PrioOk.age {v : Proc} (h : v.PrioOk) : v.age.PrioOk := by
  obtain ⟨hlo, hhi, ht⟩ := h
  unfold Proc.age
  by_cases hrun : v.state = .runnable
  · rw [if_pos hrun]
    dsimp only
    by_cases hlt : v.priority < MAX_PRIORITY
    · obtain ⟨h0, h1⟩ := ht hlt
      rw [toInt32_succ h0 h1]
      split_ifs with hup
      · refine ⟨?_, ?_, ?_⟩
        · dsimp only
          omega
        · dsimp only
          omega
        · intro _
          exact ⟨le_refl _, by simp [AGING_THRESHOLD]⟩
      · refine ⟨hlo, hhi, ?_⟩
        intro _
        dsimp only
        have : ¬ AGING_THRESHOLD ≤ v.ticksWaiting + 1 := fun hc => hup ⟨hc, hlt⟩
        omega
    · rw [if_neg (fun hc => hlt hc.2)]
      exact ⟨hlo, hhi, fun hc => absurd hc hlt⟩
  · rw [if_neg hrun]
    exact ⟨hlo, hhi, ht⟩

/-- The range invariant, with what `fork` needs between its load and its store. -/
structure PrioInv (s : Sys C) : Prop where
  ok : ∀ p, (s.proc p).state ≠ .unused → (s.proc p).PrioOk
  loaded : ∀ p np prio, s.fork p = .store np prio → MIN_PRIORITY ≤ prio ∧ prio ≤ MAX_PRIORITY
  fresh : ∀ p, (s.proc p).state = .embryo → (s.proc p).ticksWaiting = 0

theorem prioInv_boot (kstack pgdir : Frame) :
    PrioInv (boot C kstack pgdir) where
  ok := by
    intro p hp
    by_cases h0 : p = 0
    · subst h0
      simp [boot, initProc, Proc.embryo, Proc.PrioOk, MIN_PRIORITY, MAX_PRIORITY, AGING_THRESHOLD]
    · simp [boot, set_of_ne _ _ h0, Proc.zero] at hp
  loaded := by simp [boot]
  fresh := by
    intro p hp
    by_cases h0 : p = 0
    · subst h0
      simp [boot, initProc] at hp
    · simp [boot, set_of_ne _ _ h0, Proc.zero]

section Range

variable {s s' : Sys C} {l : Label C}

theorem Proc.PrioOk.congr {v w : Proc} (h : v.PrioOk) (hprio : w.priority = v.priority)
    (hticks : w.ticksWaiting = v.ticksWaiting) : w.PrioOk := by
  unfold Proc.PrioOk at h ⊢
  rwa [hprio, hticks]

theorem Proc.PrioOk.of_fresh {v : Proc} (hlo : MIN_PRIORITY ≤ v.priority)
    (hhi : v.priority ≤ MAX_PRIORITY) (hticks : v.ticksWaiting = 0) : v.PrioOk := by
  refine ⟨hlo, hhi, ?_⟩
  intro _
  rw [hticks]
  exact ⟨le_refl 0, by decide⟩

theorem prioOk_of_move (h : PrioInv s) {q : Slot} (hmove : Move s s' q l)
    (hlive : (s'.proc q).state ≠ .unused) : (s'.proc q).PrioOk := by
  cases hmove with
  | keep _ heq =>
    rw [heq] at hlive ⊢
    exact h.ok q hlive
  | aged c _ heq =>
    rw [heq] at hlive ⊢
    exact (h.ok q (by simpa using hlive)).age
  | dispatched c _ hold heq =>
    rw [heq]
    exact ((h.ok q (by simp [hold])).age).congr rfl rfl
  | reaped _ p _ _ heq => simp [heq, Proc.reap] at hlive
  | exited c _ hold hinit _ heq =>
    obtain ⟨par, st, hfr⟩ := exitTable_frame hinit q
    rw [heq, hfr]
    exact (h.ok q (by simp [hold])).congr rfl rfl
  | orphaned c p _ _ hinit _ _ heq =>
    have hst := exitTable_state_iff hinit .unused (by simp) (by simp) q
    obtain ⟨par, st, hfr⟩ := exitTable_frame hinit q
    rw [heq] at hlive ⊢
    have hq := h.ok q (mt hst.mpr hlive)
    rw [hfr]
    exact hq.congr rfl rfl
  | woken chan heq =>
    rw [heq] at hlive ⊢
    have hq := h.ok q (mt (Proc.wake_state_iff _ _ (by simp) (by simp)).mpr hlive)
    exact hq.congr (by simp) (by simp)
  | killed pid _ heq =>
    rw [heq] at hlive ⊢
    have hq := h.ok q (mt (Proc.kill_state_iff _ (by simp) (by simp)).mpr hlive)
    exact hq.congr rfl rfl
  | assigned pid prio hlo hhi heq =>
    rw [heq]
    exact Proc.PrioOk.of_fresh hlo hhi rfl
  | allocated c p _ _ _ _ heq =>
    rw [heq]
    exact Proc.PrioOk.of_fresh (by simp [Proc.embryo, MIN_PRIORITY])
      (by simp [Proc.embryo, MAX_PRIORITY]) rfl
  | unstacked c p _ _ _ heq => simp [heq] at hlive
  | uncopied c p _ _ _ heq => simp [heq] at hlive
  | inherited c p prio hpc hold heq =>
    obtain ⟨hlo, hhi⟩ := h.loaded p q prio hpc
    rw [heq]
    exact Proc.PrioOk.of_fresh hlo hhi (h.fresh q hold)
  | cleared c hold heq | blocked _ _ hold _ heq | yielded c hold heq | slept c a hold heq
  | trapped c hold heq | stacked c p k _ hold heq | copied c p d _ _ _ hold heq
  | published c p _ _ hold heq =>
    rw [heq]
    exact (h.ok q (by simp [hold])).congr rfl rfl

theorem fresh_of_move (h : PrioInv s) {q : Slot} (hmove : Move s s' q l)
    (hemb : (s'.proc q).state = .embryo) : (s'.proc q).ticksWaiting = 0 := by
  cases hmove with
  | keep _ heq =>
    rw [heq] at hemb ⊢
    exact h.fresh q hemb
  | aged c _ heq =>
    rw [heq, Proc.age_state] at hemb
    rw [heq, Proc.age_of_not_runnable _ (by simp [hemb])]
    exact h.fresh q hemb
  | orphaned c p _ _ hinit _ _ heq =>
    rw [heq, exitTable_state_iff hinit _ (by simp) (by simp)] at hemb
    obtain ⟨par, st, hfr⟩ := exitTable_frame hinit q
    rw [heq, hfr]
    exact h.fresh q hemb
  | woken chan heq =>
    rw [heq, Proc.wake_state_iff _ _ (by simp) (by simp)] at hemb
    rw [heq, Proc.wake_ticksWaiting]
    exact h.fresh q hemb
  | killed pid _ heq =>
    rw [heq, Proc.kill_state_iff _ (by simp) (by simp)] at hemb
    rw [heq]
    exact h.fresh q hemb
  | assigned pid prio _ _ heq =>
    rw [heq]
    rfl
  | allocated c p _ _ _ _ heq =>
    rw [heq]
    rfl
  | stacked c p k _ hold heq | copied c p d _ _ _ hold heq | inherited c p prio _ hold heq =>
    rw [heq]
    exact h.fresh q hold
  | dispatched c _ _ heq | reaped _ p _ _ heq | exited c _ _ _ _ heq | yielded c _ heq
  | slept c a _ heq | blocked _ _ _ _ heq | unstacked c p _ _ _ heq | uncopied c p _ _ _ heq
  | published c p _ _ _ heq => simp [heq, Proc.reap] at hemb
  | cleared c hold heq | trapped c hold heq => simp [heq, hold] at hemb

theorem prioInv_step (hinv : SysInv s) (h : PrioInv s) (hstep : step s l = some s') :
    PrioInv s' where
  ok := fun q hlive => prioOk_of_move h (move_of_step hinv hstep q) hlive
  fresh := fun q hemb => fresh_of_move h (move_of_step hinv hstep q) hemb
  loaded := by
    intro p np prio hpc
    cases forkMove_of_step hstep p with
    | keep _ heq =>
      rw [heq] at hpc
      exact h.loaded p np prio hpc
    | load c np' hcur _ heq =>
      -- the loaded value is that of a RUNNING process
      obtain ⟨hm, hp⟩ := current_eq_some.mp hcur
      have hrun := hinv.cpu.current c p hp (by simp [hm])
      obtain ⟨hlo, hhi, _⟩ := h.ok p (by simp [hrun])
      rw [heq] at hpc
      cases hpc
      exact ⟨hlo, hhi⟩
    | alloc _ _ _ _ _ heq | stack _ _ _ _ heq | copy _ _ _ _ _ _ heq | store _ _ _ _ heq
    | finish _ heq =>
      rw [heq] at hpc
      cases hpc

theorem prioInv_of_reached (h : Reached s) : PrioInv s := by
  exact h.invariant PrioInv prioInv_boot fun _ _ _ hsys hs hst => prioInv_step hsys hs hst

/--
**Priority range.**  In every state reached from boot, on any number of CPUs,
every slot in use has a priority in range, and below the highest priority its
wait counter lies under the aging threshold.
-/
theorem priority_in_range (h : Reached s) (p : Slot) (hlive : (s.proc p).state ≠ .unused) :
    MIN_PRIORITY ≤ (s.proc p).priority ∧ (s.proc p).priority ≤ MAX_PRIORITY ∧
      ((s.proc p).priority < MAX_PRIORITY →
        0 ≤ (s.proc p).ticksWaiting ∧ (s.proc p).ticksWaiting < AGING_THRESHOLD) :=
  (prioInv_of_reached h).ok p hlive

/-- The child of a `fork` by init inherits priority 5 in the middle of the call. -/
theorem forked_child_in_range :
    ∃ s : Sys Bool, Reached s ∧ (s.proc 1).state = .runnable ∧
      (s.proc 1).priority ≤ MAX_PRIORITY := by
  obtain ⟨s, hrun, htest⟩ :=
    exists_of_run_map step (boot Bool 1 2)
      [.pass true, .resume true, .setpriority 1 5, .forkAlloc true, .forkStack true (some 3),
        .forkCopy true (some 4), .forkLoad true, .setpriority 1 2, .forkStore true,
        .forkPublish true]
      (fun s => (s.proc 1).state = .runnable ∧ (s.proc 1).priority = 5) (by decide +kernel)
  have hs : (s.proc 1).state = .runnable ∧ (s.proc 1).priority = 5 := by simpa using htest
  have hreach : Reached s := ⟨1, 2, _, hrun⟩
  exact ⟨s, hreach, hs.1, (priority_in_range hreach 1 (by simp [hs.1])).2.1⟩

end Range

end Priority

end Xv6.Ptable
