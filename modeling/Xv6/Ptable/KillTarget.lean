import Xv6.Ptable.Moves

/-!
# Which slot `kill` and `sys_setpriority` hit

Both look for the first slot whose `pid` field equals their argument and never
read its state.  A zeroed slot carries pid 0 from boot on, `wait` clears the pid
of the slot it gives back, and a failed `allocproc` or `fork` leaves pid and
`killed` as they are, so an UNUSED slot can be hit.  The mark left there is
inherited by the next process that `allocproc` puts into the slot.
-/

namespace Xv6.Ptable

open Lib Sys

variable {t : Table} {pid : Int}

set_option linter.unusedSectionVars false

/-- Some process, in any state but UNUSED, has this pid. -/
def Live (t : Table) (pid : Int) (p : Slot) : Prop :=
  (t p).state ≠ .unused ∧ (t p).pid = pid

instance (t : Table) (pid : Int) (p : Slot) : Decidable (Live t pid p) :=
  inferInstanceAs (Decidable (_ ∧ _))

/-- What a call that takes a pid should return and change. -/
structure ActsOnLive (t : Table) (pid : Int) (r : Int × Table) : Prop where
  returns : r.1 = 0 ↔ ∃ p, Live t pid p
  only : r.1 = 0 → ∃ p, Live t pid p ∧ ∀ q, q ≠ p → r.2 q = t q
  otherwise : (¬∃ p, Live t pid p) → r.1 = -1 ∧ r.2 = t

/--
The first slot with this pid is in use.  The second alternative is the one way
in which a hit on an UNUSED slot goes unnoticed: it changes nothing there, and a
process with the same pid stands further down the table.
-/
def HitsLive (t : Table) (pid : Int) (write : Proc → Proc) : Prop :=
  ∀ p, firstSlot t (fun v => v.pid = pid) = some p →
    (t p).state ≠ .unused ∨ write (t p) = t p ∧ ∃ q, Live t pid q

theorem writePid_actsOnLive_iff (t : Table) (pid : Int) (write : Proc → Proc) :
    ActsOnLive t pid (writePid t pid write) ↔ HitsLive t pid write := by
  cases hf : firstSlot t fun v => v.pid = pid with
  | none =>
    have hr : writePid t pid write = (-1, t) := by simp [writePid, hf]
    have hno : ¬∃ p, Live t pid p := by
      rintro ⟨p, _, hp⟩
      have := firstSlot_none.mp hf p
      simp [hp] at this
    rw [hr]
    constructor
    · intro _ p hp
      rw [hf] at hp
      cases hp
    · intro _
      exact ⟨by simp [hno], by simp, fun _ => ⟨rfl, rfl⟩⟩
  | some p =>
    have hr : writePid t pid write = (0, set t p (write (t p))) := by simp [writePid, hf]
    have hpid : (t p).pid = pid := by simpa using firstSlot_some hf
    rw [hr]
    constructor
    · intro h m hm
      rw [hf] at hm
      cases hm
      by_cases hun : (t p).state = .unused
      · obtain ⟨q, hq, hrest⟩ := h.only rfl
        have hpq : p ≠ q := by
          rintro rfl
          exact hq.1 hun
        have hsame : write (t p) = t p := by simpa using hrest p hpq
        exact .inr ⟨hsame, q, hq⟩
      · exact .inl hun
    intro h
    rcases h p hf with hlive | ⟨hsame, q, hq⟩
    · have hp : Live t pid p := ⟨hlive, hpid⟩
      exact ⟨by simpa using ⟨p, hp⟩, fun _ => ⟨p, hp, fun q hq => set_of_ne _ _ hq⟩,
        fun hno => absurd ⟨p, hp⟩ hno⟩
    refine ⟨by simpa using ⟨q, hq⟩, fun _ => ⟨q, hq, ?_⟩, fun hno => absurd ⟨q, hq⟩ hno⟩
    intro r _
    dsimp only
    rw [set_apply]
    split_ifs with hrp
    · rw [hsame, hrp]
    · rfl

theorem setpriority_actsOnLive_iff {prio : Int} (hlo : 1 ≤ prio) (hhi : prio ≤ 5) :
    ActsOnLive t pid (setpriority t pid prio) ↔
      HitsLive t pid fun v => v.setpriority prio := by
  have hr : ¬(prio < 1 ∨ 5 < prio) := by omega
  rw [setpriority, if_neg hr]
  exact writePid_actsOnLive_iff t pid _

section Runs

variable {C : Type} [DecidableEq C] {s s' : Sys C} {l : Label C}

/--
The steps after which the next user of a slot still starts unmarked: `kill` hits
a slot in use, and no `fork` gives up a child that has been killed meanwhile.
-/
def MarksLive (s : Sys C) : Label C → Prop
  | .kill pid => HitsLive s.proc pid Proc.kill
  | .forkStack c none =>
    ∀ p np, s.current c = some p → s.fork p = .stack np → (s.proc np).killed = false
  | .forkCopy c none =>
    ∀ p np, s.current c = some p → s.fork p = .copy np → (s.proc np).killed = false
  | _ => True

def UnusedUnmarked (s : Sys C) : Prop :=
  ∀ p, (s.proc p).state = .unused → (s.proc p).killed = false

theorem unusedUnmarked_boot (kstack pgdir : Frame) : UnusedUnmarked (boot C kstack pgdir) := by
  intro p hp
  by_cases h0 : p = 0
  · subst h0
    simp [boot, initProc] at hp
  · simp [boot, set_of_ne _ _ h0, Proc.zero]

theorem unusedUnmarked_step (hinv : SysInv s) (h : UnusedUnmarked s) (hok : MarksLive s l)
    (hstep : step s l = some s') : UnusedUnmarked s' := by
  intro q hq
  cases move_of_step hinv hstep q with
  | keep _ heq =>
    rw [heq] at hq ⊢
    exact h q hq
  | aged c _ heq =>
    rw [heq] at hq ⊢
    rw [Proc.age_state] at hq
    rw [Proc.age_killed]
    exact h q hq
  | orphaned c p _ _ hinit _ _ heq =>
    rw [heq, exitTable_state_iff hinit _ (by simp) (by simp)] at hq
    obtain ⟨par, st, hfr⟩ := exitTable_frame hinit q
    rw [heq, hfr]
    exact h q hq
  | woken chan heq =>
    rw [heq, Proc.wake_state_iff _ _ (by simp) (by simp)] at hq
    rw [heq, Proc.wake_killed]
    exact h q hq
  | killed pid hfirst heq =>
    -- a hit on an UNUSED slot would have to leave it as it is, that is, marked
    rw [heq, Proc.kill_state_iff _ (by simp) (by simp)] at hq
    rcases hok q hfirst with hlive | ⟨hsame, _⟩
    · exact absurd hq hlive
    · have hmark : (s.proc q).killed = true := by
        rw [← hsame]
        rfl
      rw [h q hq] at hmark
      cases hmark
  | assigned pid prio _ _ heq =>
    rw [heq] at hq ⊢
    exact h q hq
  | reaped _ p _ _ heq =>
    rw [heq]
    rfl
  | unstacked c p hcur hpc _ heq | uncopied c p hcur hpc _ heq =>
    rw [heq]
    exact hok p q hcur hpc
  | dispatched c _ _ heq | exited c _ _ _ _ heq | yielded c _ heq | slept c a _ heq
  | blocked _ _ _ _ heq | allocated c p _ _ _ _ heq | published c p _ _ _ heq =>
    simp [heq, Proc.embryo] at hq
  | cleared c hold heq | trapped c hold heq | stacked c p k _ hold heq
  | copied c p d _ _ _ hold heq | inherited c p prio _ hold heq => simp [heq, hold] at hq

/--
**The target of `kill` and `setpriority`.**  Either call, with a valid priority,
does what it should exactly when the first slot with its pid is in use.  And
along every run in which every `kill` hits a slot in use and no `fork` gives up
a killed child, `allocproc` hands out processes that are not marked as killed.
-/
theorem acts_on_live_iff_first_slot_live :
    (∀ (t : Table) (pid : Int), ActsOnLive t pid (kill t pid) ↔ HitsLive t pid Proc.kill) ∧
    (∀ (t : Table) (pid prio : Int), MIN_PRIORITY ≤ prio → prio ≤ MAX_PRIORITY →
      (ActsOnLive t pid (setpriority t pid prio) ↔ HitsLive t pid fun v => v.setpriority prio)) ∧
    ∀ (kstack pgdir : Frame) (ls : List (Label C)) (s s' : Sys C) (c : C) (p np : Slot),
      Meets step MarksLive (boot C kstack pgdir) ls →
      run step (boot C kstack pgdir) ls = some s →
      step s (.forkAlloc c) = some s' → s.current c = some p → s'.fork p = .stack np →
      (s'.proc np).killed = false := by
  refine ⟨fun t pid => writePid_actsOnLive_iff t pid _,
    fun t pid prio hlo hhi => setpriority_actsOnLive_iff hlo hhi, ?_⟩
  intro kstack pgdir ls s s' c p np hmeets hrun hstep hcur hpc
  have hclean : UnusedUnmarked s :=
    invariant_of_meets UnusedUnmarked unusedUnmarked_boot
      (fun _ _ _ hsys hs hok hst => unusedUnmarked_step hsys hs hok hst) hmeets hrun
  obtain ⟨q, hq, _, hk⟩ := locked_eq_some.mp hstep
  rw [hcur] at hq
  cases hq
  split_ifs at hk with hg
  cases hk
  rcases forkAlloc_cases s p with heq | ⟨m, hm, heq⟩
  · rw [heq, hg] at hpc
    cases hpc
  · rw [heq] at hpc ⊢
    simp only [Sys.setFork, Function.update_self, ForkPc.stack.injEq] at hpc
    subst hpc
    have hun : (s.proc m).state = .unused := by simpa using firstSlot_some hm
    simpa [Sys.setFork, Proc.embryo] using hclean m hun

end Runs

def marksLiveTest {C : Type} (s : Sys C) : Label C → Bool
  | .kill pid => (firstSlot s.proc fun v => v.pid = pid).all fun p => (s.proc p).state ≠ .unused
  | .forkStack _ none => false
  | .forkCopy _ none => false
  | _ => true

theorem marksLive_of_test {C : Type} {s : Sys C} {l : Label C} (h : marksLiveTest s l = true) :
    MarksLive s l := by
  cases l with
  | kill pid =>
    intro p hp
    rw [marksLiveTest, hp, Option.all_some, decide_eq_true_eq] at h
    exact .inl h
  | forkStack c k => cases k with
    | none => cases h
    | some _ => trivial
  | forkCopy c k => cases k with
    | none => cases h
    | some _ => trivial
  | _ => trivial

/-- Init forks and kills its child, and forks again. -/
theorem fork_after_kill :
    ∃ s s', run step (boot Bool 1 2) (bootFork ++ [.kill 2]) = some s ∧
      (s.proc 1).killed = true ∧ step s (.forkAlloc true) = some s' ∧
      (s'.proc 2).killed = false := by
  obtain ⟨s, hrun, htest⟩ := exists_of_run_map step (boot Bool 1 2) (bootFork ++ [.kill 2])
    (fun s => (s.proc 1).killed = true ∧ s.current true = some 0 ∧
      (step s (.forkAlloc true)).map (fun s' => s'.fork 0) = some (.stack 2)) (by decide +kernel)
  obtain ⟨hkilled, hcur, hfork⟩ := of_decide_eq_true htest
  obtain ⟨s', hstep, hpc⟩ := Option.map_eq_some_iff.mp hfork
  have hmeets : meetsTest step marksLiveTest (boot Bool 1 2) (bootFork ++ [.kill 2]) = true := by
    decide +kernel
  exact ⟨s, s', hrun, hkilled, hstep, (acts_on_live_iff_first_slot_live (C := Bool)).2.2 1 2 _ s s'
    true 0 2 ((meets_of_meetsTest hmeets).mono fun _ _ => marksLive_of_test) hrun hstep hcur hpc⟩

/--
`kill(0)` from the first process returns 0 although no process has pid 0, and
the child of the next `fork` starts out marked as killed.
-/
theorem kill_zero_marks_next_child :
    ∃ s s' : Sys Bool, Reached s ∧ s.lock = none ∧ (∀ p, ¬Live s.proc 0 p) ∧
      (kill s.proc 0).1 = 0 ∧ (kill s.proc 0).2 ≠ s.proc ∧
      run step s [.kill 0, .forkAlloc true] = some s' ∧
      s'.fork 0 = .stack 1 ∧ (s'.proc 1).killed = true := by
  obtain ⟨s, hrun, htest⟩ :=
    exists_of_run_map step (boot Bool 1 2) [.pass true, .resume true]
      (fun s => s.lock = none ∧ (∀ p, ¬Live s.proc 0 p) ∧ (kill s.proc 0).1 = 0 ∧
        ((kill s.proc 0).2 1).killed ≠ (s.proc 1).killed ∧
        (run step s [.kill 0, .forkAlloc true]).map
          (fun t => decide (t.fork 0 = .stack 1 ∧ (t.proc 1).killed = true)) = some true)
      (by decide +kernel)
  simp only [decide_eq_true_eq] at htest
  obtain ⟨hfree, hno, hret, hmark, hnext⟩ := htest
  obtain ⟨s', hrun', hs'⟩ := exists_of_run_map _ _ _ _ hnext
  have hend : s'.fork 0 = .stack 1 ∧ (s'.proc 1).killed = true := by simpa using hs'
  refine ⟨s, s', ⟨1, 2, _, hrun⟩, hfree, hno, hret, ?_, hrun', hend.1, hend.2⟩
  intro hsame
  rw [hsame] at hmark
  exact hmark rfl

end Xv6.Ptable
