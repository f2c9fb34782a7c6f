import Xv6.Ptable.Life
import Xv6.Ptable.Priority

/-!
# One pass of the scheduler, and many

A pass ages the RUNNABLE processes and dispatches one of the highest priority.  It never
comes back empty-handed while a process is RUNNABLE: the sentinel lies below every priority
in use, and `switchuvm` finds the kernel stack and the page directory that it insists on,
since `fork` makes a process RUNNABLE only after it has given it both.
-/

namespace Xv6.Ptable

open Lib Sys

section Scheduler

variable {C : Type} [DecidableEq C]

def ForkPc.stacked : ForkPc → Option Slot
  | .none => Option.none
  | .stack _ => Option.none
  | .copy np => some np
  | .load np => some np
  | .store np _ => some np
  | .publish np => some np

def ForkPc.mapped : ForkPc → Option Slot
  | .none => Option.none
  | .stack _ => Option.none
  | .copy _ => Option.none
  | .load np => some np
  | .store np _ => some np
  | .publish np => some np

theorem ForkPc.stacked_of_mapped {pc : ForkPc} {np : Slot} (h : pc.mapped = some np) :
    pc.stacked = some np := by
  cases pc with
  | load np | store np prio | publish np => exact h
  | none | stack np | copy np => cases h

theorem ForkPc.child_of_stacked {pc : ForkPc} {np : Slot} (h : pc.stacked = some np) :
    pc.child = some np := by
  cases pc with
  | copy np | load np | store np prio | publish np => exact h
  | none | stack np => cases h

/-- Every process between `fork` and `exit` has a kernel stack and a page directory. -/
structure BackInv (s : Sys C) : Prop where
  live : ∀ p, Alive (s.proc p).state → (s.proc p).kstack ≠ none ∧ (s.proc p).pgdir ≠ none
  stacked : ∀ p np, (s.fork p).stacked = some np → (s.proc np).kstack ≠ none
  mapped : ∀ p np, (s.fork p).mapped = some np → (s.proc np).pgdir ≠ none

omit [DecidableEq C] in
theorem backInv_boot (kstack pgdir : Frame) :
    BackInv (boot C kstack pgdir) where
  live := by
    intro p hp
    by_cases h0 : p = 0
    · subst h0
      simp [boot, initProc]
    · simp [boot, set_of_ne _ _ h0, Proc.zero, Alive] at hp
  stacked := by simp [boot, ForkPc.stacked]
  mapped := by simp [boot, ForkPc.mapped]

section Steps

variable {s s' : Sys C} {l : Label C} {q : Slot}

theorem Move.backing (h : Move s s' q l) :
    (s'.proc q).state = .unused ∨ ((s.proc q).kstack ≠ none → (s'.proc q).kstack ≠ none) ∧
        ((s.proc q).pgdir ≠ none → (s'.proc q).pgdir ≠ none) := by
  cases h with
  | reaped _ p _ _ heq => exact .inl (by rw [heq]; rfl)
  | unstacked c p _ _ _ heq => exact .inl (by rw [heq])
  | uncopied c p _ _ _ heq => exact .inl (by rw [heq])
  | stacked c p k _ _ heq => exact .inr (by simp [heq])
  | copied c p d _ _ _ _ heq => exact .inr (by simp [heq])
  | exited c _ _ hinit _ heq =>
    obtain ⟨par, st, hfr⟩ := exitTable_frame hinit q
    exact .inr (by simp [heq, hfr])
  | orphaned c p _ _ hinit _ _ heq =>
    obtain ⟨par, st, hfr⟩ := exitTable_frame hinit q
    exact .inr (by simp [heq, hfr])
  | keep _ heq | aged c _ heq | dispatched c _ _ heq | cleared c _ heq | blocked _ _ _ _ heq
  | yielded c _ heq | slept c a _ heq | woken chan heq | trapped c _ heq
  | inherited c p prio _ _ heq | published c p _ _ _ heq => exact .inr (by simp [heq])
  | killed pid _ heq => exact .inr (by simp [heq, Proc.kill])
  | assigned pid prio _ _ heq => exact .inr (by simp [heq, Proc.setpriority])
  | allocated c p _ _ _ _ heq => exact .inr (by simp [heq, Proc.embryo])

theorem Move.born (h : Move s s' q l) (hold : ¬Alive (s.proc q).state)
    (hnew : Alive (s'.proc q).state) : ∃ p, s.fork p = .publish q := by
  cases h with
  | published c p _ hpc => exact ⟨p, hpc⟩
  | keep _ heq =>
    rw [heq] at hnew
    exact absurd hnew hold
  | aged c _ heq =>
    rw [heq, Proc.age_state] at hnew
    exact absurd hnew hold
  | assigned pid prio _ _ heq =>
    rw [heq] at hnew
    exact absurd hnew hold
  | woken chan heq =>
    rw [heq, Proc.wake_state] at hnew
    split_ifs at hnew with hs
    · exact absurd (.inl hs.1) hold
    · exact absurd hnew hold
  | killed pid _ heq =>
    simp only [heq, Proc.kill] at hnew
    split_ifs at hnew with hs
    · exact absurd (.inl hs) hold
    · exact absurd hnew hold
  | orphaned c p _ _ hinit _ _ heq =>
    rw [heq, exitTable_state hinit] at hnew
    split_ifs at hnew with hs
    · exact absurd (.inl hs.1) hold
    · exact absurd hnew hold
  | dispatched c _ hrun => exact absurd (.inr (.inl hrun)) hold
  | cleared c hrun | blocked _ _ hrun | yielded c hrun | slept c a hrun | exited c _ hrun
  | trapped c hrun => exact absurd (.inr (.inr hrun)) hold
  | reaped _ p _ _ heq => simp [heq, Proc.reap, Alive] at hnew
  | allocated c p _ _ _ _ heq => simp [heq, Proc.embryo, Alive] at hnew
  | unstacked c p _ _ _ heq | uncopied c p _ _ _ heq => simp [heq, Alive] at hnew
  | stacked c p k _ hemb heq | copied c p d _ _ _ hemb heq | inherited c p prio _ hemb heq =>
    simp [heq, hemb, Alive] at hnew

theorem kstack_of_forkStack {c : C} {k : Frame} {p np : Slot}
    (hstep : step s (.forkStack c (some k)) = some s') (hold : s.fork p = .stack np)
    (hnew : s'.fork p = .copy np) : (s'.proc np).kstack ≠ none := by
  obtain ⟨p', _, hk⟩ := unlocked_eq_some.mp hstep
  split at hk
  case h_1 np' hnp =>
      cases hk
      by_cases hp : p = p'
      · subst hp
        rw [hold] at hnp
        cases hnp
        simp [forkStack, Sys.setFork, Sys.setProc]
      · simp [forkStack, Sys.setFork, Sys.setProc, hp, hold] at hnew
  case h_2 => cases hk

theorem pgdir_of_forkCopy {c : C} {d : Frame} {p np : Slot}
    (hstep : step s (.forkCopy c (some d)) = some s') (hold : s.fork p = .copy np)
    (hnew : s'.fork p = .load np) : (s'.proc np).pgdir ≠ none := by
  obtain ⟨p', _, hk⟩ := unlocked_eq_some.mp hstep
  split at hk
  case h_1 np' hnp =>
      cases hk
      by_cases hp : p = p'
      · subst hp
        rw [hold] at hnp
        cases hnp
        simp [forkCopy, Sys.setFork, Sys.setProc]
      · simp [forkCopy, Sys.setFork, Sys.setProc, hp, hold] at hnew
  case h_2 => cases hk

theorem backInv_step (hsys : SysInv s) (h : BackInv s) (hstep : step s l = some s') :
    BackInv s' := by
  have hsys' := sysInv_step hsys hstep
  have hkeep : ∀ p np, (s'.fork p).child = some np →
      ((s.proc np).kstack ≠ none → (s'.proc np).kstack ≠ none) ∧
        ((s.proc np).pgdir ≠ none → (s'.proc np).pgdir ≠ none) := by
    intro p np hchild
    obtain hun | hsame := (move_of_step hsys hstep np).backing
    · rw [hsys'.fork.embryo p np hchild] at hun
      cases hun
    · exact hsame
  constructor
  · intro q hq
    by_cases hold : Alive (s.proc q).state
    · obtain hun | ⟨hstack, hdir⟩ := (move_of_step hsys hstep q).backing
      · simp [hun, Alive] at hq
      · exact ⟨hstack (h.live q hold).1, hdir (h.live q hold).2⟩
    · obtain ⟨p, hp⟩ := (move_of_step hsys hstep q).born hold hq
      obtain hun | ⟨hstack, hdir⟩ := (move_of_step hsys hstep q).backing
      · simp [hun, Alive] at hq
      · exact ⟨hstack (h.stacked p q (by rw [hp]; rfl)), hdir (h.mapped p q (by rw [hp]; rfl))⟩
  · intro p np hp
    have hsame := (hkeep p np (ForkPc.child_of_stacked hp)).1
    cases forkMove_of_step hstep p with
    | keep _ heq =>
      rw [heq] at hp
      exact hsame (h.stacked p np hp)
    | stack c np' k hold heq =>
      rw [heq] at hp
      cases hp
      exact kstack_of_forkStack hstep hold heq
    | copy c np' d _ hold _ heq | load c np' _ hold heq | store c np' prio hold heq =>
      rw [heq] at hp
      cases hp
      exact hsame (h.stacked p np (by rw [hold]; rfl))
    | alloc c np' _ _ _ heq | finish _ heq =>
      rw [heq] at hp
      cases hp
  intro p np hp
  have hsame := (hkeep p np (ForkPc.child_of_stacked (ForkPc.stacked_of_mapped hp))).2
  cases forkMove_of_step hstep p with
  | keep _ heq =>
    rw [heq] at hp
    exact hsame (h.mapped p np hp)
  | copy c np' d _ hold _ heq =>
    rw [heq] at hp
    cases hp
    exact pgdir_of_forkCopy hstep hold heq
  | load c np' _ hold heq | store c np' prio hold heq =>
    rw [heq] at hp
    cases hp
    exact hsame (h.mapped p np (by rw [hold]; rfl))
  | alloc c np' _ _ _ heq | stack c np' k _ heq | finish _ heq =>
    rw [heq] at hp
    cases hp

theorem backInv_of_reached (h : Reached s) : BackInv s :=
  h.invariant BackInv backInv_boot fun _ _ _ hsys hs hst => backInv_step hsys hs hst

end Steps

/-- The process that a pass from `s` to `s'` on `c` dispatched. -/
def Dispatched (s s' : Sys C) (c : C) (p : Slot) : Prop :=
  (s.cpu c).proc = none ∧ (s'.cpu c).proc = some p ∧ (s'.proc p).state = .running

section Pass

variable {s s' : Sys C} {c : C}

theorem select_eq_none_iff (h : Reached s) :
    select (age s.proc) = none ↔ ∀ q, (s.proc q).state ≠ .runnable := by
  constructor
  · intro hsel q hq
    have hlow := select_none hsel q (by simpa [age] using hq)
    have hok := ((prioInv_of_reached h).ok q (by simp [hq])).age
    have hmin := hok.1
    simp only [age] at hlow
    omega
  intro hnone
  cases hsel : select (age s.proc) with
  | none => rfl
  | some p =>
    have hrun := (select_some hsel).1
    simp only [age, Proc.age_state] at hrun
    exact absurd hrun (hnone p)

theorem pass_eq_some (h : Reached s) (hlock : s.lock = none) (hidle : (s.cpu c).mode = .idle)
    {p : Slot} (hsel : select (age s.proc) = some p) :
    step s (.pass c) = some
      { s with
        proc := set (age s.proc) p { age s.proc p with state := .running }
        lock := some c
        cpu := Function.update s.cpu c ⟨some p, .entering⟩ } := by
  have hrun := (select_some hsel).1
  simp only [age, Proc.age_state] at hrun
  obtain ⟨hstack, hdir⟩ := (backInv_of_reached h).live p (.inr (.inl hrun))
  have hback : ¬((age s.proc p).kstack = none ∨ (age s.proc p).pgdir = none) := by
    simp only [age, Proc.age_kstack, Proc.age_pgdir]
    rintro (hnone | hnone)
    · exact hstack hnone
    · exact hdir hnone
  simp only [step, pass, hlock, hidle, hsel, hback]
  rfl

/--
**Scheduler selection.**  In every state reached, a pass dispatches a process exactly if one
is RUNNABLE.  The process is RUNNABLE and has the highest priority of all RUNNABLE ones after
aging; no other state changes, and nothing of a slot that is not RUNNABLE.
-/
theorem pass_dispatches_highest (h : Reached s) (hlock : s.lock = none)
    (hidle : (s.cpu c).mode = .idle) :
    ∃ s', step s (.pass c) = some s' ∧
      ((∃ p, Dispatched s s' c p) ↔ ∃ q, (s.proc q).state = .runnable) ∧
      (∀ p, Dispatched s s' c p → (s.proc p).state = .runnable ∧
        ∀ q, (s.proc q).state = .runnable → (s'.proc q).priority ≤ (s'.proc p).priority) ∧
      (∀ q, (s'.proc q).state ≠ (s.proc q).state → Dispatched s s' c q) ∧
      ∀ q, (s.proc q).state ≠ .runnable → s'.proc q = s.proc q := by
  have hnone : (s.cpu c).proc = none := ((sysInv_of_reached h).cpu.idle_iff c).mpr hidle
  cases hsel : select (age s.proc) with
  | none =>
    have hall := (select_eq_none_iff h).mp hsel
    have hstep : step s (.pass c) = some { s with proc := age s.proc } := by
      simp only [step, pass, hlock, hidle, hsel]
      rfl
    have hnobody : ∀ p, ¬Dispatched s { s with proc := age s.proc } c p := by
      rintro p ⟨_, hp, _⟩
      rw [hnone] at hp
      cases hp
    refine ⟨_, hstep, ?_, ?_, ?_, ?_⟩
    · constructor
      · rintro ⟨p, hp⟩
        exact absurd hp (hnobody p)
      · rintro ⟨q, hq⟩
        exact absurd hq (hall q)
    · intro p hp
      exact absurd hp (hnobody p)
    · intro q hq
      simp [age] at hq
    · intro q hq
      exact Proc.age_of_not_runnable _ hq
  | some p =>
    have hmax := (select_some hsel).2.2
    have hrun := (select_some hsel).1
    simp only [age, Proc.age_state] at hrun hmax
    refine ⟨_, pass_eq_some h hlock hidle hsel, ?_, ?_, ?_, ?_⟩
    · constructor
      · intro _
        exact ⟨p, hrun⟩
      · intro _
        exact ⟨p, hnone, by simp, by simp⟩
    · rintro p' ⟨_, hp', _⟩
      obtain rfl : p = p' := by simpa using hp'
      refine ⟨hrun, ?_⟩
      intro q hq
      have hle := hmax q hq
      by_cases hqp : q = p
      · rw [hqp]
      · simpa [set_of_ne _ _ hqp, age] using hle
    · intro q hq
      have hqp : q = p := by
        by_contra hne
        simp [set_of_ne _ _ hne, age] at hq
      subst hqp
      exact ⟨hnone, by simp, by simp⟩
    · intro q hq
      have hqp : q ≠ p := by
        rintro rfl
        exact hq hrun
      simp [set_of_ne _ _ hqp, age, Proc.age_of_not_runnable _ hq]

/-- Init, with priority 3, and its child, with priority 2, are RUNNABLE. -/
theorem pass_with_two_runnable :
    ∃ s s' : Sys Bool, run step (boot Bool 1 2)
        (bootFork ++ [.setpriority 2 2, .yield true, .back true]) = some s ∧
      (s.proc 0).state = .runnable ∧ (s.proc 1).state = .runnable ∧
      step s (.pass true) = some s' ∧ ∃ p, Dispatched s s' true p := by
  obtain ⟨s, hrun, htest⟩ := exists_of_run_map step (boot Bool 1 2)
    (bootFork ++ [.setpriority 2 2, .yield true, .back true])
    (fun s => s.lock = none ∧ (s.cpu true).mode = .idle ∧ (s.proc 0).state = .runnable ∧
      (s.proc 1).state = .runnable) (by decide +kernel)
  obtain ⟨hlock, hidle, hzero, hone⟩ := of_decide_eq_true htest
  obtain ⟨s', hstep, hiff, _⟩ := pass_dispatches_highest ⟨1, 2, _, hrun⟩ hlock hidle
  exact ⟨s, s', hrun, hzero, hone, hstep, hiff.mpr ⟨0, hzero⟩⟩

end Pass

/-- The process in slot `p` stays, is RUNNABLE whenever a pass starts, and keeps its priority. -/
def Waits (p : Slot) (s : Sys C) (l : Label C) : Prop :=
  Alive (s.proc p).state ∧ (∀ c, l = .pass c → (s.proc p).state = .runnable) ∧
    ∀ pid prio, l = .setpriority pid prio → firstSlot s.proc (fun v => v.pid = pid) ≠ some p

def Label.isPass : Label C → Bool
  | .pass _ => true
  | _ => false

def agedPriority (a t : Int) (k : Nat) : Int :=
  if a < MAX_PRIORITY then min MAX_PRIORITY (a + (t + k) / AGING_THRESHOLD) else MAX_PRIORITY

section Aging

variable {s s' : Sys C} {l : Label C} {p : Slot}

theorem agedPriority_count (a t : Int) (k : Nat) :
    agedPriority a (t + 1) k = agedPriority a t (k + 1) := by
  have hsum : t + 1 + (k : Int) = t + ((k + 1 : Nat) : Int) := by
    push_cast
    ring
  simp only [agedPriority, hsum]

theorem agedPriority_promote {a t : Int} (ha : a < MAX_PRIORITY) (ht : t + 1 = AGING_THRESHOLD)
    (k : Nat) : agedPriority (a + 1) 0 k = agedPriority a t (k + 1) := by
  rw [agedPriority, agedPriority, if_pos ha]
  split_ifs with hmore
  · simp only [MAX_PRIORITY, AGING_THRESHOLD] at *
    push_cast
    omega
  · simp only [MAX_PRIORITY, AGING_THRESHOLD] at *
    push_cast
    omega

theorem agedPriority_top {a : Int} (ha : ¬a < MAX_PRIORITY) (t : Int) (k : Nat) :
    agedPriority a t k = MAX_PRIORITY := by
  simp only [agedPriority, if_neg ha]

theorem agedPriority_age {v : Proc} (h : v.PrioOk) (hrun : v.state = .runnable) (k : Nat) :
    agedPriority v.age.priority v.age.ticksWaiting k =
      agedPriority v.priority v.ticksWaiting (k + 1) := by
  unfold Proc.age
  rw [if_pos hrun]
  by_cases hlt : v.priority < MAX_PRIORITY
  · obtain ⟨h0, h1⟩ := h.2.2 hlt
    dsimp only
    rw [toInt32_succ h0 h1]
    split_ifs with hup
    · exact agedPriority_promote hlt (by omega) k
    · exact agedPriority_count v.priority v.ticksWaiting k
  · dsimp only
    rw [if_neg fun hc => hlt hc.2, agedPriority_top hlt, agedPriority_top hlt]

theorem fields_of_pass {c : C} (hstep : step s (.pass c) = some s') (p : Slot) :
    (s'.proc p).priority = (s.proc p).age.priority ∧
      (s'.proc p).ticksWaiting = (s.proc p).age.ticksWaiting := by
  obtain ⟨_, _, ⟨_, rfl⟩ | ⟨q, _, rfl⟩⟩ := pass_cases hstep
  · exact ⟨rfl, rfl⟩
  · by_cases hq : p = q
    · subst hq
      simp [age]
    · simp [set_of_ne _ _ hq, age]

theorem fields_of_move (hmove : Move s s' p l) (hstep : step s l = some s') (hwaits : Waits p s l)
    (hl : l.isPass = false) :
    (s'.proc p).priority = (s.proc p).priority ∧
      (s'.proc p).ticksWaiting = (s.proc p).ticksWaiting := by
  obtain ⟨halive, _, hset⟩ := hwaits
  cases hmove with
  | keep _ heq | cleared c _ heq | blocked _ _ _ _ heq | yielded c _ heq | slept c a _ heq
  | trapped c _ heq | woken chan heq => simp [heq]
  | killed pid _ heq => simp [heq, Proc.kill]
  | aged c | dispatched c => cases hl
  | exited c _ _ hinit _ heq =>
    obtain ⟨par, st, hfr⟩ := exitTable_frame hinit p
    simp [heq, hfr]
  | orphaned c q _ _ hinit _ _ heq =>
    obtain ⟨par, st, hfr⟩ := exitTable_frame hinit p
    simp [heq, hfr]
  | assigned pid prio =>
    have hne := hset pid prio rfl
    simp only [step] at hstep
    split_ifs at hstep
    cases hstep
    simp only [setpriority]
    split_ifs
    · exact ⟨rfl, rfl⟩
    · obtain heq | ⟨_, hfirst⟩ := writePid_apply s.proc pid (fun v => v.setpriority prio) p
      · simp [heq]
      · exact absurd hfirst hne
  | reaped _ q _ hold | allocated c q _ _ hold | unstacked c q _ _ hold | stacked c q k _ hold
  | uncopied c q _ _ hold | copied c q d _ _ _ hold | inherited c q prio _ hold
  | published c q _ _ hold => simp [hold, Alive] at halive

section
variable (h : Reached s)
include h

theorem agedPriority_step (hstep : step s l = some s') (hwaits : Waits p s l) (k : Nat) :
    agedPriority (s'.proc p).priority (s'.proc p).ticksWaiting k =
      agedPriority (s.proc p).priority (s.proc p).ticksWaiting
        (k + if l.isPass = true then 1 else 0) := by
  cases hl : l.isPass with
  | true =>
    cases l with
    | pass c =>
      have hrun := hwaits.2.1 c rfl
      have hok := (prioInv_of_reached h).ok p (by simp [hrun])
      obtain ⟨hprio, hticks⟩ := fields_of_pass hstep p
      rw [hprio, hticks]
      exact agedPriority_age hok hrun k
    | _ => cases hl
  | false =>
    have hmove := move_of_step (sysInv_of_reached h) hstep p
    obtain ⟨hprio, hticks⟩ := fields_of_move hmove hstep hwaits hl
    rw [hprio, hticks]
    rfl

theorem Reached.step (hstep : Ptable.step s l = some s') : Reached s' := by
  obtain ⟨kstack, pgdir, hr⟩ := h
  exact ⟨kstack, pgdir, hr.tail hstep⟩

theorem agedPriority_run {ls : List (Label C)} (hwaits : Meets step (Waits p) s ls)
    (hrun : run step s ls = some s') (k : Nat) :
    agedPriority (s'.proc p).priority (s'.proc p).ticksWaiting k =
      agedPriority (s.proc p).priority (s.proc p).ticksWaiting
        (k + ls.countP Label.isPass) := by
  induction ls generalizing s with
  | nil =>
    cases hrun
    rfl
  | cons l ls ih =>
    obtain ⟨t, hst, hts⟩ := run_cons_eq_some.mp hrun
    have hone := agedPriority_step h hst hwaits.1 (k + ls.countP Label.isPass)
    have hrest := ih (h.step hst) (hwaits.2 t hst) hts
    rw [hrest, hone, List.countP_cons, Nat.add_assoc]

theorem agedPriority_zero (hlive : (s.proc p).state ≠ .unused) :
    agedPriority (s.proc p).priority (s.proc p).ticksWaiting 0 = (s.proc p).priority := by
  obtain ⟨_, hhi, ht⟩ := (prioInv_of_reached h).ok p hlive
  by_cases hlt : (s.proc p).priority < MAX_PRIORITY
  · obtain ⟨h0, h1⟩ := ht hlt
    rw [agedPriority, if_pos hlt]
    simp only [MAX_PRIORITY, AGING_THRESHOLD] at *
    push_cast
    omega
  · rw [agedPriority_top hlt]
    omega

end

theorem Move.stays (h : Move s s' p l) (halive : Alive (s.proc p).state) :
    (s'.proc p).state ≠ .unused := by
  intro hun
  cases h with
  | keep _ heq | aged c _ heq | dispatched c _ _ heq | cleared c _ heq | blocked _ _ _ _ heq
  | yielded c _ heq | slept c a _ heq | exited c _ _ _ _ heq | trapped c _ heq
  | assigned pid prio _ _ heq => simp_all [Alive, Proc.setpriority]
  | orphaned c q _ _ hinit _ _ heq =>
    rw [heq, exitTable_state_iff hinit .unused (by simp) (by simp)] at hun
    simp [hun, Alive] at halive
  | woken chan heq =>
    rw [heq, Proc.wake_state_iff _ _ (by simp) (by simp)] at hun
    simp [hun, Alive] at halive
  | killed pid _ heq =>
    rw [heq, Proc.kill_state_iff _ (by simp) (by simp)] at hun
    simp [hun, Alive] at halive
  | reaped _ q _ hold | allocated c q _ _ hold | unstacked c q _ _ hold | stacked c q k _ hold
  | uncopied c q _ _ hold | copied c q d _ _ _ hold | inherited c q prio _ hold
  | published c q _ _ hold => simp [hold, Alive] at halive

theorem reached_run {ls : List (Label C)} (h : Reached s) (halive : Alive (s.proc p).state)
    (hwaits : Meets step (Waits p) s ls) (hrun : run step s ls = some s') :
    Reached s' ∧ (s'.proc p).state ≠ .unused := by
  induction ls generalizing s with
  | nil =>
    cases hrun
    refine ⟨h, ?_⟩
    intro hun
    simp [hun, Alive] at halive
  | cons l ls ih =>
    obtain ⟨t, hst, hts⟩ := run_cons_eq_some.mp hrun
    cases ls with
    | nil =>
      cases hts
      exact ⟨h.step hst, (move_of_step (sysInv_of_reached h) hst p).stays halive⟩
    | cons l' ls =>
      have hrest := hwaits.2 t hst
      exact ih (h.step hst) hrest.1.1 hrest hts

/--
**Closed form of aging.**  If the process in slot `p` is RUNNABLE at the start of each of `k`
passes, whatever happens between them, its priority `a` becomes `a + (t + k) / 100`, where `t`
was its wait counter, and at most the highest one; 400 passes are always enough for that.
-/
theorem priority_after_passes {ls : List (Label C)} (h : Reached s)
    (halive : Alive (s.proc p).state) (hwaits : Meets step (Waits p) s ls)
    (hrun : run step s ls = some s') :
    (s'.proc p).priority = (if (s.proc p).priority < MAX_PRIORITY then
          min MAX_PRIORITY ((s.proc p).priority +
            ((s.proc p).ticksWaiting + (ls.countP Label.isPass : Nat)) / AGING_THRESHOLD)
        else MAX_PRIORITY) ∧
      (400 ≤ ls.countP Label.isPass → (s'.proc p).priority = MAX_PRIORITY) := by
  obtain ⟨hreach, hlive⟩ := reached_run h halive hwaits hrun
  have hclosed := agedPriority_run h hwaits hrun 0
  rw [agedPriority_zero hreach hlive, Nat.zero_add] at hclosed
  refine ⟨hclosed, ?_⟩
  intro hmany
  have hused : (s.proc p).state ≠ .unused := by
    intro hun
    simp [hun, Alive] at halive
  obtain ⟨hlo, _, ht⟩ := (prioInv_of_reached h).ok p hused
  rw [hclosed]
  by_cases hlt : (s.proc p).priority < MAX_PRIORITY
  · have hnonneg := (ht hlt).1
    rw [agedPriority, if_pos hlt]
    simp only [MAX_PRIORITY, MIN_PRIORITY, AGING_THRESHOLD] at *
    omega
  · exact agedPriority_top hlt _ _

def hundredTurns : List (Label Bool) :=
  (List.replicate 100 [.yield true, .back true, .pass true, .resume true]).flatten

def waitsTest (p : Slot) (s : Sys Bool) : Label Bool → Bool
  | .pass _ => (s.proc p).state = .runnable
  | .setpriority _ _ => false
  | _ => Alive (s.proc p).state

theorem waits_of_test {s : Sys Bool} {l : Label Bool} {p : Slot} (h : waitsTest p s l = true) :
    Waits p s l := by
  cases l with
  | pass c =>
    have hrun := of_decide_eq_true h
    exact ⟨.inr (.inl hrun), fun _ _ => hrun, by rintro _ _ ⟨⟩⟩
  | setpriority pid prio => cases h
  | _ => exact ⟨of_decide_eq_true h, by rintro _ ⟨⟩, by rintro _ _ ⟨⟩⟩

def childWaits (s : Sys Bool) : Bool :=
  Alive (s.proc 1).state ∧ (s.proc 1).priority = 2 ∧ (s.proc 1).ticksWaiting = 0 ∧
    meetsTest step (waitsTest 1) s hundredTurns = true ∧ (run step s hundredTurns).isSome

theorem exists_childWaits :
    ∃ s, run step (boot Bool 1 2) (bootFork ++ [.setpriority 2 2]) = some s ∧ childWaits s = true :=
  exists_of_run_map step _ _ childWaits (by decide +kernel)

/-- The child of init, with priority 2, is promoted. -/
theorem child_promoted :
    ∃ s s' : Sys Bool, run step (boot Bool 1 2) (bootFork ++ [.setpriority 2 2]) = some s ∧
      (s.proc 1).priority = 2 ∧ run step s hundredTurns = some s' ∧
      (s'.proc 1).priority = 3 := by
  obtain ⟨s, hrun, hwaits⟩ := exists_childWaits
  obtain ⟨halive, hprio, hticks, hmeets, hturns⟩ := of_decide_eq_true hwaits
  obtain ⟨s', hrun'⟩ := Option.isSome_iff_exists.mp hturns
  have hclosed := (priority_after_passes ⟨1, 2, _, hrun⟩ halive
    ((meets_of_meetsTest hmeets).mono fun _ _ => waits_of_test) hrun').1
  rw [hprio, hticks, show hundredTurns.countP Label.isPass = 100 by decide +kernel] at hclosed
  exact ⟨s, s', hrun, hprio, hrun', hclosed.trans (by decide)⟩

end Aging

end Scheduler

end Xv6.Ptable
