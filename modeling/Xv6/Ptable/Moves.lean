import Xv6.Ptable.CpuOwnership

/-!
# What a step does to one slot

`Move s s' q l` lists everything that the step `l` from `s` to `s'` can do to
the slot `q`, with the guard under which it does so.  The invariants of single
slots are case distinctions over this list.
-/

namespace Xv6.Ptable

open Lib Sys

set_option linter.unusedSectionVars false

section Moves

variable {C : Type} [DecidableEq C]

section Exit

variable {s : Sys C} {p : Slot}

section
variable (hne : p ≠ s.initproc)
include hne

theorem exitTable_frame (q : Slot) :
    ∃ par st, s.exitTable p q = { s.proc q with parent := par, state := st } := by
  obtain ⟨par, st, heq⟩ :=
    reparent_frame (t := wakeup1 s.proc ((s.proc p).parent.map .proc)) hne q
  refine ⟨par, st, ?_⟩
  unfold exitTable
  rw [heq]
  unfold wakeup1 Proc.wake
  split <;> rfl

theorem exitTable_parent (q : Slot) :
    (s.exitTable p q).parent =
      if (s.proc q).parent = some p then some s.initproc else (s.proc q).parent := by
  unfold exitTable
  rw [reparent_parent hne]
  simp [wakeup1]

theorem exitTable_state (q : Slot) :
    (s.exitTable p q).state = if (s.proc q).state = .sleeping ∧
          ((s.proc q).chan = (s.proc p).parent.map .proc ∨
            (s.proc q).chan = some (.proc s.initproc) ∧
              ∃ r, (s.proc r).parent = some p ∧ (s.proc r).state = .zombie) then
        .runnable
      else (s.proc q).state := by
  have hz : ∀ r, (wakeup1 s.proc ((s.proc p).parent.map .proc) r).state = .zombie ↔
      (s.proc r).state = .zombie :=
    fun r => Proc.wake_state_iff _ _ (by simp) (by simp)
  unfold exitTable
  rw [reparent_state hne]
  simp only [hz]
  simp only [wakeup1, Proc.wake_state, Proc.wake_chan, Proc.wake_parent]
  by_cases hs : (s.proc q).state = .sleeping
  · by_cases hc : (s.proc q).chan = (s.proc p).parent.map .proc
    · simp [hs, hc]
    · simp [hs, hc]
  · simp [hs]

theorem exitTable_state_iff (st : ProcState) (h1 : st ≠ .sleeping)
    (h2 : st ≠ .runnable) (q : Slot) : (s.exitTable p q).state = st ↔ (s.proc q).state = st := by
  rw [exitTable_state hne]
  split_ifs with h
  · simp [h.1, h1.symm, h2.symm]
  · rfl

end

end Exit

/-- What a step with this label can do to slot `q`. -/
inductive Move (s s' : Sys C) (q : Slot) : Label C → Prop
  | keep (l : Label C)
      (heq : s'.proc q = s.proc q) :
      Move s s' q l
  | aged (c : C)
      (hsel : select (age s.proc) ≠ some q)
      (heq : s'.proc q = (s.proc q).age) :
      Move s s' q (.pass c)
  | dispatched (c : C)
      (hsel : select (age s.proc) = some q)
      (hold : (s.proc q).state = .runnable)
      (heq : s'.proc q = { (s.proc q).age with state := .running }) :
      Move s s' q (.pass c)
  | cleared (c : C)
      (hold : (s.proc q).state = .running)
      (heq : s'.proc q = { s.proc q with chan := none }) :
      Move s s' q (.resume c)
  | blocked (l : Label C)
      (hl : ∀ c, l ≠ .exit c)
      (hold : (s.proc q).state = .running)
      (hkids : ∀ p, (s.proc p).parent = some q → (s.proc p).state ≠ .zombie)
      (heq : s'.proc q =
        { s.proc q with chan := some (.proc q), state := .sleeping, context := .wait }) :
      Move s s' q l
  | reaped (l : Label C) (p : Slot)
      (hw : waitReturns s l = some (p, q))
      (hold : (s.proc q).state = .zombie)
      (heq : s'.proc q = (s.proc q).reap) :
      Move s s' q l
  | yielded (c : C)
      (hold : (s.proc q).state = .running)
      (heq : s'.proc q = { s.proc q with state := .runnable, context := .yield }) :
      Move s s' q (.yield c)
  | slept (c : C) (a : Nat)
      (hold : (s.proc q).state = .running)
      (heq : s'.proc q =
        { s.proc q with chan := some (.addr a), state := .sleeping, context := .sleep }) :
      Move s s' q (.sleep c a)
  | exited (c : C)
      (hcur : s.current c = some q)
      (hold : (s.proc q).state = .running)
      (hinit : q ≠ s.initproc)
      (hpc : s.fork q = .none)
      (heq : s'.proc q = { s.exitTable q q with state := .zombie, ofile := fun _ => none }) :
      Move s s' q (.exit c)
  | orphaned (c : C) (p : Slot)
      (hcur : s.current c = some p)
      (hold : (s.proc p).state = .running)
      (hinit : p ≠ s.initproc)
      (hpc : s.fork p = .none)
      (hne : q ≠ p)
      (heq : s'.proc q = s.exitTable p q) :
      Move s s' q (.exit c)
  | woken (chan : Chan)
      (heq : s'.proc q = (s.proc q).wake (some chan)) :
      Move s s' q (.wakeup chan)
  | killed (pid : Int)
      (hfirst : firstSlot s.proc (fun v => v.pid = pid) = some q)
      (heq : s'.proc q = (s.proc q).kill) :
      Move s s' q (.kill pid)
  | assigned (pid prio : Int)
      (hlo : 1 ≤ prio) (hhi : prio ≤ 5)
      (heq : s'.proc q = (s.proc q).setpriority prio) :
      Move s s' q (.setpriority pid prio)
  | trapped (c : C)
      (hold : (s.proc q).state = .running)
      (heq : s'.proc q = { s.proc q with killed := true }) :
      Move s s' q (.trap c)
  | allocated (c : C) (p : Slot)
      (hcur : s.current c = some p)
      (hfirst : firstSlot s.proc (fun v => v.state = .unused) = some q)
      (hold : (s.proc q).state = .unused)
      (hpc : s'.fork p = .stack q)
      (heq : s'.proc q = (s.proc q).embryo s.nextpid) :
      Move s s' q (.forkAlloc c)
  | unstacked (c : C) (p : Slot)
      (hcur : s.current c = some p)
      (hpc : s.fork p = .stack q)
      (hold : (s.proc q).state = .embryo)
      (heq : s'.proc q = { s.proc q with kstack := none, state := .unused }) :
      Move s s' q (.forkStack c none)
  | stacked (c : C) (p : Slot) (k : Frame)
      (hpc : s.fork p = .stack q)
      (hold : (s.proc q).state = .embryo)
      (heq : s'.proc q = { s.proc q with kstack := some k, context := .forkret }) :
      Move s s' q (.forkStack c (some k))
  | uncopied (c : C) (p : Slot)
      (hcur : s.current c = some p)
      (hpc : s.fork p = .copy q)
      (hold : (s.proc q).state = .embryo)
      (heq : s'.proc q = { s.proc q with pgdir := none, kstack := none, state := .unused }) :
      Move s s' q (.forkCopy c none)
  | copied (c : C) (p : Slot) (d : Frame)
      (hcur : s.current c = some p)
      (hpc : s.fork p = .copy q)
      (hnext : s'.fork p = .load q)
      (hold : (s.proc q).state = .embryo)
      (heq : s'.proc q = { s.proc q with pgdir := some d, sz := (s.proc p).sz, parent := some p }) :
      Move s s' q (.forkCopy c (some d))
  | inherited (c : C) (p : Slot) (prio : Int)
      (hpc : s.fork p = .store q prio)
      (hold : (s.proc q).state = .embryo)
      (heq : s'.proc q = { s.proc q with priority := prio }) :
      Move s s' q (.forkStore c)
  | published (c : C) (p : Slot)
      (hcur : s.current c = some p)
      (hpc : s.fork p = .publish q)
      (hold : (s.proc q).state = .embryo)
      (heq : s'.proc q =
        { s.proc q with
          ofile := fun i => ((s.proc p).ofile i).or ((s.proc q).ofile i)
          state := .runnable }) :
      Move s s' q (.forkPublish c)

section Step

variable {s s' : Sys C} {c : C} {p np : Slot}

theorem Move.of_ne (l : Label C) {v : Proc} {q : Slot} (hs' : s'.proc = set s.proc p v)
    (hq : q ≠ p) : Move s s' q l :=
  .keep l (by rw [hs', set_of_ne _ _ hq])

theorem Move.of_same (l : Label C) {q : Slot} (hs' : s'.proc = s.proc) : Move s s' q l :=
  .keep l (by rw [hs'])

theorem move_waitTurn (hinv : SysInv s) (hon : OnCpu s c p) (l : Label C) (ch : Option Chan)
    (hl : ∀ c, l ≠ .exit c) (hw : waitReturns s l =
      (reapedBy (set s.proc p { s.proc p with chan := ch }) p).map fun k => (p, k))
    (hself : ∀ s' : Sys C, s'.proc p = { s.proc p with chan := ch } → Move s s' p l) (q : Slot) :
    Move s ((s.setProc p { s.proc p with chan := ch }).waitTurn c p) q l := by
  have hrun := hinv.cpu.state_of_onCpu hon
  have hother : ∀ {r}, r ≠ p →
      (s.setProc p { s.proc p with chan := ch }).proc r = s.proc r := by
    intro r hr
    exact set_of_ne _ _ hr
  rcases waitTurn_cases (s.setProc p { s.proc p with chan := ch }) c p with
    ⟨k, hk, heq⟩ | heq | ⟨hb, heq⟩
  · rw [heq]
    have hz := (waitScan_reap hk).2
    have hkp : k ≠ p := by
      rintro rfl
      simp [Sys.setProc, hrun] at hz
    rw [hother hkp] at hz ⊢
    by_cases hq : q = k
    · subst hq
      have hret : waitReturns s l = some (p, q) := by
        have hreap : reapedBy (set s.proc p { s.proc p with chan := ch }) p = some q :=
          reapedBy_eq_some.mpr hk
        rw [hw, hreap]
        rfl
      exact .reaped l p hret hz (by simp [Sys.release, Sys.setProc])
    · by_cases hqp : q = p
      · subst hqp
        exact hself _ (by simp [Sys.release, Sys.setProc, set_of_ne _ _ hq])
      · exact .keep l (by simp [Sys.release, Sys.setProc, set_of_ne _ _ hq, set_of_ne _ _ hqp])
  · rw [heq]
    by_cases hqp : q = p
    · subst hqp
      exact hself _ (by simp [Sys.release, Sys.setProc])
    · exact .keep l (by simp [Sys.release, Sys.setProc, set_of_ne _ _ hqp])
  rw [heq]
  by_cases hqp : q = p
  · subst hqp
    refine .blocked l hl hrun ?_ (by simp [Sys.leave, Sys.setProc])
    intro r hr
    by_cases hrq : r = q
    · rw [hrq, hrun]
      simp
    · have := waitScan_block hb r
      rw [hother hrq] at this
      exact this hr
  · exact .keep l (by simp [Sys.leave, Sys.setProc, set_of_ne _ _ hqp])

theorem move_of_step (hinv : SysInv s) {l : Label C} (hstep : step s l = some s') (q : Slot) :
    Move s s' q l := by
  cases l with
  | pass c =>
    obtain ⟨_, _, hcase⟩ := pass_cases hstep
    rcases hcase with ⟨hsel, rfl⟩ | ⟨p, hsel, rfl⟩
    · exact .aged c (by simp [hsel]) rfl
    have hrun := (select_some hsel).1
    by_cases hq : q = p
    · subst hq
      exact .dispatched c hsel (by simpa [age] using hrun) (by simp [age])
    · refine .aged c ?_ (by simp [set_of_ne _ _ hq, age])
      rw [hsel]
      simpa using fun heq => hq heq.symm
  | resume c =>
    obtain ⟨hm, p, hp, hcase⟩ := resume_cases hstep
    have hon : OnCpu s c p := ⟨hp, .inl hm⟩
    have hrun := hinv.cpu.state_of_onCpu hon
    rcases hcase with rfl | rfl | ⟨hx, rfl⟩
    · exact Move.of_same _ rfl
    · by_cases hq : q = p
      · subst hq
        exact .cleared c hrun (by simp [Sys.release, Sys.setProc])
      · exact Move.of_ne (p := p) _ rfl hq
    · exact move_waitTurn hinv hon _ none (by simp) (by simp [waitReturns, hp, hx])
        (fun _ heq => .cleared c hrun heq) q
  | back c =>
    simp only [step] at hstep
    split_ifs at hstep
    cases hstep
    exact Move.of_same _ rfl
  | yield c =>
    obtain ⟨p, hc, hl, hk⟩ := locked_eq_some.mp hstep
    have hrun := hinv.cpu.state_of_onCpu (onCpu_of_current hc hl)
    cases hk
    by_cases hq : q = p
    · subst hq
      exact .yielded c hrun (by simp [Sys.leave])
    · exact Move.of_ne (p := p) _ rfl hq
  | sleep c a =>
    obtain ⟨p, hc, hl, hk⟩ := locked_eq_some.mp hstep
    have hrun := hinv.cpu.state_of_onCpu (onCpu_of_current hc hl)
    split_ifs at hk
    cases hk
    by_cases hq : q = p
    · subst hq
      exact .slept c a hrun (by simp [Sys.leave])
    · exact Move.of_ne (p := p) _ rfl hq
  | exit c =>
    obtain ⟨p, hc, hl, hk⟩ := locked_eq_some.mp hstep
    have hrun := hinv.cpu.state_of_onCpu (onCpu_of_current hc hl)
    split_ifs at hk with hg
    cases hk
    by_cases hq : q = p
    · subst hq
      exact .exited c hc hrun hg.2 hg.1 (by simp [Sys.leave])
    · exact .orphaned c p hc hrun hg.2 hg.1 hq (by simp [Sys.leave, set_of_ne _ _ hq])
  | wait c =>
    obtain ⟨p, hc, hl, hk⟩ := locked_eq_some.mp hstep
    split_ifs at hk
    cases hk
    have hsame : set s.proc p { s.proc p with chan := (s.proc p).chan } = s.proc := by
      simp [Ptable.set]
    have hmove := move_waitTurn hinv (onCpu_of_current hc hl) (.wait c) (s.proc p).chan
      (by simp) (by rw [hsame]; simp [waitReturns, hc]) (fun _ heq => .keep _ heq) q
    rwa [Sys.setProc, hsame] at hmove
  | wakeup chan =>
    simp only [step] at hstep
    split_ifs at hstep
    cases hstep
    exact .woken chan rfl
  | kill pid =>
    simp only [step] at hstep
    split_ifs at hstep
    cases hstep
    rcases kill_apply s.proc pid q with heq | ⟨heq, hf⟩
    · exact .keep _ heq
    · exact .killed pid hf heq
  | setpriority pid prio =>
    simp only [step] at hstep
    split_ifs at hstep
    cases hstep
    rcases setpriority_apply s.proc pid prio q with heq | ⟨heq, hlo, hhi⟩
    · exact .keep _ heq
    · exact .assigned pid prio hlo hhi heq
  | trap c =>
    obtain ⟨p, hc, hk⟩ := unlocked_eq_some.mp hstep
    obtain ⟨hm, hp⟩ := current_eq_some.mp hc
    have hrun := hinv.cpu.current c p hp (by simp [hm])
    cases hk
    by_cases hq : q = p
    · subst hq
      exact .trapped c hrun (by simp [Sys.setProc])
    · exact Move.of_ne (p := p) _ rfl hq
  | forkAlloc c =>
    obtain ⟨p, hc, hl, hk⟩ := locked_eq_some.mp hstep
    split_ifs at hk with hg
    cases hk
    rcases forkAlloc_cases s p with heq | ⟨np, hnp, heq⟩
    · rw [heq]
      exact Move.of_same _ rfl
    · rw [heq]
      by_cases hq : q = np
      · subst hq
        exact .allocated c p hc hnp (by simpa using firstSlot_some hnp)
          (by simp [Sys.setFork]) (by simp [Sys.setFork])
      · exact Move.of_ne (p := np) _ rfl hq
  | forkStack c mem =>
    obtain ⟨p, hc, hk⟩ := unlocked_eq_some.mp hstep
    split at hk
    · rename_i np hnp
      have hemb := hinv.fork.embryo p np (by rw [hnp]; rfl)
      cases hk
      cases mem with
      | none =>
        by_cases hq : q = np
        · subst hq
          exact .unstacked c p hc hnp hemb (by simp [forkStack, Sys.setFork, Sys.setProc])
        · exact Move.of_ne (p := np) _ rfl hq
      | some k =>
        by_cases hq : q = np
        · subst hq
          exact .stacked c p k hnp hemb (by simp [forkStack, Sys.setFork, Sys.setProc])
        · exact Move.of_ne (p := np) _ rfl hq
    · cases hk
  | forkCopy c dir =>
    obtain ⟨p, hc, hk⟩ := unlocked_eq_some.mp hstep
    split at hk
    · rename_i np hnp
      have hemb := hinv.fork.embryo p np (by rw [hnp]; rfl)
      cases hk
      cases dir with
      | none =>
        by_cases hq : q = np
        · subst hq
          exact .uncopied c p hc hnp hemb (by simp [forkCopy, Sys.setFork, Sys.setProc])
        · exact Move.of_ne (p := np) _ rfl hq
      | some d =>
        by_cases hq : q = np
        · subst hq
          exact .copied c p d hc hnp (by simp [forkCopy, Sys.setFork]) hemb
            (by simp [forkCopy, Sys.setFork, Sys.setProc])
        · exact Move.of_ne (p := np) _ rfl hq
    · cases hk
  | forkLoad c =>
    obtain ⟨p, hc, hk⟩ := unlocked_eq_some.mp hstep
    split at hk
    · cases hk
      exact Move.of_same _ rfl
    · cases hk
  | forkStore c =>
    obtain ⟨p, hc, hk⟩ := unlocked_eq_some.mp hstep
    split at hk
    · rename_i np prio hnp
      have hemb := hinv.fork.embryo p np (by rw [hnp]; rfl)
      cases hk
      by_cases hq : q = np
      · subst hq
        exact .inherited c p prio hnp hemb (by simp [Sys.setFork, Sys.setProc])
      · exact Move.of_ne (p := np) _ rfl hq
    · cases hk
  | forkPublish c =>
    obtain ⟨p, hc, hl, hk⟩ := locked_eq_some.mp hstep
    split at hk
    · rename_i np hnp
      have hemb := hinv.fork.embryo p np (by rw [hnp]; rfl)
      cases hk
      by_cases hq : q = np
      · subst hq
        exact .published c p hc hnp hemb (by simp [Sys.setFork, Sys.setProc])
      · exact Move.of_ne (p := np) _ rfl hq
    · cases hk

end Step

inductive ForkMove (s s' : Sys C) (p : Slot) : Label C → Prop
  | keep (l : Label C)
      (heq : s'.fork p = s.fork p) :
      ForkMove s s' p l
  | alloc (c : C) (np : Slot)
      (hcur : s.current c = some p)
      (hold : s.fork p = .none)
      (hun : (s.proc np).state = .unused)
      (heq : s'.fork p = .stack np) :
      ForkMove s s' p (.forkAlloc c)
  | stack (c : C) (np : Slot) (k : Frame)
      (hold : s.fork p = .stack np)
      (heq : s'.fork p = .copy np) :
      ForkMove s s' p (.forkStack c (some k))
  | copy (c : C) (np : Slot) (d : Frame)
      (hcur : s.current c = some p)
      (hold : s.fork p = .copy np)
      (hpar : (s'.proc np).parent = some p)
      (heq : s'.fork p = .load np) :
      ForkMove s s' p (.forkCopy c (some d))
  | load (c : C) (np : Slot)
      (hcur : s.current c = some p)
      (hold : s.fork p = .load np)
      (heq : s'.fork p = .store np (s.proc p).priority) :
      ForkMove s s' p (.forkLoad c)
  | store (c : C) (np : Slot) (prio : Int)
      (hold : s.fork p = .store np prio)
      (heq : s'.fork p = .publish np) :
      ForkMove s s' p (.forkStore c)
  | finish (l : Label C)
      (heq : s'.fork p = .none) :
      ForkMove s s' p l

section ForkStep

variable {s s' : Sys C} {c : C} {p : Slot}

theorem waitTurn_fork (s : Sys C) (c : C) (p : Slot) : (s.waitTurn c p).fork = s.fork := by
  rcases waitTurn_cases s c p with ⟨k, _, heq⟩ | heq | ⟨_, heq⟩ <;> rw [heq] <;> rfl

theorem ForkMove.of_ne (l : Label C) {q : Slot} {pc : ForkPc}
    (hs' : s'.fork = Function.update s.fork q pc) (hp : p ≠ q) : ForkMove s s' p l :=
  .keep l (by rw [hs', Function.update_of_ne hp])

theorem forkMove_of_step {l : Label C} (hstep : step s l = some s') (p : Slot) :
    ForkMove s s' p l := by
  cases l with
  | pass c =>
    obtain ⟨_, _, hcase⟩ := pass_cases hstep
    rcases hcase with ⟨_, rfl⟩ | ⟨_, _, rfl⟩ <;> exact .keep _ rfl
  | resume c =>
    obtain ⟨_, q, _, hcase⟩ := resume_cases hstep
    rcases hcase with rfl | rfl | ⟨_, rfl⟩
    · exact .keep _ rfl
    · exact .keep _ rfl
    · exact .keep _ (by rw [waitTurn_fork]; rfl)
  | wait c =>
    obtain ⟨q, _, _, hk⟩ := locked_eq_some.mp hstep
    split_ifs at hk
    cases hk
    exact .keep _ (by rw [waitTurn_fork])
  | yield c =>
    obtain ⟨q, _, _, hk⟩ := locked_eq_some.mp hstep
    cases hk
    exact .keep _ rfl
  | sleep c a =>
    obtain ⟨q, _, _, hk⟩ := locked_eq_some.mp hstep
    split_ifs at hk
    cases hk
    exact .keep _ rfl
  | exit c =>
    obtain ⟨q, _, _, hk⟩ := locked_eq_some.mp hstep
    split_ifs at hk
    cases hk
    exact .keep _ rfl
  | back c | wakeup chan | kill pid | setpriority pid prio =>
    simp only [step] at hstep
    split_ifs at hstep
    cases hstep
    exact .keep _ rfl
  | trap c =>
    obtain ⟨q, _, hk⟩ := unlocked_eq_some.mp hstep
    cases hk
    exact .keep _ rfl
  | forkAlloc c =>
    obtain ⟨q, hc, _, hk⟩ := locked_eq_some.mp hstep
    split_ifs at hk with hg
    cases hk
    rcases forkAlloc_cases s q with heq | ⟨np, hnp, heq⟩
    · exact .keep _ (by rw [heq])
    · rw [heq]
      by_cases hp : p = q
      · subst hp
        exact .alloc c np hc hg (by simpa using firstSlot_some hnp) (by simp [Sys.setFork])
      · exact ForkMove.of_ne _ rfl hp
  | forkStack c mem =>
    obtain ⟨q, _, hk⟩ := unlocked_eq_some.mp hstep
    split at hk
    · rename_i np hnp
      cases hk
      by_cases hp : p = q
      · subst hp
        cases mem with
        | none => exact .finish _ (by simp [forkStack, Sys.setFork])
        | some k => exact .stack c np k hnp (by simp [forkStack, Sys.setFork])
      · cases mem with
        | none => exact ForkMove.of_ne _ rfl hp
        | some k => exact ForkMove.of_ne _ rfl hp
    · cases hk
  | forkCopy c dir =>
    obtain ⟨q, hc, hk⟩ := unlocked_eq_some.mp hstep
    split at hk
    · rename_i np hnp
      cases hk
      by_cases hp : p = q
      · subst hp
        cases dir with
        | none => exact .finish _ (by simp [forkCopy, Sys.setFork])
        | some d =>
          exact .copy c np d hc hnp (by simp [forkCopy, Sys.setFork, Sys.setProc])
            (by simp [forkCopy, Sys.setFork])
      · cases dir with
        | none => exact ForkMove.of_ne _ rfl hp
        | some d => exact ForkMove.of_ne _ rfl hp
    · cases hk
  | forkLoad c =>
    obtain ⟨q, hc, hk⟩ := unlocked_eq_some.mp hstep
    split at hk
    · rename_i np hnp
      cases hk
      by_cases hp : p = q
      · subst hp
        exact .load c np hc hnp (by simp [Sys.setFork])
      · exact ForkMove.of_ne _ rfl hp
    · cases hk
  | forkStore c =>
    obtain ⟨q, hc, hk⟩ := unlocked_eq_some.mp hstep
    split at hk
    · rename_i np prio hnp
      cases hk
      by_cases hp : p = q
      · subst hp
        exact .store c np prio hnp (by simp [Sys.setFork])
      · exact ForkMove.of_ne _ rfl hp
    · cases hk
  | forkPublish c =>
    obtain ⟨q, hc, _, hk⟩ := locked_eq_some.mp hstep
    split at hk
    · rename_i np hnp
      cases hk
      by_cases hp : p = q
      · subst hp
        exact .finish _ (by simp [Sys.setFork])
      · exact ForkMove.of_ne _ rfl hp
    · cases hk

end ForkStep

end Moves

end Xv6.Ptable
