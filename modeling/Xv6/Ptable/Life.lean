import Xv6.Ptable.Moves

/-!
# The life of a process

A process comes into being in `fork`, which allocates a slot, gives it a parent
and makes it RUNNABLE in three separate steps, ends in `exit`, and leaves its
slot when `wait` returns its pid.  `Life` lists what a step can mean for the
process in one slot.  `shows` is the event that the step adds to the history of
the run; it is read off the label and the state, and `Life` relates it to the
change of the slot.
-/

namespace Xv6.Ptable

open Lib Sys

set_option linter.unusedSectionVars false

section LifeCycle

variable {C : Type} [DecidableEq C]

/-- States between the end of `fork` and `exit`. -/
def Alive (st : ProcState) : Prop :=
  st = .sleeping ∨ st = .runnable ∨ st = .running

instance (st : ProcState) : Decidable (Alive st) :=
  inferInstanceAs (Decidable (_ ∨ _))

section Globals

variable {s s' : Sys C} {l : Label C}

theorem step_globals (hstep : step s l = some s') :
    s'.initproc = s.initproc ∧ ((∀ c, l ≠ .forkAlloc c) → s'.nextpid = s.nextpid) := by
  have hturn : ∀ (t : Sys C) c p,
      (t.waitTurn c p).initproc = t.initproc ∧ (t.waitTurn c p).nextpid = t.nextpid := by
    intro t c p
    rcases waitTurn_cases t c p with ⟨k, _, heq⟩ | heq | ⟨_, heq⟩ <;> rw [heq] <;>
      exact ⟨rfl, rfl⟩
  cases l with
  | pass c =>
    obtain ⟨_, _, hcase⟩ := pass_cases hstep
    rcases hcase with ⟨_, rfl⟩ | ⟨_, _, rfl⟩ <;> exact ⟨rfl, fun _ => rfl⟩
  | resume c =>
    obtain ⟨_, p, _, hcase⟩ := resume_cases hstep
    rcases hcase with rfl | rfl | ⟨_, rfl⟩
    · exact ⟨rfl, fun _ => rfl⟩
    · exact ⟨rfl, fun _ => rfl⟩
    · obtain ⟨hi, hn⟩ := hturn (s.setProc p { s.proc p with chan := none }) c p
      exact ⟨hi, fun _ => hn⟩
  | wait c =>
    obtain ⟨p, _, _, hk⟩ := locked_eq_some.mp hstep
    split_ifs at hk
    cases hk
    exact ⟨(hturn s c p).1, fun _ => (hturn s c p).2⟩
  | yield c =>
    obtain ⟨p, _, _, hk⟩ := locked_eq_some.mp hstep
    cases hk
    exact ⟨rfl, fun _ => rfl⟩
  | sleep c a | exit c =>
    obtain ⟨p, _, _, hk⟩ := locked_eq_some.mp hstep
    split_ifs at hk
    cases hk
    exact ⟨rfl, fun _ => rfl⟩
  | back c | wakeup chan | kill pid | setpriority pid prio =>
    simp only [step] at hstep
    split_ifs at hstep
    cases hstep
    exact ⟨rfl, fun _ => rfl⟩
  | trap c =>
    obtain ⟨p, _, hk⟩ := unlocked_eq_some.mp hstep
    cases hk
    exact ⟨rfl, fun _ => rfl⟩
  | forkAlloc c =>
    obtain ⟨p, _, _, hk⟩ := locked_eq_some.mp hstep
    split_ifs at hk
    cases hk
    refine ⟨?_, fun hne => absurd rfl (hne c)⟩
    rcases forkAlloc_cases s p with heq | ⟨np, _, heq⟩
    · rw [heq]
    · rw [heq]
      rfl
  | forkStack c mem =>
    obtain ⟨p, _, hk⟩ := unlocked_eq_some.mp hstep
    split at hk
    · cases hk
      cases mem <;> exact ⟨rfl, fun _ => rfl⟩
    · cases hk
  | forkCopy c dir =>
    obtain ⟨p, _, hk⟩ := unlocked_eq_some.mp hstep
    split at hk
    · cases hk
      cases dir <;> exact ⟨rfl, fun _ => rfl⟩
    · cases hk
  | forkLoad c | forkStore c =>
    obtain ⟨p, _, hk⟩ := unlocked_eq_some.mp hstep
    split at hk
    · cases hk
      exact ⟨rfl, fun _ => rfl⟩
    · cases hk
  | forkPublish c =>
    obtain ⟨p, _, _, hk⟩ := locked_eq_some.mp hstep
    split at hk
    · cases hk
      exact ⟨rfl, fun _ => rfl⟩
    · cases hk

end Globals

/-- What a run shows: which process, in which slot, under which pid. -/
inductive Event where
  | allocated (k : Slot) (pid : Int)
  | forked (k : Slot) (pid : Int)
  | exited (k : Slot) (pid : Int)
  /-- a call of `wait` by `p` returned the pid of `k` -/
  | waited (p k : Slot) (pid : Int)
deriving DecidableEq, Repr

/-- The slot the event is about. -/
def Event.slot : Event → Slot
  | .allocated k _ => k
  | .forked k _ => k
  | .exited k _ => k
  | .waited _ k _ => k

/-- Tests on events; the last four also look at the pid. -/
def Event.isAlloc : Event → Bool
  | .allocated _ _ => true
  | _ => false

def Event.isAllocOf (v : Int) : Event → Bool
  | .allocated _ w => w = v
  | _ => false

def Event.isFork (v : Int) : Event → Bool
  | .forked _ w => w = v
  | _ => false

def Event.isExit (v : Int) : Event → Bool
  | .exited _ w => w = v
  | _ => false

def Event.isWait (v : Int) : Event → Bool
  | .waited _ _ w => w = v
  | _ => false

/-- The event that a step adds to the history. -/
def shows (s : Sys C) : Label C → List Event
  | .forkAlloc _ =>
    match firstSlot s.proc fun v => v.state = .unused with
    | some np => [.allocated np s.nextpid]
    | none => []
  | .forkPublish c =>
    match s.current c with
    | some p =>
      match s.fork p with
      | .publish np => [.forked np (s.proc np).pid]
      | _ => []
    | none => []
  | .exit c =>
    match s.current c with
    | some p => [.exited p (s.proc p).pid]
    | none => []
  | l =>
    match waitReturns s l with
    | some (p, k) => [.waited p k (s.proc k).pid]
    | none => []

def Outside (st : ProcState) : Prop :=
  st = .unused ∨ st = .embryo ∨ st = .zombie

theorem alive_iff_not_outside {st : ProcState} : Alive st ↔ ¬Outside st := by
  cases st <;> simp [Alive, Outside]

inductive Life (s s' : Sys C) (q : Slot) (l : Label C) : Prop
  | still
      (hl : ∀ c, l ≠ .exit c)
      (hst : ∀ st, Outside st → ((s'.proc q).state = st ↔ (s.proc q).state = st))
      (hpar : (s'.proc q).parent = (s.proc q).parent)
      (hpid : (s'.proc q).pid = (s.proc q).pid)
      (hwait : (s'.proc q).state = .sleeping → (s'.proc q).chan = some (.proc q) →
        ((s.proc q).state = .sleeping ∧ (s.proc q).chan = some (.proc q)) ∨
          ∀ p, (s.proc p).parent = some q → (s.proc p).state ≠ .zombie)
  | allocated
      (hl : ∀ c, l ≠ .exit c)
      (hold : (s.proc q).state = .unused)
      (hnew : (s'.proc q).state = .embryo)
      (hpar : (s'.proc q).parent = (s.proc q).parent)
      (hpid : (s'.proc q).pid = s.nextpid)
      (hshow : shows s l = [.allocated q s.nextpid])
  | aborted (p : Slot)
      (hl : ∀ c, l ≠ .exit c)
      (hpc : s.fork p = .stack q ∨ s.fork p = .copy q)
      (hold : (s.proc q).state = .embryo)
      (hnew : (s'.proc q).state = .unused)
      (hpar : (s'.proc q).parent = (s.proc q).parent)
      (hshow : shows s l = [])
  | adopted (c : C) (p : Slot)
      (hl : ∀ c, l ≠ .exit c)
      (hcur : s.current c = some p)
      (hpc : s.fork p = .copy q)
      (hnext : s'.fork p = .load q)
      (hold : (s.proc q).state = .embryo)
      (hnew : (s'.proc q).state = .embryo)
      (hpar : (s'.proc q).parent = some p)
      (hpid : (s'.proc q).pid = (s.proc q).pid)
      (hshow : shows s l = [])
  | forked (p : Slot)
      (hl : ∀ c, l ≠ .exit c)
      (hpc : s.fork p = .publish q)
      (hold : (s.proc q).state = .embryo)
      (hnew : (s'.proc q).state = .runnable)
      (hpar : (s'.proc q).parent = (s.proc q).parent)
      (hpid : (s'.proc q).pid = (s.proc q).pid)
      (hshow : shows s l = [.forked q (s.proc q).pid])
  | reaped (p : Slot)
      (hl : ∀ c, l ≠ .exit c)
      (hold : (s.proc q).state = .zombie)
      (hnew : (s'.proc q).state = .unused)
      (hpar : (s'.proc q).parent = none)
      (hshow : shows s l = [.waited p q (s.proc q).pid])
  | exited (c : C)
      (hl : l = .exit c)
      (hold : (s.proc q).state = .running)
      (hnew : (s'.proc q).state = .zombie)
      (hpid : (s'.proc q).pid = (s.proc q).pid)
      (hshow : shows s l = [.exited q (s.proc q).pid])
      (hinit : q ≠ s.initproc)
  | orphaned (c : C) (p : Slot)
      (hl : l = .exit c)
      (hst : ∀ st, Outside st → ((s'.proc q).state = st ↔ (s.proc q).state = st))
      (hpid : (s'.proc q).pid = (s.proc q).pid)
      (hshow : shows s l = [.exited p (s.proc p).pid])
      (hne : q ≠ p)

section Life

variable {s s' : Sys C} {l : Label C} {q : Slot}

theorem Life.of_state_eq (hl : ∀ c, l ≠ .exit c) (hst : (s'.proc q).state = (s.proc q).state)
    (hpar : (s'.proc q).parent = (s.proc q).parent) (hpid : (s'.proc q).pid = (s.proc q).pid)
    (hch : (s'.proc q).chan = (s.proc q).chan ∨ (s.proc q).state ≠ .sleeping) : Life s s' q l := by
  refine .still hl (fun st _ => by rw [hst]) hpar hpid ?_
  intro hs hc
  rw [hst] at hs
  rcases hch with hch | hch
  · exact .inl ⟨hs, by rw [← hch]; exact hc⟩
  · exact absurd hs hch

theorem shows_of_waitReturns {p k : Slot} (hw : waitReturns s l = some (p, k)) :
    shows s l = [.waited p k (s.proc k).pid] := by
  cases l with
  | wait c | resume c => simp only [shows, hw]
  | _ => simp [waitReturns] at hw

theorem life_of_move (hl : ∀ c, l ≠ .exit c) (hmove : Move s s' q l) : Life s s' q l := by
  cases hmove with
  | keep _ heq =>
    exact .of_state_eq hl (by rw [heq]) (by rw [heq]) (by rw [heq]) (Or.inl (by rw [heq]))
  | aged c _ heq =>
    exact .of_state_eq hl (by simp [heq]) (by simp [heq]) (by simp [heq])
      (Or.inl (by simp [heq]))
  | assigned pid prio _ _ heq =>
    exact .of_state_eq hl (by rw [heq]; rfl) (by rw [heq]; rfl) (by rw [heq]; rfl)
      (Or.inl (by rw [heq]; rfl))
  | cleared c hold heq | trapped c hold heq =>
    exact .of_state_eq hl (by rw [heq]) (by rw [heq]) (by rw [heq]) (Or.inr (by simp [hold]))
  | stacked c p k _ hold heq | inherited c p prio _ hold heq =>
    exact .of_state_eq hl (by rw [heq]) (by rw [heq]) (by rw [heq]) (Or.inr (by simp [hold]))
  | woken chan heq =>
    refine .still hl ?_ (by simp [heq]) (by simp [heq]) ?_
    · intro st hst
      rw [heq]
      exact Proc.wake_state_iff _ _ (by rintro rfl; simp [Outside] at hst)
        (by rintro rfl; simp [Outside] at hst)
    · intro hs hc
      rw [heq, Proc.wake_state] at hs
      rw [heq, Proc.wake_chan] at hc
      split_ifs at hs
      exact .inl ⟨hs, hc⟩
  | killed pid _ heq =>
    refine .still hl ?_ (by simp [heq, Proc.kill]) (by simp [heq, Proc.kill]) ?_
    · intro st hst
      rw [heq]
      exact Proc.kill_state_iff _ (by rintro rfl; simp [Outside] at hst)
        (by rintro rfl; simp [Outside] at hst)
    · intro hs hc
      rw [heq] at hs hc
      dsimp only [Proc.kill] at hs hc
      split_ifs at hs
      exact .inl ⟨hs, hc⟩
  | blocked _ _ hold hkids heq =>
    refine .still hl ?_ (by simp [heq]) (by simp [heq]) (fun _ _ => .inr hkids)
    intro st hst
    rcases hst with rfl | rfl | rfl <;> simp [heq, hold]
  | dispatched c _ hold heq | yielded c hold heq =>
    refine .still hl ?_ (by simp [heq]) (by simp [heq]) (fun hs => by simp [heq] at hs)
    intro st hst
    rcases hst with rfl | rfl | rfl <;> simp [heq, hold]
  | slept c a hold heq =>
    refine .still hl ?_ (by simp [heq]) (by simp [heq]) (fun _ hc => by simp [heq] at hc)
    intro st hst
    rcases hst with rfl | rfl | rfl <;> simp [heq, hold]
  | reaped _ p hw hold heq =>
    exact .reaped p hl hold (by rw [heq]; rfl) (by rw [heq]; rfl) (shows_of_waitReturns hw)
  | allocated c p hcur hfirst hold _ heq =>
    exact .allocated hl hold (by rw [heq]; rfl) (by rw [heq]; rfl) (by rw [heq]; rfl)
      (by simp [shows, hfirst])
  | unstacked c p _ hpc hold heq =>
    exact .aborted p hl (Or.inl hpc) hold (by rw [heq]) (by rw [heq])
      (by simp [shows, waitReturns])
  | uncopied c p _ hpc hold heq =>
    exact .aborted p hl (Or.inr hpc) hold (by rw [heq]) (by rw [heq])
      (by simp [shows, waitReturns])
  | copied c p d hcur hpc hnext hold heq =>
    exact .adopted c p hl hcur hpc hnext hold (by rw [heq]; exact hold) (by rw [heq])
      (by rw [heq]) (by simp [shows, waitReturns])
  | published c p hcur hpc hold heq =>
    exact .forked p hl hpc hold (by rw [heq]) (by rw [heq]) (by rw [heq])
      (by simp [shows, hcur, hpc])
  | exited c => exact absurd rfl (hl c)
  | orphaned c => exact absurd rfl (hl c)

theorem exit_spec {c : C} (hinv : SysInv s) (hstep : step s (.exit c) = some s') :
    ∃ p, s.current c = some p ∧ (s.proc p).state = .running ∧ p ≠ s.initproc ∧
      s.fork p = .none ∧ s'.fork = s.fork ∧
      (s'.proc p).state = .zombie ∧
      (∀ q, q ≠ p → (s'.proc q).state = (s.exitTable p q).state) ∧
      (∀ q, (s'.proc q).pid = (s.proc q).pid ∧ (s'.proc q).chan = (s.proc q).chan ∧
        (s'.proc q).parent =
          if (s.proc q).parent = some p then some s.initproc else (s.proc q).parent) := by
  obtain ⟨p, hc, hl, hk⟩ := locked_eq_some.mp hstep
  have hrun := hinv.cpu.state_of_onCpu (onCpu_of_current hc hl)
  split_ifs at hk with hg
  cases hk
  refine ⟨p, hc, hrun, hg.2, hg.1, rfl, by simp [Sys.leave], ?_, ?_⟩
  · intro q hq
    simp [Sys.leave, set_of_ne _ _ hq]
  intro q
  obtain ⟨par, st, hfr⟩ := exitTable_frame hg.2 q
  have hpar := exitTable_parent hg.2 q
  by_cases hq : q = p
  · subst hq
    refine ⟨?_, ?_, ?_⟩
    · simp [Sys.leave, hfr]
    · simp [Sys.leave, hfr]
    · simpa [Sys.leave] using hpar
  · refine ⟨?_, ?_, ?_⟩
    · simp [Sys.leave, set_of_ne _ _ hq, hfr]
    · simp [Sys.leave, set_of_ne _ _ hq, hfr]
    · simpa [Sys.leave, set_of_ne _ _ hq] using hpar

theorem life_of_step (hinv : SysInv s) (hstep : step s l = some s') (q : Slot) : Life s s' q l := by
  by_cases hl : ∃ c, l = .exit c
  · obtain ⟨c, rfl⟩ := hl
    obtain ⟨p, hc, hrun, hinit, _, _, hz, hst, hrest⟩ := exit_spec hinv hstep
    by_cases hq : q = p
    · subst hq
      exact .exited c rfl hrun hz (hrest q).1 (by simp [shows, hc]) hinit
    · refine .orphaned c p rfl ?_ (hrest q).1 (by simp [shows, hc]) hq
      intro st hout
      rw [hst q hq]
      exact exitTable_state_iff hinit st (by rintro rfl; simp [Outside] at hout)
        (by rintro rfl; simp [Outside] at hout) q
  · push Not at hl
    exact life_of_move hl (move_of_step hinv hstep q)

theorem waitReturns_unused {p k : Slot} (hstep : step s l = some s')
    (hw : waitReturns s l = some (p, k)) : (s'.proc k).state = .unused := by
  have hturn : ∀ (t : Sys C) c, waitScan t.proc p = .reap k →
      ((t.waitTurn c p).proc k).state = .unused := by
    intro t c hk
    simp [waitTurn, hk, Sys.release, Sys.setProc, Proc.reap]
  cases l with
  | wait c =>
    obtain ⟨q, hc, _, hk⟩ := locked_eq_some.mp hstep
    simp only [waitReturns, hc, Option.map_eq_some_iff, Prod.mk.injEq] at hw
    obtain ⟨m, hm, rfl, rfl⟩ := hw
    split_ifs at hk
    cases hk
    exact hturn s c (reapedBy_eq_some.mp hm)
  | resume c =>
    obtain ⟨hmode, q, hq, hcase⟩ := resume_cases hstep
    simp only [waitReturns, hq] at hw
    split_ifs at hw with hx
    simp only [Option.map_eq_some_iff, Prod.mk.injEq] at hw
    obtain ⟨m, hreap, rfl, rfl⟩ := hw
    simp only [step, resume, hmode, hq, if_true] at hstep
    -- only the branch of `wait` is left
    split at hstep <;> rename_i hx' <;> rw [hx] at hx' <;> cases hx'
    cases hstep
    exact hturn _ c (reapedBy_eq_some.mp hreap)
  | _ => simp [waitReturns] at hw

theorem event_turn (hinv : SysInv s) (hstep : step s l = some s') {e : Event} (he : e ∈ shows s l) :
    ∃ st, Outside st ∧ ¬((s'.proc e.slot).state = st ↔ (s.proc e.slot).state = st) := by
  have hwait : ∀ l, step s l = some s' → (∀ p k, waitReturns s l = some (p, k) →
      ∃ st, Outside st ∧ ¬((s'.proc k).state = st ↔ (s.proc k).state = st)) := by
    intro l hst p k hw
    have hz := (waitReturns_spec hst hw).2.2
    have hun := waitReturns_unused hst hw
    exact ⟨.unused, .inl rfl, by simp [hz, hun]⟩
  cases l with
  | forkAlloc c =>
    simp only [shows] at he
    split at he
    · rename_i np hnp
      simp only [List.mem_singleton] at he
      subst he
      obtain ⟨p, hc, _, hk⟩ := locked_eq_some.mp hstep
      split_ifs at hk
      cases hk
      have hun : (s.proc np).state = .unused := by simpa using firstSlot_some hnp
      refine ⟨.unused, .inl rfl, ?_⟩
      simp [Event.slot, forkAlloc, allocproc, hnp, Sys.setFork, Proc.embryo, hun]
    · cases he
  | forkPublish c =>
    simp only [shows] at he
    obtain ⟨p, hc, _, hk⟩ := locked_eq_some.mp hstep
    rw [hc] at he
    dsimp only at he
    split at he
    · rename_i np hnp
      simp only [List.mem_singleton] at he
      subst he
      have hemb := hinv.fork.embryo p np (by rw [hnp]; rfl)
      rw [hnp] at hk
      cases hk
      refine ⟨.embryo, .inr (.inl rfl), ?_⟩
      simp [Event.slot, Sys.setFork, Sys.setProc, hemb]
    · cases he
  | exit c =>
    obtain ⟨p, hc, hrun, _, _, _, hz, _⟩ := exit_spec hinv hstep
    simp only [shows, hc, List.mem_singleton] at he
    subst he
    exact ⟨.zombie, .inr (Or.inr rfl), by simp [Event.slot, hz, hrun]⟩
  | wait c | resume c =>
    simp only [shows] at he
    split at he
    · rename_i p k hw
      simp only [List.mem_singleton] at he
      subst he
      exact hwait _ hstep p k hw
    · cases he
  | _ => simp [shows, waitReturns] at he

theorem slot_ne_of_still (hinv : SysInv s) (hstep : step s l = some s')
    (hst : ∀ st, Outside st → ((s'.proc q).state = st ↔ (s.proc q).state = st)) {e : Event}
    (he : e ∈ shows s l) : e.slot ≠ q := by
  rintro rfl
  obtain ⟨st, hout, hchange⟩ := event_turn hinv hstep he
  exact hchange (hst st hout)

end Life

end LifeCycle

end Xv6.Ptable
