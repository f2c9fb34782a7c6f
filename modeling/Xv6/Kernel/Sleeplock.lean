import Xv6.Lib.Transition

/-!
# Sleep-locks

`acquiresleep` and `releasesleep` (sleeplock.c) with `sleep`, `wakeup` and `kill`
(proc.c), for any number of processes and one lock.  A process is known by its pid.
Every `acquire` and `release` of the inner spinlock and of `ptable.lock` is a step of
its own; between two of them a process goes on without interruption.
-/

namespace Xv6.Sleeplock

open Lib Function

variable {f : Pc → Bool} {pc : Nat → Pc} {o : Option Nat} {c d : Pc} {p : Nat} {s t : State}

/-- Where a process is. -/
inductive Pc where
  /-- Outside, without the lock. -/
  | out
  /-- `acquire(&lk->lk)`, also at the end of `sleep`. -/
  | want
  /-- `while (lk->locked)`. -/
  | test
  /-- `acquire(&ptable.lock)` in `sleep`. -/
  | enter
  /-- `release(lk)` in `sleep`. -/
  | handover
  /-- `p->state = SLEEPING; sched()`. -/
  | mark
  /-- `SLEEPING`. -/
  | asleep
  /-- `RUNNABLE` again, before the scheduler has chosen it. -/
  | ready
  /-- `release(&ptable.lock)` in `sleep`. -/
  | back
  /-- `release(&lk->lk)` in `acquiresleep`. -/
  | taken
  /-- `acquiresleep` has returned. -/
  | holds
  /-- `acquire(&lk->lk)` in `releasesleep`. -/
  | leave
  /-- `lk->locked = 0`. -/
  | give
  /-- `acquire(&ptable.lock)` in `wakeup`. -/
  | wake
  /-- `wakeup1(lk); release(&ptable.lock)`. -/
  | waking
  /-- `release(&lk->lk)` in `releasesleep`. -/
  | woken
deriving DecidableEq

/-- The inner lock is held here. -/
def Pc.inner : Pc → Bool
  | .test | .enter | .handover | .taken | .give | .wake | .waking | .woken => true
  | _ => false

/-- `ptable.lock` is held here. -/
def Pc.table : Pc → Bool
  | .handover | .mark | .back | .waking => true
  | _ => false

def Pc.owner : Pc → Bool
  | .taken | .holds | .leave | .give => true
  | _ => false

def Pc.sleeper : Pc → Bool
  | .enter | .handover | .mark | .asleep => true
  | _ => false

def Pc.waker : Pc → Bool
  | .wake | .waking => true
  | _ => false

/-- Between the return of `acquiresleep` and `releasesleep`. -/
def Pc.between : Pc → Bool
  | .holds | .leave => true
  | _ => false

def Pc.rouse : Pc → Pc
  | .asleep => .ready
  | c => c

/-- The sleep-lock, the holders of the two spinlocks, and the processes. -/
structure State where
  locked : Bool
  pid : Nat
  inner : Option Nat
  table : Option Nat
  pc : Nat → Pc

def init : State where
  locked := false
  pid := 0
  inner := none
  table := none
  pc := fun _ => .out

inductive Event where
  /-- A call of `acquiresleep`, or of `releasesleep` by the holder. -/
  | call (p : Nat)
  | kill (p : Nat)
  | run (p : Nat)

def State.goto (s : State) (p : Nat) (c : Pc) : State :=
  { s with pc := update s.pc p c }

def next (s : State) (p : Nat) : Pc → Option State
  | .want => if s.inner = none then some { s.goto p .test with inner := some p } else none
  | .test =>
    if s.locked = true then some (s.goto p .enter)
    else some { s.goto p .taken with locked := true, pid := p }
  | .enter => if s.table = none then some { s.goto p .handover with table := some p } else none
  | .handover => some { s.goto p .mark with inner := none }
  | .mark => some { s.goto p .asleep with table := none }
  | .ready => if s.table = none then some { s.goto p .back with table := some p } else none
  | .back => some { s.goto p .want with table := none }
  | .taken => some { s.goto p .holds with inner := none }
  | .leave => if s.inner = none then some { s.goto p .give with inner := some p } else none
  | .give => some { s.goto p .wake with locked := false, pid := 0 }
  | .wake => if s.table = none then some { s.goto p .waking with table := some p } else none
  | .waking =>
    some { s with pc := update (fun q => (s.pc q).rouse) p .woken, table := none }
  | .woken => some { s.goto p .out with inner := none }
  | .out | .asleep | .holds => none

def step (s : State) : Event → Option State
  | .call p =>
    if s.pc p = .out then some (s.goto p .want)
    else if s.pc p = .holds then some (s.goto p .leave)
    else none
  | .kill p => if s.table = none then some (s.goto p (s.pc p).rouse) else none
  | .run p => next s p (s.pc p)

/-- `holdingsleep`; it waits for the inner lock. -/
def holdingsleep (s : State) (p : Nat) : Option Bool :=
  if s.inner = none then some (s.locked && s.pid == p) else none

def Holder (f : Pc → Bool) (pc : Nat → Pc) (o : Option Nat) : Prop :=
  ∀ p, f (pc p) = true ↔ o = some p

structure Inv (s : State) : Prop where
  inner : Holder Pc.inner s.pc s.inner
  table : Holder Pc.table s.pc s.table
  owner : Holder Pc.owner s.pc (if s.locked = true then some s.pid else none)
  sleeper : ∀ p, (s.pc p).sleeper = true → s.locked = true ∨ ∃ q, (s.pc q).waker = true

theorem Holder.keep (h : Holder f pc o) (hp : pc p = d) (hc : f c = f d) :
    Holder f (update pc p c) o := by
  intro q
  by_cases hq : q = p
  · rw [hq, update_self, hc, ← hp]
    exact h p
  · rw [update_of_ne hq]
    exact h q

theorem Holder.take (h : Holder f pc none) (hc : f c = true) :
    Holder f (update pc p c) (some p) := by
  intro q
  by_cases hq : q = p
  · simp [hq, hc]
  · rw [update_of_ne hq, h q, Option.some.injEq]
    exact ⟨nofun, fun hp => absurd hp.symm hq⟩

theorem Holder.drop (h : Holder f pc o) (hp : pc p = d) (hd : f d = true) (hc : f c = false) :
    Holder f (update pc p c) none := by
  rw [← hp] at hd
  intro q
  by_cases hq : q = p
  · simp [hq, hc]
  · rw [update_of_ne hq, h q, (h p).mp hd, Option.some.injEq]
    exact ⟨fun hqp => absurd hqp.symm hq, nofun⟩

theorem Holder.unique {q : Nat} (h : Holder f pc o) (hp : f (pc p) = true) (hq : f (pc q) = true) :
    p = q :=
  Option.some.inj (((h p).mp hp).symm.trans ((h q).mp hq))

theorem rouse_eq (hf : f .ready = f .asleep) (c : Pc) : f c.rouse = f c := by
  cases c with
  | asleep => exact hf
  | _ => rfl

theorem Holder.rouse (h : Holder f pc o) (hf : f .ready = f .asleep) :
    Holder f (fun q => (pc q).rouse) o := by
  intro q
  rw [rouse_eq hf]
  exact h q

theorem Inv.move (h : Inv s) (hp : s.pc p = d) (hpc : t.pc = update s.pc p c)
    (hinner : Holder Pc.inner (update s.pc p c) t.inner)
    (htable : Holder Pc.table (update s.pc p c) t.table)
    (howner : Holder Pc.owner (update s.pc p c) (if t.locked = true then some t.pid else none))
    (hlocked : t.locked = true ∨ t.locked = s.locked ∨ c.waker = true)
    (hwaker : d.waker = true → c.waker = true)
    (hsleeper : c.sleeper = true → d.sleeper = true ∨ t.locked = true) : Inv t := by
  rw [← hp] at hwaker hsleeper
  rw [← hpc] at hinner htable howner
  refine ⟨hinner, htable, howner, ?_⟩
  intro q hq
  rcases hlocked with hl | hl | hl
  · exact .inl hl
  · have hbefore : (s.pc q).sleeper = true ∨ t.locked = true := by
      rw [hpc] at hq
      by_cases hqp : q = p
      · rw [hqp, update_self] at hq
        rw [hqp]
        exact hsleeper hq
      · rw [update_of_ne hqp] at hq
        exact .inl hq
    rcases hbefore with hbefore | hdone
    · rcases h.sleeper q hbefore with hlocked | ⟨r, hr⟩
      · exact .inl (hl.trans hlocked)
      refine .inr ⟨r, ?_⟩
      rw [hpc]
      by_cases hrp : r = p
      · rw [hrp, update_self]
        exact hwaker (by rw [← hrp]; exact hr)
      · rw [update_of_ne hrp]
        exact hr
    · exact .inl hdone
  · exact .inr ⟨p, by rw [hpc, update_self]; exact hl⟩

theorem Inv.wakeup (h : Inv s) (hp : s.pc p = .waking) :
    Inv { s with pc := update (fun q => (s.pc q).rouse) p .woken, table := none } := by
  have hinner : (s.pc p).inner = true := by rw [hp]; rfl
  have htable : (s.pc p).table = true := by rw [hp]; rfl
  have hrouse : (s.pc p).rouse = .waking := by rw [hp]; rfl
  refine ⟨(h.inner.rouse rfl).keep hrouse rfl, (h.table.rouse rfl).drop hrouse rfl rfl,
    (h.owner.rouse rfl).keep hrouse rfl, ?_⟩
  intro q hq
  by_cases hqp : q = p
  · simp [hqp, Pc.sleeper] at hq
  · simp only [update_of_ne hqp] at hq
    cases hpc : s.pc q with
    | enter => exact absurd (h.inner.unique (by rw [hpc]; rfl) hinner) hqp
    | handover => exact absurd (h.inner.unique (by rw [hpc]; rfl) hinner) hqp
    | mark => exact absurd (h.table.unique (by rw [hpc]; rfl) htable) hqp
    | _ => simp [hpc, Pc.rouse, Pc.sleeper] at hq

theorem Inv.next (h : Inv s) (hp : s.pc p = d) (hnext : next s p d = some t) : Inv t := by
  have hin := h.inner
  have htab := h.table
  have hown := h.owner
  cases d with
  | out => cases hnext
  | asleep => cases hnext
  | holds => cases hnext
  | want =>
    obtain ⟨hfree, ⟨⟩⟩ := Option.ite_none_right_eq_some.mp hnext
    rw [hfree] at hin
    exact h.move hp rfl (hin.take rfl) (htab.keep hp rfl) (hown.keep hp rfl) (.inr (.inl rfl)) nofun
      nofun
  | test =>
    simp only [Sleeplock.next] at hnext
    split at hnext
    · rename_i hlocked
      cases hnext
      exact h.move hp rfl (hin.keep hp rfl) (htab.keep hp rfl) (hown.keep hp rfl)
        (.inr (.inl rfl)) nofun fun _ => .inr hlocked
    · rename_i hlocked
      cases hnext
      rw [if_neg hlocked] at hown
      exact h.move hp rfl (hin.keep hp rfl) (htab.keep hp rfl) (hown.take rfl) (.inl rfl) nofun
        nofun
  | enter =>
    obtain ⟨hfree, ⟨⟩⟩ := Option.ite_none_right_eq_some.mp hnext
    rw [hfree] at htab
    exact h.move hp rfl (hin.keep hp rfl) (htab.take rfl) (hown.keep hp rfl) (.inr (.inl rfl)) nofun
      fun _ => .inl rfl
  | handover =>
    cases hnext
    exact h.move hp rfl (hin.drop hp rfl rfl) (htab.keep hp rfl) (hown.keep hp rfl)
      (.inr (.inl rfl)) nofun fun _ => .inl rfl
  | mark =>
    cases hnext
    exact h.move hp rfl (hin.keep hp rfl) (htab.drop hp rfl rfl) (hown.keep hp rfl)
      (.inr (.inl rfl)) nofun fun _ => .inl rfl
  | ready =>
    obtain ⟨hfree, ⟨⟩⟩ := Option.ite_none_right_eq_some.mp hnext
    rw [hfree] at htab
    exact h.move hp rfl (hin.keep hp rfl) (htab.take rfl) (hown.keep hp rfl) (.inr (.inl rfl)) nofun
      nofun
  | back =>
    cases hnext
    exact h.move hp rfl (hin.keep hp rfl) (htab.drop hp rfl rfl) (hown.keep hp rfl)
      (.inr (.inl rfl)) nofun nofun
  | taken =>
    cases hnext
    exact h.move hp rfl (hin.drop hp rfl rfl) (htab.keep hp rfl) (hown.keep hp rfl)
      (.inr (.inl rfl)) nofun nofun
  | leave =>
    obtain ⟨hfree, ⟨⟩⟩ := Option.ite_none_right_eq_some.mp hnext
    rw [hfree] at hin
    exact h.move hp rfl (hin.take rfl) (htab.keep hp rfl) (hown.keep hp rfl) (.inr (.inl rfl)) nofun
      nofun
  | give =>
    cases hnext
    exact h.move hp rfl (hin.keep hp rfl) (htab.keep hp rfl) (hown.drop hp rfl rfl)
      (.inr (.inr rfl)) nofun nofun
  | wake =>
    obtain ⟨hfree, ⟨⟩⟩ := Option.ite_none_right_eq_some.mp hnext
    rw [hfree] at htab
    exact h.move hp rfl (hin.keep hp rfl) (htab.take rfl) (hown.keep hp rfl) (.inr (.inl rfl)) id
      nofun
  | waking =>
    cases hnext
    exact h.wakeup hp
  | woken =>
    cases hnext
    exact h.move hp rfl (hin.drop hp rfl rfl) (htab.keep hp rfl) (hown.keep hp rfl)
      (.inr (.inl rfl)) nofun nofun

theorem inv_step (s : State) (e : Event) (t : State) (h : Inv s) (hstep : step s e = some t) :
    Inv t := by
  cases e with
  | call p =>
    simp only [step] at hstep
    split at hstep
    · rename_i hp
      cases hstep
      exact h.move hp rfl (h.inner.keep hp rfl) (h.table.keep hp rfl) (h.owner.keep hp rfl)
        (.inr (.inl rfl)) nofun nofun
    · obtain ⟨hp, ⟨⟩⟩ := Option.ite_none_right_eq_some.mp hstep
      exact h.move hp rfl (h.inner.keep hp rfl) (h.table.keep hp rfl) (h.owner.keep hp rfl)
        (.inr (.inl rfl)) nofun nofun
  | kill p =>
    obtain ⟨_, ⟨⟩⟩ := Option.ite_none_right_eq_some.mp hstep
    refine h.move rfl rfl (h.inner.keep rfl (rouse_eq rfl _)) (h.table.keep rfl (rouse_eq rfl _))
      (h.owner.keep rfl (rouse_eq rfl _)) (.inr (.inl rfl)) ?_ ?_
    · intro hw
      rwa [rouse_eq (f := Pc.waker) rfl]
    · intro hs
      cases hp : s.pc p with
      | asleep => exact .inl rfl
      | _ =>
        rw [hp] at hs
        exact .inl hs
  | run p => exact h.next rfl hstep

theorem inv_init : Inv init where
  inner := by
    intro p
    simp [init, Pc.inner]
  table := by
    intro p
    simp [init, Pc.table]
  owner := by
    intro p
    simp [init, Pc.owner]
  sleeper := nofun

/-- After any calls of `acquiresleep`, `releasesleep` and `kill`: at most one process has the
sleep-lock, `holdingsleep` is true for that process only, and while the two spinlocks are free
nobody is asleep on a lock that is free. -/
theorem sleeplock_protocol (es : List Event) (s : State) (hrun : run step init es = some s) :
    (∀ p q, (s.pc p).between = true → (s.pc q).between = true → p = q) ∧
      (∀ p r, holdingsleep s p = some r → (r = true ↔ (s.pc p).between = true)) ∧
      (s.inner = none → s.table = none → s.locked = false → ∀ p, s.pc p ≠ .asleep) := by
  have h : Inv s := run_invariant inv_step inv_init hrun
  have howner : ∀ p, (s.pc p).between = true → (s.pc p).owner = true := by
    intro p hp
    cases hpc : s.pc p with
    | holds => rfl
    | leave => rfl
    | _ => simp [hpc, Pc.between] at hp
  refine ⟨?_, ?_, ?_⟩
  · intro p q hp hq
    exact h.owner.unique (howner p hp) (howner q hq)
  · intro p r hr
    obtain ⟨hfree, ⟨⟩⟩ := Option.ite_none_right_eq_some.mp hr
    have hnot : (s.pc p).inner ≠ true := by
      rw [Ne, h.inner p, hfree]
      exact nofun
    have hown := h.owner p
    constructor
    · intro hlocked
      rw [Bool.and_eq_true, beq_iff_eq] at hlocked
      rw [if_pos hlocked.1, hlocked.2] at hown
      cases hpc : s.pc p <;> simp_all [Pc.owner, Pc.inner, Pc.between]
    · intro hp
      have hsome := hown.mp (howner p hp)
      split at hsome
      · simp_all
      · cases hsome
  intro hinner htable hlocked p hp
  rcases h.sleeper p (by rw [hp]; rfl) with hl | ⟨q, hq⟩
  · rw [hlocked] at hl
    cases hl
  have hheld : (s.pc q).inner = true := by
    cases hpc : s.pc q with
    | wake => rfl
    | waking => rfl
    | _ => simp [hpc, Pc.waker] at hq
  rw [(h.inner q).mp hheld] at hinner
  cases hinner

/-- Process 2 sleeps while process 1 has the lock. -/
theorem sleeplock_protocol_waiter :
    ∃ s, run step init [.call 1, .run 1, .run 1, .run 1, .call 2, .run 2, .run 2, .run 2, .run 2,
        .run 2] = some s ∧ (s.pc 2 = .asleep ∧ holdingsleep s 1 = some true) ∧
      ∀ q, (s.pc q).between = true → 1 = q := by
  obtain ⟨s, hrun, htest⟩ := exists_of_run_map step init _
    (fun s => decide ((s.pc 2 = .asleep ∧ holdingsleep s 1 = some true) ∧ (s.pc 1).between = true))
    (show (run step init [.call 1, .run 1, .run 1, .run 1, .call 2, .run 2, .run 2, .run 2, .run 2,
      .run 2]).map _ = some true by decide)
  obtain ⟨hwaits, hone⟩ := of_decide_eq_true htest
  exact ⟨s, hrun, hwaits, fun q hq => (sleeplock_protocol _ s hrun).1 1 q hone hq⟩

end Xv6.Sleeplock
