import Xv6.Ptable.Machine

/-!
# One CPU per running process

A process is RUNNING while it is the current process of a CPU, except around a
context switch: `scheduler` sets `c->proc` and the state together and hands the
lock to the process, and a process that leaves changes its state while it is
still `c->proc`.  The lock is held during both.  The invariant therefore speaks
about the mode of each CPU; with the lock free no CPU is in one of the two
hand-over modes, and it becomes the plain statement.
-/

namespace Xv6.Ptable

open Lib Sys Function

variable {v : Proc}

set_option linter.unusedSectionVars false

section CpuOwnership

variable {C : Type} [DecidableEq C]

/-- States of a process that has left its CPU. -/
def Settled (st : ProcState) : Prop :=
  st = .sleeping ∨ st = .runnable ∨ st = .zombie

structure CpuInv (s : Sys C) : Prop where
  lock_iff : ∀ c, s.lock = some c ↔ (s.cpu c).mode = .entering ∨ (s.cpu c).mode = .leaving
  idle_iff : ∀ c, (s.cpu c).proc = none ↔ (s.cpu c).mode = .idle
  leaving : ∀ c p, (s.cpu c).proc = some p → (s.cpu c).mode = .leaving → Settled (s.proc p).state
  current : ∀ c p, (s.cpu c).proc = some p → (s.cpu c).mode ≠ .leaving → (s.proc p).state = .running
  running : ∀ p, (s.proc p).state = .running → ∃ c, (s.cpu c).proc = some p
  inj : ∀ c d p, (s.cpu c).proc = some p → (s.cpu d).proc = some p → c = d

theorem cpuInv_boot (kstack pgdir : Frame) :
    CpuInv (boot C kstack pgdir) where
  lock_iff := by simp [boot]
  idle_iff := by simp [boot]
  leaving := by simp [boot]
  current := by simp [boot]
  running := by
    intro p hp
    by_cases h0 : p = 0
    · subst h0
      simp [boot, initProc] at hp
    · simp [boot, set_of_ne _ _ h0, Proc.zero] at hp
  inj := by simp [boot]

def OnCpu (s : Sys C) (c : C) (p : Slot) : Prop :=
  (s.cpu c).proc = some p ∧ ((s.cpu c).mode = .entering ∨ (s.cpu c).mode = .running ∧ s.lock = none)

section Steps

variable {s s' : Sys C} {c : C} {p : Slot}

theorem onCpu_of_current (hc : s.current c = some p) (hl : s.lock = none) : OnCpu s c p := by
  obtain ⟨hm, hp⟩ := current_eq_some.mp hc
  exact ⟨hp, .inr ⟨hm, hl⟩⟩

section
variable (h : CpuInv s)
include h

theorem CpuInv.state_of_onCpu (hon : OnCpu s c p) : (s.proc p).state = .running := by
  apply h.current c p hon.1
  rcases hon.2 with hm | ⟨hm, _⟩ <;> simp [hm]

theorem CpuInv.not_leaving (hon : OnCpu s c p) (d : C) : (s.cpu d).mode ≠ .leaving := by
  intro hd
  have hlock := (h.lock_iff d).mpr (.inr hd)
  rcases hon.2 with hm | ⟨_, hl⟩
  · have hc := (h.lock_iff c).mpr (.inl hm)
    rw [hlock] at hc
    cases hc
    rw [hm] at hd
    cases hd
  · rw [hl] at hlock
    cases hlock

theorem CpuInv.not_entering (hon : OnCpu s c p) {d : C} (hd : d ≠ c) :
    (s.cpu d).mode ≠ .entering := by
  intro hm
  have hlock := (h.lock_iff d).mpr (.inl hm)
  rcases hon.2 with hc | ⟨_, hl⟩
  · have hc' := (h.lock_iff c).mpr (.inl hc)
    rw [hlock] at hc'
    cases hc'
    exact hd rfl
  · rw [hl] at hlock
    cases hlock

theorem CpuInv.table (hcpu : s'.cpu = s.cpu) (hlock : s'.lock = s.lock)
    (hrun : ∀ q, (s'.proc q).state = .running ↔ (s.proc q).state = .running)
    (hset : ∀ c q, (s.cpu c).proc = some q → (s.cpu c).mode = .leaving →
      Settled (s'.proc q).state) :
    CpuInv s' where
  lock_iff := by simpa [hcpu, hlock] using h.lock_iff
  idle_iff := by simpa [hcpu] using h.idle_iff
  leaving := by
    rw [hcpu]
    exact hset
  current := by
    intro c q hq hm
    rw [hcpu] at hq hm
    exact (hrun q).mpr (h.current c q hq hm)
  running := by
    intro q hq
    rw [hcpu]
    exact h.running q ((hrun q).mp hq)
  inj := by simpa [hcpu] using h.inj

theorem CpuInv.leave (hon : OnCpu s c p) (hv : Settled v.state) : CpuInv (s.leave c p v) := by
  have hnl := h.not_leaving hon
  have hother := fun d => h.not_entering hon (d := d)
  refine ⟨?_, ?_, ?_, ?_, ?_, ?_⟩
  · intro d
    by_cases hd : d = c
    · subst hd
      simp [Sys.leave]
    · simp [Sys.leave, hd, hother d hd, hnl d, Ne.symm hd]
  · intro d
    by_cases hd : d = c
    · subst hd
      simp [Sys.leave]
    · simpa [Sys.leave, hd] using h.idle_iff d
  · intro d q hq hm
    by_cases hd : d = c
    · subst hd
      simp only [Sys.leave, update_self, Option.some.injEq] at hq
      subst hq
      simpa [Sys.leave] using hv
    · exact absurd (by simpa [Sys.leave, hd] using hm) (hnl d)
  · intro d q hq hm
    by_cases hd : d = c
    · subst hd
      simp [Sys.leave] at hm
    · simp only [Sys.leave, update_of_ne hd] at hq hm
      have hqp : q ≠ p := by
        rintro rfl
        exact hd (h.inj d c q hq hon.1)
      simpa [Sys.leave, set_of_ne _ _ hqp] using h.current d q hq hm
  · intro q hq
    by_cases hqp : q = p
    · subst hqp
      exact ⟨c, by simp [Sys.leave]⟩
    simp only [Sys.leave, set_of_ne _ _ hqp] at hq
    obtain ⟨d, hd⟩ := h.running q hq
    have hdc : d ≠ c := by
      rintro rfl
      rw [hon.1] at hd
      cases hd
      exact hqp rfl
    exact ⟨d, by simpa [Sys.leave, hdc] using hd⟩
  intro d e q hd he
  have key : ∀ f, ((s.leave c p v).cpu f).proc = (s.cpu f).proc := by
    intro f
    by_cases hf : f = c
    · subst hf
      simp [Sys.leave, hon.1]
    · simp [Sys.leave, hf]
  rw [key] at hd he
  exact h.inj d e q hd he

theorem CpuInv.release (hon : OnCpu s c p) : CpuInv (s.release c p) := by
  have hnl := h.not_leaving hon
  have key : ∀ f, ((s.release c p).cpu f).proc = (s.cpu f).proc := by
    intro f
    by_cases hf : f = c
    · subst hf
      simp [Sys.release, hon.1]
    · simp [Sys.release, hf]
  have hother := fun d => h.not_entering hon (d := d)
  refine ⟨?_, ?_, ?_, ?_, ?_, ?_⟩
  · intro d
    by_cases hd : d = c
    · subst hd
      simp [Sys.release]
    · simp [Sys.release, hd, hother d hd, hnl d]
  · intro d
    rw [key]
    by_cases hd : d = c
    · subst hd
      simp [Sys.release, hon.1]
    · simpa [Sys.release, hd] using h.idle_iff d
  · intro d q hq hm
    by_cases hd : d = c
    · subst hd
      simp [Sys.release] at hm
    · exact absurd (by simpa [Sys.release, hd] using hm) (hnl d)
  · intro d q hq _
    rw [key] at hq
    exact h.current d q hq (hnl d)
  · intro q hq
    obtain ⟨d, hd⟩ := h.running q hq
    exact ⟨d, by rw [key]; exact hd⟩
  · intro d e q hd he
    rw [key] at hd he
    exact h.inj d e q hd he

theorem CpuInv.back (hm : (s.cpu c).mode = .leaving) :
    CpuInv { s with lock := none, cpu := update s.cpu c ⟨none, .idle⟩ } := by
  have hlock := (h.lock_iff c).mpr (.inr hm)
  have hother : ∀ d, d ≠ c → (s.cpu d).mode ≠ .entering ∧ (s.cpu d).mode ≠ .leaving := by
    intro d hd
    have hnd : s.lock ≠ some d := by
      rw [hlock]
      simpa using fun heq => hd heq.symm
    have := mt (h.lock_iff d).mpr hnd
    tauto
  refine ⟨?_, ?_, ?_, ?_, ?_, ?_⟩
  · intro d
    by_cases hd : d = c
    · subst hd
      simp
    · simp [hd, hother d hd]
  · intro d
    by_cases hd : d = c
    · subst hd
      simp
    · simpa [hd] using h.idle_iff d
  · intro d q hq hmd
    by_cases hd : d = c
    · subst hd
      simp at hq
    · exact absurd (by simpa [hd] using hmd) (hother d hd).2
  · intro d q hq hmd
    by_cases hd : d = c
    · subst hd
      simp at hq
    · simp only [update_of_ne hd] at hq hmd
      exact h.current d q hq hmd
  · intro q hq
    obtain ⟨d, hd⟩ := h.running q hq
    have hdc : d ≠ c := by
      rintro rfl
      have := h.leaving d q hd hm
      simp [Settled, show (s.proc q).state = .running from hq] at this
    exact ⟨d, by simpa [hdc] using hd⟩
  intro d e q hd he
  have hdc : d ≠ c := by
    rintro rfl
    simp at hd
  have hec : e ≠ c := by
    rintro rfl
    simp at he
  simp only [update_of_ne hdc, update_of_ne hec] at hd he
  exact h.inj d e q hd he

theorem CpuInv.dispatch (hl : s.lock = none) (hm : (s.cpu c).mode = .idle)
    (hp : (s.proc p).state = .runnable) (hv : v.state = .running) :
    CpuInv
      { s with
        proc := set s.proc p v
        lock := some c
        cpu := update s.cpu c ⟨some p, .entering⟩ } := by
  have hmodes : ∀ d, (s.cpu d).mode ≠ .entering ∧ (s.cpu d).mode ≠ .leaving := by
    intro d
    have := mt (h.lock_iff d).mpr (by simp [hl])
    tauto
  have hfree : ∀ d, (s.cpu d).proc ≠ some p := by
    intro d hd
    have := h.current d p hd (hmodes d).2
    rw [hp] at this
    cases this
  have hcn : (s.cpu c).proc = none := (h.idle_iff c).mpr hm
  refine ⟨?_, ?_, ?_, ?_, ?_, ?_⟩
  · intro d
    by_cases hd : d = c
    · subst hd
      simp
    · simp [hd, hmodes d, Ne.symm hd]
  · intro d
    by_cases hd : d = c
    · subst hd
      simp
    · simpa [hd] using h.idle_iff d
  · intro d q hq hmd
    by_cases hd : d = c
    · subst hd
      simp at hmd
    · exact absurd (by simpa [hd] using hmd) (hmodes d).2
  · intro d q hq _
    by_cases hd : d = c
    · subst hd
      simp only [update_self, Option.some.injEq] at hq
      subst hq
      simpa using hv
    · simp only [update_of_ne hd] at hq
      have hqp : q ≠ p := by
        rintro rfl
        exact hfree d hq
      simpa [set_of_ne _ _ hqp] using h.current d q hq (hmodes d).2
  · intro q hq
    by_cases hqp : q = p
    · subst hqp
      exact ⟨c, by simp⟩
    simp only [set_of_ne _ _ hqp] at hq
    obtain ⟨d, hd⟩ := h.running q hq
    have hdc : d ≠ c := by
      rintro rfl
      rw [hcn] at hd
      cases hd
    exact ⟨d, by simpa [hdc] using hd⟩
  intro d e q hd he
  by_cases hdc : d = c <;> by_cases hec : e = c
  · rw [hdc, hec]
  · subst hdc
    simp only [update_self, Option.some.injEq, update_of_ne hec] at hd he
    subst hd
    exact absurd he (hfree e)
  · subst hec
    simp only [update_self, Option.some.injEq, update_of_ne hdc] at hd he
    subst he
    exact absurd hd (hfree d)
  · simp only [update_of_ne hdc, update_of_ne hec] at hd he
    exact h.inj d e q hd he

end

end Steps

/-- Every slot that some `fork` is filling in is EMBRYO and belongs to that call alone. -/
structure ForkInv (s : Sys C) : Prop where
  embryo : ∀ p np, (s.fork p).child = some np → (s.proc np).state = .embryo
  inj : ∀ p q np, (s.fork p).child = some np → (s.fork q).child = some np → p = q

theorem forkInv_boot (kstack pgdir : Frame) :
    ForkInv (boot C kstack pgdir) where
  embryo := by simp [boot, ForkPc.child]
  inj := by simp [boot, ForkPc.child]

section ForkSteps

variable {s s' : Sys C} {c : C} {p np : Slot}

section
variable (h : ForkInv s)
include h

theorem ForkInv.mono (hfork : s'.fork = s.fork)
    (hemb : ∀ q, (s.proc q).state = .embryo → (s'.proc q).state = .embryo) :
    ForkInv s' where
  embryo := by
    intro p np hp
    rw [hfork] at hp
    exact hemb np (h.embryo p np hp)
  inj := by
    rw [hfork]
    exact h.inj

theorem ForkInv.advance (hnp : (s.fork p).child = some np)
    (hv : v.state = .embryo) (pc : ForkPc) (hpc : pc.child = some np) :
    ForkInv ((s.setProc np v).setFork p pc) := by
  have key : ∀ q, (update s.fork p pc q).child = (s.fork q).child := by
    intro q
    by_cases hq : q = p
    · subst hq
      simp [hpc, hnp]
    · simp [hq]
  refine ⟨?_, ?_⟩
  · intro q m hm
    simp only [Sys.setFork, Sys.setProc, key] at hm ⊢
    rw [set_apply]
    split_ifs
    · exact hv
    · exact h.embryo q m hm
  · intro q r m hq hr
    simp only [Sys.setFork, Sys.setProc, key] at hq hr
    exact h.inj q r m hq hr

theorem ForkInv.finish (hnp : (s.fork p).child = some np) (v : Proc) :
    ForkInv ((s.setProc np v).setFork p .none) := by
  have key : ∀ q m, (update s.fork p ForkPc.none q).child = some m →
      (s.fork q).child = some m ∧ q ≠ p := by
    intro q m hm
    by_cases hq : q = p
    · subst hq
      simp [ForkPc.child] at hm
    · simpa [hq] using hm
  refine ⟨?_, ?_⟩
  · intro q m hm
    obtain ⟨hqm, hq⟩ := key q m hm
    have hne : m ≠ np := by
      rintro rfl
      exact hq (h.inj q p m hqm hnp)
    simpa [Sys.setFork, Sys.setProc, set_of_ne _ _ hne] using h.embryo q m hqm
  · intro q r m hq hr
    exact h.inj q r m (key q m hq).1 (key r m hr).1

theorem ForkInv.alloc (hp : s.fork p = .none) (hnp : (s.proc np).state = .unused)
    (hv : v.state = .embryo) (n : Int) :
    ForkInv ({ s with proc := set s.proc np v, nextpid := n }.setFork p (.stack np)) := by
  have hnew : ∀ q, (s.fork q).child ≠ some np := by
    intro q hq
    have := h.embryo q np hq
    rw [hnp] at this
    cases this
  refine ⟨?_, ?_⟩
  · intro q m hm
    simp only [Sys.setFork] at hm ⊢
    rw [set_apply]
    split_ifs with hmn
    · exact hv
    · by_cases hq : q = p
      · subst hq
        simp only [update_self, ForkPc.child, Option.some.injEq] at hm
        exact absurd hm.symm hmn
      · exact h.embryo q m (by simpa [hq] using hm)
  intro q r m hq hr
  simp only [Sys.setFork] at hq hr
  by_cases hqp : q = p <;> by_cases hrp : r = p
  · rw [hqp, hrp]
  · subst hqp
    simp only [update_self, ForkPc.child, Option.some.injEq, update_of_ne hrp] at hq hr
    subst hq
    exact absurd hr (hnew r)
  · subst hrp
    simp only [update_self, ForkPc.child, Option.some.injEq, update_of_ne hqp] at hq hr
    subst hr
    exact absurd hq (hnew q)
  · simp only [update_of_ne hqp, update_of_ne hrp] at hq hr
    exact h.inj q r m hq hr

end

end ForkSteps

structure SysInv (s : Sys C) : Prop where
  cpu : CpuInv s
  fork : ForkInv s

section Run

variable {s s' : Sys C} {c : C} {p np : Slot}

section
variable (h : SysInv s)
include h

theorem SysInv.table (hcpu : s'.cpu = s.cpu) (hlock : s'.lock = s.lock) (hfork : s'.fork = s.fork)
    (hrun : ∀ q, (s'.proc q).state = .running ↔ (s.proc q).state = .running)
    (hemb : ∀ q, (s'.proc q).state = .embryo ↔ (s.proc q).state = .embryo)
    (hset : ∀ c q, (s.cpu c).proc = some q → (s.cpu c).mode = .leaving →
      Settled (s'.proc q).state) :
    SysInv s' :=
  ⟨h.cpu.table hcpu hlock hrun hset, h.fork.mono hfork fun q => (hemb q).mpr⟩

theorem SysInv.table_of_free (hfree : s.lock = none) (hcpu : s'.cpu = s.cpu)
    (hlock : s'.lock = s.lock) (hfork : s'.fork = s.fork)
    (hrun : ∀ q, (s'.proc q).state = .running ↔ (s.proc q).state = .running)
    (hemb : ∀ q, (s'.proc q).state = .embryo ↔ (s.proc q).state = .embryo) : SysInv s' := by
  apply h.table hcpu hlock hfork hrun hemb
  intro c q _ hm
  have := (h.cpu.lock_iff c).mpr (.inr hm)
  rw [hfree] at this
  cases this

theorem SysInv.table_of_onCpu (hon : OnCpu s c p) (hcpu : s'.cpu = s.cpu)
    (hlock : s'.lock = s.lock) (hfork : s'.fork = s.fork)
    (hrun : ∀ q, (s'.proc q).state = .running ↔ (s.proc q).state = .running)
    (hemb : ∀ q, (s'.proc q).state = .embryo ↔ (s.proc q).state = .embryo) : SysInv s' := by
  apply h.table hcpu hlock hfork hrun hemb
  intro d q _ hm
  exact absurd hm (h.cpu.not_leaving hon d)

theorem SysInv.release (hon : OnCpu s c p) : SysInv (s.release c p) :=
  ⟨h.cpu.release hon, h.fork.mono rfl fun _ hq => hq⟩

theorem SysInv.leave (hon : OnCpu s c p) (hv : Settled v.state) : SysInv (s.leave c p v) := by
  refine ⟨h.cpu.leave hon hv, h.fork.mono rfl ?_⟩
  intro q hq
  have hne : q ≠ p := by
    rintro rfl
    rw [h.cpu.state_of_onCpu hon] at hq
    cases hq
  simpa [Sys.leave, set_of_ne _ _ hne] using hq

theorem SysInv.setProc (hv : v.state = (s.proc p).state) : SysInv (s.setProc p v) := by
  have key : ∀ q, ((s.setProc p v).proc q).state = (s.proc q).state := by
    intro q
    simp only [Sys.setProc, set_apply]
    split_ifs with hq
    · rw [hv, hq]
    · rfl
  refine h.table rfl rfl rfl ?_ ?_ ?_
  · intro q
    rw [key]
  · intro q
    rw [key]
  · intro c q hq hm
    rw [key]
    exact h.cpu.leaving c q hq hm

theorem SysInv.waitTurn (hon : OnCpu s c p) : SysInv (s.waitTurn c p) := by
  rcases waitTurn_cases s c p with ⟨k, hk, heq⟩ | heq | ⟨_, heq⟩
  · rw [heq]
    have hz := (waitScan_reap hk).2
    have hst : ∀ q st, st ≠ ProcState.zombie → st ≠ .unused →
        (((s.setProc k (s.proc k).reap).proc q).state = st ↔ (s.proc q).state = st) := by
      intro q st h1 h2
      simp only [Sys.setProc, set_apply]
      split_ifs with hq
      · subst hq
        simp [Proc.reap, hz, h1.symm, h2.symm]
      · rfl
    have h' : SysInv (s.setProc k (s.proc k).reap) :=
      h.table_of_onCpu hon rfl rfl rfl
        (fun q => hst q _ (by simp) (by simp)) (fun q => hst q _ (by simp) (by simp))
    exact h'.release hon
  · rw [heq]
    exact h.release hon
  · rw [heq]
    exact h.leave hon (.inl rfl)

theorem SysInv.forkAdvance (hnp : (s.fork p).child = some np)
    (hv : v.state = .embryo) (pc : ForkPc) (hpc : pc.child = some np) :
    SysInv ((s.setProc np v).setFork p pc) := by
  have hst : v.state = (s.proc np).state := by rw [hv, h.fork.embryo p np hnp]
  have h' := (h.setProc hst).cpu
  exact ⟨h'.table rfl rfl (fun _ => Iff.rfl) h'.leaving, h.fork.advance hnp hv pc hpc⟩

theorem SysInv.forkFinish (hnp : (s.fork p).child = some np)
    (hv : v.state ≠ .running) : SysInv ((s.setProc np v).setFork p .none) := by
  have hemb := h.fork.embryo p np hnp
  refine ⟨h.cpu.table rfl rfl ?_ ?_, h.fork.finish hnp v⟩
  · intro q
    simp only [Sys.setFork, Sys.setProc, set_apply]
    split_ifs with hq
    · subst hq
      simp [hv, hemb]
    · rfl
  · intro d q hq hm
    have hset := h.cpu.leaving d q hq hm
    have hne : q ≠ np := by
      rintro rfl
      simp [Settled, hemb] at hset
    simpa [Sys.setFork, Sys.setProc, set_of_ne _ _ hne] using hset

theorem SysInv.forkAlloc (hfree : s.lock = none) (hp : s.fork p = .none) :
    SysInv (forkAlloc s p) := by
  rcases forkAlloc_cases s p with heq | ⟨np, hnp, heq⟩
  · rw [heq]
    exact h
  rw [heq]
  have hun : (s.proc np).state = .unused := by simpa using firstSlot_some hnp
  refine ⟨h.cpu.table rfl rfl ?_ ?_, h.fork.alloc hp hun rfl _⟩
  · intro q
    simp only [Sys.setFork, set_apply]
    split_ifs with hq
    · subst hq
      simp [Proc.embryo, hun]
    · rfl
  · intro d q _ hm
    have := (h.cpu.lock_iff d).mpr (.inr hm)
    rw [hfree] at this
    cases this

theorem SysInv.pass (hstep : pass s c = some s') : SysInv s' := by
  obtain ⟨hl, hm, hcase⟩ := pass_cases hstep
  have haged : SysInv { s with proc := age s.proc } :=
    h.table_of_free hl rfl rfl rfl (fun q => by simp [age]) (fun q => by simp [age])
  rcases hcase with ⟨_, rfl⟩ | ⟨p, hsel, rfl⟩
  · exact haged
  have hrun := (select_some hsel).1
  refine ⟨haged.cpu.dispatch hl hm hrun rfl, haged.fork.mono rfl ?_⟩
  intro q hq
  have hne : q ≠ p := by
    rintro rfl
    simp only at hq
    rw [hrun] at hq
    cases hq
  simpa [set_of_ne _ _ hne] using hq

theorem SysInv.resume (hstep : resume s c = some s') : SysInv s' := by
  obtain ⟨hm, p, hp, hcase⟩ := resume_cases hstep
  have hon : OnCpu s c p := ⟨hp, .inl hm⟩
  have hset : SysInv (s.setProc p { s.proc p with chan := none }) := h.setProc rfl
  rcases hcase with rfl | rfl | ⟨_, rfl⟩
  · exact h.release hon
  · exact hset.release hon
  · exact hset.waitTurn hon

theorem SysInv.exit (hon : OnCpu s c p) (hne : p ≠ s.initproc) :
    SysInv ({ s with proc := s.exitTable p }.leave c p
      { s.exitTable p p with state := .zombie, ofile := fun _ => none }) := by
  have hst : ∀ q st, st ≠ ProcState.sleeping → st ≠ .runnable →
      ((s.exitTable p q).state = st ↔ (s.proc q).state = st) := by
    intro q st h1 h2
    simp only [exitTable, reparent_state_iff hne h1 h2, wakeup1, Proc.wake_state_iff _ _ h1 h2]
  have h' : SysInv { s with proc := s.exitTable p } :=
    h.table_of_onCpu hon rfl rfl rfl
      (fun q => hst q _ (by simp) (by simp)) (fun q => hst q _ (by simp) (by simp))
  have hon' : OnCpu { s with proc := s.exitTable p } c p := ⟨hon.1, hon.2⟩
  exact h'.leave hon' (.inr (.inr rfl))

theorem sysInv_step {l : Label C} (hstep : step s l = some s') : SysInv s' := by
  cases l with
  | pass c => exact h.pass hstep
  | resume c => exact h.resume hstep
  | back c =>
    simp only [step] at hstep
    split_ifs at hstep with hm
    cases hstep
    exact ⟨h.cpu.back hm, h.fork.mono rfl fun _ hq => hq⟩
  | yield c =>
    obtain ⟨p, hc, hl, hk⟩ := locked_eq_some.mp hstep
    cases hk
    exact h.leave (onCpu_of_current hc hl) (.inr (.inl rfl))
  | sleep c a =>
    obtain ⟨p, hc, hl, hk⟩ := locked_eq_some.mp hstep
    split_ifs at hk
    cases hk
    exact h.leave (onCpu_of_current hc hl) (.inl rfl)
  | exit c =>
    obtain ⟨p, hc, hl, hk⟩ := locked_eq_some.mp hstep
    split_ifs at hk with hg
    cases hk
    exact h.exit (onCpu_of_current hc hl) hg.2
  | wait c =>
    obtain ⟨p, hc, hl, hk⟩ := locked_eq_some.mp hstep
    split_ifs at hk
    cases hk
    exact h.waitTurn (onCpu_of_current hc hl)
  | wakeup chan =>
    simp only [step] at hstep
    split_ifs at hstep with hl
    cases hstep
    exact h.table_of_free hl rfl rfl rfl
      (fun q => Proc.wake_state_iff _ _ (by simp) (by simp))
      (fun q => Proc.wake_state_iff _ _ (by simp) (by simp))
  | kill pid =>
    simp only [step] at hstep
    split_ifs at hstep with hl
    cases hstep
    have hst : ∀ q st, st ≠ ProcState.sleeping → st ≠ .runnable →
        (((Ptable.kill s.proc pid).2 q).state = st ↔ (s.proc q).state = st) := by
      intro q st h1 h2
      rcases kill_apply s.proc pid q with heq | ⟨heq, _⟩
      · rw [heq]
      · rw [heq]
        exact Proc.kill_state_iff _ h1 h2
    exact h.table_of_free hl rfl rfl rfl
      (fun q => hst q _ (by simp) (by simp)) (fun q => hst q _ (by simp) (by simp))
  | setpriority pid prio =>
    simp only [step] at hstep
    split_ifs at hstep with hl
    cases hstep
    have hst : ∀ q, ((Ptable.setpriority s.proc pid prio).2 q).state = (s.proc q).state := by
      intro q
      rcases setpriority_apply s.proc pid prio q with heq | ⟨heq, _⟩
      · rw [heq]
      · rw [heq]
        rfl
    exact h.table_of_free hl rfl rfl rfl
      (fun q => by rw [hst]) (fun q => by rw [hst])
  | trap c =>
    obtain ⟨p, _, hk⟩ := unlocked_eq_some.mp hstep
    cases hk
    exact h.setProc rfl
  | forkAlloc c =>
    obtain ⟨p, hc, hl, hk⟩ := locked_eq_some.mp hstep
    split_ifs at hk with hg
    cases hk
    exact h.forkAlloc hl hg
  | forkStack c mem =>
    obtain ⟨p, hc, hk⟩ := unlocked_eq_some.mp hstep
    split at hk
    · rename_i np hnp
      have hchild : (s.fork p).child = some np := by rw [hnp]; rfl
      cases hk
      cases mem with
      | none => exact h.forkFinish hchild (by simp)
      | some k =>
        refine h.forkAdvance hchild ?_ (.copy np) rfl
        exact h.fork.embryo p np hchild
    · cases hk
  | forkCopy c dir =>
    obtain ⟨p, hc, hk⟩ := unlocked_eq_some.mp hstep
    split at hk
    · rename_i np hnp
      have hchild : (s.fork p).child = some np := by rw [hnp]; rfl
      cases hk
      cases dir with
      | none => exact h.forkFinish hchild (by simp)
      | some d =>
        refine h.forkAdvance hchild ?_ (.load np) rfl
        exact h.fork.embryo p np hchild
    · cases hk
  | forkLoad c =>
    obtain ⟨p, hc, hk⟩ := unlocked_eq_some.mp hstep
    split at hk
    · rename_i np hnp
      have hchild : (s.fork p).child = some np := by rw [hnp]; rfl
      cases hk
      have h' := h.forkAdvance hchild (v := s.proc np) (h.fork.embryo p np hchild)
        (.store np (s.proc p).priority) rfl
      simpa [Sys.setProc, set] using h'
    · cases hk
  | forkStore c =>
    obtain ⟨p, hc, hk⟩ := unlocked_eq_some.mp hstep
    split at hk
    · rename_i np prio hnp
      have hchild : (s.fork p).child = some np := by rw [hnp]; rfl
      cases hk
      refine h.forkAdvance hchild ?_ (.publish np) rfl
      exact h.fork.embryo p np hchild
    · cases hk
  | forkPublish c =>
    obtain ⟨p, hc, hl, hk⟩ := locked_eq_some.mp hstep
    split at hk
    · rename_i np hnp
      have hchild : (s.fork p).child = some np := by rw [hnp]; rfl
      cases hk
      exact h.forkFinish hchild (by simp)
    · cases hk

end

theorem sysInv_boot (kstack pgdir : Frame) : SysInv (boot C kstack pgdir) :=
  ⟨cpuInv_boot kstack pgdir, forkInv_boot kstack pgdir⟩

theorem sysInv_of_reached (h : Reached s) : SysInv s := by
  obtain ⟨kstack, pgdir, hr⟩ := h
  exact hr.invariant SysInv (sysInv_boot kstack pgdir)
    fun _ _ _ hs hst => sysInv_step hs hst

theorem Reached.invariant (Inv : Sys C → Prop) (h : Reached s)
    (hboot : ∀ kstack pgdir, Inv (boot C kstack pgdir))
    (hstep : ∀ s l t, SysInv s → Inv s → step s l = some t → Inv t) : Inv s := by
  obtain ⟨kstack, pgdir, hr⟩ := h
  have hboth : SysInv s ∧ Inv s := by
    refine hr.invariant (fun s => SysInv s ∧ Inv s) ⟨sysInv_boot kstack pgdir, hboot _ _⟩ ?_
    rintro s l t ⟨hsys, hs⟩ hst
    exact ⟨sysInv_step hsys hst, hstep s l t hsys hs hst⟩
  exact hboth.2

theorem invariant_of_meets (Inv : Sys C → Prop) {Ok : Sys C → Label C → Prop}
    (hboot : ∀ kstack pgdir, Inv (boot C kstack pgdir))
    (hstep : ∀ s l t, SysInv s → Inv s → Ok s l → step s l = some t → Inv t)
    {kstack pgdir : Frame} {ls : List (Label C)} (hmeets : Meets step Ok (boot C kstack pgdir) ls)
    (hrun : run step (boot C kstack pgdir) ls = some s) : Inv s := by
  have hboth : SysInv s ∧ Inv s := by
    refine run_invariant_of_meets (fun s => SysInv s ∧ Inv s) ?_
      ⟨sysInv_boot kstack pgdir, hboot _ _⟩ hmeets hrun
    rintro s l t ⟨hsys, hs⟩ hok hst
    exact ⟨sysInv_step hsys hst, hstep s l t hsys hs hok hst⟩
  exact hboth.2

theorem waitReturns_spec {l : Label C} {k : Slot} (hstep : step s l = some s')
    (hw : waitReturns s l = some (p, k)) :
    (∃ c, OnCpu s c p) ∧ (s.proc k).parent = some p ∧ (s.proc k).state = .zombie := by
  cases l with
  | wait c =>
    obtain ⟨q, hc, hl, _⟩ := locked_eq_some.mp hstep
    simp only [waitReturns, hc, Option.map_eq_some_iff, Prod.mk.injEq] at hw
    obtain ⟨m, hm, rfl, rfl⟩ := hw
    exact ⟨⟨c, onCpu_of_current hc hl⟩, waitScan_reap (reapedBy_eq_some.mp hm)⟩
  | resume c =>
    obtain ⟨hm, q, hq, _⟩ := resume_cases hstep
    simp only [waitReturns, hq] at hw
    split_ifs at hw with hx
    simp only [Option.map_eq_some_iff, Prod.mk.injEq] at hw
    obtain ⟨m, hreap, rfl, rfl⟩ := hw
    have hz := waitScan_reap (reapedBy_eq_some.mp hreap)
    rw [set_apply] at hz
    refine ⟨⟨c, hq, .inl hm⟩, ?_⟩
    split_ifs at hz with hmq
    · rw [hmq]
      exact hz
    · exact hz
  | _ => simp [waitReturns] at hw

end Run

/--
**One CPU per running process.**  With `ptable.lock` free a process is RUNNING
exactly when it is the current process of one CPU, and no two CPUs share a
current process.  Whether the lock is free or not, a `wait` never gives back
the slot of a process that still is some CPU's current process.
-/
theorem running_iff_current_of_one_cpu {s : Sys C} (h : Reached s) :
    (s.lock = none → (∀ p, (s.proc p).state = .running ↔ ∃! c, (s.cpu c).proc = some p) ∧
      ∀ c d p, (s.cpu c).proc = some p → (s.cpu d).proc = some p → c = d) ∧
    ∀ l s' p k, step s l = some s' → waitReturns s l = some (p, k) →
      ∀ c, (s.cpu c).proc ≠ some k := by
  have hinv := (sysInv_of_reached h).cpu
  refine ⟨?_, ?_⟩
  · intro hfree
    refine ⟨?_, hinv.inj⟩
    intro p
    constructor
    · intro hp
      obtain ⟨c, hc⟩ := hinv.running p hp
      exact ⟨c, hc, fun d hd => hinv.inj d c p hd hc⟩
    · rintro ⟨c, hc, _⟩
      apply hinv.current c p hc
      intro hm
      have := (hinv.lock_iff c).mpr (.inr hm)
      rw [hfree] at this
      cases this
  · intro l s' p k hstep hw c hc
    obtain ⟨⟨d, hon⟩, _, hz⟩ := waitReturns_spec hstep hw
    have hrun := hinv.current c k hc (hinv.not_leaving hon c)
    rw [hz] at hrun
    cases hrun

/-- After the first dispatch init is RUNNING, on exactly one of two CPUs. -/
theorem init_runs_on_one_of_two_cpus :
    ∃ s : Sys Bool, Reached s ∧ s.lock = none ∧ (s.proc 0).state = .running ∧
      ∃! c, (s.cpu c).proc = some 0 := by
  obtain ⟨s, hrun, htest⟩ :=
    exists_of_run_map step (boot Bool 1 2) [.pass true, .resume true]
      (fun s => s.lock = none ∧ (s.proc 0).state = .running) (by decide +kernel)
  have hs : s.lock = none ∧ (s.proc 0).state = .running := by simpa using htest
  have hreach : Reached s := ⟨1, 2, _, hrun⟩
  exact ⟨s, hreach, hs.1, hs.2, (((running_iff_current_of_one_cpu hreach).1 hs.1).1 0).mp hs.2⟩

end CpuOwnership

end Xv6.Ptable
