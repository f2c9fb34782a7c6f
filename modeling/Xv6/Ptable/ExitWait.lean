import Xv6.Ptable.Life
import Xv6.Lib.Counting

/-!
# The exit/wait protocol

Two invariants.  `TreeInv` is about the parent pointers: every process other
than init has a parent that has not exited, and a process that sleeps in `wait`
has no zombie child, since `exit` wakes the parent before it becomes a zombie
and wakes init when it hands a zombie over.  `HistInv` counts, slot by slot, how
often the recorded history shows a `fork`, an `exit` and a `wait` that returned:
the three follow each other in this order, for one pid at a time.
-/

namespace Xv6.Ptable

open Lib Sys List

variable {q p k : Slot} {h : List Event} {kstack pgdir : Frame}

set_option linter.unusedSectionVars false

section ExitWait

variable {C : Type} [DecidableEq C]

structure TreeInv (s : Sys C) : Prop where
  init_alive : Alive (s.proc s.initproc).state
  init_root : (s.proc s.initproc).parent = none
  irrefl : ∀ k, (s.proc k).parent ≠ some k
  parent_alive : ∀ k q, (s.proc k).parent = some q → Alive (s.proc q).state
  has_parent : ∀ k, k ≠ s.initproc →
    Alive (s.proc k).state ∨ (s.proc k).state = .zombie → (s.proc k).parent ≠ none
  unused_root : ∀ k, (s.proc k).state = .unused → (s.proc k).parent = none
  early : ∀ p k, s.fork p = .stack k ∨ s.fork p = .copy k → (s.proc k).parent = none
  late : ∀ p k, s.fork p = .load k ∨ (∃ prio, s.fork p = .store k prio) ∨
    s.fork p = .publish k → (s.proc k).parent = some p
  waiting : ∀ p, (s.proc p).state = .sleeping → (s.proc p).chan = some (.proc p) →
    ∀ k, (s.proc k).parent = some p → (s.proc k).state ≠ .zombie

theorem treeInv_boot (kstack pgdir : Frame) : TreeInv (boot C kstack pgdir) := by
  have hpar : ∀ k, ((boot C kstack pgdir).proc k).parent = none := by
    intro k
    by_cases h0 : k = 0
    · subst h0
      simp [boot, initProc, Proc.embryo, Proc.zero]
    · simp [boot, set_of_ne _ _ h0, Proc.zero]
  refine ⟨by simp [boot, initProc, Alive], hpar _, by simp [hpar], by simp [hpar], ?_,
    fun k _ => hpar k, fun p k _ => hpar k, by simp [boot], by simp [hpar]⟩
  intro k hk hst
  have h0 : k ≠ 0 := hk
  simp [boot, set_of_ne _ _ h0, Proc.zero, Alive] at hst

section Tree

variable {s s' : Sys C} {l : Label C}

theorem Life.alive (h : Life s s' q l) (hl : ∀ c, l ≠ .exit c) (ha : Alive (s.proc q).state) :
    Alive (s'.proc q).state := by
  cases h with
  | still _ hst =>
    rw [alive_iff_not_outside] at ha ⊢
    intro hout
    exact ha ((hst _ hout).mp rfl ▸ hout)
  | exited c heq | orphaned c _ heq => exact absurd heq (hl c)
  | allocated _ hold | aborted _ _ _ hold | adopted _ _ _ _ _ _ hold | forked _ _ _ hold
  | reaped _ _ hold => simp [hold, Alive] at ha

theorem Life.parent (h : Life s s' q l) (hl : ∀ c, l ≠ .exit c) :
    (s'.proc q).parent = (s.proc q).parent ∨
      ((s.proc q).state = .zombie ∧ (s'.proc q).parent = none) ∨
      ∃ c p, s.current c = some p ∧ s.fork p = .copy q ∧ s'.fork p = .load q ∧
        (s.proc q).state = .embryo ∧ (s'.proc q).parent = some p := by
  cases h with
  | still _ _ hpar | allocated _ _ _ hpar | aborted _ _ _ _ _ hpar | forked _ _ _ _ _ hpar =>
    exact .inl hpar
  | reaped p _ hold _ hpar => exact .inr (.inl ⟨hold, hpar⟩)
  | adopted c p _ hcur hpc hnext hold _ hpar =>
    exact .inr (.inr ⟨c, p, hcur, hpc, hnext, hold, hpar⟩)
  | exited c heq | orphaned c _ heq => exact absurd heq (hl c)

theorem Life.born (h : Life s s' q l) (hl : ∀ c, l ≠ .exit c)
    (hst' : Alive (s'.proc q).state ∨ (s'.proc q).state = .zombie) :
    (s'.proc q).parent = (s.proc q).parent ∧
      (Alive (s.proc q).state ∨ (s.proc q).state = .zombie ∨ ∃ p, s.fork p = .publish q) := by
  cases h with
  | still _ hst hpar =>
    refine ⟨hpar, ?_⟩
    rcases hst' with ha | hz
    · left
      rw [alive_iff_not_outside] at ha ⊢
      intro hout
      exact ha ((hst _ hout).mpr rfl ▸ hout)
    · exact .inr (.inl ((hst _ (.inr (.inr rfl))).mp hz))
  | forked p _ hpc _ _ hpar => exact ⟨hpar, .inr (.inr ⟨p, hpc⟩)⟩
  | exited c heq | orphaned c _ heq => exact absurd heq (hl c)
  | allocated _ _ hnew | aborted _ _ _ _ hnew | adopted _ _ _ _ _ _ _ hnew
  | reaped _ _ _ hnew => simp [hnew, Alive] at hst'

theorem Life.zombie (h : Life s s' q l) (hl : ∀ c, l ≠ .exit c) (hz : (s'.proc q).state = .zombie) :
    (s.proc q).state = .zombie ∧ (s'.proc q).parent = (s.proc q).parent := by
  cases h with
  | still _ hst hpar => exact ⟨(hst _ (.inr (.inr rfl))).mp hz, hpar⟩
  | exited c heq | orphaned c _ heq => exact absurd heq (hl c)
  | allocated _ _ hnew | aborted _ _ _ _ hnew | adopted _ _ _ _ _ _ _ hnew
  | forked _ _ _ _ hnew | reaped _ _ _ hnew =>
    rw [hnew] at hz
    cases hz

theorem Life.waiting (h : Life s s' q l) (hl : ∀ c, l ≠ .exit c)
    (hst' : (s'.proc q).state = .sleeping) (hch : (s'.proc q).chan = some (.proc q)) :
    ((s.proc q).state = .sleeping ∧ (s.proc q).chan = some (.proc q)) ∨
      ∀ p, (s.proc p).parent = some q → (s.proc p).state ≠ .zombie := by
  cases h with
  | still _ _ _ _ hwait => exact hwait hst' hch
  | exited c heq | orphaned c _ heq => exact absurd heq (hl c)
  | allocated _ _ hnew | aborted _ _ _ _ hnew | adopted _ _ _ _ _ _ _ hnew
  | forked _ _ _ _ hnew | reaped _ _ _ hnew =>
    rw [hnew] at hst'
    cases hst'

theorem TreeInv.late_keep (h : TreeInv s) (hinv : SysInv s) (hl : ∀ c, l ≠ .exit c)
    (hstep : step s l = some s')
    (hpc : s.fork p = .load k ∨ (∃ prio, s.fork p = .store k prio) ∨ s.fork p = .publish k) :
    (s'.proc k).parent = some p := by
  have hchild : (s.fork p).child = some k := by
    rcases hpc with hpc | ⟨prio, hpc⟩ | hpc <;> rw [hpc] <;> rfl
  have hemb := hinv.fork.embryo p k hchild
  rcases (life_of_step hinv hstep k).parent hl with heq | ⟨hz, _⟩ | ⟨_, r, _, hr, _⟩
  · rw [heq]
    exact h.late p k hpc
  · rw [hemb] at hz
    cases hz
  · have hrp := hinv.fork.inj r p k (by rw [hr]; rfl) hchild
    subst hrp
    rw [hr] at hpc
    simp at hpc

theorem TreeInv.early_keep (h : TreeInv s) (hinv : SysInv s) (hl : ∀ c, l ≠ .exit c)
    (hstep : step s l = some s') (hpc : s.fork p = .stack k ∨ s.fork p = .copy k)
    (hpc' : s'.fork p ≠ .load k) : (s'.proc k).parent = none := by
  have hchild : (s.fork p).child = some k := by rcases hpc with hpc | hpc <;> rw [hpc] <;> rfl
  rcases (life_of_step hinv hstep k).parent hl with heq | ⟨_, hn⟩ | ⟨_, r, _, hr, hr', _⟩
  · rw [heq]
    exact h.early p k hpc
  · exact hn
  · have hrp := hinv.fork.inj r p k (by rw [hr]; rfl) hchild
    subst hrp
    exact absurd hr' hpc'

theorem TreeInv.other (h : TreeInv s) (hinv : SysInv s) (hl : ∀ c, l ≠ .exit c)
    (hstep : step s l = some s') : TreeInv s' := by
  have hlife := life_of_step hinv hstep
  have hinit := (step_globals hstep).1
  refine ⟨?_, ?_, ?_, ?_, ?_, ?_, ?_, ?_, ?_⟩
  · rw [hinit]
    exact (hlife _).alive hl h.init_alive
  · rw [hinit]
    rcases (hlife s.initproc).parent hl with heq | ⟨_, hn⟩ | ⟨_, _, _, _, _, hemb, _⟩
    · rw [heq]
      exact h.init_root
    · exact hn
    · have := h.init_alive
      simp [hemb, Alive] at this
  · intro k hk
    rcases (hlife k).parent hl with heq | ⟨_, hn⟩ | ⟨c, p, hcur, _, _, hemb, hp⟩
    · rw [heq] at hk
      exact h.irrefl k hk
    · rw [hn] at hk
      cases hk
    · rw [hp] at hk
      cases hk
      obtain ⟨hm, hc⟩ := current_eq_some.mp hcur
      have := hinv.cpu.current c k hc (by simp [hm])
      rw [hemb] at this
      cases this
  · intro k q hq
    refine (hlife q).alive hl ?_
    rcases (hlife k).parent hl with heq | ⟨_, hn⟩ | ⟨c, p, hcur, _, _, _, hp⟩
    · rw [heq] at hq
      exact h.parent_alive k q hq
    · rw [hn] at hq
      cases hq
    · rw [hp] at hq
      cases hq
      obtain ⟨hm, hc⟩ := current_eq_some.mp hcur
      exact .inr (Or.inr (hinv.cpu.current c q hc (by simp [hm])))
  · intro k hk hst
    rw [hinit] at hk
    obtain ⟨hpar, hback⟩ := (hlife k).born hl hst
    rw [hpar]
    rcases hback with ha | hz | ⟨p, hp⟩
    · exact h.has_parent k hk (.inl ha)
    · exact h.has_parent k hk (.inr hz)
    · rw [h.late p k (Or.inr (Or.inr hp))]
      simp
  · intro k hk
    cases hlife k with
    | still _ hst hpar =>
      rw [hpar]
      exact h.unused_root k ((hst _ (.inl rfl)).mp hk)
    | aborted p _ hpc _ _ hpar =>
      rw [hpar]
      exact h.early p k hpc
    | reaped p _ _ _ hpar => exact hpar
    | exited c heq | orphaned c _ heq => exact absurd heq (hl c)
    | allocated _ _ hnew | adopted _ _ _ _ _ _ _ hnew | forked _ _ _ _ hnew =>
      rw [hnew] at hk
      cases hk
  · intro p k hpc
    have hne : s'.fork p ≠ .load k := by rcases hpc with hpc | hpc <;> simp [hpc]
    cases forkMove_of_step hstep p with
    | keep _ heq =>
      rw [heq] at hpc
      exact h.early_keep hinv hl hstep hpc hne
    | stack c np f hold heq =>
      rw [heq] at hpc
      have hk : np = k := by simpa using hpc
      subst hk
      exact h.early_keep hinv hl hstep (.inl hold) hne
    | alloc c np _ _ hun heq =>
      rw [heq] at hpc
      have hk : np = k := by simpa using hpc
      subst hk
      rcases (hlife np).parent hl with heq | ⟨_, hn⟩ | ⟨_, _, _, _, _, hemb, _⟩
      · rw [heq]
        exact h.unused_root np hun
      · exact hn
      · rw [hun] at hemb
        cases hemb
    | copy _ _ _ _ _ _ heq | load _ _ _ _ heq | store _ _ _ _ heq | finish _ heq =>
      rw [heq] at hpc
      simp at hpc
  · intro p k hpc
    cases forkMove_of_step hstep p with
    | keep _ heq =>
      rw [heq] at hpc
      exact h.late_keep hinv hl hstep hpc
    | copy c np d _ _ hpar heq =>
      rw [heq] at hpc
      have hk : np = k := by simpa using hpc
      subst hk
      exact hpar
    | load c np _ hold heq =>
      rw [heq] at hpc
      have hk : np = k := by simpa using hpc
      subst hk
      exact h.late_keep hinv hl hstep (.inl hold)
    | store c np prio hold heq =>
      rw [heq] at hpc
      have hk : np = k := by simpa using hpc
      subst hk
      exact h.late_keep hinv hl hstep (.inr (.inl ⟨prio, hold⟩))
    | alloc _ _ _ _ _ heq | stack _ _ _ _ heq | finish _ heq =>
      rw [heq] at hpc
      simp at hpc
  · intro p hst hch k hk hz
    obtain ⟨hzold, hpar⟩ := (hlife k).zombie hl hz
    rw [hpar] at hk
    rcases (hlife p).waiting hl hst hch with ⟨hs, hc⟩ | hnone
    · exact h.waiting p hs hc k hk hzold
    · exact hnone k hk hzold

theorem TreeInv.exit (h : TreeInv s) (hinv : SysInv s) {c : C}
    (hstep : step s (.exit c) = some s') : TreeInv s' := by
  obtain ⟨p, hc, hrun, hinit, hpc, hfork, hz, hst, hrest⟩ := exit_spec hinv hstep
  have hi := (step_globals hstep).1
  have hpar := fun q => (hrest q).2.2
  have halive : ∀ q, q ≠ p → Alive (s.proc q).state → Alive (s'.proc q).state := by
    intro q hq ha
    rw [hst q hq, exitTable_state hinit]
    split_ifs
    · exact .inr (.inl rfl)
    · exact ha
  have hback : ∀ q st, q ≠ p → Outside st → (s'.proc q).state = st → (s.proc q).state = st := by
    intro q st hq hout hs
    rw [hst q hq] at hs
    exact (exitTable_state_iff hinit st (by rintro rfl; simp [Outside] at hout)
      (by rintro rfl; simp [Outside] at hout) q).mp hs
  refine ⟨?_, ?_, ?_, ?_, ?_, ?_, ?_, ?_, ?_⟩
  · rw [hi]
    exact halive _ (Ne.symm hinit) h.init_alive
  · rw [hi, hpar, h.init_root]
    simp
  · intro k hk
    rw [hpar] at hk
    split_ifs at hk with hkp
    · cases hk
      rw [h.init_root] at hkp
      cases hkp
    · exact h.irrefl k hk
  · intro k q hq
    rw [hpar] at hq
    split_ifs at hq with hkp
    · cases hq
      exact halive _ (Ne.symm hinit) h.init_alive
    · refine halive q ?_ (h.parent_alive k q hq)
      rintro rfl
      exact hkp hq
  · intro k hk hlive
    rw [hi] at hk
    rw [hpar]
    split_ifs with hkp
    · simp
    by_cases hkq : k = p
    · subst hkq
      exact h.has_parent k hk (.inl (.inr (.inr hrun)))
    refine h.has_parent k hk ?_
    rcases hlive with ha | hzk
    · by_contra hno
      push Not at hno
      rw [alive_iff_not_outside, not_not] at hno
      have hs' := (exitTable_state_iff (s := s) hinit (s.proc k).state
        (by intro he; simp [he, Outside] at hno) (by intro he; simp [he, Outside] at hno)
        k).mpr rfl
      rw [hst k hkq, hs', alive_iff_not_outside] at ha
      exact ha hno.1
    · exact .inr (hback k _ hkq (.inr (.inr rfl)) hzk)
  · intro k hk
    have hkp : k ≠ p := by
      rintro rfl
      rw [hz] at hk
      cases hk
    have hun := h.unused_root k (hback k _ hkp (.inl rfl) hk)
    rw [hpar, hun]
    simp
  · intro r k hr
    rw [hfork] at hr
    rw [hpar, h.early r k hr]
    simp
  · intro r k hr
    rw [hfork] at hr
    have hrp : r ≠ p := by
      rintro rfl
      rw [hpc] at hr
      simp at hr
    rw [hpar, h.late r k hr]
    simp [hrp]
  intro x hx hch k hk hzk
  have hxp : x ≠ p := by
    rintro rfl
    rw [hz] at hx
    cases hx
  rw [hst x hxp, exitTable_state hinit] at hx
  rw [(hrest x).2.1] at hch
  -- a sleeper that is still asleep was not woken
  split_ifs at hx with hwoken
  push Not at hwoken
  obtain ⟨hnot, hnoinit⟩ := hwoken hx
  rw [hpar] at hk
  by_cases hkp : k = p
  · subst hkp
    rw [if_neg (h.irrefl k)] at hk
    exact hnot (by rw [hch, hk]; rfl)
  · have hzold := hback k _ hkp (.inr (.inr rfl)) hzk
    split_ifs at hk with hkpar
    · cases hk
      exact hnoinit hch k hkpar hzold
    · exact h.waiting x hx hch k hk hzold

theorem treeInv_step (hinv : SysInv s) (h : TreeInv s) (hstep : step s l = some s') :
    TreeInv s' := by
  by_cases hl : ∃ c, l = .exit c
  · obtain ⟨c, rfl⟩ := hl
    exact h.exit hinv hstep
  · push Not at hl
    exact h.other hinv hl hstep

end Tree

structure HistInv (s : Sys C) (h : List Event) : Prop where
  alive : ∀ k v, countAt Event.slot (Event.isFork v) h k = countAt Event.slot (Event.isExit v) h k +
      if Alive (s.proc k).state ∧ k ≠ s.initproc ∧ (s.proc k).pid = v then 1 else 0
  dead : ∀ k v, countAt Event.slot (Event.isExit v) h k = countAt Event.slot (Event.isWait v) h k +
      if (s.proc k).state = .zombie ∧ (s.proc k).pid = v then 1 else 0
  exit_first : ∀ p k v h₂, (.waited p k v :: h₂) <:+ h →
    countAt Event.slot (Event.isWait v) h₂ k < countAt Event.slot (Event.isExit v) h₂ k

section History

variable {s s' : Sys C} {l : Label C}

theorem histInv_boot (kstack pgdir : Frame) :
    HistInv (boot C kstack pgdir) [] where
  alive := by
    intro k v
    by_cases h0 : k = 0
    · simp [boot, h0]
    · simp [boot, set_of_ne _ _ h0, Proc.zero, Alive]
  dead := by
    intro k v
    by_cases h0 : k = 0
    · simp [boot, h0, initProc]
    · simp [boot, set_of_ne _ _ h0, Proc.zero]
  exit_first := by simp

theorem alive_congr {p : Proc} {q : Proc} (hst : ∀ st, Outside st → (q.state = st ↔ p.state = st)) :
    Alive q.state ↔ Alive p.state := by
  rw [alive_iff_not_outside, alive_iff_not_outside, not_iff_not]
  constructor
  · intro hout
    rw [(hst _ hout).mp rfl]
    exact hout
  · intro hout
    rw [(hst _ hout).mpr rfl]
    exact hout

theorem HistInv.alive_step (hh : HistInv s h) (hinv : SysInv s) (htree : TreeInv s)
    (hstep : step s l = some s') (k : Slot) (v : Int) :
    countAt Event.slot (Event.isFork v) (shows s l ++ h) k =
      countAt Event.slot (Event.isExit v) (shows s l ++ h) k +
        if Alive (s'.proc k).state ∧ k ≠ s'.initproc ∧ (s'.proc k).pid = v then 1 else 0 := by
  have hold := hh.alive k v
  have hinit := (step_globals hstep).1
  rw [countAt_append, countAt_append, hinit, hold]
  cases life_of_step hinv hstep k with
  | still _ hst _ hpid | orphaned _ _ _ hst hpid =>
    have hne : ∀ e ∈ shows s l, e.slot ≠ k := fun e he => slot_ne_of_still hinv hstep hst he
    simp only [countAt_eq_zero hne, alive_congr hst, hpid]
    omega
  | forked p _ _ hemb hrun _ hpid hshow =>
    have hk : k ≠ s.initproc := by
      rintro rfl
      have := htree.init_alive
      simp [hemb, Alive] at this
    simp [hshow, hemb, hrun, hpid, hk, Alive, Event.slot, Event.isFork, Event.isExit]
    omega
  | exited c _ hrun hz hpid hshow hk =>
    simp [hshow, hrun, hz, hk, Alive, Event.slot, Event.isFork, Event.isExit]
    omega
  | allocated _ hun hemb _ _ hshow => simp [hshow, hun, hemb, Alive, Event.isFork, Event.isExit]
  | aborted _ _ _ hemb hun _ hshow => simp [hshow, hun, hemb, Alive]
  | adopted _ _ _ _ _ _ hemb hemb' _ _ hshow => simp [hshow, hemb', hemb, Alive]
  | reaped _ _ hz hun _ hshow => simp [hshow, hz, hun, Alive, Event.isFork, Event.isExit]

theorem HistInv.dead_step (hh : HistInv s h) (hinv : SysInv s) (hstep : step s l = some s')
    (k : Slot) (v : Int) :
    countAt Event.slot (Event.isExit v) (shows s l ++ h) k =
      countAt Event.slot (Event.isWait v) (shows s l ++ h) k +
        if (s'.proc k).state = .zombie ∧ (s'.proc k).pid = v then 1 else 0 := by
  have hold := hh.dead k v
  rw [countAt_append, countAt_append, hold]
  cases life_of_step hinv hstep k with
  | still _ hst _ hpid | orphaned _ _ _ hst hpid =>
    have hne : ∀ e ∈ shows s l, e.slot ≠ k := fun e he => slot_ne_of_still hinv hstep hst he
    simp only [countAt_eq_zero hne, hst _ (Or.inr (Or.inr rfl)), hpid]
    omega
  | forked p _ _ hemb hrun _ hpid hshow => simp [hshow, hemb, hrun, Event.isWait, Event.isExit]
  | exited c _ hrun hz hpid hshow hk =>
    simp [hshow, hrun, hz, hpid, Event.slot, Event.isWait, Event.isExit]
    omega
  | allocated _ hun hemb _ _ hshow => simp [hshow, hun, hemb, Event.isWait, Event.isExit]
  | aborted _ _ _ hemb hun _ hshow => simp [hshow, hun, hemb]
  | adopted _ _ _ _ _ _ hemb hemb' _ _ hshow => simp [hshow, hemb', hemb]
  | reaped _ _ hz hun _ hshow =>
    simp [hshow, hz, hun, Event.slot, Event.isWait, Event.isExit]
    omega

theorem shows_waited (hstep : step s l = some s') {v : Int}
    (he : .waited p k v ∈ shows s l) : (s.proc k).state = .zombie ∧ (s.proc k).pid = v := by
  cases l with
  | wait c | resume c =>
    simp only [shows] at he
    split at he
    · rename_i q m hw
      simp only [mem_singleton, Event.waited.injEq] at he
      obtain ⟨rfl, rfl, rfl⟩ := he
      exact ⟨(waitReturns_spec hstep hw).2.2, rfl⟩
    · cases he
  | forkAlloc c =>
    simp only [shows] at he
    split at he <;> simp at he
  | forkPublish c =>
    simp only [shows] at he
    split at he
    · split at he <;> simp at he
    · cases he
  | exit c =>
    simp only [shows] at he
    split at he <;> simp at he
  | _ => simp [shows, waitReturns] at he

theorem shows_length (s : Sys C) (l : Label C) : shows s l = [] ∨ ∃ e, shows s l = [e] := by
  unfold shows
  split
  · split <;> simp
  · split
    · split <;> simp
    · simp
  · split <;> simp
  · split <;> simp

theorem histInv_step (hh : HistInv s h) (hinv : SysInv s) (htree : TreeInv s)
    (hstep : step s l = some s') :
    HistInv s' (shows s l ++ h) where
  alive := hh.alive_step hinv htree hstep
  dead := hh.dead_step hinv hstep
  exit_first := by
    intro p k v h2 hsuf
    rcases shows_length s l with hnil | ⟨e, he⟩
    · rw [hnil] at hsuf
      exact hh.exit_first p k v h2 hsuf
    rw [he, singleton_append, suffix_cons_iff] at hsuf
    rcases hsuf with heq | hsuf
    · cases heq
      obtain ⟨hz, hpid⟩ := shows_waited hstep (by rw [he]; exact mem_singleton.mpr rfl)
      have := hh.dead k v
      simp only [hz, hpid, and_self, if_true] at this
      omega
    · exact hh.exit_first p k v h2 hsuf

end History

def Taken (n : Nat) (v : Int) : Prop :=
  ∃ i < n, v = toInt32 (2 + i)

def uses (s : Sys C) (h : List Event) (v : Int) (k : Slot) : Nat :=
  countAt Event.slot (Event.isFork v) h k +
    if (s.proc k).state = .embryo ∧ (s.proc k).pid = v then 1 else 0

structure PidInv (s : Sys C) (h : List Event) : Prop where
  nextpid : s.nextpid = toInt32 (2 + h.countP Event.isAlloc)
  once : h.countP Event.isAlloc ≤ 2 ^ 32 → ∀ v, ∑ k, uses s h v k ≤ 1
  taken : ∀ v, ∑ k, uses s h v k ≠ 0 → Taken (h.countP Event.isAlloc) v

section Pids

variable {s s' : Sys C} {l : Label C}

theorem pidInv_boot (kstack pgdir : Frame) : PidInv (boot C kstack pgdir) [] := by
  have huses : ∀ v k, uses (boot C kstack pgdir) [] v k = 0 := by
    intro v k
    by_cases h0 : k = 0
    · simp [uses, boot, h0, initProc]
    · simp [uses, boot, set_of_ne _ _ h0, Proc.zero]
  refine ⟨by simp [boot, toInt32], ?_, ?_⟩
  · intro _ v
    simp [huses]
  · intro v hv
    simp [huses] at hv

theorem uses_step (hinv : SysInv s) (hstep : step s l = some s') (v : Int) (k : Slot) :
    uses s' (shows s l ++ h) v k ≤
      uses s h v k + countAt Event.slot (Event.isAllocOf v) (shows s l) k := by
  unfold uses
  rw [countAt_append]
  cases life_of_step hinv hstep k with
  | still _ hst _ hpid | orphaned _ _ _ hst hpid =>
    have hne : ∀ e ∈ shows s l, e.slot ≠ k := fun e he => slot_ne_of_still hinv hstep hst he
    simp only [countAt_eq_zero hne, hst _ (Or.inr (Or.inl rfl)), hpid]
    omega
  | forked p _ _ hemb hrun _ hpid hshow =>
    simp [hshow, hemb, hrun, Event.slot, Event.isFork, Event.isAllocOf]
    omega
  | exited c _ hrun hz hpid hshow hk => simp [hshow, hrun, hz, Event.isFork, Event.isAllocOf]
  | allocated _ hun hemb _ hpid hshow =>
    simp [hshow, hun, hemb, hpid, Event.slot, Event.isFork, Event.isAllocOf]
  | aborted _ _ _ hemb hun _ hshow => simp [hshow, hun, hemb]
  | adopted _ _ _ _ _ _ hemb hemb' _ hpid hshow => simp [hshow, hemb', hemb, hpid]
  | reaped _ _ hz hun _ hshow => simp [hshow, hz, hun, Event.isFork, Event.isAllocOf]

theorem shows_alloc (hstep : step s l = some s') :
    ((∀ e ∈ shows s l, e.isAlloc = false) ∧ s'.nextpid = s.nextpid) ∨
      ∃ k, shows s l = [.allocated k s.nextpid] ∧ s'.nextpid = toInt32 (s.nextpid + 1) := by
  by_cases hl : ∃ c, l = .forkAlloc c
  · obtain ⟨c, rfl⟩ := hl
    obtain ⟨p, _, _, hk⟩ := locked_eq_some.mp hstep
    split_ifs at hk
    cases hk
    cases hf : firstSlot s.proc fun v => v.state = .unused with
    | none =>
      left
      simp [shows, hf, forkAlloc, allocproc]
    | some np =>
      right
      exact ⟨np, by simp [shows, hf], by simp [forkAlloc, allocproc, hf, Sys.setFork]⟩
  push Not at hl
  left
  refine ⟨?_, (step_globals hstep).2 hl⟩
  intro e he
  cases l with
  | forkAlloc c => exact absurd rfl (hl c)
  | forkPublish c =>
    simp only [shows] at he
    split at he
    · split at he
      · simp only [mem_singleton] at he
        rw [he]
        rfl
      · cases he
    · cases he
  | exit c | wait c | resume c =>
    simp only [shows] at he
    split at he
    · simp only [mem_singleton] at he
      rw [he]
      rfl
    · cases he
  | _ => simp [shows, waitReturns] at he

theorem not_taken {n : Nat} (hn : n < 2 ^ 32) : ¬Taken n (toInt32 (2 + n)) := by
  rintro ⟨i, hi, heq⟩
  unfold toInt32 at heq
  have hdvd : ((2 : Int) ^ 32) ∣ (2 + n) - (2 + i) := by
    have := Int.bmod_eq_bmod_iff_bmod_sub_eq_zero.mp heq
    exact Int.dvd_of_bmod_eq_zero this
  have := Int.le_of_dvd (by omega) hdvd
  omega

theorem pidInv_step (hp : PidInv s h) (hinv : SysInv s) (hstep : step s l = some s') :
    PidInv s' (shows s l ++ h) := by
  have hsum : ∀ v, ∑ k, uses s' (shows s l ++ h) v k ≤
      ∑ k, uses s h v k + (shows s l).countP (Event.isAllocOf v) := by
    intro v
    rw [← sum_countAt (f := Event.slot), ← Finset.sum_add_distrib]
    exact Finset.sum_le_sum fun k _ => uses_step hinv hstep v k
  rcases shows_alloc hstep with ⟨hnone, hnext⟩ | ⟨k, hshow, hnext⟩
  · have hcount : (shows s l ++ h).countP Event.isAlloc = h.countP Event.isAlloc := by
      simp only [countP_append, Nat.add_eq_right, countP_eq_zero]
      intro e he
      simp [hnone e he]
    have hof : ∀ v, (shows s l).countP (Event.isAllocOf v) = 0 := by
      intro v
      simp only [countP_eq_zero]
      intro e he
      have := hnone e he
      cases e <;> simp [Event.isAllocOf, Event.isAlloc] at this ⊢
    refine ⟨?_, ?_, ?_⟩
    · rw [hnext, hcount]
      exact hp.nextpid
    · intro hle v
      rw [hcount] at hle
      have := hp.once hle v
      have := hsum v
      rw [hof] at this
      omega
    · intro v hv
      rw [hcount]
      apply hp.taken v
      have := hsum v
      rw [hof] at this
      omega
  have hcount : (shows s l ++ h).countP Event.isAlloc = h.countP Event.isAlloc + 1 := by
    simp [hshow, Event.isAlloc, countP_cons]
  have hof : ∀ v, (shows s l).countP (Event.isAllocOf v) = if s.nextpid = v then 1 else 0 := by
    intro v
    simp [hshow, Event.isAllocOf, countP_cons]
  refine ⟨?_, ?_, ?_⟩
  · rw [hnext, hcount, hp.nextpid]
    unfold toInt32
    rw [Int.bmod_add_bmod]
    push_cast
    ring_nf
  · intro hle v
    rw [hcount] at hle
    have hs := hsum v
    rw [hof] at hs
    split_ifs at hs with hv
    · -- the new pid was not in use
      have hfree : ∑ k, uses s h v k = 0 := by
        by_contra hne
        have htaken := hp.taken v hne
        rw [← hv, hp.nextpid] at htaken
        exact not_taken (by omega) htaken
      omega
    · have := hp.once (by omega) v
      omega
  intro v hv
  have hs := hsum v
  rw [hof] at hs
  rw [hcount]
  split_ifs at hs with hpid
  · exact ⟨_, Nat.lt_succ_self _, by rw [← hpid, hp.nextpid]⟩
  · obtain ⟨i, hi, heq⟩ := hp.taken v (by omega)
    exact ⟨i, by omega, heq⟩

end Pids

section Runs

variable {s : Sys C} {ls : List (Label C)}

theorem invariants_of_recorded
    (hrun : run (recordStep step shows) (boot C kstack pgdir, []) ls = some (s, h)) :
    SysInv s ∧ TreeInv s ∧ HistInv s h ∧ PidInv s h := by
  let Inv : Sys C × List Event → Prop := fun sh =>
    SysInv sh.1 ∧ TreeInv sh.1 ∧ HistInv sh.1 sh.2 ∧ PidInv sh.1 sh.2
  have hboot : Inv (boot C kstack pgdir, []) :=
    ⟨sysInv_boot kstack pgdir, treeInv_boot kstack pgdir, histInv_boot kstack pgdir,
      pidInv_boot kstack pgdir⟩
  have hkeep : ∀ sh l th, Inv sh → recordStep step shows sh l = some th → Inv th := by
    rintro sh l ⟨t, h'⟩ ⟨hsys, htree, hhist, hpid⟩ hst
    obtain ⟨hstep, rfl⟩ := recordStep_eq_some.mp hst
    exact ⟨sysInv_step hsys hstep, treeInv_step hsys htree hstep,
      histInv_step hhist hsys htree hstep, pidInv_step hpid hsys hstep⟩
  exact run_invariant hkeep hboot hrun

theorem waits_le_forks (hh : HistInv s h) (v : Int) :
    h.countP (Event.isWait v) ≤ h.countP (Event.isFork v) := by
  rw [← sum_countAt (f := Event.slot), ← sum_countAt (f := Event.slot)]
  refine Finset.sum_le_sum fun k _ => ?_
  have := hh.alive k v
  have := hh.dead k v
  omega

/--
**The exit/wait protocol.**  For every run and the history it records:
every process other than init has a parent that is neither UNUSED nor ZOMBIE; no
process that sleeps in `wait` has a zombie child; a pid is returned by `wait` at
most as often as it was forked, hence at most once until `nextpid` has gone
through all 32-bit values; each return follows an `exit` of that process that no
earlier `wait` has returned; and it goes to the current parent.
-/
theorem exit_wait_protocol
    (hrun : run (recordStep step shows) (boot C kstack pgdir, []) ls = some (s, h)) :
    (∀ p, p ≠ s.initproc → (s.proc p).state ∈ [ProcState.sleeping, .runnable, .running, .zombie] →
      ∃ q, (s.proc p).parent = some q ∧ (s.proc q).state ≠ .unused ∧ (s.proc q).state ≠ .zombie) ∧
    (∀ p, (s.proc p).state = .sleeping → (s.proc p).chan = some (.proc p) →
      ∀ k, (s.proc k).parent = some p → (s.proc k).state ≠ .zombie) ∧
    (∀ v, h.countP (Event.isWait v) ≤ h.countP (Event.isFork v)) ∧
    (h.countP Event.isAlloc ≤ 2 ^ 32 → ∀ v, h.countP (Event.isWait v) ≤ 1) ∧
    (∀ p k v h₂, (.waited p k v :: h₂) <:+ h → .exited k v ∈ h₂ ∧
        countAt Event.slot (Event.isWait v) h₂ k < countAt Event.slot (Event.isExit v) h₂ k) ∧
    ∀ l s' p k, step s l = some s' → waitReturns s l = some (p, k) →
      (s.proc k).parent = some p := by
  obtain ⟨hsys, htree, hhist, hpid⟩ := invariants_of_recorded hrun
  refine ⟨?_, htree.waiting, waits_le_forks hhist, ?_, ?_, ?_⟩
  · intro p hp hst
    have hlive : Alive (s.proc p).state ∨ (s.proc p).state = .zombie := by
      simp only [mem_cons, not_mem_nil, or_false] at hst
      unfold Alive
      tauto
    obtain ⟨q, hq⟩ := Option.ne_none_iff_exists'.mp (htree.has_parent p hp hlive)
    have ha := htree.parent_alive p q hq
    refine ⟨q, hq, ?_, ?_⟩
    · intro hun
      simp [hun, Alive] at ha
    · intro hz
      simp [hz, Alive] at ha
  · intro hle v
    have hforks : h.countP (Event.isFork v) ≤ 1 := by
      calc h.countP (Event.isFork v)
          = ∑ k, countAt Event.slot (Event.isFork v) h k := (sum_countAt h).symm
        _ ≤ ∑ k, uses s h v k := Finset.sum_le_sum fun k _ => Nat.le_add_right _ _
        _ ≤ 1 := hpid.once hle v
    exact (waits_le_forks hhist v).trans hforks
  · intro p k v h₂ hsuf
    have hlt := hhist.exit_first p k v h₂ hsuf
    refine ⟨?_, hlt⟩
    have hpos : 0 < countAt Event.slot (Event.isExit v) h₂ k := by omega
    obtain ⟨e, he, htest⟩ := countP_pos_iff.mp hpos
    cases e with
    | exited m w =>
      simp only [Event.isExit, Event.slot, Bool.and_eq_true, decide_eq_true_eq] at htest
      obtain ⟨rfl, hm⟩ := htest
      have hmk : m = k := of_decide_eq_true hm
      subst hmk
      exact he
    | allocated m w | forked m w | waited q m w => simp [Event.isExit] at htest
  · intro l s' p k hstep hw
    exact (waitReturns_spec hstep hw).2.1

end Runs

/-- Init forks a child, sleeps in `wait`, and is given the pid of the child after its exit. -/
theorem child_exits_and_is_waited_for :
    ∃ s : Sys Bool, ∃ h : List Event,
      (∃ ls, run (recordStep step shows) (boot Bool 1 2, []) ls = some (s, h)) ∧
      h = [.waited 0 1 2, .exited 1 2, .forked 1 2, .allocated 1 2] ∧
      h.countP (Event.isWait 2) ≤ 1 := by
  obtain ⟨⟨s, h⟩, hrun, htest⟩ :=
    exists_of_run_map (recordStep step shows) (boot Bool 1 2, [])
      (bootFork ++ [.wait true, .back true, .pass true, .resume true, .exit true, .back true,
        .pass true, .resume true])
      (fun sh => sh.2 = [.waited 0 1 2, .exited 1 2, .forked 1 2, .allocated 1 2])
      (by decide +kernel)
  have hh : h = [.waited 0 1 2, .exited 1 2, .forked 1 2, .allocated 1 2] := by simpa using htest
  have halloc : h.countP Event.isAlloc ≤ 2 ^ 32 := by
    rw [hh]
    decide
  exact ⟨s, h, ⟨_, hrun⟩, hh, (exit_wait_protocol hrun).2.2.2.1 halloc 2⟩

/-- Until `nextpid` has gone through all 32-bit values, no two slots in use, init's apart, have the
same pid. -/
theorem pids_differ {s : Sys C} {ls : List (Label C)} {j k : Slot}
    (hrun : run (recordStep step shows) (boot C kstack pgdir, []) ls = some (s, h))
    (hle : h.countP Event.isAlloc ≤ 2 ^ 32) (hj : (s.proc j).state ≠ .unused)
    (hk : (s.proc k).state ≠ .unused) (hji : j ≠ s.initproc) (hki : k ≠ s.initproc)
    (hpid : (s.proc j).pid = (s.proc k).pid) : j = k := by
  obtain ⟨_, _, hhist, hinv⟩ := invariants_of_recorded hrun
  have hone : ∀ i, (s.proc i).state ≠ .unused → i ≠ s.initproc →
      1 ≤ uses s h (s.proc i).pid i := by
    intro i hi hii
    have halive := hhist.alive i (s.proc i).pid
    have hdead := hhist.dead i (s.proc i).pid
    unfold uses
    cases hst : (s.proc i).state with
    | unused => exact absurd hst hi
    | embryo =>
      rw [if_pos ⟨rfl, rfl⟩]
      exact Nat.le_add_left 1 _
    | zombie =>
      rw [if_pos ⟨hst, rfl⟩] at hdead
      omega
    | sleeping | runnable | running =>
      rw [if_pos ⟨by rw [hst]; decide, hii, rfl⟩] at halive
      omega
  by_contra hne
  have htwo := add_le_total (w := uses s h (s.proc k).pid) (f := id) (fun _ => Nat.zero_le _) hne
  have hsum := hinv.once hle (s.proc k).pid
  have h1 := hone j hj hji
  have h2 := hone k hk hki
  rw [hpid] at h1
  unfold total at htwo
  simp only [id_eq] at htwo
  omega

/-- Init has forked twice. -/
theorem pids_differ_children :
    ∃ (s : Sys Bool) (h : List Event),
      run (recordStep step shows) (boot Bool 1 2, []) (bootFork ++ forkSteps 5 6) = some (s, h) ∧
      (s.proc 1).state = .runnable ∧ (s.proc 2).state = .runnable ∧
      (s.proc 1).pid ≠ (s.proc 2).pid := by
  obtain ⟨⟨s, h⟩, hrun, htest⟩ := exists_of_run_map (recordStep step shows) (boot Bool 1 2, [])
    (bootFork ++ forkSteps 5 6)
    (fun sh => (sh.1.proc 1).state = .runnable ∧ (sh.1.proc 2).state = .runnable ∧
      sh.1.initproc = 0 ∧ sh.2.length ≤ 4) (by decide +kernel)
  obtain ⟨hone, htwo, hinit, hlen⟩ := of_decide_eq_true htest
  refine ⟨s, h, hrun, hone, htwo, ?_⟩
  intro hpid
  have heq : (1 : Slot) = 2 := by
    refine pids_differ hrun ?_ (by rw [hone]; decide) (by rw [htwo]; decide)
      (by rw [hinit]; decide) (by rw [hinit]; decide) hpid
    exact (List.countP_le_length).trans (hlen.trans (by decide))
  exact absurd heq (by decide)

end ExitWait

end Xv6.Ptable
