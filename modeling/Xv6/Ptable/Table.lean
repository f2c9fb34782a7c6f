import Mathlib.Tactic

/-!
# The process table

This module embeds `struct proc`, `ptable` and the functions of proc.c and
sysproc.c that read or write the table while `ptable.lock` is held: the locked
part of `allocproc`, `wakeup1`, `kill`, `sys_setpriority`, the scan of `wait`,
the re-parenting loop of `exit`, and the aging and selection loops of
`scheduler`.

A process pointer is the index of its slot, the null pointer is `none`.  The C
`int` fields are integers that wrap to 32 bits where the code increments them.
A loop over the table whose body touches only the slot it visits is written
slot by slot; the loops that carry a value from one slot to the next are folds
over the slots in table order.

The fields `tf`, `cwd` and `name` are left out: no function below reads them.
-/

namespace Xv6.Ptable

open List

variable {t t' : Table} {cur init p q : Slot} {test : Proc → Bool} {n n' : Int} {st : ProcState}

abbrev NPROC : Nat := 64

instance : NeZero NPROC := ⟨by decide⟩

abbrev NOFILE : Nat := 16

/-- Open files per system (param.h). -/
abbrev NFILE : Nat := 100

/-- Highest and lowest priority, and the number of waits before a promotion. -/
def MAX_PRIORITY : Int := 5

def MIN_PRIORITY : Int := 1

def AGING_THRESHOLD : Int := 100

/-- A pointer into `ptable.proc`. -/
abbrev Slot := Fin NPROC

/-- A page of physical memory, by its frame number. -/
abbrev Frame := Nat

def toInt32 (x : Int) : Int :=
  Int.bmod x (2 ^ 32)

/-- `enum procstate`. -/
inductive ProcState where
  | unused
  | embryo
  | sleeping
  | runnable
  | running
  | zombie
deriving DecidableEq, Repr

/--
A sleep channel.  `wait` sleeps on the address of the caller's own slot; every
other caller of `sleep` passes the address of some kernel object outside the
process table.
-/
inductive Chan where
  | proc (p : Slot)
  | addr (a : Nat)
deriving DecidableEq, Repr

/--
Where `swtch` resumes a process that is not on a CPU: the saved `eip` of a
fresh child is `forkret`, every other process is inside `sched`, called from
`yield`, from `sleep` with a lock other than `ptable.lock`, or from the `sleep`
in the loop of `wait`.
-/
inductive Context where
  | forkret
  | yield
  | sleep
  | wait
deriving DecidableEq, Repr

/-- `struct proc`. -/
structure Proc where
  sz : Nat
  pgdir : Option Frame
  kstack : Option Frame
  state : ProcState
  pid : Int
  parent : Option Slot
  context : Context
  chan : Option Chan
  killed : Bool
  ofile : Fin NOFILE → Option (Fin NFILE)
  priority : Int
  ticksWaiting : Int
deriving DecidableEq

/-- `ptable.proc`. -/
abbrev Table := Slot → Proc

def Proc.zero : Proc where
  sz := 0
  pgdir := none
  kstack := none
  state := .unused
  pid := 0
  parent := none
  context := .forkret
  chan := none
  killed := false
  ofile := fun _ => none
  priority := 0
  ticksWaiting := 0

/-- The slots in the order in which every loop over the table visits them. -/
def slots : List Slot :=
  List.finRange NPROC

@[simp] theorem mem_slots (p : Slot) : p ∈ slots := by
  simp [slots]

def firstSlot (t : Table) (test : Proc → Bool) : Option Slot :=
  slots.find? fun p => test (t p)

theorem firstSlot_some (h : firstSlot t test = some p) : test (t p) = true := by
  simpa using List.find?_some h

theorem firstSlot_none : firstSlot t test = none ↔ ∀ p, test (t p) = false := by
  simp [firstSlot]

def set (t : Table) (p : Slot) (v : Proc) : Table :=
  Function.update t p v

@[simp] theorem set_self (t : Table) (p : Slot) (v : Proc) : set t p v p = v := by
  simp [set]

theorem set_of_ne (t : Table) (v : Proc) (h : q ≠ p) : set t p v q = t q := by
  simp [set, h]

theorem set_apply (t : Table) (p q : Slot) (v : Proc) : set t p v q = if q = p then v else t q := by
  simp [set, Function.update_apply]

def Proc.embryo (v : Proc) (nextpid : Int) : Proc :=
  { v with
    state := .embryo
    pid := nextpid
    priority := 3
    ticksWaiting := 0 }

/-- The locked part of `allocproc`: the slot found, the table and `nextpid`. -/
def allocproc (t : Table) (nextpid : Int) : Option (Slot × Table × Int) :=
  match firstSlot t fun v => v.state = .unused with
  | none => none
  | some p =>
    some (p, set t p ((t p).embryo nextpid), toInt32 (nextpid + 1))

theorem allocproc_eq_some :
    allocproc t n = some (p, t', n') ↔ firstSlot t (fun v => v.state = .unused) = some p ∧
      t' = set t p ((t p).embryo n) ∧ n' = toInt32 (n + 1) := by
  unfold allocproc
  cases hf : firstSlot t fun v => v.state = .unused with
  | none => simp
  | some q =>
    simp only [Option.some.injEq, Prod.mk.injEq]
    constructor
    · rintro ⟨rfl, rfl, rfl⟩
      exact ⟨rfl, rfl, rfl⟩
    · rintro ⟨rfl, rfl, rfl⟩
      exact ⟨rfl, rfl, rfl⟩

theorem allocproc_unused (h : allocproc t n = some (p, t', n')) : (t p).state = .unused := by
  simpa using firstSlot_some (allocproc_eq_some.mp h).1

def Proc.wake (v : Proc) (chan : Option Chan) : Proc :=
  if v.state = .sleeping ∧ v.chan = chan then { v with state := .runnable } else v

def wakeup1 (t : Table) (chan : Option Chan) : Table :=
  fun p => (t p).wake chan

/-- The loop of `kill` and of `sys_setpriority`: the first slot with this pid, whatever its
state. -/
def writePid (t : Table) (pid : Int) (write : Proc → Proc) : Int × Table :=
  match firstSlot t fun v => v.pid = pid with
  | none => (-1, t)
  | some p => (0, set t p (write (t p)))

/-- The slot `kill` hits. -/
def Proc.kill (v : Proc) : Proc :=
  { v with
    killed := true
    state := if v.state = .sleeping then .runnable else v.state }

def kill (t : Table) (pid : Int) : Int × Table :=
  writePid t pid Proc.kill

/-- The slot `sys_setpriority` hits. -/
def Proc.setpriority (v : Proc) (prio : Int) : Proc :=
  { v with priority := prio, ticksWaiting := 0 }

/-- `sys_setpriority` after its arguments have been fetched. -/
def setpriority (t : Table) (pid prio : Int) : Int × Table :=
  if prio < 1 ∨ 5 < prio then (-1, t)
  else writePid t pid fun v => v.setpriority prio

theorem writePid_apply (t : Table) (pid : Int) (write : Proc → Proc) (q : Slot) :
    (writePid t pid write).2 q = t q ∨ (writePid t pid write).2 q = write (t q) ∧
        firstSlot t (fun v => v.pid = pid) = some q := by
  unfold writePid
  cases hf : firstSlot t fun v => v.pid = pid with
  | none => exact .inl rfl
  | some p =>
    dsimp only
    rw [set_apply]
    split_ifs with hq
    · exact .inr ⟨by rw [hq], by rw [hq]⟩
    · exact .inl rfl

theorem kill_apply (t : Table) (pid : Int) (q : Slot) :
    (kill t pid).2 q = t q ∨
      (kill t pid).2 q = (t q).kill ∧ firstSlot t (fun v => v.pid = pid) = some q :=
  writePid_apply t pid Proc.kill q

theorem setpriority_apply (t : Table) (pid prio : Int) (q : Slot) :
    (setpriority t pid prio).2 q = t q ∨
      (setpriority t pid prio).2 q = (t q).setpriority prio ∧ 1 ≤ prio ∧ prio ≤ 5 := by
  unfold setpriority
  split_ifs with hr
  · exact .inl rfl
  · rcases writePid_apply t pid (fun v => v.setpriority prio) q with heq | ⟨heq, _⟩
    · exact .inl heq
    · exact .inr ⟨heq, by omega, by omega⟩

def Proc.age (v : Proc) : Proc :=
  if v.state = .runnable then
    let t := toInt32 (v.ticksWaiting + 1)
    if AGING_THRESHOLD ≤ t ∧ v.priority < MAX_PRIORITY then
      { v with priority := v.priority + 1, ticksWaiting := 0 }
    else
      { v with ticksWaiting := t }
  else v

def age (t : Table) : Table :=
  fun p => (t p).age

def selectBody (t : Table) (best : Option Slot × Int) (p : Slot) : Option Slot × Int :=
  if (t p).state ≠ .runnable then best
  else if best.2 < (t p).priority then (some p, (t p).priority)
  else best

def select (t : Table) : Option Slot :=
  (slots.foldl (selectBody t) (none, MIN_PRIORITY - 1)).1

/-- The body of the loop in `exit` that passes abandoned children to init. -/
def reparentBody (cur init : Slot) (t : Table) (p : Slot) : Table :=
  if (t p).parent = some cur then
    let t' := set t p { t p with parent := some init }
    if (t' p).state = .zombie then wakeup1 t' (some (.proc init)) else t'
  else t

def reparent (cur init : Slot) (t : Table) : Table :=
  slots.foldl (reparentBody cur init) t

inductive Scan where
  | reap (p : Slot)
  | fail
  | block
deriving DecidableEq, Repr

def waitScan (t : Table) (cur : Slot) : Scan :=
  match firstSlot t fun v => v.parent = some cur ∧ v.state = .zombie with
  | some p => .reap p
  | none =>
    if slots.any (fun p => (t p).parent = some cur) = false ∨ (t cur).killed = true then
      .fail
    else .block

def Proc.reap (v : Proc) : Proc :=
  { v with
    kstack := none
    pid := 0
    parent := none
    killed := false
    state := .unused }

section Frames

variable (v : Proc) (ch : Option Chan)

@[simp] theorem Proc.wake_pid : (v.wake ch).pid = v.pid := by
  unfold Proc.wake; split <;> rfl

@[simp] theorem Proc.wake_parent : (v.wake ch).parent = v.parent := by
  unfold Proc.wake; split <;> rfl

@[simp] theorem Proc.wake_chan : (v.wake ch).chan = v.chan := by
  unfold Proc.wake; split <;> rfl

@[simp] theorem Proc.wake_killed : (v.wake ch).killed = v.killed := by
  unfold Proc.wake; split <;> rfl

@[simp] theorem Proc.wake_priority : (v.wake ch).priority = v.priority := by
  unfold Proc.wake; split <;> rfl

@[simp] theorem Proc.wake_ticksWaiting : (v.wake ch).ticksWaiting = v.ticksWaiting := by
  unfold Proc.wake; split <;> rfl

@[simp] theorem Proc.wake_kstack : (v.wake ch).kstack = v.kstack := by
  unfold Proc.wake; split <;> rfl

@[simp] theorem Proc.wake_pgdir : (v.wake ch).pgdir = v.pgdir := by
  unfold Proc.wake; split <;> rfl

theorem Proc.wake_state :
    (v.wake ch).state =
      if v.state = .sleeping ∧ v.chan = ch then .runnable else v.state := by
  unfold Proc.wake; split <;> rfl

theorem Proc.wake_state_iff (h1 : st ≠ .sleeping) (h2 : st ≠ .runnable) :
    (v.wake ch).state = st ↔ v.state = st := by
  rw [Proc.wake_state]
  split_ifs with h
  · simp [h.1, h1.symm, h2.symm]
  · rfl

theorem Proc.kill_state_iff (h1 : st ≠ .sleeping) (h2 : st ≠ .runnable) :
    v.kill.state = st ↔ v.state = st := by
  unfold Proc.kill
  dsimp only
  split_ifs with h
  · simp [h, h1.symm, h2.symm]
  · rfl

@[simp] theorem Proc.age_state : v.age.state = v.state := by
  unfold Proc.age; dsimp only; split_ifs <;> rfl

@[simp] theorem Proc.age_pid : v.age.pid = v.pid := by
  unfold Proc.age; dsimp only; split_ifs <;> rfl

@[simp] theorem Proc.age_parent : v.age.parent = v.parent := by
  unfold Proc.age; dsimp only; split_ifs <;> rfl

@[simp] theorem Proc.age_chan : v.age.chan = v.chan := by
  unfold Proc.age; dsimp only; split_ifs <;> rfl

@[simp] theorem Proc.age_killed : v.age.killed = v.killed := by
  unfold Proc.age; dsimp only; split_ifs <;> rfl

@[simp] theorem Proc.age_kstack : v.age.kstack = v.kstack := by
  unfold Proc.age; dsimp only; split_ifs <;> rfl

@[simp] theorem Proc.age_pgdir : v.age.pgdir = v.pgdir := by
  unfold Proc.age; dsimp only; split_ifs <;> rfl

theorem Proc.age_of_not_runnable (h : v.state ≠ .runnable) : v.age = v := by
  simp [Proc.age, h]

end Frames

/--
Invariant of the selection loop after the slots `l`: nothing is selected and no
RUNNABLE slot of `l` lies above the sentinel, or the selected slot is the first
one of `l` with the highest priority.
-/
def SelectInv (t : Table) (l : List Slot) (best : Option Slot × Int) : Prop :=
  (∀ q ∈ l, (t q).state = .runnable → (t q).priority ≤ best.2) ∧
  match best.1 with
  | none => best.2 = MIN_PRIORITY - 1
  | some p =>
    (t p).state = .runnable ∧ (t p).priority = best.2 ∧
    MIN_PRIORITY - 1 < best.2 ∧
    ∃ l₁ l₂, l = l₁ ++ p :: l₂ ∧ ∀ q ∈ l₁, (t q).state = .runnable → (t q).priority < best.2

theorem selectInv_nil : SelectInv t [] (none, MIN_PRIORITY - 1) := by
  simp [SelectInv]

theorem selectInv_step {l : List Slot} {best : Option Slot × Int} (p : Slot)
    (h : SelectInv t l best) : SelectInv t (l ++ [p]) (selectBody t best p) := by
  obtain ⟨hle, hbest⟩ := h
  unfold selectBody
  by_cases hrun : (t p).state = .runnable
  · rw [if_neg (by simpa using hrun)]
    by_cases hlt : best.2 < (t p).priority
    · rw [if_pos hlt]
      have hall : ∀ q ∈ l, (t q).state = .runnable → (t q).priority < (t p).priority := by
        intro q hq hqr
        have := hle q hq hqr
        omega
      refine ⟨?_, hrun, rfl, ?_, l, [], rfl, hall⟩
      · intro q hq hqr
        rcases mem_append.mp hq with hq | hq
        · exact le_of_lt (hall q hq hqr)
        · rw [mem_singleton.mp hq]
      cases hb : best.1 with
      | none =>
        rw [hb] at hbest
        dsimp only at hbest ⊢
        omega
      | some b =>
        rw [hb] at hbest
        have := hbest.2.2.1
        dsimp only
        omega
    rw [if_neg hlt]
    refine ⟨?_, ?_⟩
    · intro q hq hqr
      rcases mem_append.mp hq with hq | hq
      · exact hle q hq hqr
      · rw [mem_singleton.mp hq]
        omega
    · cases hb : best.1 with
      | none => simpa [hb] using hbest
      | some b =>
        rw [hb] at hbest
        obtain ⟨h1, h2, h3, l1, l2, rfl, h4⟩ := hbest
        exact ⟨h1, h2, h3, l1, l2 ++ [p], by simp, h4⟩
  rw [if_pos hrun]
  refine ⟨?_, ?_⟩
  · intro q hq hqr
    rcases mem_append.mp hq with hq | hq
    · exact hle q hq hqr
    · rw [mem_singleton.mp hq] at hqr
      exact absurd hqr hrun
  · cases hb : best.1 with
    | none => simpa [hb] using hbest
    | some b =>
      rw [hb] at hbest
      obtain ⟨h1, h2, h3, l1, l2, rfl, h4⟩ := hbest
      exact ⟨h1, h2, h3, l1, l2 ++ [p], by simp, h4⟩

theorem selectInv_foldl (l : List Slot) :
    SelectInv t l (l.foldl (selectBody t) (none, MIN_PRIORITY - 1)) := by
  induction l using List.reverseRecOn with
  | nil => exact selectInv_nil
  | append_singleton l p ih =>
    rw [foldl_append]
    exact selectInv_step p ih

theorem select_some (h : select t = some p) :
    (t p).state = .runnable ∧ MIN_PRIORITY ≤ (t p).priority ∧
      ∀ q, (t q).state = .runnable → (t q).priority ≤ (t p).priority := by
  have hinv := selectInv_foldl (t := t) slots
  unfold select at h
  obtain ⟨hle, hbest⟩ := hinv
  rw [h] at hbest
  obtain ⟨hrun, hprio, hmin, _⟩ := hbest
  refine ⟨hrun, by omega, ?_⟩
  intro q hq
  rw [hprio]
  exact hle q (mem_slots q) hq

theorem select_first (h : select t = some p) (hlt : q < p)
    (hq : (t q).state = .runnable) : (t q).priority < (t p).priority := by
  have hinv := selectInv_foldl (t := t) slots
  unfold select at h
  obtain ⟨_, hbest⟩ := hinv
  rw [h] at hbest
  obtain ⟨_, hprio, _, l1, l2, hsplit, hfirst⟩ := hbest
  rw [hprio]
  refine hfirst q ?_ hq
  -- the slots are listed in increasing order, so what lies below `p` stands before it
  have hsorted : slots.Pairwise (· < ·) := pairwise_lt_finRange NPROC
  rw [hsplit, pairwise_append, pairwise_cons] at hsorted
  have hmem : q ∈ l1 ++ p :: l2 := hsplit ▸ mem_slots q
  rcases mem_append.mp hmem with hq1 | hq2
  · exact hq1
  · rcases mem_cons.mp hq2 with rfl | hq3
    · exact absurd hlt (lt_irrefl _)
    · exact absurd (hsorted.2.1.1 q hq3) (not_lt_of_gt hlt)

theorem select_none (h : select t = none) (q : Slot) (hq : (t q).state = .runnable) :
    (t q).priority < MIN_PRIORITY := by
  have hinv := selectInv_foldl (t := t) slots
  unfold select at h
  obtain ⟨hle, hbest⟩ := hinv
  rw [h] at hbest
  have := hle q (mem_slots q) hq
  dsimp only at hbest
  omega

def reparented (cur init : Slot) (t : Table) (l : List Slot) : Table :=
  fun p =>
    { t p with
      parent := if p ∈ l ∧ (t p).parent = some cur then some init else (t p).parent
      state :=
        if (t p).state = .sleeping ∧ (t p).chan = some (.proc init) ∧
            ∃ q ∈ l, (t q).parent = some cur ∧ (t q).state = .zombie then
          .runnable
        else (t p).state }

section
variable (hne : cur ≠ init)
include hne

theorem reparentBody_reparented (l : List Slot) (p : Slot) :
    reparentBody cur init (reparented cur init t l) p =
      reparented cur init t (l ++ [p]) := by
  have hz : ∀ q, (reparented cur init t l q).state = .zombie ↔ (t q).state = .zombie := by
    intro q
    simp only [reparented]
    split_ifs with h
    · simp [h.1]
    · rfl
  have hpar : (reparented cur init t l p).parent = some cur ↔
      p ∉ l ∧ (t p).parent = some cur := by
    simp only [reparented]
    by_cases hp : p ∈ l ∧ (t p).parent = some cur
    · simp [hp, hne.symm]
    · rw [if_neg hp]
      tauto
  unfold reparentBody
  by_cases h : (reparented cur init t l p).parent = some cur
  · obtain ⟨hpl, hpc⟩ := hpar.mp h
    rw [if_pos h]
    dsimp only
    by_cases hzp : (t p).state = .zombie
    · rw [if_pos (by simpa [hz] using hzp)]
      funext q
      by_cases hq : q = p
      · subst hq
        simp [wakeup1, Proc.wake, reparented, hpc, hzp]
      simp only [wakeup1, set_of_ne _ _ hq, Proc.wake, reparented, mem_append,
        mem_singleton, hq, or_false]
      by_cases hs : (t q).state = .sleeping ∧ (t q).chan = some (.proc init)
      · have hex : ∃ r, (r ∈ l ∨ r = p) ∧ (t r).parent = some cur ∧ (t r).state = .zombie :=
          ⟨p, .inr rfl, hpc, hzp⟩
        by_cases he : ∃ r ∈ l, (t r).parent = some cur ∧ (t r).state = .zombie
        · simp [hs, he, hex]
        · simp [hs, he, hex]
      · have h1 : ∀ P : Prop, ¬((t q).state = .sleeping ∧ (t q).chan = some (.proc init) ∧ P) := by
          intro P hP
          exact hs ⟨hP.1, hP.2.1⟩
        simp only [if_neg (h1 _)]
        rw [if_neg hs]
    rw [if_neg (by simpa [hz] using hzp)]
    funext q
    by_cases hq : q = p
    · subst hq
      simp [reparented, hpc, hzp]
    rw [set_of_ne _ _ hq]
    simp only [reparented, mem_append, mem_singleton, hq, or_false]
    have hiff : (∃ r, (r ∈ l ∨ r = p) ∧ (t r).parent = some cur ∧ (t r).state = .zombie) ↔
        ∃ r ∈ l, (t r).parent = some cur ∧ (t r).state = .zombie := by
      constructor
      · rintro ⟨r, hr | rfl, h1, h2⟩
        · exact ⟨r, hr, h1, h2⟩
        · exact absurd h2 hzp
      · rintro ⟨r, hr, h1⟩
        exact ⟨r, .inl hr, h1⟩
    simp only [hiff]
  rw [if_neg h]
  -- the slot is already done, or it is no child of the exiting process
  have hskip : p ∈ l ∨ (t p).parent ≠ some cur := by
    by_contra hc
    push Not at hc
    exact h (hpar.mpr hc)
  have hiff : (∃ r, (r ∈ l ∨ r = p) ∧ (t r).parent = some cur ∧ (t r).state = .zombie) ↔
      ∃ r ∈ l, (t r).parent = some cur ∧ (t r).state = .zombie := by
    constructor
    · rintro ⟨r, hr | rfl, h1, h2⟩
      · exact ⟨r, hr, h1, h2⟩
      · exact ⟨r, hskip.resolve_right (by simp [h1]), h1, h2⟩
    · rintro ⟨r, hr, h1⟩
      exact ⟨r, .inl hr, h1⟩
  funext q
  simp only [reparented, mem_append, mem_singleton, hiff]
  congr 1
  by_cases hq : q = p
  · subst hq
    rcases hskip with hl | hn
    · simp [hl]
    · simp [hn]
  · simp [hq]

theorem reparent_eq : reparent cur init t = reparented cur init t slots := by
  have hfold : ∀ l : List Slot,
      l.foldl (reparentBody cur init) t = reparented cur init t l := by
    intro l
    induction l using List.reverseRecOn with
    | nil =>
      funext p
      simp [reparented]
    | append_singleton l p ih =>
      rw [foldl_append, ih]
      exact reparentBody_reparented hne l p
  exact hfold slots

theorem reparent_parent (p : Slot) :
    (reparent cur init t p).parent =
      if (t p).parent = some cur then some init else (t p).parent := by
  rw [reparent_eq hne]
  simp [reparented]

theorem reparent_state (p : Slot) :
    (reparent cur init t p).state = if (t p).state = .sleeping ∧ (t p).chan = some (.proc init) ∧
          ∃ q, (t q).parent = some cur ∧ (t q).state = .zombie then
        .runnable
      else (t p).state := by
  rw [reparent_eq hne]
  simp [reparented]

theorem reparent_state_iff (h1 : st ≠ .sleeping)
    (h2 : st ≠ .runnable) (p : Slot) : (reparent cur init t p).state = st ↔ (t p).state = st := by
  rw [reparent_state hne]
  split_ifs with h
  · simp [h.1, h1.symm, h2.symm]
  · rfl

theorem reparent_frame (p : Slot) :
    ∃ par st, reparent cur init t p = { t p with parent := par, state := st } := by
  rw [reparent_eq hne]
  exact ⟨_, _, rfl⟩

end

theorem waitScan_reap (h : waitScan t cur = .reap p) :
    (t p).parent = some cur ∧ (t p).state = .zombie := by
  unfold waitScan at h
  cases hf : firstSlot t fun v => v.parent = some cur ∧ v.state = .zombie with
  | none =>
    rw [hf] at h
    dsimp only at h
    split_ifs at h
  | some q =>
    rw [hf] at h
    cases h
    simpa using firstSlot_some hf

theorem waitScan_block (h : waitScan t cur = .block) :
    ∀ p, (t p).parent = some cur → (t p).state ≠ .zombie := by
  unfold waitScan at h
  cases hf : firstSlot t fun v => v.parent = some cur ∧ v.state = .zombie with
  | none =>
    intro p hp hz
    have := firstSlot_none.mp hf p
    simp [hp, hz] at this
  | some q =>
    rw [hf] at h
    cases h

end Xv6.Ptable
