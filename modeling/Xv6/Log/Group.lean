import Xv6.Lib.Counting
import Xv6.Lib.Transition
import Xv6.Log.Log

/-!
# Group commit

`begin_op`, `log_write` and `end_op` called by any number of processes.  What a
process does while it holds `log.lock` is one step; so are the tests at the start
of `log_write`, which the code makes without the lock, and the assignment
`log.lh.n = 0` inside `commit`, which runs without it as well.

A process that sleeps in `begin_op` gives up the lock and goes to sleep in one
step, as `sleep` guarantees.  It goes on after a `wakeup` on the log, or when it is
killed, and makes its tests again.
-/

namespace Xv6.Log

open Lib Function

/--
Where a process is.  `op` and `writing` are between `begin_op` and `end_op`; the
list has the blocks that the operation has passed to `log_write` so far.  The
code does not keep it.
-/
inductive Pc where
  | idle
  /-- in the loop of `begin_op` -/
  | entering
  /-- in `sleep` called by `begin_op` -/
  | asleep
  | op (written : List Nat)
  /-- in `log_write`, after the tests -/
  | writing (written : List Nat) (blockno : Nat)
  /-- in `commit` -/
  | commit
  /-- in `end_op`, after `commit` -/
  | committed
deriving DecidableEq, Repr

inductive Panic where
  /-- "log.committing" -/
  | committing
  /-- "too big a transaction" -/
  | tooBig
  /-- "log_write outside of trans" -/
  | outsideTrans
deriving DecidableEq, Repr

/-- The log, with `committing`, and the processes. -/
structure Group (P : Type) where
  log : LogState
  committing : Bool
  pc : P → Pc
  panic : Option Panic

namespace Group

section Steps

variable {P : Type} [DecidableEq P]

def setPc (g : Group P) (p : P) (c : Pc) : Group P :=
  { g with pc := update g.pc p c }

def wake : Pc → Pc
  | .asleep => .entering
  | c => c

/-- `wakeup(&log)`. -/
def wakeup (g : Group P) : Group P :=
  { g with pc := fun q => wake (g.pc q) }

/-- There might not be room for one more operation. -/
def Full (L : LogState) : Prop :=
  (LOGSIZE : Int) < L.lh.n + (L.outstanding + 1) * MAXOPBLOCKS

instance (L : LogState) : Decidable (Full L) :=
  inferInstanceAs (Decidable (_ < _))

def addOutstanding (L : LogState) (k : Int) : LogState :=
  { L with outstanding := L.outstanding + k }

def beginOp (g : Group P) (p : P) : Group P :=
  if g.committing then g.setPc p .asleep
  else if Full g.log then g.setPc p .asleep
  else { g with log := addOutstanding g.log 1 }.setPc p (.op [])

def logWriteTests (g : Group P) (p : P) (written : List Nat) (blockno : Nat) : Group P :=
  if (LOGSIZE : Int) ≤ g.log.lh.n ∨ (g.log.size : Int) - 1 ≤ g.log.lh.n then
    { g with panic := some .tooBig }
  else if g.log.outstanding < 1 then { g with panic := some .outsideTrans }
  else g.setPc p (.writing written blockno)

def logWrite (g : Group P) (p : P) (written : List Nat) (blockno : Nat) : Group P :=
  { g with log := { g.log with lh := g.log.lh.record blockno } }.setPc p
    (.op (written.insert blockno))

/-- `end_op` up to the release of the lock. -/
def endOp (g : Group P) (p : P) : Group P :=
  let L := addOutstanding g.log (-1)
  if g.committing then { g with log := L, panic := some .committing }
  else if L.outstanding = 0 then { g with log := L, committing := true }.setPc p .commit
  else (wakeup { g with log := L }).setPc p .idle

/-- `log.lh.n = 0` at the end of `commit`. -/
def clear (g : Group P) (p : P) : Group P :=
  { g with log := emptied g.log }.setPc p .committed

/-- `end_op` after `commit`. -/
def endCommit (g : Group P) (p : P) : Group P :=
  (wakeup { g with committing := false }).setPc p .idle

inductive Act where
  | beginOp
  | turn
  | kill
  | logWrite (blockno : Nat)
  | record
  | endOp
  | clear
  | endCommit
deriving DecidableEq, Repr

/-- One step of a process. -/
def step (g : Group P) (l : P × Act) : Option (Group P) :=
  if g.panic.isSome then none
  else
    match l.2, g.pc l.1 with
    | .beginOp, .idle => some (g.setPc l.1 .entering)
    | .turn, .entering => some (g.beginOp l.1)
    | .kill, .asleep => some (g.setPc l.1 .entering)
    | .logWrite blockno, .op written => some (g.logWriteTests l.1 written blockno)
    | .record, .writing written blockno => some (g.logWrite l.1 written blockno)
    | .endOp, .op _ => some (g.endOp l.1)
    | .clear, .commit => some (g.clear l.1)
    | .endCommit, .committed => some (g.endCommit l.1)
    | _, _ => none

/-- The log after `initlog`. -/
def boot (P : Type) (size : Nat) : Group P where
  log := { start := 2, size := size, dev := 1, outstanding := 0, lh := ⟨0, fun _ => 0⟩ }
  committing := false
  pc := fun _ => .idle
  panic := none

/-- What a step does, by the place where the process is. -/
inductive Move (g : Group P) (p : P) : Act → Group P → Prop where
  | start
      {a : Act}
      (hpc : g.pc p = .idle ∨ g.pc p = .asleep) :
      Move g p a (g.setPc p .entering)
  | wait
      (hpc : g.pc p = .entering)
      (hwait : g.committing = true ∨ Full g.log) :
      Move g p .turn (g.setPc p .asleep)
  | enter
      (hpc : g.pc p = .entering)
      (hcommitting : g.committing = false)
      (hroom : ¬Full g.log) :
      Move g p .turn ({ g with log := addOutstanding g.log 1 }.setPc p (.op []))
  | tooBig
      {written : List Nat} {blockno : Nat}
      (hpc : g.pc p = .op written)
      (hbig : (LOGSIZE : Int) ≤ g.log.lh.n ∨ (g.log.size : Int) - 1 ≤ g.log.lh.n) :
      Move g p (.logWrite blockno) { g with panic := some .tooBig }
  | outsideTrans
      {written : List Nat} {blockno : Nat}
      (hpc : g.pc p = .op written)
      (hout : g.log.outstanding < 1) :
      Move g p (.logWrite blockno) { g with panic := some .outsideTrans }
  | tested
      {written : List Nat} {blockno : Nat}
      (hpc : g.pc p = .op written) :
      Move g p (.logWrite blockno) (g.setPc p (.writing written blockno))
  | record
      {written : List Nat} {blockno : Nat}
      (hpc : g.pc p = .writing written blockno) :
      Move g p .record (g.logWrite p written blockno)
  | committing
      {written : List Nat}
      (hpc : g.pc p = .op written)
      (hcommitting : g.committing = true) :
      Move g p .endOp { g with log := addOutstanding g.log (-1), panic := some .committing }
  | last
      {written : List Nat}
      (hpc : g.pc p = .op written)
      (hcommitting : g.committing = false)
      (hlast : g.log.outstanding = 1) :
      Move g p .endOp ({ g with log := addOutstanding g.log (-1), committing := true }.setPc p
        .commit)
  | leave
      {written : List Nat}
      (hpc : g.pc p = .op written)
      (hcommitting : g.committing = false)
      (hmore : g.log.outstanding ≠ 1) :
      Move g p .endOp ((wakeup { g with log := addOutstanding g.log (-1) }).setPc p .idle)
  | clear
      (hpc : g.pc p = .commit) :
      Move g p .clear (g.clear p)
  | endCommit
      (hpc : g.pc p = .committed) :
      Move g p .endCommit (g.endCommit p)

theorem move_of_step {g g' : Group P} {l : P × Act} (h : g.step l = some g') :
    g.panic = none ∧ Move g l.1 l.2 g' := by
  obtain ⟨p, act⟩ := l
  unfold step at h
  by_cases hpanic : g.panic.isSome = true
  · rw [if_pos hpanic] at h
    cases h
  rw [if_neg hpanic] at h
  refine ⟨by simpa using hpanic, ?_⟩
  simp only at h ⊢
  split at h
  · rename_i hpc
    cases h
    exact .start (.inl hpc)
  · rename_i hpc
    cases h
    unfold beginOp
    split
    · rename_i hcommitting
      exact .wait hpc (.inl hcommitting)
    · rename_i hcommitting
      split
      · rename_i hfull
        exact .wait hpc (.inr hfull)
      · rename_i hroom
        exact .enter hpc (by simpa using hcommitting) hroom
  · rename_i hpc
    cases h
    exact .start (.inr hpc)
  · rename_i hpc
    cases h
    unfold logWriteTests
    split
    · rename_i hbig
      exact .tooBig hpc hbig
    · split
      · rename_i hout
        exact .outsideTrans hpc hout
      · exact .tested hpc
  · rename_i hpc
    cases h
    exact .record hpc
  · rename_i hpc
    cases h
    unfold endOp
    simp only
    split
    · rename_i hcommitting
      exact .committing hpc hcommitting
    rename_i hcommitting
    have hfalse : g.committing = false := by simpa using hcommitting
    split
    · rename_i hlast
      refine .last hpc hfalse ?_
      unfold addOutstanding at hlast
      simp only at hlast
      omega
    · rename_i hmore
      refine .leave hpc hfalse ?_
      unfold addOutstanding at hmore
      simp only at hmore
      omega
  · rename_i hpc
    cases h
    exact .clear hpc
  · rename_i hpc
    cases h
    exact .endCommit hpc
  · cases h

theorem wake_ne_asleep (c : Pc) : wake c ≠ .asleep := by
  cases c <;> simp [wake]

theorem update_wake_ne_asleep {c : Pc} (hc : c ≠ .asleep) (f : P → Pc) (p q : P) :
    update (fun q => wake (f q)) p c q ≠ .asleep := by
  by_cases hqp : q = p
  · subst hqp
    rwa [update_self]
  · rw [update_of_ne hqp]
    exact wake_ne_asleep _

theorem endOp_wakes {g : Group P} {p : P} (hc : g.committing = false) :
    (∀ q, (g.endOp p).pc q ≠ .asleep) ∨ (g.endOp p).pc p = .commit := by
  unfold endOp
  simp only [hc]
  split
  · rename_i hfalse
    cases hfalse
  · split
    · exact .inr (update_self _ _ _)
    · exact .inl (update_wake_ne_asleep (by decide) _ p)

theorem endCommit_wakes (g : Group P) (p q : P) : (g.endCommit p).pc q ≠ .asleep :=
  update_wake_ne_asleep (by decide) _ p q

end Steps

section Invariant

variable {P : Type} [Fintype P] {g g' : Group P} {p q : P}

/-- Between `begin_op` and `end_op`. -/
def active : Pc → Int
  | .op _ => 1
  | .writing _ _ => 1
  | _ => 0

/-- In `commit`, or after it with `committing` still set. -/
def committer : Pc → Int
  | .commit => 1
  | .committed => 1
  | _ => 0

/-- A flag as a count. -/
def count (b : Bool) : Int :=
  if b then 1 else 0

structure Inv (g : Group P) : Prop where
  outstanding : g.log.outstanding = total active g.pc
  committing : count g.committing = total committer g.pc
  exclusive : g.committing = true → g.log.outstanding = 0
  nonneg : 0 ≤ g.log.lh.n
  logged : 0 < g.log.lh.n → 0 < g.log.outstanding ∨ g.committing = true
  cleared : ∀ p, g.pc p = .committed → g.log.lh.n = 0
  asleep : ∀ p, g.pc p = .asleep → g.committing = true ∨ Full g.log

theorem active_nonneg (c : Pc) : 0 ≤ active c := by
  cases c <;> simp [active]

theorem committer_nonneg (c : Pc) : 0 ≤ committer c := by
  cases c <;> simp [committer]

theorem inv_boot (size : Nat) : Inv (boot P size) := by
  refine ⟨?_, ?_, ?_, le_rfl, ?_, ?_, ?_⟩
  · simp [boot, total, active]
  · simp [boot, total, committer, count]
  · intro h
    cases h
  · intro h
    exact absurd h (lt_irrefl 0)
  · intro p h
    cases h
  · intro p h
    cases h

@[simp] theorem active_wake (c : Pc) : active (wake c) = active c := by
  cases c <;> rfl

@[simp] theorem committer_wake (c : Pc) : committer (wake c) = committer c := by
  cases c <;> rfl

theorem wake_eq_committed {c : Pc} : wake c = .committed ↔ c = .committed := by
  cases c <;> simp [wake]

section
variable (h : Inv g)
include h

theorem Inv.outstanding_pos (hp : active (g.pc p) = 1) : 0 < g.log.outstanding := by
  rw [h.outstanding]
  have hle : active (g.pc p) ≤ total active g.pc :=
    Finset.single_le_sum (f := fun q => active (g.pc q)) (fun q _ => active_nonneg _)
      (Finset.mem_univ p)
  omega

theorem Inv.committing_of (hp : committer (g.pc p) = 1) : g.committing = true := by
  have hle : committer (g.pc p) ≤ total committer g.pc :=
    Finset.single_le_sum (f := fun q => committer (g.pc q)) (fun q _ => committer_nonneg _)
      (Finset.mem_univ p)
  rw [← h.committing] at hle
  by_contra hc
  rw [count, if_neg hc] at hle
  omega

theorem Inv.not_active (hc : g.committing = true) : active (g.pc p) = 0 := by
  have hzero := h.exclusive hc
  by_contra hne
  have hone : active (g.pc p) = 1 := by cases hpc : g.pc p <;> simp_all [active]
  have hpos := h.outstanding_pos hone
  omega

theorem Inv.exists_committer (hc : g.committing = true) : ∃ q, committer (g.pc q) = 1 := by
  by_contra hnone
  have hzero : total committer g.pc = 0 := by
    refine Finset.sum_eq_zero fun q _ => ?_
    have hne : committer (g.pc q) ≠ 1 := fun hq => hnone ⟨q, hq⟩
    cases hpc : g.pc q <;> simp_all [committer]
  rw [← h.committing, hc] at hzero
  cases hzero

theorem Inv.exists_active (hpos : 0 < g.log.outstanding) : ∃ q, active (g.pc q) = 1 := by
  by_contra hnone
  have hzero : total active g.pc = 0 := by
    refine Finset.sum_eq_zero fun q _ => ?_
    have hne : active (g.pc q) ≠ 1 := fun hq => hnone ⟨q, hq⟩
    cases hpc : g.pc q <;> simp_all [active]
  rw [← h.outstanding] at hzero
  omega

theorem Inv.exists_waker (hp : g.pc p = .asleep) :
    ∃ q, q ≠ p ∧ (active (g.pc q) = 1 ∨ committer (g.pc q) = 1) := by
  have hwaker : ∃ q, active (g.pc q) = 1 ∨ committer (g.pc q) = 1 := by
    rcases h.asleep p hp with hc | hfull
    · obtain ⟨q, hq⟩ := h.exists_committer hc
      exact ⟨q, .inr hq⟩
    have hn := h.nonneg
    -- with nothing logged and nobody inside there is room
    have hsome : 0 < g.log.outstanding ∨ g.committing = true := by
      by_cases hpos : 0 < g.log.lh.n
      · exact h.logged hpos
      · unfold Full LOGSIZE MAXOPBLOCKS at hfull
        push_cast at hfull
        refine .inl ?_
        omega
    rcases hsome with hpos | hc
    · obtain ⟨q, hq⟩ := h.exists_active hpos
      exact ⟨q, .inl hq⟩
    · obtain ⟨q, hq⟩ := h.exists_committer hc
      exact ⟨q, .inr hq⟩
  obtain ⟨q, hq⟩ := hwaker
  refine ⟨q, ?_, hq⟩
  rintro rfl
  rw [hp] at hq
  rcases hq with hq | hq
  · cases hq
  · cases hq

end

variable [DecidableEq P]

theorem Inv.next {f : P → Pc} {c : Pc} (h : Inv g) (hf : f = g.pc ∨ f = fun q => wake (g.pc q))
    (hpc : g'.pc = update f p c)
    (hout : g'.log.outstanding = g.log.outstanding + active c - active (g.pc p))
    (hcom : count g'.committing = count g.committing + committer c - committer (g.pc p))
    (hexclusive : g'.committing = true → g'.log.outstanding = 0) (hnonneg : 0 ≤ g'.log.lh.n)
    (hlogged : 0 < g'.log.lh.n → 0 < g'.log.outstanding ∨ g'.committing = true)
    (hcleared : (c = .committed ∨ ∃ q, q ≠ p ∧ g.pc q = .committed) → g'.log.lh.n = 0)
    (hasleep : (c = .asleep ∨ ∃ q, q ≠ p ∧ f q = .asleep) → g'.committing = true ∨ Full g'.log) :
    Inv g' := by
  have hweight : ∀ w : Pc → Int, (∀ c, w (wake c) = w c) → total w f = total w g.pc ∧
      w (f p) = w (g.pc p) := by
    intro w hw
    rcases hf with rfl | rfl
    · exact ⟨rfl, rfl⟩
    · exact ⟨Finset.sum_congr rfl fun q _ => hw _, hw _⟩
  obtain ⟨hact, hactp⟩ := hweight active active_wake
  obtain ⟨hcomm, hcommp⟩ := hweight committer committer_wake
  have hactive := total_update active f p c
  have hcommitter := total_update committer f p c
  have h1 := h.outstanding
  have h2 := h.committing
  refine ⟨?_, ?_, hexclusive, hnonneg, hlogged, ?_, ?_⟩
  · rw [hpc]
    omega
  · rw [hpc]
    omega
  · intro q hq
    rw [hpc] at hq
    by_cases hqp : q = p
    · subst hqp
      rw [update_self] at hq
      exact hcleared (.inl hq)
    · rw [update_of_ne hqp] at hq
      refine hcleared (.inr ⟨q, hqp, ?_⟩)
      rcases hf with rfl | rfl
      · exact hq
      · exact wake_eq_committed.mp hq
  intro q hq
  rw [hpc] at hq
  by_cases hqp : q = p
  · subst hqp
    rw [update_self] at hq
    exact hasleep (.inl hq)
  · rw [update_of_ne hqp] at hq
    exact hasleep (.inr ⟨q, hqp, hq⟩)

theorem Inv.setPc {c : Pc} (h : Inv g) (hactive : active c = active (g.pc p))
    (hcommitter : committer c = committer (g.pc p)) (hcleared : c ≠ .committed)
    (hasleep : c = .asleep → g.committing = true ∨ Full g.log) : Inv (g.setPc p c) := by
  refine h.next (.inl rfl) rfl ?_ ?_ h.exclusive h.nonneg h.logged ?_ ?_
  · rw [hactive, add_sub_cancel_right]
    rfl
  · rw [hcommitter, add_sub_cancel_right]
    rfl
  · rintro (hc | ⟨q, _, hq⟩)
    · exact absurd hc hcleared
    · exact h.cleared q hq
  · rintro (hc | ⟨q, _, hq⟩)
    · exact hasleep hc
    · exact h.asleep q hq

theorem record_n (lh : LogHeader) (b : Nat) :
    (lh.record b).n = lh.n ∨ (lh.record b).n = lh.n + 1 := by
  by_cases hlogged : ∃ tail < lh.n.toNat, lh.block tail = b
  · rw [record_of_logged hlogged]
    exact .inl rfl
  · rw [record_of_not_logged hlogged]
    exact .inr rfl

section
variable (h : Inv g)
include h

theorem Inv.enter (hpc : g.pc p = .entering) (hcommitting : g.committing = false)
    (hroom : ¬Full g.log) : Inv ({ g with log := addOutstanding g.log 1 }.setPc p (.op [])) := by
  have hnonneg : 0 ≤ total active g.pc := Finset.sum_nonneg fun q _ => active_nonneg _
  have hout := h.outstanding
  refine h.next (.inl rfl) rfl ?_ ?_ ?_ h.nonneg ?_ ?_ ?_
  · rw [hpc]
    simp [Group.setPc, addOutstanding, active]
  · rw [hpc]
    simp [Group.setPc, committer]
  · intro hc
    exact absurd (hcommitting.symm.trans hc) (by decide)
  · intro _
    refine .inl ?_
    show 0 < g.log.outstanding + 1
    omega
  · rintro (hc | ⟨q, _, hq⟩)
    · cases hc
    · exact h.cleared q hq
  · rintro (hc | ⟨q, _, hq⟩)
    · cases hc
    · rcases h.asleep q hq with hc | hfull
      · exact absurd (hcommitting.symm.trans hc) (by decide)
      · exact absurd hfull hroom

theorem Inv.logWrite {written : List Nat} {b : Nat}
    (hpc : g.pc p = .writing written b) : Inv (g.logWrite p written b) := by
  have hpos := h.outstanding_pos (p := p) (by rw [hpc]; rfl)
  have hn := h.nonneg
  have hrecord := record_n g.log.lh b
  refine h.next (.inl rfl) rfl ?_ ?_ h.exclusive ?_ (fun _ => .inl hpos) ?_ ?_
  · rw [hpc]
    simp [Group.logWrite, Group.setPc, active]
  · rw [hpc]
    simp [Group.logWrite, Group.setPc, committer]
  · show 0 ≤ (g.log.lh.record b).n
    omega
  · rintro (hc | ⟨q, _, hq⟩)
    · cases hc
    · -- nobody commits while an operation is under way
      have hc := h.committing_of (p := q) (by rw [hq]; rfl)
      have := h.exclusive hc
      omega
  rintro (hc | ⟨q, _, hq⟩)
  · cases hc
  rcases h.asleep q hq with hc | hfull
  · exact .inl hc
  · -- an entry more leaves no more room
    refine .inr ?_
    unfold Full at hfull ⊢
    show (LOGSIZE : Int) < (g.log.lh.record b).n + (g.log.outstanding + 1) * MAXOPBLOCKS
    omega

theorem Inv.last {written : List Nat} (hpc : g.pc p = .op written)
    (hcommitting : g.committing = false) (hlast : g.log.outstanding = 1) :
    Inv ({ g with log := addOutstanding g.log (-1), committing := true }.setPc p .commit) := by
  refine h.next (.inl rfl) rfl ?_ ?_ ?_ h.nonneg (fun _ => .inr rfl) ?_ fun _ => .inl rfl
  · rw [hpc]
    show g.log.outstanding + -1 = g.log.outstanding + 0 - 1
    omega
  · rw [hpc, hcommitting]
    simp [Group.setPc, committer, count]
  · intro _
    show g.log.outstanding + -1 = 0
    omega
  · rintro (hc | ⟨q, _, hq⟩)
    · cases hc
    · exact h.cleared q hq

theorem Inv.leave {written : List Nat} (hpc : g.pc p = .op written)
    (hcommitting : g.committing = false) (hmore : g.log.outstanding ≠ 1) :
    Inv ((wakeup { g with log := addOutstanding g.log (-1) }).setPc p .idle) := by
  have hpos := h.outstanding_pos (p := p) (by rw [hpc]; rfl)
  refine h.next (.inr rfl) rfl ?_ ?_ ?_ h.nonneg ?_ ?_ ?_
  · rw [hpc]
    show g.log.outstanding + -1 = g.log.outstanding + 0 - 1
    omega
  · rw [hpc]
    show count g.committing = count g.committing + 0 - 0
    omega
  · intro hc
    exact absurd (hcommitting.symm.trans hc) (by decide)
  · intro _
    refine .inl ?_
    show 0 < g.log.outstanding + -1
    omega
  · rintro (hc | ⟨q, _, hq⟩)
    · cases hc
    · exact h.cleared q hq
  · rintro (hc | ⟨q, _, hq⟩)
    · cases hc
    · exact absurd hq (wake_ne_asleep _)

theorem Inv.clear (hpc : g.pc p = .commit) : Inv (g.clear p) := by
  have hc := h.committing_of (p := p) (by rw [hpc]; rfl)
  refine h.next (.inl rfl) rfl ?_ ?_ h.exclusive le_rfl ?_ (fun _ => rfl) fun _ => .inl hc
  · rw [hpc]
    show g.log.outstanding = g.log.outstanding + 0 - 0
    omega
  · rw [hpc]
    show count g.committing = count g.committing + 1 - 1
    omega
  · intro hlt
    exact absurd hlt (lt_irrefl 0)

theorem Inv.endCommit (hpc : g.pc p = .committed) : Inv (g.endCommit p) := by
  have hc := h.committing_of (p := p) (by rw [hpc]; rfl)
  have hn := h.cleared p hpc
  refine h.next (.inr rfl) rfl ?_ ?_ ?_ h.nonneg ?_ (fun _ => hn) ?_
  · rw [hpc]
    show g.log.outstanding = g.log.outstanding + 0 - 0
    omega
  · rw [hpc, hc]
    rfl
  · intro hfalse
    cases hfalse
  · intro hlt
    have hlt' : 0 < g.log.lh.n := hlt
    omega
  · rintro (hfalse | ⟨q, _, hq⟩)
    · cases hfalse
    · exact absurd hq (wake_ne_asleep _)

theorem inv_move {a : Act} (hmove : Move g p a g') : Inv g' := by
  cases hmove with
  | start hpc =>
    refine h.setPc ?_ ?_ (by decide) fun hc => by cases hc
    · rcases hpc with hpc | hpc <;> rw [hpc] <;> rfl
    · rcases hpc with hpc | hpc <;> rw [hpc] <;> rfl
  | wait hpc hwait =>
    refine h.setPc ?_ ?_ (by decide) fun _ => hwait
    · rw [hpc]
      rfl
    · rw [hpc]
      rfl
  | enter hpc hcommitting hroom => exact h.enter hpc hcommitting hroom
  | tooBig hpc hbig => exact ⟨h.1, h.2, h.3, h.4, h.5, h.6, h.7⟩
  | outsideTrans hpc hout => exact ⟨h.1, h.2, h.3, h.4, h.5, h.6, h.7⟩
  | tested hpc =>
    refine h.setPc ?_ ?_ (by simp) fun hc => by cases hc
    · rw [hpc]
      rfl
    · rw [hpc]
      rfl
  | record hpc => exact h.logWrite hpc
  | committing hpc hcommitting =>
    have hpos := h.outstanding_pos (p := p) (by rw [hpc]; rfl)
    have := h.exclusive hcommitting
    omega
  | last hpc hcommitting hlast => exact h.last hpc hcommitting hlast
  | leave hpc hcommitting hmore => exact h.leave hpc hcommitting hmore
  | clear hpc => exact h.clear hpc
  | endCommit hpc => exact h.endCommit hpc

end

def OnlyTooBig (g : Group P) : Prop :=
  ∀ e, g.panic = some e → e = .tooBig

theorem onlyTooBig_move {a : Act} (h : Inv g) (hnone : g.panic = none) (hmove : Move g p a g') :
    OnlyTooBig g' := by
  have hsame : OnlyTooBig g := by
    intro e he
    rw [hnone] at he
    cases he
  cases hmove with
  | tooBig hpc hbig =>
    intro e he
    cases he
    rfl
  | outsideTrans hpc hout =>
    have hpos := h.outstanding_pos (p := p) (by rw [hpc]; rfl)
    omega
  | committing hpc hcommitting =>
    have hpos := h.outstanding_pos (p := p) (by rw [hpc]; rfl)
    have := h.exclusive hcommitting
    omega
  | _ => exact hsame

theorem inv_of_reachable {size : Nat} (h : Reachable step (boot P size) g) :
    Inv g ∧ OnlyTooBig g := by
  refine Reachable.invariant (fun g => Inv g ∧ OnlyTooBig g) h ⟨inv_boot size, ?_⟩ ?_
  · intro e he
    cases he
  · rintro g l g' ⟨hinv, _⟩ hstep
    obtain ⟨hnone, hmove⟩ := move_of_step hstep
    exact ⟨inv_move hinv hmove, onlyTooBig_move hinv hnone hmove⟩

/--
Operations and commits exclude each other, and whoever sleeps in `begin_op` has
something to wait for and somebody to be woken up by.
-/
theorem group_commit {size : Nat} (h : Reachable step (boot P size) g) :
    (g.committing = true → g.log.outstanding = 0 ∧ ∀ p, active (g.pc p) = 0) ∧
    g.panic ≠ some .committing ∧
    g.panic ≠ some .outsideTrans ∧
    (0 < g.log.lh.n → 0 < g.log.outstanding ∨ g.committing = true) ∧
    (∀ p, g.pc p = .asleep → (g.committing = true ∨ Full g.log) ∧
      ∃ q, q ≠ p ∧ (active (g.pc q) = 1 ∨ committer (g.pc q) = 1)) ∧
    (∀ q, active (g.pc q) = 1 → (∀ p, (g.endOp q).pc p ≠ .asleep) ∨ (g.endOp q).pc q = .commit) ∧
    ∀ q p, (g.endCommit q).pc p ≠ .asleep := by
  obtain ⟨hinv, honly⟩ := inv_of_reachable h
  refine ⟨?_, ?_, ?_, hinv.logged, ?_, ?_, endCommit_wakes g⟩
  · intro hc
    exact ⟨hinv.exclusive hc, fun p => hinv.not_active hc⟩
  · intro hc
    exact absurd (honly _ hc) (by decide)
  · intro hc
    exact absurd (honly _ hc) (by decide)
  · intro p hp
    exact ⟨hinv.asleep p hp, hinv.exists_waker hp⟩
  · intro q hq
    refine endOp_wakes ?_
    by_contra hc
    have hzero := hinv.not_active (p := q) (by simpa using hc)
    omega

/-- Three operations are under way, so a fourth one has to wait. -/
theorem fourth_operation_waits :
    ∃ g : Group (Fin 4), Reachable step (boot (Fin 4) LOGSIZE) g ∧ g.pc 3 = .asleep ∧
      ∃ q, q ≠ 3 ∧ (active (g.pc q) = 1 ∨ committer (g.pc q) = 1) := by
  obtain ⟨g, hrun, htest⟩ := exists_of_run_map step (boot (Fin 4) LOGSIZE)
    [(0, .beginOp), (1, .beginOp), (2, .beginOp), (3, .beginOp), (0, .turn), (1, .turn),
      (2, .turn), (3, .turn)]
    (fun g => g.pc 3 = .asleep) (by decide)
  have hasleep : g.pc 3 = .asleep := by simpa using htest
  have hreach : Reachable step (boot (Fin 4) LOGSIZE) g := ⟨_, hrun⟩
  obtain ⟨_, _, _, _, hwaits, _⟩ := group_commit hreach
  exact ⟨g, hreach, hasleep, (hwaits 3 hasleep).2⟩

end Invariant

end Group

end Xv6.Log
