import Xv6.Ptable.Priority

/-!
# What the scheduler promises and what it keeps

The comments of `scheduler` promise a partial round-robin among processes of
equal priority and a promotion for those that have waited for a long time.

* The selection loop starts at slot 0 and replaces its candidate only by a
  strictly higher priority, so a tie always goes to the same slot, also when the
  process there has just given up the CPU.
* A dispatch does not reset `ticks_waiting`, so the counter adds up the passes
  in which the process was RUNNABLE, those that dispatched it included.
-/

namespace Xv6.Ptable

open Lib Sys

set_option linter.unusedSectionVars false

section Fairness

variable {C : Type} [DecidableEq C]

/--
Along the run `ls` from `s` the process `q` is dispatched twice while `p` stays
RUNNABLE, with a priority at least that of `q` after the aging of either pass.
-/
def Starved (s : Sys C) (ls : List (Label C)) (p q : Slot) : Prop :=
  p ≠ q ∧ ∃ xs c ys d zs s₀ s₂, ls = xs ++ .pass c :: (ys ++ .pass d :: zs) ∧
    run step s xs = some s₀ ∧
    run step s₀ (.pass c :: ys) = some s₂ ∧
    Meets step (fun t _ => (t.proc p).state = .runnable ∧ (t.proc q).state ≠ .unused) s₀
      (.pass c :: (ys ++ [.pass d])) ∧
    select (age s₀.proc) = some q ∧ select (age s₂.proc) = some q ∧
    (age s₀.proc q).priority ≤ (age s₀.proc p).priority ∧
    (age s₂.proc q).priority ≤ (age s₂.proc p).priority

/-- The pass dispatches no process with whose priority another RUNNABLE one is level. -/
def NoTie (s : Sys C) : Label C → Prop
  | .pass _ =>
    ∀ q, select (age s.proc) = some q → ∀ p, p ≠ q → (s.proc p).state = .runnable →
        (age s.proc p).priority ≠ (age s.proc q).priority
  | _ => True

theorem passed_over {t : Table} {p q : Slot} (hsel : select t = some q) (hne : p ≠ q)
    (hrun : (t p).state = .runnable) (hle : (t q).priority ≤ (t p).priority) :
    (t p).priority = (t q).priority ∧ q < p := by
  have hmax := (select_some hsel).2.2 p hrun
  have heq : (t p).priority = (t q).priority := by omega
  refine ⟨heq, ?_⟩
  by_contra hlt
  have hpq : p < q := lt_of_le_of_ne (not_lt.mp hlt) hne
  have := select_first hsel hpq hrun
  omega

/--
**Equal priorities.**  No run without a tie at a dispatch starves anybody; and
whoever is starved in some run stands behind the process that is preferred.
-/
theorem not_starved_of_no_tie (s : Sys C) (ls : List (Label C)) (p q : Slot) :
    (Meets step NoTie s ls → ¬Starved s ls p q) ∧ (Starved s ls p q → q < p) := by
  refine ⟨?_, ?_⟩
  · rintro hmeets ⟨hne, xs, c, ys, d, zs, s0, s2, rfl, hxs, _, hstay, hfirst, _, hle, _⟩
    have hrun : (s0.proc p).state = .runnable := hstay.1.1
    obtain ⟨heq, _⟩ := passed_over hfirst hne (by simpa [age] using hrun) hle
    exact hmeets.at hxs q hfirst p hne hrun heq
  · rintro ⟨hne, xs, c, ys, d, zs, s0, s2, _, _, _, hstay, hfirst, _, hle, _⟩
    have hrun : (s0.proc p).state = .runnable := hstay.1.1
    exact (passed_over hfirst hne (by simpa [age] using hrun) hle).2

/-- Init forks, gives its child the priority 2 and yields twice. -/
def childBelow : List (Label Bool) :=
  bootFork ++ [.setpriority 2 2, .yield true, .back true, .pass true, .resume true, .yield true,
    .back true, .pass true]

/-- Both processes are RUNNABLE at the last two passes, and init is dispatched at both. -/
theorem child_below_init_not_starved :
    ∃ s, run step (boot Bool 1 2) childBelow = some s ∧ (s.proc 0).state = .running ∧
      (s.proc 1).state = .runnable ∧ (s.proc 1).priority < (s.proc 0).priority ∧
      ¬Starved (boot Bool 1 2) childBelow 1 0 := by
  obtain ⟨s, hrun, hend⟩ := exists_of_run_map step (boot Bool 1 2) childBelow
    (fun s => (s.proc 0).state = .running ∧ (s.proc 1).state = .runnable ∧
      (s.proc 1).priority < (s.proc 0).priority) (by decide +kernel)
  obtain ⟨hzero, hone, hlt⟩ := of_decide_eq_true hend
  refine ⟨s, hrun, hzero, hone, hlt, ?_⟩
  have htest : meetsTest step
      (fun s l => match l with
        | .pass _ => decide (∀ q, select (age s.proc) = some q →
            ∀ p, p ≠ q → (s.proc p).state = .runnable →
              (age s.proc p).priority ≠ (age s.proc q).priority)
        | _ => true)
      (boot Bool 1 2) childBelow = true := by
    decide +kernel
  refine (not_starved_of_no_tie _ _ 1 0).1 ((meets_of_meetsTest htest).mono ?_)
  intro s l hl
  cases l with
  | pass c =>
    simp only [decide_eq_true_eq] at hl
    exact hl
  | _ => trivial

/--
Init and its child have priority 3.  Init yields and is dispatched again, twice,
while the child in the next slot stays RUNNABLE all the time.
-/
theorem child_is_starved_by_init :
    ∃ ls s, run step (boot Bool 1 2) ls = some s ∧ Starved (boot Bool 1 2) ls 1 0 := by
  obtain ⟨s0, hrun0, htest⟩ :=
    exists_of_run_map step (boot Bool 1 2)
      (bootFork ++ [.yield true, .back true])
      (fun s => select (age s.proc) = some 0 ∧ (age s.proc 0).priority ≤ (age s.proc 1).priority ∧
        meetsTest step
          (fun t _ => decide ((t.proc 1).state = .runnable ∧ (t.proc 0).state ≠ .unused)) s
          [.pass true, .resume true, .yield true, .back true, .pass true] = true ∧
        (run step s [.pass true, .resume true, .yield true, .back true]).map
          (fun t => decide (select (age t.proc) = some 0 ∧
            (age t.proc 0).priority ≤ (age t.proc 1).priority ∧
            (step t (.pass true)).isSome = true)) = some true)
      (by decide +kernel)
  simp only [decide_eq_true_eq] at htest
  obtain ⟨hsel0, hle0, hmeets, hnext⟩ := htest
  obtain ⟨s2, hrun2, htest2⟩ := exists_of_run_map _ _ _ _ hnext
  simp only [decide_eq_true_eq] at htest2
  obtain ⟨hsel2, hle2, hlast⟩ := htest2
  obtain ⟨s3, hs3⟩ := Option.isSome_iff_exists.mp hlast
  refine ⟨_, s3, run_append_eq_some.mpr ⟨s0, hrun0, run_append_eq_some.mpr
      ⟨s2, hrun2, run_cons_eq_some.mpr ⟨s3, hs3, rfl⟩⟩⟩,
    by simp, _, true, [.resume true, .yield true, .back true], true, [], s0, s2, rfl, hrun0,
    hrun2, ?_, hsel0, hsel2, hle0, hle2⟩
  refine (meets_of_meetsTest hmeets).mono ?_
  intro s l hl
  exact of_decide_eq_true hl

/-- What a pass that counts `p` adds to its history: whether it dispatched `p`. -/
def counted (p : Slot) (s : Sys C) : Label C → List Bool
  | .pass _ =>
    if (s.proc p).state = .runnable then [decide (select (age s.proc) = some p)] else []
  | _ => []

/-- The aging phase of the next pass raises the priority of `p`. -/
def Promotes (s : Sys C) (p : Slot) : Prop :=
  (s.proc p).priority < (age s.proc p).priority

/--
The history `h` of `p`, newest pass first, entitles it to a promotion: the
present pass is at least the hundredth that counts it, and none of the 99 before
it dispatched it.
-/
def HasWaited (h : List Bool) : Prop :=
  AGING_THRESHOLD ≤ h.length + 1 ∧ ∀ b ∈ h.take 99, b = false

/--
Every process that the step takes off its CPU has a counter at zero, as it would
have if the dispatch had reset it, or cannot be promoted any more.
-/
def LeavesFresh (s : Sys C) (l : Label C) : Prop :=
  ∀ s' p, step s l = some s' → (s.proc p).state = .running →
    (s'.proc p).state = .runnable ∨ (s'.proc p).state = .sleeping →
    (s.proc p).ticksWaiting = 0 ∨ MAX_PRIORITY ≤ (s.proc p).priority

def sinceDispatch (h : List Bool) : Nat :=
  (h.takeWhile fun b => !b).length

theorem sinceDispatch_le_take (h : List Bool) {n : Nat} (hn : n ≤ sinceDispatch h) :
    n ≤ h.length ∧ ∀ b ∈ h.take n, b = false := by
  have hpre : h.takeWhile (fun b => !b) <+: h := List.takeWhile_prefix _
  refine ⟨hn.trans hpre.length_le, ?_⟩
  intro b hb
  have hmem : b ∈ h.takeWhile fun b => !b := by
    obtain ⟨r, hr⟩ := hpre
    rw [← hr, List.take_append_of_le_length hn] at hb
    exact List.mem_of_mem_take hb
  have hall := List.all_eq_true.mp (List.all_takeWhile (p := fun b => !b) (l := h)) b hmem
  simpa using hall

def Covered (p : Slot) (s : Sys C) (h : List Bool) : Prop :=
  (s.proc p).state = .runnable ∨ (s.proc p).state = .sleeping →
    (s.proc p).priority < MAX_PRIORITY → (s.proc p).ticksWaiting ≤ sinceDispatch h

section Aging

variable {s s' : Sys C} {l : Label C} {p : Slot} {h : List Bool}

theorem covered_boot (kstack pgdir : Frame) (p : Slot) : Covered p (boot C kstack pgdir) [] := by
  intro hst _
  by_cases h0 : p = 0
  · simp [boot, h0, initProc, Proc.embryo]
  · simp [boot, set_of_ne _ _ h0, Proc.zero] at hst

theorem covered_pass (hprio : PrioInv s) (hc : Covered p s h) {c : C}
    (hstep : step s (.pass c) = some s') : Covered p s' (counted p s (.pass c) ++ h) := by
  intro hst hlt
  obtain ⟨_, _, hcase⟩ := pass_cases hstep
  -- a process that waits after the pass was not dispatched by it
  have hslot : s'.proc p = (s.proc p).age ∧ select (age s.proc) ≠ some p := by
    rcases hcase with ⟨hsel, rfl⟩ | ⟨q, hsel, rfl⟩
    · exact ⟨rfl, by simp [hsel]⟩
    · have hpq : p ≠ q := by
        rintro rfl
        simp at hst
      refine ⟨by simp [set_of_ne _ _ hpq, age], ?_⟩
      rw [hsel]
      simpa using fun heq => hpq heq.symm
  obtain ⟨heq, hsel⟩ := hslot
  rw [heq] at hst hlt ⊢
  by_cases hrun : (s.proc p).state = .runnable
  · have hok := hprio.ok p (by simp [hrun])
    have hlt0 : (s.proc p).priority < MAX_PRIORITY := by
      unfold Proc.age at hlt
      dsimp only at hlt
      split_ifs at hlt
      · dsimp only at hlt
        omega
      · exact hlt
    obtain ⟨h0, h1⟩ := hok.2.2 hlt0
    have hle := hc (.inl hrun) hlt0
    have hsince : sinceDispatch (counted p s (.pass c) ++ h) = sinceDispatch h + 1 := by
      simp [counted, hrun, hsel, sinceDispatch]
    rw [hsince]
    unfold Proc.age
    dsimp only
    rw [toInt32_succ h0 h1]
    split_ifs
    · dsimp only
      omega
    · dsimp only
      push_cast
      omega
  · rw [Proc.age_of_not_runnable _ hrun] at hst hlt ⊢
    simpa [counted, hrun] using hc hst hlt

theorem covered_other (hinv : SysInv s) (hprio : PrioInv s) (hc : Covered p s h)
    (hok : LeavesFresh s l) (hl : ∀ c, l ≠ .pass c) (hstep : step s l = some s') :
    Covered p s' h := by
  intro hst hlt
  -- every move below keeps the two fields or zeroes the counter
  have hkeep : (s'.proc p).priority = (s.proc p).priority →
      (s'.proc p).ticksWaiting = (s.proc p).ticksWaiting →
      (s.proc p).state = .runnable ∨ (s.proc p).state = .sleeping →
      (s'.proc p).ticksWaiting ≤ sinceDispatch h := by
    intro h1 h2 hold
    rw [h1] at hlt
    rw [h2]
    exact hc hold hlt
  have hleave : (s'.proc p).priority = (s.proc p).priority →
      (s'.proc p).ticksWaiting = (s.proc p).ticksWaiting →
      (s.proc p).state = .running → (s'.proc p).ticksWaiting ≤ sinceDispatch h := by
    intro h1 h2 hold
    rw [h1] at hlt
    rw [h2]
    rcases hok s' p hstep hold hst with h0 | hmax
    · omega
    · omega
  have hzero : (s'.proc p).ticksWaiting = 0 → (s'.proc p).ticksWaiting ≤ sinceDispatch h := by
    intro h0
    omega
  cases move_of_step hinv hstep p with
  | keep _ heq => exact hkeep (by rw [heq]) (by rw [heq]) (by rwa [heq] at hst)
  | woken chan heq =>
    refine hkeep (by simp [heq]) (by simp [heq]) ?_
    rw [heq, Proc.wake_state] at hst
    split_ifs at hst with hs
    · exact .inr hs.1
    · exact hst
  | killed pid _ heq =>
    refine hkeep (by rw [heq]; rfl) (by rw [heq]; rfl) ?_
    rw [heq] at hst
    dsimp only [Proc.kill] at hst
    split_ifs at hst with hs
    · exact .inr hs
    · exact hst
  | orphaned c q _ _ hinit _ _ heq =>
    obtain ⟨par, st, hfr⟩ := exitTable_frame hinit p
    rw [heq, exitTable_state hinit] at hst
    refine hkeep (by rw [heq, hfr]) (by rw [heq, hfr]) ?_
    split_ifs at hst with hs
    · exact .inr hs.1
    · exact hst
  | assigned pid prio _ _ heq => exact hzero (by rw [heq]; rfl)
  | published c q _ _ hold heq => exact hzero (by rw [heq]; exact hprio.fresh p hold)
  | blocked _ _ hold _ heq | yielded c hold heq | slept c a hold heq =>
    exact hleave (by rw [heq]) (by rw [heq]) hold
  | aged c | dispatched c => exact absurd rfl (hl c)
  | cleared c hold heq | trapped c hold heq | stacked c q k _ hold heq
  | copied c q d _ _ _ hold heq | inherited c q prio _ hold heq => simp [heq, hold] at hst
  | exited c _ _ _ _ heq | reaped _ q _ _ heq | allocated c q _ _ _ _ heq
  | unstacked c q _ _ _ heq | uncopied c q _ _ _ heq => simp [heq, Proc.reap, Proc.embryo] at hst

theorem covered_step (hinv : SysInv s) (hprio : PrioInv s) (hc : Covered p s h)
    (hok : LeavesFresh s l) (hstep : step s l = some s') : Covered p s' (counted p s l ++ h) := by
  by_cases hl : ∃ c, l = .pass c
  · obtain ⟨c, rfl⟩ := hl
    exact covered_pass hprio hc hstep
  push Not at hl
  have hnil : counted p s l = [] := by
    cases l with
    | pass c => exact absurd rfl (hl c)
    | _ => rfl
  rw [hnil]
  exact covered_other hinv hprio hc hok hl hstep

theorem promotes_iff (s : Sys C) (p : Slot) :
    Promotes s p ↔
      (s.proc p).state = .runnable ∧ AGING_THRESHOLD ≤ toInt32 ((s.proc p).ticksWaiting + 1) ∧
        (s.proc p).priority < MAX_PRIORITY := by
  unfold Promotes age Proc.age
  dsimp only
  split_ifs with hrun hup
  · simp [hrun, hup]
  · simp only [lt_self_iff_false, false_iff]
    tauto
  · simp [hrun]

/--
**Aging.**  In every run in which no process leaves its CPU with a counter above
zero and a priority below the highest, a process that the aging phase promotes
is RUNNABLE and was not dispatched by any of the last hundred passes that
counted it.
-/
theorem promoted_has_waited {kstack pgdir : Frame} {ls : List (Label C)}
    (hmeets : Meets step LeavesFresh (boot C kstack pgdir) ls)
    (hrun : run (recordStep step (counted p)) (boot C kstack pgdir, []) ls = some (s, h))
    (hprom : Promotes s p) : (s.proc p).state = .runnable ∧ HasWaited h := by
  have hinv : SysInv s ∧ PrioInv s ∧ Covered p s h := by
    refine run_invariant_of_meets
      (fun sh : Sys C × List Bool => SysInv sh.1 ∧ PrioInv sh.1 ∧ Covered p sh.1 sh.2) ?_
      ⟨sysInv_boot kstack pgdir, prioInv_boot kstack pgdir, covered_boot kstack pgdir p⟩
      (meets_recorded hmeets) hrun
    rintro sh l ⟨t, h'⟩ ⟨hsys, hprio, hc⟩ hok hst
    obtain ⟨hstep, rfl⟩ := recordStep_eq_some.mp hst
    exact ⟨sysInv_step hsys hstep, prioInv_step hsys hprio hstep,
      covered_step hsys hprio hc hok hstep⟩
  obtain ⟨_, hprio, hc⟩ := hinv
  obtain ⟨hst, hticks, hlt⟩ := (promotes_iff s p).mp hprom
  obtain ⟨h0, h1⟩ := (hprio.ok p (by simp [hst])).2.2 hlt
  rw [toInt32_succ h0 h1] at hticks
  have hle := hc (.inl hst) hlt
  have hsince : 99 ≤ sinceDispatch h := by
    unfold AGING_THRESHOLD at hticks
    omega
  obtain ⟨hlen, hnone⟩ := sinceDispatch_le_take h hsince
  refine ⟨hst, ?_, hnone⟩
  unfold AGING_THRESHOLD
  omega

end Aging

section Rounds

def turn : List (Label Unit) :=
  [.pass (), .resume (), .yield (), .back ()]

/--
Between two turns: init is RUNNABLE in slot 0 with priority `a`, slot 1 is free
or holds a RUNNABLE process with priority `b`, and the counters are at `n`.
-/
structure Between (a b : Int) (n : Nat) (s : Sys Unit) : Prop where
  lock : s.lock = none
  cpu : s.cpu () = ⟨none, .idle⟩
  state : (s.proc 0).state = .runnable
  priority : (s.proc 0).priority = a
  kstack : (s.proc 0).kstack ≠ none
  pgdir : (s.proc 0).pgdir ≠ none
  context : (s.proc 0).context = .forkret ∨ (s.proc 0).context = .yield
  ticks : a < MAX_PRIORITY → (s.proc 0).ticksWaiting = n
  other : (s.proc 1).state = .unused ∨
    ((s.proc 1).state = .runnable ∧ (s.proc 1).priority = b ∧ (s.proc 1).ticksWaiting = n)
  rest : ∀ p, p ≠ 0 → p ≠ 1 → (s.proc p).state = .unused

variable {a b : Int} {n : Nat} {s : Sys Unit}

theorem age_eq_of_lt {v : Proc} (hst : v.state = .runnable) (hticks : v.ticksWaiting = n)
    (hn : n < 99) : v.age = { v with ticksWaiting := n + 1 } := by
  have hsucc : toInt32 (v.ticksWaiting + 1) = n + 1 := by
    rw [hticks]
    exact toInt32_succ (by omega) (by unfold AGING_THRESHOLD; omega)
  unfold Proc.age
  rw [if_pos hst]
  dsimp only
  rw [hsucc, if_neg]
  unfold AGING_THRESHOLD
  omega

section
variable (h : Between a b n s)
include h

theorem Between.age_zero (hn : n < 99) :
    (s.proc 0).age.priority = a ∧
      (a < MAX_PRIORITY → (s.proc 0).age.ticksWaiting = n + 1) := by
  by_cases ha : a < MAX_PRIORITY
  · rw [age_eq_of_lt h.state (h.ticks ha) hn]
    exact ⟨h.priority, fun _ => rfl⟩
  · refine ⟨?_, fun hlt => absurd hlt ha⟩
    unfold Proc.age
    rw [if_pos h.state]
    dsimp only
    rw [if_neg (by rw [h.priority]; exact fun hc => ha hc.2)]
    exact h.priority

theorem Between.select (hn : n < 99) (ha : MIN_PRIORITY ≤ a) (hb : b ≤ a) :
    select (age s.proc) = some 0 := by
  obtain ⟨hprio, _⟩ := h.age_zero hn
  have hrun : (age s.proc 0).state = .runnable := by simpa [age] using h.state
  cases hsel : Ptable.select (age s.proc) with
  | none =>
    have := select_none hsel 0 hrun
    rw [show (age s.proc 0).priority = a from hprio] at this
    omega
  | some q =>
    by_contra hne
    have hq : q ≠ 0 := fun h0 => hne (by rw [h0])
    obtain ⟨hqrun, _, hmax⟩ := select_some hsel
    have hqst : (s.proc q).state = .runnable := by simpa [age] using hqrun
    have hlt := select_first hsel (Fin.pos_of_ne_zero hq) hrun
    rw [show (age s.proc 0).priority = a from hprio] at hlt
    by_cases hq1 : q = 1
    · subst hq1
      rcases h.other with hun | ⟨_, hb', ht⟩
      · rw [hun] at hqst
        cases hqst
      · have : (age s.proc 1).priority = b := by
          unfold age
          rw [age_eq_of_lt hqst ht hn]
          exact hb'
        omega
    · rw [h.rest q hq hq1] at hqst
      cases hqst

theorem Between.not_running (p : Slot) : (s.proc p).state ≠ .running := by
  by_cases h0 : p = 0
  · rw [h0, h.state]
    simp
  · by_cases h1 : p = 1
    · rw [h1]
      rcases h.other with hun | ⟨hrun, _⟩
      · simp [hun]
      · simp [hrun]
    · simp [h.rest p h0 h1]

theorem Between.after_turn (hn : n < 99) (ha : MIN_PRIORITY ≤ a) (hb : b ≤ a)
    (p : Slot) (hist : List Bool) :
    ∃ s', run (recordStep step (counted p)) (s, hist) turn =
        some (s', counted p s (.pass ()) ++ hist) ∧
      Between a b (n + 1) s' ∧ (s'.proc 1).state = (s.proc 1).state ∧
      (MAX_PRIORITY ≤ a → Meets step LeavesFresh s turn) := by
  have hsel := h.select hn ha hb
  obtain ⟨hprio, hticks⟩ := h.age_zero hn
  have hkst : (age s.proc 0).kstack ≠ none := by simpa [age] using h.kstack
  have hdir : (age s.proc 0).pgdir ≠ none := by simpa [age] using h.pgdir
  have hctx : (age s.proc 0).context = (s.proc 0).context := by
    unfold age Proc.age
    dsimp only
    split_ifs <;> rfl
  -- the four states of the turn
  let s1 : Sys Unit :=
    { s with
      proc := set (age s.proc) 0 { age s.proc 0 with state := .running }
      lock := some ()
      cpu := Function.update s.cpu () ⟨some 0, .entering⟩ }
  let s2 : Sys Unit := s1.release () 0
  let s3 : Sys Unit := s2.leave () 0 { s2.proc 0 with state := .runnable, context := .yield }
  let s4 : Sys Unit := { s3 with lock := none, cpu := Function.update s3.cpu () ⟨none, .idle⟩ }
  have h1 : step s (.pass ()) = some s1 := by simp [step, pass, h.lock, h.cpu, hsel, hkst, hdir, s1]
  have h2 : step s1 (.resume ()) = some s2 := by
    rcases h.context with hc | hc
    · simp [step, resume, s1, s2, hctx, hc]
    · simp [step, resume, s1, s2, hctx, hc]
  have h3 : step s2 (.yield ()) = some s3 := by
    simp [step, locked, Sys.current, s2, s3, Sys.release]
  have h4 : step s3 (.back ()) = some s4 := by simp [step, s3, s4, Sys.leave]
  have hslot0 : s4.proc 0 = { age s.proc 0 with state := .runnable, context := .yield } := by
    simp [s4, s3, s2, s1, Sys.leave, Sys.release]
  have hslot : ∀ q, q ≠ 0 → s4.proc q = age s.proc q := by
    intro q hq
    simp [s4, s3, s2, s1, Sys.leave, Sys.release, set_of_ne _ _ hq]
  refine ⟨s4, ?_, ?_, ?_, ?_⟩
  · simp only [turn, run, recordStep, h1, h2, h3, h4, Option.map_some, counted, List.nil_append]
  · refine ⟨rfl, by simp [s4], by rw [hslot0], ?_, ?_, ?_, .inr (by rw [hslot0]), ?_, ?_, ?_⟩
    · rw [hslot0]
      exact hprio
    · rw [hslot0]
      exact hkst
    · rw [hslot0]
      exact hdir
    · intro hlt
      rw [hslot0]
      push_cast
      exact hticks hlt
    · rw [hslot 1 (by simp)]
      rcases h.other with hun | ⟨hrun, hpr, ht⟩
      · exact .inl (by simpa [age] using hun)
      · right
        unfold age
        rw [age_eq_of_lt hrun ht hn]
        exact ⟨hrun, hpr, by push_cast; rfl⟩
    · intro q hq0 hq1
      rw [hslot q hq0]
      simpa [age] using h.rest q hq0 hq1
  · rw [hslot 1 (by simp)]
    simp [age]
  intro hmax
  have hfresh : ∀ t : Sys Unit, (∀ q, (t.proc q).state = .running → q = 0) →
      (t.proc 0).priority = a → ∀ l, LeavesFresh t l := by
    intro t ht hpt l t' q _ hq _
    rw [ht q hq, hpt]
    exact .inr hmax
  have hage : (age s.proc 0).priority = a := hprio
  have hnot : ∀ q, (age s.proc q).state ≠ .running := by
    intro q
    simpa [age] using h.not_running q
  have hone : ∀ q, ((s1.proc q).state = .running → q = 0) := by
    intro q hq
    by_contra h0
    simp [s1, set_of_ne _ _ h0, hnot q] at hq
  refine ⟨?_, fun t ht => ?_⟩
  · exact hfresh s (fun q hq => absurd hq (h.not_running q)) h.priority _
  rw [h1] at ht
  cases ht
  refine ⟨hfresh s1 hone (by simpa [s1] using hage) _, fun t ht => ?_⟩
  rw [h2] at ht
  cases ht
  refine ⟨hfresh s2 hone (by simpa [s2, s1, Sys.release] using hage) _, fun t ht => ?_⟩
  rw [h3] at ht
  cases ht
  refine ⟨hfresh s3 ?_ ?_ _, fun _ _ => trivial⟩
  · intro q hq
    by_contra h0
    simp [s3, s2, s1, Sys.leave, Sys.release, set_of_ne _ _ h0, hnot q] at hq
  · simpa [s3, s2, s1, Sys.leave, Sys.release] using hage

end

def turns (m : Nat) : List (Label Unit) :=
  (List.replicate m turn).flatten

theorem Between.after_turns (h : Between a b n s) {m : Nat} (hn : n + m ≤ 99)
    (ha : MIN_PRIORITY ≤ a) (hb : b ≤ a) (p : Slot) (hist : List Bool) :
    ∃ s' hist', run (recordStep step (counted p)) (s, hist) (turns m) = some (s', hist') ∧
      Between a b (n + m) s' ∧ (s'.proc 1).state = (s.proc 1).state ∧
      (MAX_PRIORITY ≤ a → Meets step LeavesFresh s (turns m)) ∧
      (p = 0 → hist' = List.replicate m true ++ hist) := by
  induction m generalizing n s hist with
  | zero => exact ⟨s, hist, rfl, h, rfl, fun _ => trivial, fun _ => rfl⟩
  | succ m ih =>
    obtain ⟨s1, hrun, hbet, hst, hmeets⟩ := h.after_turn (by omega) ha hb p hist
    obtain ⟨s', hist', hrun', hbet', hst', hmeets', hlist⟩ :=
      ih hbet (by omega) (counted p s (.pass ()) ++ hist)
    have hsplit : turns (m + 1) = turn ++ turns m := by simp [turns, List.replicate_succ]
    refine ⟨s', hist', ?_, by rwa [show n + (m + 1) = n + 1 + m by omega], hst'.trans hst, ?_, ?_⟩
    · rw [hsplit]
      exact run_append_eq_some.mpr ⟨_, hrun, hrun'⟩
    · intro hmax
      rw [hsplit]
      exact meets_append (run_of_recorded hrun) (hmeets hmax) (hmeets' hmax)
    · intro hp
      subst hp
      have hone : counted 0 s (.pass ()) = [true] := by
        simp [counted, h.state, h.select (by omega) ha hb]
      rw [hlist rfl, hone, List.replicate_succ', List.append_assoc]

theorem promotes_of_ticks {p : Slot} (hst : (s.proc p).state = .runnable)
    (hticks : (s.proc p).ticksWaiting = 99) (hlt : (s.proc p).priority < MAX_PRIORITY) :
    Promotes s p := by
  refine (promotes_iff s p).mpr ⟨hst, ?_, hlt⟩
  rw [hticks]
  decide

end Rounds

/--
Init at priority 5 keeps the CPU to itself; its child, set back to priority 3,
is counted 99 times, never dispatched, and due for a promotion in the next pass.
-/
theorem waiting_child_is_promoted :
    ∃ ls s h, Meets step LeavesFresh (boot Unit 1 2) ls ∧
      run (recordStep step (counted 1)) (boot Unit 1 2, []) ls = some (s, h) ∧
      Promotes s 1 ∧ HasWaited h := by
  let ls0 : List (Label Unit) :=
    [.pass (), .resume (), .setpriority 1 5, .forkAlloc (), .forkStack () (some 3),
      .forkCopy () (some 4), .forkLoad (), .forkStore (), .forkPublish (), .setpriority 2 3,
      .yield (), .back ()]
  have hmeets0 : Meets step LeavesFresh (boot Unit 1 2) ls0 := by
    have htest : meetsTest step
        (fun s l => match step s l with
          | none => true
          | some s' => decide (∀ p, (s.proc p).state = .running →
              (s'.proc p).state = .runnable ∨ (s'.proc p).state = .sleeping →
              (s.proc p).ticksWaiting = 0 ∨ MAX_PRIORITY ≤ (s.proc p).priority))
        (boot Unit 1 2) ls0 = true := by
      decide +kernel
    refine (meets_of_meetsTest htest).mono ?_
    intro s l hl s' p hstep
    simp only [hstep, decide_eq_true_eq] at hl
    exact hl p
  obtain ⟨⟨s0, h0⟩, hrun0, htest⟩ :=
    exists_of_run_map (recordStep step (counted 1)) (boot Unit 1 2, []) ls0
      (fun sh => sh.1.lock = none ∧ sh.1.cpu () = ⟨none, .idle⟩ ∧
        (sh.1.proc 0).state = .runnable ∧ (sh.1.proc 0).priority = 5 ∧
        (sh.1.proc 0).kstack ≠ none ∧ (sh.1.proc 0).pgdir ≠ none ∧
        (sh.1.proc 0).context = .yield ∧ (sh.1.proc 1).state = .runnable ∧
        (sh.1.proc 1).priority = 3 ∧ (sh.1.proc 1).ticksWaiting = 0 ∧
        ∀ p, p ≠ 0 → p ≠ 1 → (sh.1.proc p).state = .unused)
      (by decide +kernel)
  simp only [decide_eq_true_eq] at htest
  obtain ⟨hlock, hcpu, hst, hpr, hks, hpd, hctx, hst1, hpr1, ht1, hrest⟩ := htest
  have hbet0 : Between 5 3 0 s0 :=
    ⟨hlock, hcpu, hst, hpr, hks, hpd, .inr hctx, fun hlt => absurd hlt (by decide),
      .inr ⟨hst1, hpr1, ht1⟩, hrest⟩
  obtain ⟨s, h, hrun, hbet, hsame, hmeets, _⟩ :=
    hbet0.after_turns (m := 99) (by omega) (by decide) (by omega) 1 h0
  have hall : Meets step LeavesFresh (boot Unit 1 2) (ls0 ++ turns 99) :=
    meets_append (run_of_recorded hrun0) hmeets0 (hmeets (by decide))
  have hrunall : run (recordStep step (counted 1)) (boot Unit 1 2, []) (ls0 ++ turns 99) =
      some (s, h) :=
    run_append_eq_some.mpr ⟨_, hrun0, hrun⟩
  have hchild : (s.proc 1).priority = 3 ∧ (s.proc 1).ticksWaiting = 99 := by
    rcases hbet.other with hun | ⟨_, hb, ht⟩
    · rw [hun, hst1] at hsame
      cases hsame
    · exact ⟨hb, ht⟩
  have hprom : Promotes s 1 :=
    promotes_of_ticks (hsame.trans hst1) hchild.2 (by rw [hchild.1]; decide)
  exact ⟨_, s, h, hall, hrunall, hprom, (promoted_has_waited hall hrunall hprom).2⟩

/--
Init is alone and yields whenever it runs.  It is dispatched by each of the 99
passes that count it, and promoted in the hundredth.
-/
theorem running_init_is_promoted :
    ∃ ls s h, run (recordStep step (counted 0)) (boot Unit 1 2, []) ls = some (s, h) ∧
      Promotes s 0 ∧ h = List.replicate 99 true := by
  have hboot : Between 3 3 0 (boot Unit 1 2) := by
    refine ⟨rfl, rfl, rfl, rfl, by simp [boot, initProc], by simp [boot, initProc], .inl rfl,
      fun _ => rfl, .inl rfl, ?_⟩
    intro p h0 _
    simp [boot, set_of_ne _ _ h0, Proc.zero]
  obtain ⟨s, h, hrun, hbet, _, _, hlist⟩ :=
    hboot.after_turns (m := 99) (by omega) (by decide) (le_refl _) 0 []
  refine ⟨_, s, h, hrun, ?_, by simpa using hlist rfl⟩
  exact promotes_of_ticks hbet.state (hbet.ticks (by decide)) (by rw [hbet.priority]; decide)

end Fairness

end Xv6.Ptable
