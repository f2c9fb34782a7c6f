import Xv6.Log.Group

/-!
# Space in the log

`begin_op` lets an operation in if, with `MAXOPBLOCKS` blocks for every operation
under way, the log has at most `LOGSIZE` entries.  `log_write` panics at
`log.size - 1` entries, and mkfs makes the log `LOGSIZE` blocks long with the
header included.  So three operations that write `MAXOPBLOCKS` blocks each do not
fit, and since the test in `log_write` comes before the search for the block, the
log must not even be full.
-/

namespace Xv6.Log

open Lib Function

variable {lh : LogHeader} {b : Nat} {c : Pc}

/-- The size of the log in the superblock that mkfs writes. -/
def nlog : Nat :=
  LOGSIZE

namespace Group

section Reserve

variable {P : Type} {g g' : Group P} {p : P}

/-- The operation stays within `MAXOPBLOCKS` distinct blocks. -/
def Bounded (g : Group P) (l : P × Act) : Prop :=
  ∀ written blockno, l.2 = .logWrite blockno → g.pc l.1 = .op written →
    blockno ∈ written ∨ written.length < MAXOPBLOCKS

/-- An operation is let in only while two entries of the log stay unused. -/
def Reserved (g : Group P) (l : P × Act) : Prop :=
  l.2 = .turn → g.committing = false → ¬Full g.log →
    g.log.lh.n + (g.log.outstanding + 1) * MAXOPBLOCKS ≤ g.log.size - 2

instance (g : Group P) (l : P × Act) : Decidable (Reserved g l) :=
  inferInstanceAs (Decidable (_ → _ → _ → _))

def boundedTest (g : Group P) (l : P × Act) : Bool :=
  match l.2, g.pc l.1 with
  | .logWrite blockno, .op written => blockno ∈ written ∨ written.length < MAXOPBLOCKS
  | _, _ => true

theorem bounded_of_test {l : P × Act} (h : boundedTest g l = true) : Bounded g l := by
  intro written blockno hact hpc
  unfold boundedTest at h
  rw [hact, hpc] at h
  simpa using h

def reserve : Pc → Int
  | .op written => MAXOPBLOCKS - written.length
  | .writing written _ => MAXOPBLOCKS - written.length
  | _ => 0

/-- The blocks that the operation has passed to `log_write`. -/
def written : Pc → List Nat
  | .op ws => ws
  | .writing ws _ => ws
  | _ => []

def Entry (lh : LogHeader) (b : Nat) : Prop :=
  ∃ tail < lh.n.toNat, lh.block tail = b

theorem entry_record {c : Nat} (hn : 0 ≤ lh.n) (h : Entry lh c ∨ c = b) :
    Entry (lh.record b) c := by
  by_cases hlogged : Entry lh b
  · rw [record_of_logged hlogged]
    rcases h with h | rfl
    · exact h
    · exact hlogged
  rw [record_of_not_logged hlogged]
  have hcount : (lh.n + 1).toNat = lh.n.toNat + 1 := by omega
  rcases h with ⟨tail, htail, hblock⟩ | rfl
  · refine ⟨tail, ?_, ?_⟩
    · simp only
      omega
    · simp only
      rw [update_of_ne (by omega)]
      exact hblock
  · refine ⟨lh.n.toNat, ?_, ?_⟩
    · simp only
      omega
    · exact update_self _ _ _

structure PcOk (lh : LogHeader) (c : Pc) : Prop where
  bound : (written c).length ≤ MAXOPBLOCKS
  room : ∀ ws b, c = .writing ws b → b ∈ ws ∨ ws.length < MAXOPBLOCKS
  logged : ∀ b ∈ written c, Entry lh b

structure Budget [Fintype P] (g : Group P) : Prop where
  size : (g.log.size : Int) = nlog
  space : g.log.lh.n + total reserve g.pc ≤ g.log.size - 2
  places : ∀ p, PcOk g.log.lh (g.pc p)
  panic : g.panic = none

@[simp] theorem reserve_wake (c : Pc) : reserve (wake c) = reserve c := by
  cases c <;> rfl

theorem pcOk_of_inactive (h : active c = 0) : PcOk lh c := by
  have hwritten : written c = [] := by cases c <;> first | rfl | cases h
  refine ⟨?_, ?_, ?_⟩
  · rw [hwritten]
    simp
  · rintro ws b rfl
    cases h
  · rw [hwritten]
    intro b hb
    cases hb

theorem reserve_of_inactive (h : active c = 0) : reserve c = 0 := by
  cases c <;> first | rfl | cases h

theorem PcOk.wake (h : PcOk lh c) : PcOk lh (wake c) := by
  cases c with
  | asleep => exact pcOk_of_inactive rfl
  | _ => exact h

theorem PcOk.record (hn : 0 ≤ lh.n) (h : PcOk lh c) : PcOk (lh.record b) c :=
  ⟨h.bound, h.room, fun x hx => entry_record hn (.inl (h.logged x hx))⟩

variable [Fintype P]

theorem reserve_le (f : P → Pc) : total reserve f ≤ total active f * MAXOPBLOCKS := by
  unfold total
  rw [Finset.sum_mul]
  refine Finset.sum_le_sum fun q _ => ?_
  cases f q <;> simp [reserve, active]

theorem reserve_nonneg (h : PcOk lh c) : 0 ≤ reserve c := by
  have hbound := h.bound
  cases c <;> simp_all [reserve, written]

theorem budget_boot : Budget (boot P nlog) := by
  refine ⟨rfl, ?_, fun p => pcOk_of_inactive rfl, rfl⟩
  have hzero : total reserve (boot P nlog).pc = 0 := Finset.sum_eq_zero fun q _ => rfl
  rw [hzero]
  show (0 : Int) + 0 ≤ (nlog : Int) - 2
  decide

variable [DecidableEq P]

section
variable (h : Budget g)
include h

theorem Budget.next {f : P → Pc} (hf : f = g.pc ∨ f = fun q => wake (g.pc q))
    (hpc : g'.pc = update f p c) (hsize : g'.log.size = g.log.size)
    (hspace : g'.log.lh.n + reserve c ≤ g.log.lh.n + reserve (g.pc p) ∨
      g'.log.lh.n + total reserve g.pc + reserve c - reserve (g.pc p) ≤ g.log.size - 2)
    (hplaces : ∀ q, q ≠ p → PcOk g'.log.lh (g.pc q)) (hc : PcOk g'.log.lh c)
    (hpanic : g'.panic = none) :
    Budget g' := by
  have hweight : total reserve f = total reserve g.pc ∧ reserve (f p) = reserve (g.pc p) := by
    rcases hf with rfl | rfl
    · exact ⟨rfl, rfl⟩
    · exact ⟨Finset.sum_congr rfl fun q _ => reserve_wake _, reserve_wake _⟩
  have htotal := total_update reserve f p c
  have hold := h.space
  refine ⟨by rw [hsize, h.size], ?_, ?_, hpanic⟩
  · rw [hpc, hsize]
    omega
  intro q
  rw [hpc]
  by_cases hqp : q = p
  · subst hqp
    rw [update_self]
    exact hc
  · rw [update_of_ne hqp]
    rcases hf with rfl | rfl
    · exact hplaces q hqp
    · exact (hplaces q hqp).wake

theorem Budget.enter (hinv : Inv g) (hpc : g.pc p = .entering)
    (hreserved : g.log.lh.n + (g.log.outstanding + 1) * MAXOPBLOCKS ≤ g.log.size - 2) :
    Budget ({ g with log := addOutstanding g.log 1 }.setPc p (.op [])) := by
  have hle := reserve_le g.pc
  rw [← hinv.outstanding] at hle
  refine h.next (.inl rfl) rfl rfl (.inr ?_) (fun q _ => h.places q) ?_ h.panic
  · rw [hpc]
    show g.log.lh.n + total reserve g.pc + (MAXOPBLOCKS - 0) - 0 ≤ g.log.size - 2
    rw [add_mul, one_mul] at hreserved
    omega
  · refine ⟨by simp [written], ?_, ?_⟩
    · intro ws b hc
      cases hc
    · intro b hb
      cases hb

theorem Budget.record {ws : List Nat} (hinv : Inv g)
    (hpc : g.pc p = .writing ws b) : Budget (g.logWrite p ws b) := by
  have hplace := h.places p
  rw [hpc] at hplace
  have hn := hinv.nonneg
  have hbound : ws.length ≤ MAXOPBLOCKS := hplace.bound
  have hentry : Entry (g.log.lh.record b) b := entry_record hn (.inr rfl)
  refine h.next (.inl rfl) rfl rfl (.inl ?_) (fun q _ => (h.places q).record hn) ?_ h.panic
  · rw [hpc]
    show (g.log.lh.record b).n + (MAXOPBLOCKS - (ws.insert b).length) ≤
      g.log.lh.n + (MAXOPBLOCKS - ws.length)
    by_cases hb : b ∈ ws
    · -- written before by this operation, so it has an entry
      rw [List.insert_of_mem hb, record_of_logged (hplace.logged b hb)]
    · rw [List.insert_of_not_mem hb, List.length_cons]
      rcases record_n g.log.lh b with heq | heq
      · omega
      · omega
  refine ⟨?_, ?_, ?_⟩
  · show (ws.insert b).length ≤ MAXOPBLOCKS
    by_cases hb : b ∈ ws
    · rw [List.insert_of_mem hb]
      exact hbound
    · rw [List.insert_of_not_mem hb, List.length_cons]
      rcases hplace.room ws b rfl with hc | hlt
      · exact absurd hc hb
      · omega
  · intro ws' b' hc
    cases hc
  · intro x hx
    have hx' : x = b ∨ x ∈ ws := by simpa [written] using hx
    rcases hx' with rfl | hx'
    · exact hentry
    · exact entry_record hn (.inl (hplace.logged x hx'))

theorem Budget.leave {f : P → Pc}
    (hf : f = g.pc ∨ f = fun q => wake (g.pc q)) (hpc : g'.pc = update f p c)
    (hsize : g'.log.size = g.log.size) (hlh : g'.log.lh = g.log.lh) (hc : active c = 0)
    (hpanic : g'.panic = none) : Budget g' := by
  have hnonneg := reserve_nonneg (h.places p)
  refine h.next hf hpc hsize (.inl ?_) (fun q _ => by rw [hlh]; exact h.places q)
    (pcOk_of_inactive hc) hpanic
  rw [hlh, reserve_of_inactive hc]
  omega

theorem Budget.clear (hinv : Inv g) (hpc : g.pc p = .commit) : Budget (g.clear p) := by
  have hcommitting := hinv.committing_of (p := p) (by rw [hpc]; rfl)
  have hn := hinv.nonneg
  refine h.next (.inl rfl) rfl rfl (.inl ?_)
    (fun q _ => pcOk_of_inactive (hinv.not_active hcommitting)) (pcOk_of_inactive rfl) h.panic
  rw [hpc]
  show 0 + 0 ≤ g.log.lh.n + 0
  omega

theorem budget_move {a : Act} (hinv : Inv g) (hbounded : Bounded g (p, a))
    (hreserved : Reserved g (p, a)) (hmove : Move g p a g') : Budget g' := by
  have hstay : ∀ c, reserve c = reserve (g.pc p) → PcOk g.log.lh c →
      Budget (g.setPc p c) := by
    intro c hc hok
    refine h.next (.inl rfl) rfl rfl (.inl ?_) (fun q _ => h.places q) hok h.panic
    rw [hc]
    exact le_rfl
  cases hmove with
  | start hpc =>
    refine hstay _ ?_ (pcOk_of_inactive rfl)
    rcases hpc with hpc | hpc <;> rw [hpc] <;> rfl
  | wait hpc hwait =>
    refine hstay _ ?_ (pcOk_of_inactive rfl)
    rw [hpc]
    rfl
  | enter hpc hcommitting hroom => exact h.enter hinv hpc (hreserved rfl hcommitting hroom)
  | tooBig hpc hbig =>
    -- at least two entries are unused
    have hspace := h.space
    have hsize := h.size
    have hnonneg : 0 ≤ total reserve g.pc :=
      Finset.sum_nonneg fun q _ => reserve_nonneg (h.places q)
    unfold nlog at hsize
    rcases hbig with hbig | hbig
    · omega
    · omega
  | outsideTrans hpc hout =>
    have hpos := hinv.outstanding_pos (p := p) (by rw [hpc]; rfl)
    omega
  | @tested ws b hpc =>
    have hplace := h.places p
    rw [hpc] at hplace
    refine hstay _ ?_ ⟨hplace.bound, ?_, hplace.logged⟩
    · rw [hpc]
      rfl
    · intro ws' b' heq
      cases heq
      exact hbounded ws b rfl hpc
  | record hpc => exact h.record hinv hpc
  | committing hpc hcommitting =>
    have hpos := hinv.outstanding_pos (p := p) (by rw [hpc]; rfl)
    have := hinv.exclusive hcommitting
    omega
  | last hpc hcommitting hlast => exact h.leave (.inl rfl) rfl rfl rfl rfl h.panic
  | leave hpc hcommitting hmore => exact h.leave (.inr rfl) rfl rfl rfl rfl h.panic
  | clear hpc => exact h.clear hinv hpc
  | endCommit hpc => exact h.leave (.inr rfl) rfl rfl rfl rfl h.panic

end

/--
If every operation is let in while two entries of the log stay unused, nobody
runs into a panic.
-/
theorem no_panic_of_reserved {ls : List (P × Act)} (hrun : run step (boot P nlog) ls = some g)
    (hbounded : Meets step Bounded (boot P nlog) ls)
    (hreserved : Meets step Reserved (boot P nlog) ls) : g.panic = none := by
  have hboth := hbounded.and hreserved
  have hinv : Inv g ∧ Budget g := by
    refine run_invariant_of_meets (fun g => Inv g ∧ Budget g) ?_ ⟨inv_boot nlog, budget_boot⟩
      hboth hrun
    rintro g ⟨p, a⟩ g' ⟨hinv, hbudget⟩ ⟨hb, hr⟩ hstep
    obtain ⟨_, hmove⟩ := move_of_step hstep
    exact ⟨inv_move hinv hmove, budget_move hbudget hinv hb hr hmove⟩
  exact hinv.2.panic

def twoWrites : List (Bool × Act) :=
  [(true, .beginOp), (true, .turn), (false, .beginOp), (false, .turn), (true, .logWrite 70),
    (true, .record), (false, .logWrite 71), (true, .endOp), (false, .record), (false, .endOp),
    (false, .clear), (false, .endCommit)]

theorem two_operations_no_panic :
    ∃ g, run step (boot Bool nlog) twoWrites = some g ∧ g.panic = none := by
  obtain ⟨g, hrun, _⟩ := exists_of_run_map step (boot Bool nlog) twoWrites (fun _ => true)
    (by decide)
  have hbounded : meetsTest step boundedTest (boot Bool nlog) twoWrites = true := by decide
  have hreserved : meetsTest step (fun g l => decide (Reserved g l)) (boot Bool nlog) twoWrites =
      true := by decide
  exact ⟨g, hrun, no_panic_of_reserved hrun
    ((meets_of_meetsTest hbounded).mono fun _ _ => bounded_of_test)
    ((meets_of_meetsTest hreserved).mono fun _ _ => of_decide_eq_true)⟩

def writes (p : Fin 3) (b n : Nat) : List (Fin 3 × Act) :=
  (List.range' b n).flatMap fun b => [(p, .logWrite b), (p, .record)]

/-- Three operations at once, with ten blocks each. -/
def thirtyBlocks : List (Fin 3 × Act) :=
  [(0, .beginOp), (0, .turn), (1, .beginOp), (1, .turn), (2, .beginOp), (2, .turn)] ++
    writes 0 70 10 ++ writes 1 80 10 ++ writes 2 90 9 ++ [(2, .logWrite 99)]

/-- The thirtieth block of three operations is too much for the log. -/
theorem three_operations_panic :
    ∃ g, run step (boot (Fin 3) nlog) thirtyBlocks = some g ∧
      Meets step Bounded (boot (Fin 3) nlog) thirtyBlocks ∧ g.panic = some .tooBig := by
  obtain ⟨g, hrun, hpanic⟩ := exists_of_run_map step (boot (Fin 3) nlog) thirtyBlocks
    (fun g => g.panic = some .tooBig) (by decide +kernel)
  have hbounded : meetsTest step boundedTest (boot (Fin 3) nlog) thirtyBlocks = true := by
    decide +kernel
  exact ⟨g, hrun, (meets_of_meetsTest hbounded).mono fun _ _ => bounded_of_test,
    by simpa using hpanic⟩

end Reserve

end Group

end Xv6.Log
