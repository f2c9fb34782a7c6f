import Xv6.Log.Transaction

/-!
# Crash atomicity

A crash during `commit` leaves the disk with a first part of its writes.  The
writes before the header leave the disk settled on the old contents; from the
header on it is pending on the new ones, and the rest of `commit` writes just
what recovery would write.
-/

namespace Xv6.Log

open Lib Lib.Prog List

variable {P : Layout} {pre : Disk} {new : Addr → Option Block} {s : State} {L : LogState}
variable {vs : List (Addr × Block)}

/-- The content of a block in the buffer cache. -/
def cached (s : State) (k : Addr) : Option Block :=
  (s.order.find? fun i => (s.buf i).key = k ∧ (s.buf i).valid = true).map
    fun i => (s.buf i).data

/-- The disk after the first `n` writes of `commit`. -/
def crashed (s : State) (n : Nat) : Disk :=
  applyWrites s.disk ((commit.final s).trace.take n)

/-- The header is not among the first `n` writes of `commit`. -/
def BeforeHeader (s : State) (n : Nat) : Prop :=
  headBlock s.log.toLayout ∉ ((commit.final s).trace.take n).map Prod.fst

theorem Tx.cached_eq (h : Tx P pre new s) {k : Addr} {c : Block} (hc : new k = some c) :
    cached s k = some c := by
  obtain ⟨j, hjk, hd⟩ := h.dirty k (by rw [hc]; exact Option.some_ne_none c)
  have hv := h.inv.cache.dirty_valid j hd
  unfold cached
  cases hfind : s.order.find? fun i => (s.buf i).key = k ∧ (s.buf i).valid = true with
  | none =>
    have := List.find?_eq_none.mp hfind j (h.inv.cache.cover j)
    simp [hjk, hv] at this
  | some i =>
    have hi : (s.buf i).key = k ∧ (s.buf i).valid = true := by simpa using List.find?_some hfind
    rw [Option.map_some, h.inv.home i c (by rw [hi.1]; exact hc) hi.2]

def txContent (L : LogState) (new : Addr → Option Block) (tail : Nat) : Block :=
  (new (homeBlock L tail)).getD fun _ => 0

def target (pre : Disk) (new : Addr → Option Block) : Disk :=
  fun k => (new k).getD (pre k)

theorem Tx.new_homeBlock (h : Tx P pre new s) {tail : Nat} (htail : tail < s.log.lh.n.toNat) :
    new (homeBlock s.log tail) = some (txContent s.log new tail) := by
  have hne := (h.dom (homeBlock s.log tail)).mpr ⟨tail, htail, rfl⟩
  unfold txContent
  cases hc : new (homeBlock s.log tail) with
  | none => exact absurd hc hne
  | some c => rfl

theorem Tx.sep (h : Tx P pre new s) (k : Addr) (c : Block) (hc : new k = some c) :
    ¬Region s.log.toLayout k := by
  obtain ⟨tail, htail, rfl⟩ := (h.dom k).mp (by rw [hc]; exact Option.some_ne_none c)
  exact h.fits.away tail htail

theorem mem_logWrites {content : Nat → Block} {w : Addr × Block} (hw : w ∈ logWrites L content) :
    ∃ tail < L.lh.n.toNat, w = (logBlock L.toLayout tail, content tail) := by
  obtain ⟨tail, htail, rfl⟩ := mem_map.mp hw
  exact ⟨tail, mem_range.mp htail, rfl⟩

theorem Tx.log_prefix (h : Tx P pre new s) (hempty : headerCount (pre (headBlock P)) = 0)
    (hvs : vs <+: logWrites s.log (txContent s.log new)) :
    headBlock P ∉ vs.map Prod.fst ∧ Settled P pre (applyWrites pre vs) := by
  obtain rfl := h.place
  have hhead : ∀ w ∈ vs, w.1 ≠ headBlock s.log.toLayout := by
    intro w hw
    obtain ⟨tail, _, rfl⟩ := mem_logWrites (hvs.subset hw)
    exact logBlock_ne_headBlock
  refine ⟨?_, ?_, ?_⟩
  · intro hmem
    obtain ⟨w, hw, heq⟩ := mem_map.mp hmem
    exact hhead w hw heq
  · rw [applyWrites_of_forall_ne hhead]
    exact hempty
  · intro k hk
    refine applyWrites_of_forall_ne ?_
    intro w hw
    obtain ⟨tail, htail, rfl⟩ := mem_logWrites (hvs.subset hw)
    rintro rfl
    exact hk (h.fits.region_logBlock htail)

def committed (L : LogState) (pre : Disk) (content : Nat → Block) : Disk :=
  applyWrites pre (logWrites L content ++
    [(headBlock L.toLayout, encodeHeader L.lh (pre (headBlock L.toLayout)))])

theorem committed_head {content : Nat → Block} :
    committed L pre content (headBlock L.toLayout) =
      encodeHeader L.lh (pre (headBlock L.toLayout)) := by
  unfold committed
  rw [applyWrites_append, applyWrites_singleton, Function.update_self]

theorem committed_logBlock {content : Nat → Block} {tail : Nat} (htail : tail < L.lh.n.toNat) :
    committed L pre content (logBlock L.toLayout tail) = content tail := by
  unfold committed
  rw [applyWrites_append, applyWrites_singleton, Function.update_of_ne logBlock_ne_headBlock]
  refine applyWrites_eq_of_forall ?_ (.inl ?_)
  · intro w hw hwk
    obtain ⟨tail', _, rfl⟩ := mem_logWrites hw
    rw [logBlock_injective hwk]
  · exact ⟨(logBlock L.toLayout tail, content tail),
      mem_map.mpr ⟨tail, mem_range.mpr htail, rfl⟩, rfl⟩

section
variable (h : Tx P pre new s)
include h

theorem Tx.committed_count (content : Nat → Block) :
    headerCount (committed s.log pre content (headBlock s.log.toLayout)) = s.log.lh.n := by
  rw [committed_head]
  exact headerCount_encodeHeader h.fits.nonneg h.fits.max h.fits.word

theorem Tx.committed_entry (content : Nat → Block) {tail : Nat} (htail : tail < s.log.lh.n.toNat) :
    entryBlock s.log.toLayout (committed s.log pre content) tail = homeBlock s.log tail := by
  unfold entryBlock
  rw [committed_head, headerEntry_encodeHeader h.fits.max h.fits.word htail]
  rfl

theorem Tx.pending :
    Pending s.log.toLayout (target pre new)
      (committed s.log pre (txContent s.log new)) := by
  have hn := h.committed_count (txContent s.log new)
  have hcount : entryCount s.log.toLayout (committed s.log pre (txContent s.log new)) =
      s.log.lh.n.toNat := by
    unfold entryCount
    rw [hn]
  refine ⟨by rw [hn]; exact h.fits.nonneg, by rw [hn]; exact h.fits.max,
    by rw [hn]; exact h.fits.room, ?_, ?_, ?_⟩
  · intro tail htail
    rw [hcount] at htail
    rw [h.committed_entry _ htail]
    exact h.fits.away tail htail
  · intro tail htail
    rw [hcount] at htail
    rw [h.committed_entry _ htail, committed_logBlock htail]
    unfold target
    rw [h.new_homeBlock htail]
    rfl
  intro k hk hne
  have hnone : new k = none := by
    by_contra hsome
    obtain ⟨tail, htail, rfl⟩ := (h.dom k).mp hsome
    exact hne tail (by rw [hcount]; exact htail) (h.committed_entry _ htail).symm
  unfold target
  rw [hnone, Option.getD_none]
  unfold committed
  refine applyWrites_of_forall_ne ?_
  intro w hw
  rcases mem_append.mp hw with hw | hw
  · obtain ⟨tail, htail, rfl⟩ := mem_logWrites hw
    rintro rfl
    exact hk (h.fits.region_logBlock htail)
  · rw [mem_singleton.mp hw]
    rintro rfl
    exact hk h.fits.region_headBlock

theorem Tx.recoverWrites_committed :
    recoverWrites s.log (committed s.log pre (txContent s.log new)) =
      homeWrites s.log (txContent s.log new) ++ [(headBlock s.log.toLayout,
          writeWord (encodeHeader s.log.lh (pre (headBlock s.log.toLayout))) 0 0)] := by
  have hn := h.committed_count (txContent s.log new)
  unfold recoverWrites homeWrites
  rw [committed_head, loaded_n, hn]
  congr 1
  refine map_congr_left ?_
  intro tail htail
  have htail' := mem_range.mp htail
  have hentry : tail <
      entryCount s.log.toLayout (committed s.log pre (txContent s.log new)) := by
    unfold entryCount
    rw [hn]
    exact htail'
  rw [homeBlock_loaded hentry, h.committed_entry _ htail']
  exact congrArg (Prod.mk _) (committed_logBlock htail')

theorem Tx.commit_prefix (hempty : headerCount (pre (headBlock P)) = 0)
    (hvs : vs <+: commitWrites s.log (txContent s.log new) (pre (headBlock s.log.toLayout))) :
    headBlock P ∉ vs.map Prod.fst ∧ Settled P pre (applyWrites pre vs) ∨
      headBlock P ∈ vs.map Prod.fst ∧ (Settled P (target pre new) (applyWrites pre vs) ∨
          Pending P (target pre new) (applyWrites pre vs)) := by
  rw [commitWrites, singleton_append] at hvs
  rcases prefix_append_cases hvs with hlog | ⟨us, hus, rfl⟩
  · exact .inl (h.log_prefix hempty hlog)
  cases us with
  | nil =>
    left
    rw [append_nil]
    exact h.log_prefix hempty (prefix_refl _)
  | cons w us =>
    right
    obtain ⟨rfl, hrest⟩ := cons_prefix_cons.mp hus
    rw [← h.recoverWrites_committed] at hrest
    obtain rfl := h.place
    refine ⟨by simp, ?_⟩
    have hdisk : applyWrites pre (logWrites s.log (txContent s.log new) ++
        (headBlock s.log.toLayout, encodeHeader s.log.lh (pre (headBlock s.log.toLayout))) :: us) =
        applyWrites (committed s.log pre (txContent s.log new)) us := by
      unfold committed
      rw [← applyWrites_append, append_assoc, singleton_append]
    rw [hdisk]
    have hsize : 0 < s.log.size := by
      have h1 := h.fits.nonneg
      have h2 := h.fits.room
      omega
    exact h.pending.recover_prefix hsize hrest

theorem Tx.disk_eq : s.disk = pre := by
  rw [h.inv.disk, h.trace, applyWrites_nil]

theorem Tx.commit_trace :
    (commit.final s).trace = [] ∨ (commit.final s).trace <+:
        commitWrites s.log (txContent s.log new) (pre (headBlock s.log.toLayout)) := by
  by_cases hpos : 0 < s.log.lh.n
  · right
    have hlog : LogHolds s.log 0 (txContent s.log new) (pre (headBlock s.log.toLayout))
        s.disk := ⟨by rw [h.disk_eq], by simp⟩
    obtain ⟨vs, hvs, htrace⟩ := (emits_commit h.fits hpos h.sep
      fun tail htail => h.new_homeBlock htail).final ⟨h.inv, hlog⟩
    rw [htrace, h.trace, nil_append]
    exact hvs
  · left
    have hwp : wp commit (fun _ t => t.trace = s.trace) (fun _ t => t.trace = s.trace) s := by
      unfold commit
      rw [wp_bind, wp_get, if_neg hpos]
      rfl
    exact (final_of_wp hwp).trans h.trace

theorem Tx.crashed (hempty : headerCount (pre (headBlock P)) = 0) (n : Nat) :
    BeforeHeader s n ∧ Settled P pre (crashed s n) ∨ ¬BeforeHeader s n ∧
        (Settled P (target pre new) (crashed s n) ∨
          Pending P (target pre new) (crashed s n)) := by
  unfold BeforeHeader Log.crashed
  rw [h.place, h.disk_eq]
  rcases h.commit_trace with hnil | hvs
  · left
    rw [hnil, take_nil, applyWrites_nil]
    exact ⟨by simp, hempty, fun _ _ => rfl⟩
  · rcases h.commit_prefix hempty ((List.take_prefix n _).trans hvs) with hbefore | hafter
    · exact .inl hbefore
    · exact .inr ⟨not_not_intro hafter.1, hafter.2⟩

end

/--
Crash atomicity.  Before the header write recovery restores the old contents of
all blocks of the transaction; from then on it installs the contents that they
had in the cache when `commit` started.
-/
theorem commit_is_atomic {s₀ s₁ : State} {ops : List TxOp} {d : Disk} (hidle : Idle s₀)
    (hops : ∀ op ∈ ops, op.Ok s₀.log.toLayout) (hrun : run TxOp.step s₀ ops = some s₁) (n : Nat)
    (hrec : Recovered s₀.log.toLayout (crashed s₁ n) d) :
    headerCount (d (headBlock s₀.log.toLayout)) = 0 ∧
      (∀ k, ¬Region s₀.log.toLayout k → ¬Logged s₁.log k → d k = s₀.disk k) ∧
      (BeforeHeader s₁ n → ∀ k, Logged s₁.log k → d k = s₀.disk k) ∧
      (¬BeforeHeader s₁ n → ∀ k, Logged s₁.log k → cached s₁ k = some (d k)) ∧
      ((∃ k, Logged s₁.log k ∧ cached s₁ k ≠ some (s₀.disk k)) →
        ((∀ k, Logged s₁.log k → d k = s₀.disk k) ↔ BeforeHeader s₁ n)) := by
  obtain ⟨new, htx⟩ := hidle.tx.run hops hrun
  have haway : ∀ k, Logged s₁.log k → ¬Region s₀.log.toLayout k := by
    rintro k ⟨tail, htail, rfl⟩
    rw [← htx.place]
    exact htx.fits.away tail htail
  have hbefore : BeforeHeader s₁ n → Settled s₀.log.toLayout s₀.disk d := by
    intro hn
    rcases htx.crashed hidle.empty n with ⟨_, hset⟩ | ⟨hafter, _⟩
    · exact hrec.settled hidle.dev hidle.size (.inl hset)
    · exact absurd hn hafter
  have hafter : ¬BeforeHeader s₁ n →
      Settled s₀.log.toLayout (target s₀.disk new) d := by
    intro hn
    rcases htx.crashed hidle.empty n with ⟨hbefore, _⟩ | ⟨_, hdisk⟩
    · exact absurd hbefore hn
    · exact hrec.settled hidle.dev hidle.size hdisk
  have hold : BeforeHeader s₁ n → ∀ k, Logged s₁.log k → d k = s₀.disk k :=
    fun hn k hk => (hbefore hn).home k (haway k hk)
  have hnew : ¬BeforeHeader s₁ n → ∀ k, Logged s₁.log k → cached s₁ k = some (d k) := by
    intro hn k hk
    rw [(hafter hn).home k (haway k hk)]
    cases hc : new k with
    | none => exact absurd hc ((htx.dom k).mpr hk)
    | some c =>
      rw [htx.cached_eq hc, target, hc]
      rfl
  refine ⟨?_, ?_, hold, hnew, ?_⟩
  · by_cases hn : BeforeHeader s₁ n
    · exact (hbefore hn).empty
    · exact (hafter hn).empty
  · intro k hreg hk
    by_cases hn : BeforeHeader s₁ n
    · exact (hbefore hn).home k hreg
    · rw [(hafter hn).home k hreg, target]
      have hnone : new k = none := by
        by_contra hsome
        exact hk ((htx.dom k).mp hsome)
      rw [hnone]
      rfl
  rintro ⟨k, hk, hdiff⟩
  refine ⟨?_, hold⟩
  intro hall
  by_contra hn
  apply hdiff
  rw [← hall k hk]
  exact hnew hn k hk

/-- A log of three slots, on a disk of zeros. -/
private def smallLog : Layout :=
  { start := 2, size := 4, dev := 1 }

private def oneBlock : List TxOp :=
  [.beginOp, .bread 10, .modify 0 (fun _ => 7), .logWrite 0, .brelse 0]

/-- A crash right after the header write, and one in the middle of the recovery. -/
theorem one_block_is_committed :
    ∃ s₁ d, run TxOp.step (cold smallLog fun _ _ => 0) oneBlock = some s₁ ∧
      Recovered smallLog (crashed s₁ 2) d ∧
      headerCount (d (headBlock smallLog)) = 0 ∧
      cached s₁ (1, 10) = some (d (1, 10)) ∧ (d (1, 10)) 0 = 7 := by
  have hidle : Idle (cold smallLog fun _ _ => 0) :=
    idle_cold (by decide) (by decide) (by unfold headerCount; decide +kernel)
  have hops : ∀ op ∈ oneBlock, op.Ok smallLog := by
    intro op hop
    simp only [oneBlock, mem_cons, not_mem_nil, or_false] at hop
    rcases hop with rfl | rfl | rfl | rfl | rfl
    · trivial
    · exact ⟨rfl, by decide, by simp [Region, smallLog]⟩
    · trivial
    · trivial
    · trivial
  obtain ⟨s₁, hrun, htest⟩ := exists_of_run_map TxOp.step (cold smallLog fun _ _ => 0) oneBlock
    (fun s => decide (headBlock s.log.toLayout ∈ ((commit.final s).trace.take 2).map Prod.fst) &&
      decide (0 < s.log.lh.n.toNat ∧ homeBlock s.log 0 = (1, 10)) &&
      decide ((cached s (1, 10)).map (fun b => b 0) = some 7)) (by decide +kernel)
  simp only [Bool.and_eq_true, decide_eq_true_eq] at htest
  obtain ⟨⟨hhead, hcount, hhome⟩, hcached⟩ := htest
  have hlogged : Logged s₁.log (1, 10) := ⟨0, hcount, hhome.symm⟩
  obtain ⟨new, htx⟩ := hidle.tx.run hops hrun
  have hdisk : ∃ f, Settled smallLog f (crashed s₁ 2) ∨ Pending smallLog f (crashed s₁ 2) := by
    rcases htx.crashed hidle.empty 2 with ⟨_, hset⟩ | ⟨_, hset⟩
    · exact ⟨_, .inl hset⟩
    · exact ⟨_, hset⟩
  obtain ⟨f, hdisk⟩ := hdisk
  -- the first boot crashes before its first write, the second one recovers
  obtain ⟨t, hrec, _⟩ := (booted_cold smallLog _).completes (by decide) (by decide) hdisk
  have hrecovered : Recovered smallLog (crashed s₁ 2) t.disk := by
    refine .crash 0 (booted_cold smallLog _) ?_
    rw [take_zero, applyWrites_nil]
    exact .complete (booted_cold smallLog _) hrec
  have hatomic := commit_is_atomic hidle hops hrun 2 hrecovered
  have hnew := hatomic.2.2.2.1 (not_not_intro hhead) (1, 10) hlogged
  refine ⟨s₁, t.disk, hrun, hrecovered, hatomic.1, hnew, ?_⟩
  rw [hnew] at hcached
  exact Option.some.inj hcached

end Xv6.Log
