import Xv6.Lib.Transition
import Xv6.Log.Recovery

/-!
# Transactions

A transaction starts in a state with an empty log and is any sequence of the
operations that the file system applies to the block layer.  The invariant says
what `commit` finds: every logged block is dirty in the cache, nothing else is,
and the disk is as it was.
-/

namespace Xv6.Log

open Lib Lib.Prog Function

variable {P : Layout} {pre : Disk} {new : Addr → Option Block} {s t : State} {i : Fin NBUF}

/-- What file system calls do to the block layer, in any interleaving. -/
inductive TxOp where
  | beginOp
  /-- an `end_op` after which other calls are still active -/
  | endOp
  | bread (blockno : Nat)
  /-- new contents for `b->data`, by the holder of the buffer -/
  | modify (i : Fin NBUF) (data : Block)
  | logWrite (i : Fin NBUF)
  | brelse (i : Fin NBUF)

def finished {α : Type} (r : Except Stop α × State) : Option State :=
  match r with
  | (.ok _, t) => some t
  | (.error _, _) => none

def TxOp.step (s : State) : TxOp → Option State
  | .beginOp => finished (Log.beginOp s)
  | .endOp => if 1 < s.log.outstanding then finished (Log.endOp s) else none
  | .bread blockno => finished (Log.bread s.log.dev blockno s)
  | .modify i data =>
    if (s.buf i).locked = true then finished (setData i data s) else none
  | .logWrite i => if (s.buf i).locked = true then finished (Log.logWrite i s) else none
  | .brelse i => finished (Log.brelse i s)

def Home (P : Layout) (k : Addr) : Prop :=
  k.1 = P.dev ∧ k.2 < 2 ^ 32 ∧ ¬Region P k

/-- File system calls do not read the blocks of the log. -/
def TxOp.Ok (P : Layout) : TxOp → Prop
  | .bread blockno => Home P (P.dev, blockno)
  | _ => True

/-- Between transactions: the log is empty in memory and on disk, and nothing is dirty. -/
structure Idle (s : State) : Prop where
  trace : s.trace = []
  cache : CacheInv s
  dev : s.log.dev ≠ 0
  size : 0 < s.log.size
  count : s.log.lh.n = 0
  empty : headerCount (s.disk (headBlock s.log.toLayout)) = 0
  clean : ∀ i, (s.buf i).dirty = false
  region : ∀ i, Region s.log.toLayout (s.buf i).key → (s.buf i).valid = true →
    (s.buf i).data = s.disk (s.buf i).key
  held : ∀ i, (s.buf i).locked = true → Home s.log.toLayout (s.buf i).key ∧ (s.buf i).valid = true

theorem idle_cold {P : Layout} {d : Disk} (hdev : P.dev ≠ 0) (hsize : 0 < P.size)
    (hempty : headerCount (d (headBlock P)) = 0) :
    Idle (cold P d) where
  trace := rfl
  cache := (booted_cold P d).cache
  dev := hdev
  size := hsize
  count := rfl
  empty := hempty
  clean := fun _ => rfl
  region := by
    intro i _ hv
    cases hv
  held := by
    intro i hlock
    cases hlock

/-- The blocks of the transaction. -/
def Logged (L : LogState) (k : Addr) : Prop :=
  ∃ tail < L.lh.n.toNat, k = homeBlock L tail

/-- The invariant of a transaction that started with layout `P` on disk `pre`. -/
structure Tx (P : Layout) (pre : Disk) (new : Addr → Option Block) (s : State) : Prop where
  inv : Inv s.log pre new s
  place : s.log.toLayout = P
  fits : Fits s.log
  trace : s.trace = []
  dom : ∀ k, new k ≠ none ↔ Logged s.log k
  dirty : ∀ k, new k ≠ none → ∃ i, (s.buf i).key = k ∧ (s.buf i).dirty = true
  held : ∀ i, (s.buf i).locked = true → Home P (s.buf i).key ∧ (s.buf i).valid = true

theorem Idle.tx (h : Idle s) : Tx s.log.toLayout s.disk (fun _ => none) s := by
  have hnone : ∀ k, ¬Logged s.log k := by
    rintro k ⟨tail, htail, _⟩
    rw [h.count] at htail
    omega
  refine ⟨⟨h.cache, rfl, ?_, ?_, ?_, ?_, ?_⟩, rfl, ?_, h.trace, ?_, ?_, h.held⟩
  · rw [h.trace, applyWrites_nil]
  · intro i hreg hv
    exact ⟨h.clean i, h.region i hreg hv⟩
  · intro i c hc
    cases hc
  · intro k c hc
    cases hc
  · intro i hd
    rw [h.clean i] at hd
    cases hd
  · have hsize := h.size
    refine ⟨h.dev, h.count.ge, ?_, ?_, ?_, ?_⟩
    · rw [h.count]
      decide
    · rw [h.count]
      exact_mod_cast hsize
    · intro tail htail
      rw [h.count] at htail
      omega
    · intro tail htail
      rw [h.count] at htail
      omega
  · intro k
    simp [hnone k]
  · intro k hk
    exact absurd rfl hk

theorem finished_eq_some {α : Type} {m : M α} {Q : α → State → Prop} {E : Stop → State → Prop}
    (hwp : wp m Q E s) (h : finished (m s) = some t) : ∃ a, Q a t := by
  unfold wp at hwp
  unfold finished at h
  cases hm : m s with
  | mk r u =>
    rw [hm] at hwp h
    cases r with
    | ok a =>
      cases h
      exact ⟨a, hwp⟩
    | error e => cases h

section
variable (h : Tx P pre new s)
include h

theorem Tx.setOutstanding (f : Int → Int) :
    Tx P pre new (setOutstanding f s) where
  inv :=
    { cache := ⟨h.inv.cache.cover, h.inv.cache.inj, h.inv.cache.dirty_valid⟩
      log := rfl
      disk := h.inv.disk
      region := h.inv.region
      home := h.inv.home
      pinned := h.inv.pinned
      logged := h.inv.logged }
  place := h.place
  fits := ⟨h.fits.dev, h.fits.nonneg, h.fits.max, h.fits.room, h.fits.word, h.fits.away⟩
  trace := h.trace
  dom := h.dom
  dirty := h.dirty
  held := h.held

theorem Tx.beginOp (hstep : finished (beginOp s) = some t) : Tx P pre new t := by
  have hwp : wp Log.beginOp (fun _ u => u = Log.setOutstanding (· + 1) s)
      (fun _ _ => True) s := by
    unfold Log.beginOp
    simp only [wp_bind, wp_get, wp_ite, wp_throw, wp_modify]
    split <;> trivial
  obtain ⟨_, rfl⟩ := finished_eq_some hwp hstep
  exact h.setOutstanding _

theorem Tx.endOp (hactive : 1 < s.log.outstanding)
    (hstep : finished (endOp s) = some t) : Tx P pre new t := by
  have hwp : wp Log.endOp (fun _ u => u = Log.setOutstanding (· - 1) s)
      (fun _ _ => True) s := by
    unfold Log.endOp
    simp only [wp_bind, wp_get, wp_ite, wp_modify]
    rw [if_neg (by simp only [Log.setOutstanding]; omega)]
    rfl
  obtain ⟨_, rfl⟩ := finished_eq_some hwp hstep
  exact h.setOutstanding _

theorem Tx.bread {blockno : Nat} (hhome : Home P (P.dev, blockno))
    (hstep : finished (bread s.log.dev blockno s) = some t) : Tx P pre new t := by
  obtain ⟨i, hf⟩ := finished_eq_some (bread_spec h.inv.cache s.log.dev blockno) hstep
  have hlog : t.log = s.log := hf.frame.log
  have hinv := h.inv.fetched (k := (s.log.dev, blockno)) h.fits.dev hf
  refine ⟨by rw [hlog]; exact hinv, by rw [hlog]; exact h.place, by rw [hlog]; exact h.fits,
    hf.frame.trace.trans h.trace, by rw [hlog]; exact h.dom, ?_, ?_⟩
  · intro k hk
    obtain ⟨j, hjk, hd⟩ := h.dirty k hk
    have hstay := hf.dirty_stays h.inv.cache hd
    exact ⟨j, hstay.1.trans hjk, hstay.2⟩
  intro j hlock
  by_cases hj : j = i
  · subst hj
    rw [hf.key, h.place]
    exact ⟨hhome, hf.valid⟩
  · rw [hf.frame.buf j hj] at hlock ⊢
    exact h.held j hlock

theorem Tx.brelse (hstep : finished (brelse i s) = some t) : Tx P pre new t := by
  have hwp : wp (Log.brelse i) (fun _ u => u = released i s) (fun _ _ => True) s := by
    unfold Log.brelse
    simp only [wp_bind, wp_get, wp_ite, wp_throw, wp_modify]
    split <;> trivial
  obtain ⟨_, rfl⟩ := finished_eq_some hwp hstep
  refine ⟨by rw [released_log]; exact h.inv.released i, by rw [released_log]; exact h.place,
    by rw [released_log]; exact h.fits, by rw [released_trace]; exact h.trace,
    by rw [released_log]; exact h.dom, ?_, ?_⟩
  · intro k hk
    obtain ⟨j, hjk, hd⟩ := h.dirty k hk
    obtain ⟨hkey, _, hdirty, _⟩ := released_buf i s j
    exact ⟨j, hkey.trans hjk, hdirty.trans hd⟩
  intro j hlock
  obtain ⟨hkey, hvalid, _, _⟩ := released_buf i s j
  rw [hkey, hvalid]
  by_cases hj : j = i
  · subst hj
    simp at hlock
  · rw [released_buf_of_ne hj] at hlock
    exact h.held j hlock

section
variable (hlock : (s.buf i).locked = true)
include hlock

theorem Tx.put (data : Block) (dirty : Bool) (lh : LogHeader) (v : Option Block)
    (hfits : Fits { s.log with lh := lh }) (hdata : ∀ c, v = some c → data = c)
    (hdirty : v ≠ none ↔ dirty = true)
    (hdom : ∀ k, update new (s.buf i).key v k ≠ none ↔ Logged { s.log with lh := lh } k) :
    Tx P pre (update new (s.buf i).key v)
      (setBuf i { s.buf i with data := data, dirty := dirty } (setLh lh s)) := by
  obtain ⟨⟨hdev, _, haway⟩, hvalid⟩ := h.held i hlock
  have hne : (s.buf i).dev ≠ 0 := by
    have hPdev := h.fits.dev
    rw [h.place, ← hdev] at hPdev
    exact hPdev
  have hother : ∀ j, j ≠ i → (s.buf j).key ≠ (s.buf i).key := by
    intro j hj hjk
    exact hj (h.inv.cache.inj i j hne hjk.symm).symm
  have hself : (setBuf i { s.buf i with data := data, dirty := dirty } (setLh lh s)).buf i =
      { s.buf i with data := data, dirty := dirty } := setBuf_buf_self _
  have hrest : ∀ j, j ≠ i →
      (setBuf i { s.buf i with data := data, dirty := dirty } (setLh lh s)).buf j = s.buf j :=
    fun j hj => setBuf_buf_of_ne _ hj
  have hkey : ∀ j,
      ((setBuf i { s.buf i with data := data, dirty := dirty } (setLh lh s)).buf j).key =
        (s.buf j).key := by
    intro j
    by_cases hj : j = i
    · rw [hj, hself]
      rfl
    · rw [hrest j hj]
  have hpin : ∀ k, update new (s.buf i).key v k ≠ none →
      ∃ j, ((setBuf i { s.buf i with data := data, dirty := dirty } (setLh lh s)).buf j).key = k ∧
        ((setBuf i { s.buf i with data := data, dirty := dirty } (setLh lh s)).buf j).dirty =
          true := by
    intro k hk
    by_cases hki : k = (s.buf i).key
    · subst hki
      rw [update_self] at hk
      exact ⟨i, hkey i, by rw [hself]; exact hdirty.mp hk⟩
    · rw [update_of_ne hki] at hk
      obtain ⟨j, hjk, hd⟩ := h.dirty k hk
      have hj : j ≠ i := by
        rintro rfl
        exact hki hjk.symm
      exact ⟨j, (hkey j).trans hjk, by rw [hrest j hj]; exact hd⟩
  refine ⟨⟨⟨h.inv.cache.cover, ?_, ?_⟩, rfl, h.inv.disk, ?_, ?_, ?_, ?_⟩, h.place, hfits,
    h.trace, hdom, hpin, ?_⟩
  · intro j l hjdev hjl
    rw [hkey, hkey] at hjl
    refine h.inv.cache.inj j l ?_ hjl
    have := congrArg Prod.fst (hkey j)
    simp only [Buf.key] at this
    rwa [this] at hjdev
  · intro j hd
    by_cases hj : j = i
    · rw [hj, hself]
      exact hvalid
    · rw [hrest j hj] at hd ⊢
      exact h.inv.cache.dirty_valid j hd
  · intro j hreg hv
    by_cases hj : j = i
    · rw [hkey, hj] at hreg
      rw [← h.place] at haway
      exact absurd hreg haway
    · rw [hrest j hj] at hreg hv ⊢
      exact h.inv.region j hreg hv
  · intro j c hc hv
    rw [hkey] at hc
    by_cases hj : j = i
    · rw [hj, update_self] at hc
      rw [hj, hself]
      exact hdata c hc
    · rw [update_of_ne (hother j hj)] at hc
      rw [hrest j hj] at hv ⊢
      exact h.inv.home j c hc hv
  · intro k c hc
    exact .inl (hpin k (by rw [hc]; exact Option.some_ne_none c))
  · intro j hd
    rw [hkey]
    by_cases hj : j = i
    · rw [hj, hself] at hd
      rw [hj, update_self]
      exact hdirty.mpr hd
    · rw [hrest j hj] at hd
      rw [update_of_ne (hother j hj)]
      exact h.inv.logged j hd
  intro j hl
  rw [hkey]
  by_cases hj : j = i
  · rw [hj, hself]
    exact h.held i hlock
  · rw [hrest j hj] at hl ⊢
    exact h.held j hl

theorem Tx.dirty_iff : new (s.buf i).key ≠ none ↔ (s.buf i).dirty = true := by
  refine ⟨?_, h.inv.logged i⟩
  intro hk
  obtain ⟨j, hjk, hd⟩ := h.dirty _ hk
  obtain ⟨⟨hdev, _, _⟩, _⟩ := h.held i hlock
  have hne : (s.buf i).dev ≠ 0 := by
    have hPdev := h.fits.dev
    rw [h.place, ← hdev] at hPdev
    exact hPdev
  rw [h.inv.cache.inj i j hne hjk.symm]
  exact hd

theorem Tx.modify {data : Block}
    (hstep : finished (setData i data s) = some t) : ∃ new', Tx P pre new' t := by
  have hiff := h.dirty_iff hlock
  cases hstep
  refine ⟨_, h.put hlock data (s.buf i).dirty s.log.lh
    ((new (s.buf i).key).map fun _ => data) h.fits ?_ ?_ ?_⟩
  · intro c hc
    cases hn : new (s.buf i).key with
    | none =>
      rw [hn] at hc
      cases hc
    | some c' =>
      rw [hn] at hc
      cases hc
      rfl
  · rw [← hiff]
    simp
  intro k
  have hk : update new (s.buf i).key
      ((new (s.buf i).key).map fun _ => data) k ≠ none ↔ new k ≠ none := by
    by_cases hki : k = (s.buf i).key
    · subst hki
      simp
    · rw [update_of_ne hki]
  rw [hk]
  exact h.dom k

end

end

theorem Fits.record {L : LogState} {blockno : Nat} (h : Fits L)
    (hsmall : L.lh.n < LOGSIZE ∧ L.lh.n < (L.size : Int) - 1)
    (hhome : Home L.toLayout (L.dev, blockno)) : Fits { L with lh := L.lh.record blockno } ∧
      ∀ k, Logged { L with lh := L.lh.record blockno } k ↔
        Logged L k ∨ k = (L.dev, blockno) := by
  have hn := h.nonneg
  by_cases hlogged : ∃ tail < L.lh.n.toNat, L.lh.block tail = blockno
  · rw [record_of_logged hlogged]
    refine ⟨h, ?_⟩
    intro k
    refine ⟨Or.inl, ?_⟩
    rintro (hk | rfl)
    · exact hk
    · obtain ⟨tail, htail, hblock⟩ := hlogged
      exact ⟨tail, htail, by rw [homeBlock, hblock]⟩
  rw [record_of_not_logged hlogged]
  have hcount : (L.lh.n + 1).toNat = L.lh.n.toNat + 1 := by omega
  -- an entry of the longer header is an old one or the new one
  have hentry : ∀ tail < L.lh.n.toNat + 1, update L.lh.block L.lh.n.toNat blockno tail =
        if tail = L.lh.n.toNat then blockno else L.lh.block tail := by
    intro tail _
    exact update_apply _ _ _ _
  refine ⟨⟨h.dev, by simp only; omega, by simp only; omega, by simp only; omega, ?_, ?_⟩, ?_⟩
  · intro tail htail
    simp only [hcount] at htail ⊢
    rw [hentry tail htail]
    split
    · exact hhome.2.1
    · exact h.word tail (by omega)
  · intro tail htail
    simp only [hcount, homeBlock] at htail ⊢
    rw [hentry tail htail]
    split
    · exact hhome.2.2
    · exact h.away tail (by omega)
  intro k
  simp only [Logged, hcount, homeBlock]
  constructor
  · rintro ⟨tail, htail, rfl⟩
    rw [hentry tail htail]
    split
    · exact .inr rfl
    · exact .inl ⟨tail, by omega, rfl⟩
  · rintro (⟨tail, htail, rfl⟩ | rfl)
    · refine ⟨tail, by omega, ?_⟩
      rw [hentry tail (by omega), if_neg (by omega)]
    · refine ⟨L.lh.n.toNat, by omega, ?_⟩
      rw [hentry _ (by omega), if_pos rfl]

theorem Tx.logWrite (h : Tx P pre new s) (hlock : (s.buf i).locked = true)
    (hstep : finished (logWrite i s) = some t) : ∃ new', Tx P pre new' t := by
  obtain ⟨hhome, _⟩ := h.held i hlock
  have hkey : (s.buf i).key = (s.log.dev, (s.buf i).blockno) := by
    rw [h.place]
    exact Prod.ext hhome.1 rfl
  have hwp : wp (Log.logWrite i)
      (fun _ u => (s.log.lh.n < LOGSIZE ∧ s.log.lh.n < (s.log.size : Int) - 1) ∧
        u = setBuf i { s.buf i with dirty := true }
          (setLh (s.log.lh.record (s.buf i).blockno) s))
      (fun _ _ => True) s := by
    unfold Log.logWrite
    simp only [wp_bind, wp_get, wp_ite, wp_throw, wp_modify]
    split
    · trivial
    · rename_i hbig
      split
      · trivial
      · exact ⟨by omega, rfl⟩
  obtain ⟨_, hsmall, rfl⟩ := finished_eq_some hwp hstep
  obtain ⟨hfits, hlogged⟩ := h.fits.record hsmall (by rw [← hkey, h.place]; exact hhome)
  refine ⟨_, h.put hlock (s.buf i).data true _ (some (s.buf i).data) hfits ?_ ?_ ?_⟩
  · intro c hc
    exact Option.some.inj hc
  · simp
  intro k
  rw [hlogged, ← hkey, ← h.dom k]
  by_cases hk : k = (s.buf i).key
  · subst hk
    simp
  · rw [update_of_ne hk]
    simp [hk]

theorem Tx.step (h : Tx P pre new s) {op : TxOp} (hok : op.Ok P) (hstep : op.step s = some t) :
    ∃ new', Tx P pre new' t := by
  cases op with
  | beginOp => exact ⟨new, h.beginOp hstep⟩
  | endOp =>
    simp only [TxOp.step, Option.ite_none_right_eq_some] at hstep
    exact ⟨new, h.endOp hstep.1 hstep.2⟩
  | bread blockno => exact ⟨new, h.bread hok hstep⟩
  | modify i data =>
    simp only [TxOp.step, Option.ite_none_right_eq_some] at hstep
    exact h.modify hstep.1 hstep.2
  | logWrite i =>
    simp only [TxOp.step, Option.ite_none_right_eq_some] at hstep
    exact h.logWrite hstep.1 hstep.2
  | brelse i => exact ⟨new, h.brelse hstep⟩

theorem Tx.run {ops : List TxOp} (h : Tx P pre new s) (hops : ∀ op ∈ ops, op.Ok P)
    (hrun : Lib.run TxOp.step s ops = some t) : ∃ new', Tx P pre new' t := by
  induction ops generalizing s new with
  | nil =>
    cases hrun
    exact ⟨new, h⟩
  | cons op ops ih =>
    obtain ⟨u, hsu, hut⟩ := run_cons_eq_some.mp hrun
    obtain ⟨new', hu⟩ := h.step (hops op List.mem_cons_self) hsu
    exact ih hu (fun o ho => hops o (List.mem_cons_of_mem op ho)) hut

end Xv6.Log
