import Xv6.Log.Writes

/-!
# Recovery

After a crash the machine boots with a clean cache and runs `recover_from_log`,
which may itself be cut short by a crash, any number of times.
-/

namespace Xv6.Log

open Lib Lib.Prog

variable {L : LogState} {f d : Disk} {P : Layout} {s : State} {vs : List (Addr × Block)}

def entryBlock (P : Layout) (d : Disk) (tail : Nat) : Addr :=
  (P.dev, headerEntry (d (headBlock P)) tail)

def entryCount (P : Layout) (d : Disk) : Nat :=
  (headerCount (d (headBlock P))).toNat

structure Settled (P : Layout) (f d : Disk) : Prop where
  empty : headerCount (d (headBlock P)) = 0
  home : ∀ k, ¬Region P k → d k = f k

structure Pending (P : Layout) (f d : Disk) : Prop where
  nonneg : 0 ≤ headerCount (d (headBlock P))
  max : headerCount (d (headBlock P)) ≤ LOGSIZE
  room : headerCount (d (headBlock P)) < P.size
  away : ∀ tail < entryCount P d, ¬Region P (entryBlock P d tail)
  content : ∀ tail < entryCount P d, d (logBlock P tail) = f (entryBlock P d tail)
  home : ∀ k, ¬Region P k → (∀ tail < entryCount P d, k ≠ entryBlock P d tail) → d k = f k

theorem homeBlock_loaded {tail : Nat} (htail : tail < entryCount L.toLayout d) :
    homeBlock (loaded L d) tail = entryBlock L.toLayout d tail := by
  unfold homeBlock
  rw [loaded_toLayout]
  unfold loaded decodeHeader entryBlock entryCount at *
  simp only [Prod.mk.injEq, true_and]
  exact if_pos (by omega)

theorem Pending.fits (h : Pending L.toLayout f d) (hdev : L.dev ≠ 0) : Fits (loaded L d) := by
  have hcount : (loaded L d).lh.n.toNat = entryCount L.toLayout d := by
    rw [loaded_n]
    rfl
  refine ⟨by rw [loaded_toLayout]; exact hdev, by rw [loaded_n]; exact h.nonneg,
    by rw [loaded_n]; exact h.max, by rw [loaded_n, loaded_toLayout]; exact h.room, ?_, ?_⟩
  · intro tail htail
    rw [hcount] at htail
    have hentry := congrArg Prod.snd (homeBlock_loaded htail)
    simp only [homeBlock, entryBlock] at hentry
    rw [hentry]
    exact readWord_lt _
  · intro tail htail
    rw [hcount] at htail
    rw [loaded_toLayout, homeBlock_loaded htail]
    exact h.away tail htail

theorem mem_homeWrites_loaded {content : Nat → Block} {w : Addr × Block}
    (hw : w ∈ homeWrites (loaded L d) content) :
    ∃ tail < entryCount L.toLayout d, w = (entryBlock L.toLayout d tail, content tail) := by
  unfold homeWrites at hw
  obtain ⟨tail, htail, rfl⟩ := List.mem_map.mp hw
  rw [List.mem_range, loaded_n] at htail
  exact ⟨tail, htail, by rw [homeBlock_loaded htail]⟩

theorem region_headBlock (hsize : 0 < P.size) : Region P (headBlock P) := by
  refine ⟨rfl, le_rfl, ?_⟩
  simp only [headBlock]
  omega

theorem Settled.clear (hsize : 0 < P.size) (hhome : ∀ k, ¬Region P k → d k = f k)
    (b : Block) : Settled P f (Function.update d (headBlock P) (writeWord b 0 0)) := by
  refine ⟨by rw [Function.update_self, headerCount_cleared], ?_⟩
  intro k hk
  rw [Function.update_of_ne]
  · exact hhome k hk
  · rintro rfl
    exact hk (region_headBlock hsize)

theorem Settled.recover_prefix (h : Settled L.toLayout f d) (hsize : 0 < L.size)
    (hvs : vs <+: recoverWrites L d) : Settled L.toLayout f (applyWrites d vs) := by
  have hnone : homeWrites (loaded L d) (fun tail => d (logBlock L.toLayout tail)) = [] := by
    unfold homeWrites
    rw [loaded_n, h.empty]
    rfl
  unfold recoverWrites at hvs
  rw [hnone] at hvs
  rcases List.prefix_concat_iff.mp hvs with rfl | hnil
  · rw [List.nil_append, applyWrites_singleton]
    exact Settled.clear hsize h.home _
  · rw [List.prefix_nil.mp hnil]
    exact h

section
variable (h : Pending L.toLayout f d)
include h

theorem Pending.install_prefix (hsize : 0 < L.size) {content : Nat → Block}
    (hvs : vs <+: homeWrites (loaded L d) content) : Pending L.toLayout f (applyWrites d vs) := by
  have hmem : ∀ w ∈ vs, ∃ tail < entryCount L.toLayout d,
      w = (entryBlock L.toLayout d tail, content tail) :=
    fun w hw => mem_homeWrites_loaded (hvs.subset hw)
  have hregion : ∀ k, Region L.toLayout k → applyWrites d vs k = d k := by
    intro k hk
    refine applyWrites_of_forall_ne ?_
    intro w hw
    obtain ⟨tail, htail, rfl⟩ := hmem w hw
    rintro rfl
    exact h.away tail htail hk
  have hhead := hregion _ (region_headBlock hsize)
  have hcount : entryCount L.toLayout (applyWrites d vs) = entryCount L.toLayout d := by
    unfold entryCount
    rw [hhead]
  have hentry : ∀ tail, entryBlock L.toLayout (applyWrites d vs) tail =
      entryBlock L.toLayout d tail := by
    intro tail
    unfold entryBlock
    rw [hhead]
  refine ⟨by rw [hhead]; exact h.nonneg, by rw [hhead]; exact h.max,
    by rw [hhead]; exact h.room, ?_, ?_, ?_⟩
  · intro tail htail
    rw [hentry]
    rw [hcount] at htail
    exact h.away tail htail
  · intro tail htail
    rw [hcount] at htail
    have hroom := h.room
    have hreg : Region L.toLayout (logBlock L.toLayout tail) := by
      unfold entryCount at htail
      refine ⟨rfl, ?_, ?_⟩
      · simp only [logBlock]
        omega
      · simp only [logBlock]
        omega
    rw [hentry, hregion _ hreg]
    exact h.content tail htail
  intro k hk hne
  rw [applyWrites_of_forall_ne]
  · refine h.home k hk ?_
    intro tail htail
    rw [← hentry]
    exact hne tail (by rw [hcount]; exact htail)
  · intro w hw
    obtain ⟨tail, htail, rfl⟩ := hmem w hw
    have := hne tail (by rw [hcount]; exact htail)
    rw [hentry] at this
    exact this.symm

theorem Pending.install_home {k : Addr} (hk : ¬Region L.toLayout k) :
    applyWrites d (homeWrites (loaded L d) fun tail => d (logBlock L.toLayout tail)) k =
      f k := by
  refine applyWrites_eq_of_forall ?_ ?_
  · intro w hw hwk
    obtain ⟨tail, htail, rfl⟩ := mem_homeWrites_loaded hw
    simp only at hwk ⊢
    rw [h.content tail htail, hwk]
  by_cases hex : ∃ tail < entryCount L.toLayout d, k = entryBlock L.toLayout d tail
  · left
    obtain ⟨tail, htail, rfl⟩ := hex
    refine ⟨(homeBlock (loaded L d) tail, d (logBlock L.toLayout tail)), ?_, ?_⟩
    · unfold homeWrites
      refine List.mem_map.mpr ⟨tail, ?_, rfl⟩
      rw [List.mem_range, loaded_n]
      exact htail
    · exact homeBlock_loaded htail
  · right
    refine h.home k hk ?_
    intro tail htail heq
    exact hex ⟨tail, htail, heq⟩

theorem Pending.recover_all (hsize : 0 < L.size) :
    Settled L.toLayout f (applyWrites d (recoverWrites L d)) := by
  rw [recoverWrites, applyWrites_append, applyWrites_singleton]
  refine Settled.clear hsize ?_ _
  intro k hk
  exact h.install_home hk

theorem Pending.recover_prefix (hsize : 0 < L.size) (hvs : vs <+: recoverWrites L d) :
    Settled L.toLayout f (applyWrites d vs) ∨ Pending L.toLayout f (applyWrites d vs) := by
  have hall := h.recover_all hsize
  unfold recoverWrites at hvs hall
  rcases List.prefix_concat_iff.mp hvs with rfl | hinstall
  · exact .inl hall
  · exact .inr (h.install_prefix hsize hinstall)

end

/-- The state in which `recover_from_log` starts: a cache with nothing but clean copies. -/
structure Booted (P : Layout) (d : Disk) (s : State) : Prop where
  place : s.log.toLayout = P
  disk : s.disk = d
  trace : s.trace = []
  cache : CacheInv s
  calm : Calm s
  coherent : ∀ i, (s.buf i).valid = true → (s.buf i).data = s.disk (s.buf i).key

/-- The disks that recovery can end with, over any number of crashes. -/
inductive Recovered (P : Layout) : Disk → Disk → Prop
  | complete {d : Disk} {s t : State}
      (hboot : Booted P d s)
      (hrun : recoverFromLog s = (.ok (), t)) :
      Recovered P d t.disk
  | crash {d d' : Disk} {s : State} (n : Nat)
      (hboot : Booted P d s)
      (hrest : Recovered P (applyWrites d ((recoverFromLog.final s).trace.take n)) d') :
      Recovered P d d'

theorem Booted.inv (h : Booted P d s) : Inv s.log d (fun _ => none) s := by
  refine ⟨h.cache, rfl, ?_, ?_, ?_, ?_, ?_⟩
  · rw [h.disk, h.trace, applyWrites_nil]
  · intro i _ hv
    exact ⟨(h.calm i).2.2, h.coherent i hv⟩
  · intro i c hc
    cases hc
  · intro k c hc
    cases hc
  · intro i hd
    rw [(h.calm i).2.2] at hd
    cases hd

section
variable (h : Booted P d s) (hdev : P.dev ≠ 0) (hsize : 0 < P.size)
include h hdev hsize

section
variable (hd : Settled P f d ∨ Pending P f d)
include hd

theorem Booted.emits :
    Emits State.trace Calm
      (fun t => Inv s.log d (fun _ => none) t ∧ t.disk = d)
      recoverFromLog (recoverWrites s.log d)
      (fun _ t => Inv (emptied (loaded s.log d)) d (fun _ => none) t ∧
        t.disk (headBlock s.log.toLayout) =
          writeWord (d (headBlock s.log.toLayout)) 0 0) := by
  obtain rfl := h.place
  refine emits_recoverFromLog hdev hsize ?_
  rcases hd with hd | hd
  · exact .inl hd.empty.le
  · exact .inr (hd.fits hdev)

theorem Booted.after_crash (n : Nat) :
    Settled P f (applyWrites d ((recoverFromLog.final s).trace.take n)) ∨
      Pending P f (applyWrites d ((recoverFromLog.final s).trace.take n)) := by
  obtain ⟨vs, hvs, htrace⟩ := (h.emits hdev hsize hd).final ⟨h.inv, h.disk⟩
  rw [h.trace, List.nil_append] at htrace
  rw [htrace]
  have htake : vs.take n <+: recoverWrites s.log d := (List.take_prefix n vs).trans hvs
  obtain rfl := h.place
  rcases hd with hd | hd
  · exact .inl (hd.recover_prefix hsize htake)
  · exact hd.recover_prefix hsize htake

theorem Booted.completes :
    ∃ t, recoverFromLog s = (.ok (), t) ∧ Settled P f t.disk ∧ Calm t ∧
      Inv (emptied (loaded s.log d)) d (fun _ => none) t := by
  obtain ⟨_, t, hrun, htrace, ⟨hinv, hhead⟩, hcalm⟩ :=
    (h.emits hdev hsize hd).complete ⟨h.inv, h.disk⟩ h.calm
  refine ⟨t, hrun, ?_, hcalm, hinv⟩
  rw [h.trace, List.nil_append] at htrace
  rw [hinv.disk, htrace]
  obtain rfl := h.place
  rcases hd with hd | hd
  · exact hd.recover_prefix hsize (List.prefix_refl _)
  · exact hd.recover_all hsize

end

end

theorem Recovered.settled {d' : Disk} (h : Recovered P d d') (hdev : P.dev ≠ 0) (hsize : 0 < P.size)
    (hd : Settled P f d ∨ Pending P f d) : Settled P f d' := by
  induction h with
  | complete hboot hrun =>
    obtain ⟨t, hrun', hset, _⟩ := hboot.completes hdev hsize hd
    rw [hrun] at hrun'
    cases hrun'
    exact hset
  | crash n hboot hrest ih => exact ih (hboot.after_crash hdev hsize hd n)

/-- The block layer after `binit`, with the layout that `initlog` has read. -/
def cold (P : Layout) (d : Disk) : State where
  buf := fun _ =>
    { valid := false
      dirty := false
      dev := 0
      blockno := 0
      locked := false
      refcnt := 0
      data := fun _ => 0 }
  order := (List.finRange NBUF).reverse
  log := { P with outstanding := 0, lh := { n := 0, block := fun _ => 0 } }
  disk := d
  trace := []

theorem booted_cold (P : Layout) (d : Disk) :
    Booted P d (cold P d) where
  place := rfl
  disk := rfl
  trace := rfl
  cache := by
    refine ⟨?_, ?_, ?_⟩
    · intro i
      simp [cold]
    · intro i j hdev
      exact absurd rfl hdev
    · intro i hd
      cases hd
  calm := fun _ => ⟨rfl, rfl, rfl⟩
  coherent := by
    intro i hv
    cases hv

end Xv6.Log
