import Xv6.Bio.Cache

/-!
# The buffer cache is an array of blocks

What the processes see of the cache is the content that they give to a block and the
content that `bread` returns.  A history of this is a history of a plain array of blocks
that starts with the content of the disk: whatever the processes do and in whatever order
they take the locks, `bread` returns what the block was last given.
-/

namespace Xv6.Bio

open Lib
open Log (Block Addr NBUF)

variable {arr : Addr → Block} {a : Addr} {i : Fin NBUF} {log : LogState} {h : List Event}

/-- What a process sees of a block. -/
inductive Event where
  | gave (a : Addr) (data : Block)
  | read (a : Addr) (data : Block)
deriving DecidableEq

/-- A plain array of blocks. -/
def arrayStep (arr : Addr → Block) : Event → Option (Addr → Block)
  | .gave a data => some (Function.update arr a data)
  | .read a data => if arr a = data then some arr else none

theorem run_read {data : Block} (h : data = arr a) :
    run arrayStep arr [.read a data] = some arr := by
  simp only [run, arrayStep, h, if_pos]

variable {P : Type} [DecidableEq P]

/-- What a step shows: a content given to a block, or the buffer that `bread` returns. -/
def shows (accepts : Addr → Bool) (s : State P) (l : P × Act) : List Event :=
  match l.2, s.pc l.1 with
  | .modify i data, .idle => [.gave (s.key i) data]
  | .turn, .filling i a => (bread accepts s l.1 i).toList.map fun t => .read a (t.buf i).data
  | _, _ => []

abbrev recorded (accepts : Addr → Bool) :
    State P × List Event → P × Act → Option (State P × List Event) :=
  recordStep (step accepts) (shows accepts)

theorem key_step [Fintype P] {accepts : Addr → Bool} {s t : State P} {l : P × Act}
    (hring : s.Ringed) (hstep : step accepts s l = some t)
    (hused : 0 < (s.buf i).refcnt ∨ (s.buf i).dirty = true) : t.key i = s.key i := by
  cases move_of_step hstep with
  | recycled p a j hpc ha hmiss hscan =>
    have hfree := hring.of_scan (.inr hscan)
    simp only [decide_eq_true_eq] at hfree
    have hij : i ≠ j := by grind
    rw [setPc_key, setBuf_key, if_neg hij]
  | filled p j a hpc hvalid t ht =>
    obtain ⟨_, ⟨_, rfl⟩ | ⟨_, _, rfl⟩⟩ := iderw_cases ht
    · grind [State.key, Buf.key]
    · grind [State.key, Buf.key]
  | written p j hpc t ht =>
    obtain ⟨_, ⟨_, rfl⟩ | ⟨_, _, rfl⟩⟩ := iderw_cases ht
    · grind [State.key, Buf.key]
    · grind [State.key, Buf.key]
  | log p lg => rfl
  | _ => grind [State.key, Buf.key]

section Invariant

variable [Fintype P] {accepts : Addr → Bool} {s t : State P} {l : P × Act}

/-- The list, the counts and the locks. -/
structure State.Sound (s : State P) : Prop where
  ringed : s.Ringed
  counted : s.Counted
  locked : s.Locked

theorem sound_step (h : s.Sound) (hstep : step accepts s l = some t) :
    t.Sound where
  ringed := ringed_step h.ringed hstep
  counted := counted_step h.counted h.ringed hstep
  locked := locked_step h.locked h.ringed h.counted hstep

theorem read_eq {p : P} (h : s.Sound)
    (hholds : t.Holds arr) (hstep : step accepts s (p, .turn) = some t)
    (hpc : s.pc p = .filling i a) (hvalid : (t.buf i).valid = true) : (t.buf i).data = arr a := by
  have hlock := h.locked.working p i (by rw [hpc]; rfl)
  have hcount := h.counted i
  simp only [hlock, lockRef] at hcount
  have hkey : t.key i = a :=
    (key_step h.ringed hstep (.inl (by omega))).trans (h.locked.target p i a (.inr hpc))
  have hdev : a.1 ≠ 0 := by
    rw [← h.locked.target p i a (Or.inr hpc)]
    exact dev_of_lock h.locked h.counted hlock
  rw [← hkey] at hdev ⊢
  exact hholds.data i hdev hvalid

theorem array_step (h : s.Sound) (hholds : s.Holds arr) (hstep : step accepts s l = some t) :
    run arrayStep arr (shows accepts s l).reverse = some (given s l arr) := by
  have hafter := holds_step hholds h.locked h.ringed h.counted hstep
  cases move_of_step hstep with
  | hit p i a hpc hvalid =>
    have hdata := read_eq h hafter hstep hpc hvalid
    have hbread : bread accepts s p i = some s := by simp [bread, hvalid]
    simp only [shows, hpc, hbread]
    exact run_read hdata
  | filled p i a hpc hvalid u hu =>
    have hfilled : (u.buf i).valid = true := by
      obtain ⟨_, ⟨_, rfl⟩ | ⟨_, _, rfl⟩⟩ := iderw_cases hu
      · rw [setBuf_buf, if_pos rfl]
      · rw [setBuf_buf, if_pos rfl]
    have hdata := read_eq h hafter hstep hpc hfilled
    have hbread : bread accepts s p i = some u := by simp [bread, hvalid, hu]
    simp only [shows, hpc, hbread]
    exact run_read hdata
  | found p a i hpc => simp [shows, given]
  | recycled p a i hpc => simp [shows, given]
  | locked p i a hpc => simp [shows, given, hpc]
  | modified p i data hpc => simp [shows, given, hpc, run, arrayStep]
  | logging p i hpc => simp [shows, given]
  | logged p i hpc => simp [shows, given, hpc]
  | writing p i hpc => simp [shows, given]
  | written p i hpc => simp [shows, given, hpc]
  | releasing p i hpc => simp [shows, given]
  | released p i hpc => simp [shows, given, hpc]
  | log p lg => simp [shows, given]

theorem holds_of_reachable {disk : Addr → Block}
    (hreach : Reachable (recorded accepts) (boot disk log, []) (s, h)) :
    s.Sound ∧ ∃ arr, run arrayStep disk h.reverse = some arr ∧ s.Holds arr := by
  refine hreach.invariant
    (fun sh => sh.1.Sound ∧ ∃ arr, run arrayStep disk sh.2.reverse = some arr ∧ sh.1.Holds arr)
    ?_ ?_
  · exact ⟨⟨ringed_boot disk log, counted_boot disk log, locked_boot disk log⟩,
      disk, rfl, holds_boot disk log⟩
  rintro ⟨s, h⟩ l ⟨t, h'⟩ ⟨hsound, arr, hrun, hholds⟩ hstep
  obtain ⟨hs, hh⟩ := recordStep_eq_some.mp hstep
  refine ⟨sound_step hsound hs, given s l arr, ?_, ?_⟩
  · simp only at hh
    rw [hh, List.reverse_append]
    exact run_append_eq_some.mpr ⟨arr, hrun, array_step hsound hholds hs⟩
  · exact holds_step hholds hsound.locked hsound.ringed hsound.counted hs

/-- Every history of the cache is one of an array of blocks that starts as the disk.  In every
state reached no two buffers have the identity of one block, the list is a ring of all the
buffers, and no step gives a buffer away that has a reference or is dirty. -/
theorem cache_refines_array {disk : Addr → Block}
    (hreach : Reachable (recorded accepts) (boot disk log, []) (s, h)) :
    (∃ arr, run arrayStep disk h.reverse = some arr) ∧
      (∀ i j, (s.buf i).dev ≠ 0 → s.key i = s.key j → i = j) ∧
      (∃ js : List (Fin NBUF), DoubleRing s.links none (js.map some) ∧
        js.Perm (List.finRange NBUF)) ∧
      ∀ l t i, step accepts s l = some t → 0 < (s.buf i).refcnt ∨ (s.buf i).dirty = true →
        t.key i = s.key i := by
  obtain ⟨hsound, arr, hrun, _⟩ := holds_of_reachable hreach
  refine ⟨⟨arr, hrun⟩, hsound.locked.unique, hsound.ringed, ?_⟩
  intro l t i hstep hused
  exact key_step hsound.ringed hstep hused

end Invariant

/-- One process gives a block a new content and writes it, another one reads the block. -/
theorem second_process_reads_first :
    ∃ (s : State (Fin 2)) (h : List Event),
      Reachable (recorded (memide 10)) (boot (fun _ _ => 0) ⟨[], 30, 0⟩, []) (s, h) ∧
        h = [.read (1, 5) fun _ => 7, .gave (1, 5) fun _ => 7, .read (1, 5) fun _ => 0] ∧
          ∃ arr, run arrayStep (fun _ _ => 0) h.reverse = some arr := by
  let ls : List (Fin 2 × Act) :=
    [(0, .bread (1, 5)), (0, .turn), (0, .turn), (1, .bread (1, 5)), (0, .modify 0 fun _ => 7),
      (0, .bwrite 0), (0, .turn), (0, .brelse 0), (1, .turn), (0, .turn), (1, .turn)]
  obtain ⟨⟨s, h⟩, hrun, hseen⟩ := exists_of_run_map (recorded (memide 10))
    (boot (fun _ _ => 0) ⟨[], 30, 0⟩, []) ls
    (fun sh => decide (sh.2 =
      [.read (1, 5) fun _ => 7, .gave (1, 5) fun _ => 7, .read (1, 5) fun _ => 0]))
    (by decide +kernel)
  exact ⟨s, h, ⟨ls, hrun⟩, of_decide_eq_true hseen, (cache_refines_array ⟨ls, hrun⟩).1⟩

/--
In every state reached the count of a buffer is the number of processes that hold it, wait for
it or have just released it.  At most one process works on a buffer, and who holds it finds the
content of its block there or is about to read it.
-/
theorem buffer_references [Fintype P] {accepts : Addr → Bool} {s : State P} {disk : Addr → Block}
    (hreach : Reachable (recorded accepts) (boot disk log, []) (s, h)) :
    (∀ i, (s.buf i).refcnt = lockRef (s.buf i).lock + total (Pc.waits i) s.pc) ∧
    (∀ p q i, (s.pc p).Works i → (s.pc q).Works i → p = q) ∧
    ∀ p i, (s.buf i).lock = some p →
      0 < (s.buf i).refcnt ∧ ((s.buf i).valid = true ∨ (s.pc p).Fills i) := by
  have hsound := (holds_of_reachable hreach).1
  refine ⟨hsound.counted, ?_, ?_⟩
  · intro p q i hp hq
    have hlock := hsound.locked.working p i hp
    rw [hsound.locked.working q i hq] at hlock
    exact (Option.some.inj hlock).symm
  · intro p i hlock
    refine ⟨?_, hsound.locked.held p i hlock⟩
    rw [hsound.counted i, hlock]
    exact Nat.lt_of_lt_of_le Nat.one_pos (Nat.le_add_right 1 _)

/-- One process has read a block and another one waits for it. -/
theorem buffer_references_waiting :
    ∃ (s : State (Fin 2)) (h : List Event),
      Reachable (recorded (memide 10)) (boot (fun _ _ => 0) ⟨[], 30, 0⟩, []) (s, h) ∧
        lockRef (s.buf 0).lock + total (Pc.waits 0) s.pc = 2 := by
  obtain ⟨⟨s, h⟩, hrun, htwo⟩ := exists_of_run_map (recorded (memide 10))
    (boot (fun _ _ => 0) ⟨[], 30, 0⟩, [])
    [((0 : Fin 2), .bread (1, 5)), (0, .turn), (0, .turn), (1, .bread (1, 5))]
    (fun sh => (sh.1.buf 0).refcnt = 2) (by decide +kernel)
  have hcount := (buffer_references ⟨_, hrun⟩).1 0
  exact ⟨s, h, ⟨_, hrun⟩, hcount.symm.trans (of_decide_eq_true htwo)⟩

end Xv6.Bio
