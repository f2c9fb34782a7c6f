import Mathlib.Logic.Relation
import Mathlib.Data.List.Nodup

/-!
# The disk queue

`iderw`, `idestart` and `ideintr` (ide.c) for any number of processes.  What happens
between acquiring and releasing `idelock` is one step.  The drive takes a request in
`idestart` and has done it when it interrupts.  While a process is in `iderw` nobody else
touches its buffer.  If `distinct`, no other buffer in `iderw` has the same block, which the
buffer cache ensures.
-/

namespace Xv6.Ide

open Function List

variable {P B D : Type}

/-- `struct buf`. -/
structure Buf (D : Type) where
  valid : Bool
  dirty : Bool
  blockno : Nat
  data : D

structure State (P B D : Type) where
  queue : List B
  buf : B → Buf D
  disk : Nat → D
  /-- the request of the drive, with the data if it is a write -/
  drive : Option (B × Option D)
  /-- the process that is in `iderw(b)`, and the buffer at its call -/
  caller : B → Option (P × Buf D)
  arrived : List B
  started : List B
  completed : List B

def request (buf : B → Buf D) (b : B) : B × Option D :=
  (b, if (buf b).dirty = true then some (buf b).data else none)

def idestart (s : State P B D) (b : B) : State P B D :=
  { s with drive := some (request s.buf b), started := s.started ++ [b] }

/-- The disk after the drive has done its request. -/
def State.written (s : State P B D) : Nat → D :=
  match s.drive with
  | some (b, some data) => update s.disk (s.buf b).blockno data
  | _ => s.disk

/-- The buffer at the head, after `insl` if it was a read and with its flags set. -/
def Buf.filled (x : Buf D) (disk : Nat → D) : Buf D :=
  ⟨true, false, x.blockno, if x.dirty = true then x.data else disk x.blockno⟩

/-- The request has been served: the buffer is valid and has the contents of its block. -/
structure Served (distinct : Prop) (s : State P B D) (b : B) (old : Buf D) : Prop where
  notMem : b ∉ s.queue
  valid : (s.buf b).valid = true
  clean : (s.buf b).dirty = false
  blockno : (s.buf b).blockno = old.blockno
  data : distinct → (s.buf b).data = s.disk old.blockno
  written : old.dirty = true → (s.buf b).data = old.data

structure Inv (distinct : Prop) (s : State P B D) : Prop where
  arrived : s.arrived = s.completed ++ s.queue
  started : s.started = s.completed ++ s.queue.take 1
  drive : s.drive = s.queue.head?.map (request s.buf)
  nodup : s.queue.Nodup
  called : ∀ b ∈ s.queue, s.caller b ≠ none
  inside : ∀ b p old, s.caller b = some (p, old) →
    b ∈ s.queue ∧ s.buf b = old ∧ ¬(old.valid = true ∧ old.dirty = false) ∨ Served distinct s b old
  apart : distinct → ∀ b c, s.caller b ≠ none → s.caller c ≠ none → b ≠ c →
    (s.buf b).blockno ≠ (s.buf c).blockno

variable {distinct : Prop} {s t : State P B D} {b c : B} {p : P} {old : Buf D}

theorem Inv.served (h : Inv distinct s) (hb : s.caller b = some (p, old))
    (hvalid : (s.buf b).valid = true) (hclean : (s.buf b).dirty = false) :
    Served distinct s b old := by
  rcases h.inside b p old hb with ⟨_, hbuf, hneeds⟩ | hserved
  · rw [hbuf] at hvalid hclean
    exact absurd ⟨hvalid, hclean⟩ hneeds
  · exact hserved

theorem ne_of_free (hfree : s.caller b = none) (hc : s.caller c ≠ none) : c ≠ b := by
  rintro rfl
  exact hc hfree

variable [DecidableEq B]

/-- `iderw` up to its loop: append to the queue, and start the disk if necessary. -/
def iderw (s : State P B D) (b : B) : State P B D :=
  if (s.queue ++ [b]).head? = some b then
    idestart { s with queue := s.queue ++ [b], arrived := s.arrived ++ [b] } b
  else { s with queue := s.queue ++ [b], arrived := s.arrived ++ [b] }

def ideintr (s : State P B D) : State P B D :=
  match s.queue with
  | [] => s
  | b :: q =>
    let s' := { s with
      queue := q
      disk := s.written
      buf := update s.buf b ((s.buf b).filled s.written)
      drive := none
      completed := s.completed ++ [b] }
    match q with
    | [] => s'
    | c :: _ => idestart s' c

inductive Step (distinct : Prop) (s : State P B D) : State P B D → Prop where
  /-- the holder of a buffer changes it -/
  | store (b : B) (x : Buf D) (hfree : s.caller b = none) :
      Step distinct s { s with buf := update s.buf b x }
  | call (p : P) (b : B) (hidle : ∀ c old, s.caller c ≠ some (p, old)) (hfree : s.caller b = none)
      (hneeds : ¬((s.buf b).valid = true ∧ (s.buf b).dirty = false))
      (hblock : distinct → ∀ c, s.caller c ≠ none → (s.buf c).blockno ≠ (s.buf b).blockno) :
      Step distinct s { iderw s b with caller := update s.caller b (some (p, s.buf b)) }
  | intr (r : B × Option D) (hdrive : s.drive = some r) : Step distinct s (ideintr s)
  /-- the loop of `iderw` ends -/
  | ret (p : P) (b : B) (old : Buf D) (hb : s.caller b = some (p, old))
      (hvalid : (s.buf b).valid = true) (hclean : (s.buf b).dirty = false) :
      Step distinct s { s with caller := update s.caller b none }

def init (buf : B → Buf D) (disk : Nat → D) : State P B D :=
  ⟨[], buf, disk, none, fun _ => none, [], [], []⟩

theorem Inv.store (h : Inv distinct s) (hfree : s.caller b = none) (x : Buf D) :
    Inv distinct { s with buf := update s.buf b x } := by
  refine ⟨h.arrived, h.started, ?_, h.nodup, h.called, ?_, ?_⟩
  · rw [h.drive]
    cases hq : s.queue with
    | nil => rfl
    | cons c q =>
      have hcb := ne_of_free hfree (h.called c (by simp [hq]))
      simp [request, update_of_ne hcb]
  · intro c p old hc
    have hcb : c ≠ b := ne_of_free hfree (Option.ne_none_iff_exists'.mpr ⟨_, hc⟩)
    rcases h.inside c p old hc with hin | ⟨h1, h2, h3, h4, h5, h6⟩
    · exact .inl (by simpa [update_of_ne hcb] using hin)
    · exact .inr (by constructor <;> simpa [update_of_ne hcb])
  · intro hdist c d hc hd hcd
    simpa [update_of_ne (ne_of_free hfree hc), update_of_ne (ne_of_free hfree hd)] using
      h.apart hdist c d hc hd hcd

theorem Inv.iderw_eq (h : Inv distinct s) (hb : b ∉ s.queue) :
    iderw s b = { s with
      queue := s.queue ++ [b]
      drive := (s.queue ++ [b]).head?.map (request s.buf)
      arrived := s.arrived ++ [b]
      started := s.completed ++ (s.queue ++ [b]).take 1 } := by
  have hdrive := h.drive
  have hstarted := h.started
  unfold iderw
  cases hq : s.queue with
  | nil =>
    rw [hq] at hstarted
    simp [idestart, hstarted]
  | cons c q =>
    rw [hq] at hb hdrive hstarted
    have hcb : c ≠ b := by
      rintro rfl
      exact hb mem_cons_self
    simp [hcb, hdrive, hstarted]

theorem Inv.call (h : Inv distinct s) (p : P) (hfree : s.caller b = none)
    (hneeds : ¬((s.buf b).valid = true ∧ (s.buf b).dirty = false))
    (hblock : distinct → ∀ c, s.caller c ≠ none → (s.buf c).blockno ≠ (s.buf b).blockno) :
    Inv distinct { iderw s b with caller := update s.caller b (some (p, s.buf b)) } := by
  have hb : b ∉ s.queue := fun hb => h.called b hb hfree
  rw [h.iderw_eq hb]
  refine ⟨by simp [h.arrived], rfl, rfl, ?_, ?_, ?_, ?_⟩
  · refine nodup_append.mpr ⟨h.nodup, nodup_singleton b, ?_⟩
    rintro c hc d hd rfl
    exact hb (by rwa [mem_singleton.mp hd] at hc)
  · intro c hc
    by_cases hcb : c = b
    · simp [hcb]
    · simpa [update_of_ne hcb] using h.called c (by simpa [hcb] using hc)
  · intro c q old hc
    by_cases hcb : c = b
    · subst hcb
      simp only [update_self] at hc
      cases hc
      exact .inl ⟨mem_append_right _ (mem_singleton_self c), rfl, hneeds⟩
    · simp only [update_of_ne hcb] at hc
      rcases h.inside c q old hc with ⟨hmem, hrest⟩ | ⟨h1, h2, h3, h4, h5, h6⟩
      · exact .inl ⟨mem_append_left _ hmem, hrest⟩
      · exact .inr ⟨by simp [h1, hcb], h2, h3, h4, h5, h6⟩
  intro hdist c d hc hd hcd
  by_cases hcb : c = b
  · subst hcb
    simp only [update_of_ne hcd.symm] at hd
    exact (hblock hdist d hd).symm
  · simp only [update_of_ne hcb] at hc
    by_cases hdb : d = b
    · subst hdb
      exact hblock hdist c hc
    · simp only [update_of_ne hdb] at hd
      exact h.apart hdist c d hc hd hcd

theorem ideintr_eq {q : List B} (hq : s.queue = b :: q) :
    ideintr s = { s with
      queue := q
      disk := s.written
      buf := update s.buf b ((s.buf b).filled s.written)
      drive := q.head?.map (request (update s.buf b ((s.buf b).filled s.written)))
      started := s.started ++ q.take 1
      completed := s.completed ++ [b] } := by
  unfold ideintr
  rw [hq]
  cases q with
  | nil => simp
  | cons c q => simp [idestart]

theorem Inv.intr {r : B × Option D} (h : Inv distinct s) (hdrive : s.drive = some r) :
    Inv distinct (ideintr s) := by
  have hd := h.drive
  obtain ⟨b, q, hq⟩ : ∃ b q, s.queue = b :: q := by
    cases hq : s.queue with
    | nil =>
      rw [hq, hdrive] at hd
      cases hd
    | cons b q => exact ⟨b, q, rfl⟩
  have hnodup := h.nodup
  have harrived := h.arrived
  have hstarted := h.started
  have hcalled := h.called
  rw [hq] at hd hnodup harrived hstarted hcalled
  obtain ⟨hbq, hqnodup⟩ := nodup_cons.mp hnodup
  -- the drive changes no other block than the one of the head
  have hwritten : s.written = if (s.buf b).dirty = true then
      update s.disk (s.buf b).blockno (s.buf b).data else s.disk := by
    unfold State.written
    rw [hd]
    by_cases hdirty : (s.buf b).dirty = true
    · simp [request, hdirty]
    · simp [request, hdirty]
  have hblockno : ∀ c, (update s.buf b ((s.buf b).filled s.written) c).blockno =
      (s.buf c).blockno := by
    intro c
    by_cases hcb : c = b
    · simp [hcb, Buf.filled]
    · simp [hcb]
  rw [ideintr_eq hq]
  refine ⟨by simp [harrived], by simp [hstarted], rfl, hqnodup,
    fun c hc => hcalled c (mem_cons_of_mem b hc), ?_, by simpa [hblockno] using h.apart⟩
  intro c p old hc
  by_cases hcb : c = b
  · subst hcb
    rcases h.inside c p old hc with ⟨_, hbuf, _⟩ | hserved
    · refine .inr ⟨hbq, by simp [Buf.filled], by simp [Buf.filled], ?_, ?_, ?_⟩
      · simp [Buf.filled, hbuf]
      · intro _
        by_cases hdirty : old.dirty = true
        · simp [Buf.filled, hwritten, hbuf, hdirty]
        · simp [Buf.filled, hwritten, hbuf, hdirty]
      · intro hdirty
        simp [Buf.filled, hbuf, hdirty]
    · exact absurd (by simp [hq]) hserved.notMem
  rcases h.inside c p old hc with ⟨hmem, hbuf, hneeds⟩ | ⟨h1, h2, h3, h4, h5, h6⟩
  · rw [hq] at hmem
    exact .inl ⟨(mem_cons.mp hmem).resolve_left hcb, by simpa [update_of_ne hcb], hneeds⟩
  have hsame : distinct → s.written old.blockno = s.disk old.blockno := by
    intro hdist
    have hcaller := Option.ne_none_iff_exists'.mpr ⟨_, hc⟩
    have hne := h.apart hdist c b hcaller (hcalled b mem_cons_self) hcb
    rw [hwritten, ← h4]
    split
    · exact update_of_ne hne _ _
    · rfl
  rw [hq] at h1
  refine .inr ⟨fun hc => h1 (mem_cons_of_mem b hc), ?_, ?_, ?_, ?_, ?_⟩
  · simpa [update_of_ne hcb]
  · simpa [update_of_ne hcb]
  · simpa [update_of_ne hcb]
  · intro hdist
    simpa [update_of_ne hcb, hsame hdist] using h5 hdist
  · simpa [update_of_ne hcb]

theorem Inv.ret (h : Inv distinct s) (hserved : Served distinct s b old) :
    Inv distinct { s with caller := update s.caller b none } := by
  have hne : ∀ c, update s.caller b none c ≠ none → c ≠ b := by
    rintro c hc rfl
    exact hc (update_self ..)
  refine ⟨h.arrived, h.started, h.drive, h.nodup, ?_, ?_, ?_⟩
  · intro c hc
    have hcb : c ≠ b := by
      rintro rfl
      exact hserved.notMem hc
    simpa [update_of_ne hcb] using h.called c hc
  · intro c q old' hc
    have hcb := hne c (Option.ne_none_iff_exists'.mpr ⟨_, hc⟩)
    simp only [update_of_ne hcb] at hc
    rcases h.inside c q old' hc with hin | ⟨h1, h2, h3, h4, h5, h6⟩
    · exact .inl hin
    · exact .inr ⟨h1, h2, h3, h4, h5, h6⟩
  · intro hdist c d hc hd
    have hcb := hne c hc
    have hdb := hne d hd
    simp only [update_of_ne hcb, update_of_ne hdb] at hc hd
    exact h.apart hdist c d hc hd

theorem Inv.step (h : Inv distinct s) (hstep : Step distinct s t) : Inv distinct t := by
  cases hstep with
  | store b x hfree => exact h.store hfree x
  | call p b hidle hfree hneeds hblock => exact h.call p hfree hneeds hblock
  | intr r hdrive => exact h.intr hdrive
  | ret p b old hb hvalid hclean => exact h.ret (h.served hb hvalid hclean)

/-- After any interleaving of calls of `iderw` and interrupts: no buffer is in the queue twice; the
requests are completed in the order of their arrival; each has been started once, when it was at the
head of the queue, and the drive works for the head; and where a call returns, its buffer is off the
queue, valid, clean, and equal to its block. -/
theorem disk_queue (distinct : Prop) (buf : B → Buf D) (disk : Nat → D)
    (h : Relation.ReflTransGen (Step distinct) (init buf disk : State P B D) s) :
    s.queue.Nodup ∧ s.arrived = s.completed ++ s.queue ∧
      s.started = s.completed ++ s.queue.take 1 ∧ s.drive.map Prod.fst = s.queue.head? ∧
      ∀ b p old, s.caller b = some (p, old) → (s.buf b).valid = true → (s.buf b).dirty = false →
        Served distinct s b old := by
  have hinv : Inv distinct s := by
    induction h with
    | refl => exact ⟨rfl, rfl, rfl, nodup_nil, nofun, nofun, by simp [init]⟩
    | tail _ hstep ih => exact ih.step hstep
  refine ⟨hinv.nodup, hinv.arrived, hinv.started, ?_, fun b p old => hinv.served⟩
  rw [hinv.drive, Option.map_map]
  exact Option.map_id'

/-- Two processes read the blocks 3 and 4, and the drive has answered the first. -/
theorem disk_queue_two_reads :
    ∃ s : State Bool Bool Nat, s.completed = [false] ∧ s.queue = [true] ∧
      Served True s false ⟨false, false, 3, 0⟩ := by
  have hfirst : Step True (init (fun b => ⟨false, false, if b then 4 else 3, 0⟩) id :
      State Bool Bool Nat) _ :=
    .call false false (by simp [init]) rfl (by decide) (by simp [init])
  have hpath := ((Relation.ReflTransGen.single hfirst).tail
    (.call true true (by simp [init]) rfl (by decide) (by simp [init, iderw, idestart]))).tail
    (.intr _ rfl)
  exact ⟨_, rfl, rfl, (disk_queue _ _ _ hpath).2.2.2.2 false false _ rfl rfl rfl⟩

/-- Two buffers of block 3, one of which is dirty: the other one is read, and the block is written
before its call returns. -/
theorem disk_queue_same_block :
    ∃ s : State Bool Bool Nat, Relation.ReflTransGen (Step False)
        (init (fun b => ⟨b, b, 3, if b then 7 else 0⟩) fun _ => 0) s ∧
      s.caller false = some (false, ⟨false, false, 3, 0⟩) ∧ (s.buf false).valid = true ∧
      (s.buf false).dirty = false ∧ (s.buf false).data ≠ s.disk 3 := by
  have hread : Step False (init (fun b => ⟨b, b, 3, if b then 7 else 0⟩) fun _ => 0 :
      State Bool Bool Nat) _ := .call false false nofun rfl (by decide) nofun
  have hpath := (((Relation.ReflTransGen.single hread).tail
    (.call true true (by rintro (_ | _) old h <;> cases h) rfl (by decide) nofun)).tail
      (.intr _ rfl)).tail (.intr _ rfl)
  exact ⟨_, hpath, rfl, rfl, rfl, by decide⟩

end Xv6.Ide
