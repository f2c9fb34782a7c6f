import Xv6.Pipe.Fifo

/-!
# Wakeups on pipes

A process asleep in `piperead` should have nothing to read and the write end open,
and a process asleep in `pipewrite` a full buffer and the read end open.  Every
critical section that changes the buffer wakes the other side, but one: a
`pipewrite` that stores some bytes, finds the buffer full and its process killed
(or the read end closed) returns -1 and wakes nobody.
-/

namespace Xv6.Pipe

open Lib Function

variable {P : Type} {c : Pc} {src : List UInt8} {i : Nat} {a : Bool} {ring : RingBuf UInt8}

/-- Whoever is asleep has a reason to be. -/
structure NoLostWakeup (s : State P) : Prop where
  reader : ∀ p n, s.pc p = .reading n true → s.Empty ∧ s.writeopen = true
  writer : ∀ p src i, s.pc p = .writing src i true → s.Full ∧ s.readopen = true

def Queue (s : State P) : Prop :=
  ∃ unread, s.ring.Holds PIPESIZE UINT unread

section Steps

variable {s : State P}

theorem wake_nread_ne (c : Pc) (n : Nat) : c.wake .nread ≠ .reading n true := by
  cases c with
  | idle => simp [Pc.wake]
  | writing src i a => simp [Pc.wake]
  | reading m a => simp [Pc.wake]

theorem wake_nwrite_ne (c : Pc) (src : List UInt8) (i : Nat) :
    c.wake .nwrite ≠ .writing src i true := by
  cases c with
  | idle => simp [Pc.wake]
  | writing src i a => simp [Pc.wake]
  | reading m a => simp [Pc.wake]

theorem wake_nread_writing (h : c.wake .nread = .writing src i a) : c = .writing src i a := by
  cases c with
  | idle => cases h
  | reading m b => cases h
  | writing src' i' b => exact h

theorem wake_nwrite_reading {n : Nat} (h : c.wake .nwrite = .reading n a) : c = .reading n a := by
  cases c with
  | idle => cases h
  | reading m b => exact h
  | writing src' i' b => cases h

theorem rouse_ne_reading (c : Pc) (n : Nat) : c.rouse ≠ .reading n true := by
  cases c with
  | idle => simp [Pc.rouse]
  | writing src i a => simp [Pc.rouse]
  | reading m a => simp [Pc.rouse]

theorem rouse_ne_writing (c : Pc) (src : List UInt8) (i : Nat) : c.rouse ≠ .writing src i true := by
  cases c with
  | idle => simp [Pc.rouse]
  | writing src i a => simp [Pc.rouse]
  | reading m a => simp [Pc.rouse]

section
variable (hs : NoLostWakeup s)
include hs

theorem NoLostWakeup.close (writable : Bool) : NoLostWakeup (pipeclose s writable) := by
  cases writable with
  | true =>
    constructor
    · intro q n hq
      exact absurd hq (wake_nread_ne _ _)
    · intro q src i hq
      exact hs.writer q src i (wake_nread_writing hq)
  | false =>
    constructor
    · intro q n hq
      exact hs.reader q n (wake_nwrite_reading hq)
    · intro q src i hq
      exact absurd hq (wake_nwrite_ne _ _ _)

theorem NoLostWakeup.copied (hready : ¬ (s.Empty ∧ s.writeopen = true))
    (ring : RingBuf UInt8) : NoLostWakeup (({ s with ring := ring }).wakeup .nwrite) where
  reader := by
    intro q n hq
    exact absurd (hs.reader q n (wake_nwrite_reading hq)) hready
  writer := by
    intro q src i hq
    exact absurd hq (wake_nwrite_ne _ _ _)

theorem NoLostWakeup.stored (hfull : s.Full → ring.Full PIPESIZE UINT) :
    NoLostWakeup (({ s with ring := ring }).wakeup .nread) where
  reader := by
    intro q n hq
    exact absurd hq (wake_nread_ne _ _)
  writer := by
    intro q src i hq
    obtain ⟨hf, hopen⟩ := hs.writer q src i (wake_nread_writing hq)
    exact ⟨hfull hf, hopen⟩

theorem NoLostWakeup.refused
    (hnone : ∀ q n, s.pc q ≠ .reading n true) (hfull : ring.Full PIPESIZE UINT) :
    NoLostWakeup { s with ring := ring } where
  reader := by
    intro q n hq
    exact absurd hq (hnone q n)
  writer := by
    intro q src i hq
    exact ⟨hfull, (hs.writer q src i hq).2⟩

end

theorem stores_of_full (hfull : s.Full) : stores s src i = (s.ring, src.drop i) := by
  have hring : s.ring.Full PIPESIZE UINT := hfull
  unfold stores
  cases src.drop i with
  | nil => rfl
  | cons x xs => simp [RingBuf.putAll, hring]

theorem full_of_rest (hqueue : Queue s)
    (hrest : ¬ (stores s src i).2 = []) : (stores s src i).1.Full PIPESIZE UINT := by
  obtain ⟨unread, hring⟩ := hqueue
  exact (stores_spec hring).2.2 hrest

/-- The bytes in the buffer, `p->nwrite - p->nread`. -/
def State.count (s : State P) : Nat :=
  (s.ring.nwrite + UINT - s.ring.nread) % UINT

theorem rest_iff (hqueue : Queue s) :
    (stores s src i).2 ≠ [] ↔ PIPESIZE < s.count + (src.length - i) := by
  obtain ⟨unread, hring⟩ := hqueue
  obtain ⟨hsplit, hholds, hfull⟩ : src.drop i = storing s src i ++ (stores s src i).2 ∧ _ :=
    stores_spec hring
  have hcount : s.count = unread.length := hring.count lt_uint
  have hlen := congrArg List.length hsplit
  have hle := hholds.length
  rw [List.length_drop, List.length_append] at hlen
  rw [List.length_append] at hle
  constructor
  · intro hrest
    have hpos := List.length_pos_iff.mpr hrest
    have hall := (hholds.full_iff lt_uint).mp (hfull hrest)
    rw [List.length_append] at hall
    omega
  · intro hlt hnil
    rw [hnil, List.length_nil] at hlen
    omega

theorem noLostWakeup_init : NoLostWakeup (init P) where
  reader := by
    intro p n hp
    cases hp
  writer := by
    intro p src i hp
    cases hp

end Steps

variable [DecidableEq P]

/-- No process is asleep in `piperead` when a writer gets the lock that has been killed, or has lost
its readers, and has more bytes left than there is room. -/
def Announces (s : State P) (l : P × Act) : Prop :=
  ∀ late src i, l.2 = .turn late → s.pc l.1 = .writing src i false →
    (s.readopen = false ∨ s.killed l.1 = true) → PIPESIZE < s.count + (src.length - i) →
      ∀ q n, s.pc q ≠ .reading n true

section Moves

variable {s t : State P} {p : P} {l : P × Act}

theorem pc_setPc (c : Pc) (q : P) :
    (q = p ∧ (s.setPc p c).pc q = c) ∨ (q ≠ p ∧ (s.setPc p c).pc q = s.pc q) := by
  by_cases hqp : q = p
  · subst hqp
    exact .inl ⟨rfl, update_self _ _ _⟩
  · exact .inr ⟨hqp, update_of_ne hqp _ _⟩

theorem NoLostWakeup.setPc {killed : P → Bool} (hs : NoLostWakeup s)
    (hreader : ∀ n, c = .reading n true → s.Empty ∧ s.writeopen = true)
    (hwriter : ∀ src i, c = .writing src i true → s.Full ∧ s.readopen = true) :
    NoLostWakeup { s.setPc p c with killed := killed } where
  reader := by
    intro q n hq
    rcases pc_setPc (s := s) (p := p) c q with ⟨rfl, hc⟩ | ⟨_, hc⟩
    · exact hreader n (hc.symm.trans hq)
    · exact hs.reader q n (hc.symm.trans hq)
  writer := by
    intro q src i hq
    rcases pc_setPc (s := s) (p := p) c q with ⟨rfl, hc⟩ | ⟨_, hc⟩
    · exact hwriter src i (hc.symm.trans hq)
    · exact hs.writer q src i (hc.symm.trans hq)

theorem Queue.move (hqueue : Queue s) (hmove : Move s l t) : Queue t := by
  obtain ⟨unread, hring⟩ := hqueue
  cases hmove with
  | read p n hpc => exact ⟨unread, hring⟩
  | write p src hpc => exact ⟨unread, hring⟩
  | copied p n late hpc hready => exact ⟨_, (hring.takeMax dvd_uint lt_uint n).2⟩
  | gaveUp p n late hpc hwait hkilled => exact ⟨unread, hring⟩
  | waited p n late hpc hwait hkilled => exact ⟨unread, hring⟩
  | stored p src i late hpc hall => exact ⟨_, (stores_spec hring).2.1⟩
  | refused p src i late hpc hrest hstop => exact ⟨_, (stores_spec hring).2.1⟩
  | filled p src i late hpc hrest hgo => exact ⟨_, (stores_spec hring).2.1⟩
  | close p writable hpc =>
    cases writable with
    | true => exact ⟨unread, hring⟩
    | false => exact ⟨unread, hring⟩
  | kill p => exact ⟨unread, hring⟩

theorem NoLostWakeup.move (hs : NoLostWakeup s) (hqueue : Queue s) (hok : Announces s l)
    (hmove : Move s l t) : NoLostWakeup t := by
  cases hmove with
  | read p n hpc => exact hs.setPc (by simp) (by simp)
  | write p src hpc => exact hs.setPc (by simp) (by simp)
  | copied p n late hpc hready => exact (hs.copied hready _).setPc (by simp) (by simp)
  | gaveUp p n late hpc hwait hkilled => exact hs.setPc (by simp) (by simp)
  | waited p n late hpc hwait hkilled => exact hs.setPc (fun _ _ => hwait) (by simp)
  | stored p src i late hpc hall =>
    refine (hs.stored ?_).setPc (by simp) (by simp)
    intro hfull
    rw [stores_of_full hfull]
    exact hfull
  | refused p src i late hpc hrest hstop =>
    have hnone := hok late src i rfl hpc hstop ((rest_iff hqueue).mp hrest)
    exact (hs.refused hnone (full_of_rest hqueue hrest)).setPc (by simp) (by simp)
  | filled p src i late hpc hrest hgo =>
    have hfull := full_of_rest hqueue hrest
    refine (hs.stored (fun _ => hfull)).setPc (by simp) ?_
    intro _ _ _
    refine ⟨hfull, ?_⟩
    exact Bool.eq_true_of_not_eq_false fun hopen => hgo (.inl hopen)
  | close p writable hpc => exact hs.close writable
  | kill p =>
    refine hs.setPc ?_ ?_
    · intro n hn
      exact absurd hn (rouse_ne_reading _ _)
    · intro src i hsrc
      exact absurd hsrc (rouse_ne_writing _ _ _)

theorem NoLostWakeup.announces (ht : NoLostWakeup t) (hqueue : Queue s) (hmove : Move s l t) :
    Announces s l := by
  intro late src i hact hpc hstop hlt q n hq
  cases hmove with
  | read p m hidle => cases hact
  | write p src' hidle => cases hact
  | close p writable hidle => cases hact
  | kill p => cases hact
  | copied p m late' hreading hready =>
    rw [hreading] at hpc
    cases hpc
  | gaveUp p m late' hreading hwait hkilled =>
    rw [hreading] at hpc
    cases hpc
  | waited p m late' hreading hwait hkilled =>
    rw [hreading] at hpc
    cases hpc
  | stored p src' i' late' hwriting hall =>
    rw [hwriting] at hpc
    cases hpc
    exact absurd hall ((rest_iff hqueue).mpr hlt)
  | filled p src' i' late' hwriting hrest hgo =>
    rw [hwriting] at hpc
    cases hpc
    exact absurd hstop hgo
  | refused p src' i' late' hwriting hrest _ =>
    have hqp : q ≠ p := by
      rintro rfl
      rw [hwriting] at hq
      cases hq
    have hstill : update s.pc p .idle q = .reading n true := by
      rw [update_of_ne hqp]
      exact hq
    have hempty := (ht.reader q n hstill).1
    have hfull := full_of_rest hqueue hrest
    obtain ⟨unread, hring⟩ := hqueue
    have hholds : (stores s src' i').1.Holds PIPESIZE UINT (unread ++ storing s src' i') :=
      (stores_spec hring).2.1
    have hnil := (hholds.empty_iff lt_uint).mp hempty
    have hlength := (hholds.full_iff lt_uint).mp hfull
    rw [hnil] at hlength
    cases hlength

end Moves

theorem queue_init : Queue (init P) :=
  (fifo_init (P := P)).ring.imp fun _ h => h.1

/-- The runs in which nobody ever sleeps without reason are those in which no reader is asleep when
a writer has to give up before it has stored everything. -/
theorem no_lost_wakeup_iff {ls : List (P × Act)} {t : State P}
    (hrun : run step (init P) ls = some t) :
    Meets step Announces (init P) ls ↔
      ∀ xs ys u, ls = xs ++ ys → run step (init P) xs = some u → NoLostWakeup u := by
  refine meets_iff_forall Queue NoLostWakeup ?_ ?_ queue_init noLostWakeup_init hrun
  · intro s l t hqueue hstep
    exact hqueue.move (move_of_step hstep)
  intro s l t hqueue hs hstep
  have hmove := move_of_step hstep
  constructor
  · intro hok
    exact hs.move hqueue hok hmove
  · intro ht
    exact ht.announces hqueue hmove

/-- A reader that waits, and a writer of `n` bytes. -/
def waitThenWrite (n : Nat) : List (Fin 2 × Act) :=
  [(0, .read 1), (0, .turn false), (1, .write (List.replicate n 0))]

/-- The reader is woken by a writer that is not killed. -/
theorem reader_is_woken :
    ∃ t, run step (init (Fin 2)) (waitThenWrite 513 ++ [(1, .turn false)]) = some t ∧
        (t.pc 0 = .reading 1 false ∧ t.Full) ∧
        (Meets step Announces (init (Fin 2)) (waitThenWrite 513 ++ [(1, .turn false)]) ↔
          ∀ xs ys u, waitThenWrite 513 ++ [(1, .turn false)] = xs ++ ys →
            run step (init (Fin 2)) xs = some u → NoLostWakeup u) := by
  obtain ⟨t, hrun, htest⟩ := exists_of_run_map step (init (Fin 2))
    (waitThenWrite 513 ++ [(1, .turn false)])
    (fun t => decide (t.pc 0 = .reading 1 false ∧ t.Full)) (by decide +kernel)
  exact ⟨t, hrun, of_decide_eq_true htest, no_lost_wakeup_iff hrun⟩

/-- A writer of 513 bytes is killed, fills the buffer and returns -1.  The reader sleeps on although
there is something to read. -/
theorem killed_writer_wakes_nobody :
    ∃ t, run step (init (Fin 2)) (waitThenWrite 513 ++ [(1, .kill), (1, .turn false)]) = some t ∧
        t.pc 0 = .reading 1 true ∧ ¬ t.Empty := by
  obtain ⟨t, hrun, htest⟩ := exists_of_run_map step (init (Fin 2))
    (waitThenWrite 513 ++ [(1, .kill), (1, .turn false)])
    (fun t => decide (t.pc 0 = .reading 1 true ∧ ¬ t.Empty)) (by decide +kernel)
  exact ⟨t, hrun, of_decide_eq_true htest⟩

end Xv6.Pipe
