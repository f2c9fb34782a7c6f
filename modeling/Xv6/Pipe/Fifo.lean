import Xv6.Pipe.Pipe

/-!
# Pipes are first in, first out

The history of a pipe has the bytes that `pipewrite` stores one by one, what
`piperead` returns, the calls and results of `pipewrite`, and the closes.  The
invariant `Fifo` says that what has been stored is what has been read and then
what the buffer holds, and how far each call of `pipewrite` has come.
-/

namespace Xv6.Pipe

open Lib Function List

variable {P : Type} [DecidableEq P] {src : List UInt8} {i : Nat} {a : Bool}

/-- What is seen of a pipe. -/
inductive Event (P : Type) where
  | called (p : P) (src : List UInt8)
  | stored (p : P) (b : UInt8)
  | wrote (p : P) (r : Int)
  | got (p : P) (n : Nat) (bs : List UInt8)
  | closed (writable : Bool)

namespace Event

/-- All bytes stored; a history has the newest event first. -/
def storedBytes : List (Event P) → List UInt8
  | [] => []
  | .stored _ b :: h => storedBytes h ++ [b]
  | _ :: h => storedBytes h

/-- All bytes returned by reads. -/
def readBytes : List (Event P) → List UInt8
  | [] => []
  | .got _ _ bs :: h => readBytes h ++ bs
  | _ :: h => readBytes h

/-- The buffer of the last call of `pipewrite` by a process. -/
def lastCall (p : P) : List (Event P) → Option (List UInt8)
  | [] => none
  | .called q src :: h => if q = p then some src else lastCall p h
  | _ :: h => lastCall p h

/-- What a process has stored since it called `pipewrite`. -/
def storedSince (p : P) : List (Event P) → List UInt8
  | [] => []
  | .called q _ :: h => if q = p then [] else storedSince p h
  | .stored q b :: h => if q = p then storedSince p h ++ [b] else storedSince p h
  | _ :: h => storedSince p h

def Fine (h : List (Event P)) : Event P → Prop
  | .wrote p r => r ≠ -1 → ∃ src, lastCall p h = some src ∧ r = src.length ∧ storedSince p h = src
  | .got _ n bs => bs = [] → 0 < n → readBytes h = storedBytes h ∧ .closed true ∈ h
  | _ => True

def AllFine : List (Event P) → Prop
  | [] => True
  | e :: h => Fine h e ∧ AllFine h

theorem AllFine.at {h1 h2 : List (Event P)} {e : Event P} (h : AllFine (h2 ++ e :: h1)) :
    Fine h1 e := by
  induction h2 with
  | nil => exact h.1
  | cons x h2 ih => exact ih h.2

end Event

open Event

def storing (s : State P) (src : List UInt8) (i : Nat) : List UInt8 :=
  (src.drop i).take ((src.drop i).length - (stores s src i).2.length)

def storeEvents (p : P) (zs : List UInt8) : List (Event P) :=
  (zs.map (Event.stored p)).reverse

def wroteEvent (p : P) : Option Int → List (Event P)
  | some r => [.wrote p r]
  | none => []

def gotEvent (p : P) (n : Nat) : Option (Option (List UInt8)) → List (Event P)
  | some (some bs) => [.got p n bs]
  | _ => []

/-- What a step shows. -/
def shows (s : State P) (l : P × Act) : List (Event P) :=
  match l.2, s.pc l.1 with
  | .write src, .idle => [.called l.1 src]
  | .turn _, .writing src i _ =>
    wroteEvent l.1 (pipewrite s l.1 src i).2 ++ storeEvents l.1 (storing s src i)
  | .turn _, .reading n _ => gotEvent l.1 n (piperead s l.1 n).2
  | .close writable, _ => [.closed writable]
  | _, _ => []

/-- The pipe with its history. -/
abbrev recorded : State P × List (Event P) → P × Act → Option (State P × List (Event P)) :=
  recordStep step shows

section Histories

variable (h : List (Event P)) (p q : P) (zs : List UInt8)

omit [DecidableEq P] in
theorem storeEvents_snoc (z : UInt8) :
    storeEvents p (zs ++ [z]) = Event.stored p z :: storeEvents p zs := by
  simp [storeEvents]

omit [DecidableEq P] in
theorem storedBytes_store : storedBytes (storeEvents p zs ++ h) = storedBytes h ++ zs := by
  induction zs using List.reverseRecOn with
  | nil => simp [storeEvents]
  | append_singleton zs z ih => rw [storeEvents_snoc, cons_append, storedBytes, ih, append_assoc]

omit [DecidableEq P] in
theorem readBytes_store : readBytes (storeEvents p zs ++ h) = readBytes h := by
  induction zs using List.reverseRecOn with
  | nil => simp [storeEvents]
  | append_singleton zs z ih =>
    rw [storeEvents_snoc, cons_append, readBytes, ih]
    intro q n bs he
    cases he

theorem lastCall_store : lastCall q (storeEvents p zs ++ h) = lastCall q h := by
  induction zs using List.reverseRecOn with
  | nil => simp [storeEvents]
  | append_singleton zs z ih =>
    rw [storeEvents_snoc, cons_append, lastCall, ih]
    intro r src he
    cases he

theorem storedSince_store :
    storedSince q (storeEvents p zs ++ h) =
      if p = q then storedSince q h ++ zs else storedSince q h := by
  induction zs using List.reverseRecOn with
  | nil => simp [storeEvents]
  | append_singleton zs z ih =>
    rw [storeEvents_snoc, cons_append, storedSince, ih]
    by_cases hpq : p = q
    · simp [hpq]
    · simp [hpq]

theorem allFine_store {h : List (Event P)} (hh : AllFine h) : AllFine (storeEvents p zs ++ h) := by
  induction zs using List.reverseRecOn with
  | nil => simpa [storeEvents] using hh
  | append_singleton zs z ih =>
    rw [storeEvents_snoc, cons_append]
    exact ⟨trivial, ih⟩

end Histories

structure Fifo (s : State P) (h : List (Event P)) : Prop where
  ring : ∃ unread, s.ring.Holds PIPESIZE UINT unread ∧ storedBytes h = readBytes h ++ unread
  writer : ∀ p src i a, s.pc p = .writing src i a →
    lastCall p h = some src ∧ i ≤ src.length ∧ storedSince p h = src.take i
  closed : s.writeopen = false → Event.closed true ∈ h
  fine : AllFine h

section Steps

variable {s : State P} {h : List (Event P)} {p : P}

theorem dvd_uint : PIPESIZE ∣ UINT := by
  decide

theorem lt_uint : PIPESIZE < UINT := by
  decide

theorem wake_eq_writing {c : Chan} {pc : Pc}
    (hw : pc.wake c = .writing src i a) : ∃ b, pc = .writing src i b := by
  cases c with
  | nread =>
    cases pc with
    | idle => cases hw
    | reading n b => cases hw
    | writing src' i' b =>
      cases hw
      exact ⟨a, rfl⟩
  | nwrite =>
    cases pc with
    | idle => cases hw
    | reading n b => cases hw
    | writing src' i' b =>
      cases hw
      exact ⟨b, rfl⟩

theorem rouse_eq_writing {pc : Pc}
    (hw : pc.rouse = .writing src i a) : ∃ b, pc = .writing src i b := by
  cases pc with
  | idle => cases hw
  | reading n b => cases hw
  | writing src' i' b =>
    cases hw
    exact ⟨b, rfl⟩

theorem take_of_append {xs ys zs : List UInt8} (hxs : xs = ys ++ zs) :
    xs.take (xs.length - zs.length) = ys := by
  rw [hxs, length_append, Nat.add_sub_cancel, take_left]

omit [DecidableEq P] in
theorem stores_spec {unread : List UInt8} (hring : s.ring.Holds PIPESIZE UINT unread) :
    src.drop i = storing s src i ++ (stores s src i).2 ∧
      (stores s src i).1.Holds PIPESIZE UINT (unread ++ storing s src i) ∧
      ((stores s src i).2 ≠ [] → (stores s src i).1.Full PIPESIZE UINT) := by
  obtain ⟨zs, hzs, hholds, hfull⟩ := hring.putAll dvd_uint lt_uint (src.drop i)
  have hstoring : storing s src i = zs := take_of_append hzs
  rw [hstoring]
  exact ⟨hzs, hholds, hfull⟩

omit [DecidableEq P] in
theorem take_storing {unread : List UInt8} (hring : s.ring.Holds PIPESIZE UINT unread) :
    src.take i ++ storing s src i = src.take (src.length - (stores s src i).2.length) := by
  obtain ⟨hsplit, _, _⟩ := stores_spec hring
  have hall : src = src.take i ++ storing s src i ++ (stores s src i).2 := by
    rw [append_assoc, ← hsplit, take_append_drop]
  exact (take_of_append hall).symm

theorem Fifo.of_writing {t : State P} (hf : Fifo s h) (hring : t.ring = s.ring)
    (hopen : t.writeopen = s.writeopen)
    (hpc : ∀ q src i a, t.pc q = .writing src i a → ∃ b, s.pc q = .writing src i b) :
    Fifo t h where
  ring := by
    rw [hring]
    exact hf.ring
  writer := by
    intro q src i a hq
    obtain ⟨b, hb⟩ := hpc q src i a hq
    exact hf.writer q src i b hb
  closed := by
    rw [hopen]
    exact hf.closed
  fine := hf.fine

theorem writing_setPc {c : Pc} {q : P}
    (hc : ∀ src i a, c ≠ .writing src i a) (hq : (s.setPc p c).pc q = .writing src i a) :
    q ≠ p ∧ s.pc q = .writing src i a := by
  change update s.pc p c q = _ at hq
  by_cases hqp : q = p
  · subst hqp
    rw [update_self] at hq
    exact absurd hq (hc src i a)
  · rw [update_of_ne hqp] at hq
    exact ⟨hqp, hq⟩

section
variable (hf : Fifo s h)
include hf

theorem Fifo.store (hpc : s.pc p = .writing src i a) (b : Bool) :
    Fifo
      (({ s with ring := (stores s src i).1 }).setPc p
        (.writing src (src.length - (stores s src i).2.length) b))
      (storeEvents p (storing s src i) ++ h) := by
  obtain ⟨unread, hring, hsplit⟩ := hf.ring
  obtain ⟨hcall, _, hsince⟩ := hf.writer p src i a hpc
  obtain ⟨_, hholds, _⟩ := stores_spec (i := i) hring
  constructor
  · refine ⟨unread ++ storing s src i, hholds, ?_⟩
    rw [storedBytes_store, readBytes_store, hsplit, append_assoc]
  · intro q src' i' a' hq
    change update s.pc p _ q = _ at hq
    rw [lastCall_store, storedSince_store]
    by_cases hqp : q = p
    · subst hqp
      rw [update_self] at hq
      cases hq
      refine ⟨hcall, Nat.sub_le _ _, ?_⟩
      rw [if_pos rfl, hsince]
      exact take_storing hring
    · rw [update_of_ne hqp] at hq
      rw [if_neg (Ne.symm hqp)]
      exact hf.writer q src' i' a' hq
  · intro hopen
    exact mem_append_right _ (hf.closed hopen)
  · exact allFine_store p _ hf.fine

theorem Fifo.wrote {r : Int} (hr : Fine h (.wrote p r)) :
    Fifo s (.wrote p r :: h) where
  ring := hf.ring
  writer := hf.writer
  closed := fun hopen => mem_cons_of_mem _ (hf.closed hopen)
  fine := ⟨hr, hf.fine⟩

theorem Fifo.fine_wrote (hpc : s.pc p = .writing src i a) (hall : (stores s src i).2 = []) :
    Fine (storeEvents p (storing s src i) ++ h) (.wrote p src.length) := by
  intro _
  have hself := update_self (β := fun _ => Pc) p
    (.writing src (src.length - (stores s src i).2.length) false) s.pc
  obtain ⟨hcall, _, hsince⟩ := (hf.store hpc false).writer p src _ false hself
  rw [hall, length_nil, Nat.sub_zero, take_length] at hsince
  exact ⟨src, hcall, rfl, hsince⟩

theorem Fifo.copied {n : Nat} {pc : P → Pc} {killed : P → Bool}
    (hready : ¬ (s.Empty ∧ s.writeopen = true))
    (hpc : ∀ q src i a, pc q = .writing src i a → ∃ b, s.pc q = .writing src i b) :
    Fifo { s with ring := (copies s n).2, pc := pc, killed := killed }
      (.got p n (copies s n).1 :: h) := by
  obtain ⟨unread, hring, hsplit⟩ := hf.ring
  obtain ⟨htake, hrest⟩ := hring.takeMax dvd_uint lt_uint n
  have hbytes : (copies s n).1 = unread.take n := htake
  constructor
  · refine ⟨unread.drop n, hrest, ?_⟩
    change storedBytes h = readBytes h ++ (copies s n).1 ++ unread.drop n
    rw [hbytes, append_assoc, take_append_drop, hsplit]
  · intro q src i a hq
    obtain ⟨b, hb⟩ := hpc q src i a hq
    exact hf.writer q src i b hb
  · intro hopen
    exact mem_cons_of_mem _ (hf.closed hopen)
  refine ⟨?_, hf.fine⟩
  intro hnone hn
  rw [hbytes] at hnone
  -- Nothing was copied although something was asked for, so the buffer was empty.
  have hnil : unread = [] := by
    cases unread with
    | nil => rfl
    | cons x xs =>
      obtain ⟨m, rfl⟩ := Nat.exists_eq_succ_of_ne_zero (Nat.ne_of_gt hn)
      cases hnone
  have hempty : s.Empty := (hring.empty_iff lt_uint).mpr hnil
  have hclosed : s.writeopen = false := by
    cases hopen : s.writeopen with
    | false => rfl
    | true => exact absurd ⟨hempty, hopen⟩ hready
  constructor
  · rw [hsplit, hnil, append_nil]
  · exact hf.closed hclosed

theorem Fifo.called (src : List UInt8) :
    Fifo (s.setPc p (.writing src 0 false)) (.called p src :: h) where
  ring := hf.ring
  writer := by
    intro q src' i a hq
    change update s.pc p _ q = _ at hq
    by_cases hqp : q = p
    · subst hqp
      rw [update_self] at hq
      cases hq
      simp [lastCall, storedSince]
    · rw [update_of_ne hqp] at hq
      have hpq : ¬ p = q := Ne.symm hqp
      simpa [lastCall, storedSince, hpq] using hf.writer q src' i a hq
  closed := fun hopen => mem_cons_of_mem _ (hf.closed hopen)
  fine := ⟨trivial, hf.fine⟩

theorem Fifo.close (writable : Bool) : Fifo (pipeclose s writable) (.closed writable :: h) := by
  cases writable with
  | true =>
    refine ⟨hf.ring, ?_, fun _ => mem_cons_self, trivial, hf.fine⟩
    intro q src i a hq
    obtain ⟨b, hb⟩ := wake_eq_writing hq
    exact hf.writer q src i b hb
  | false =>
    refine ⟨hf.ring, ?_, ?_, trivial, hf.fine⟩
    · intro q src i a hq
      obtain ⟨b, hb⟩ := wake_eq_writing hq
      exact hf.writer q src i b hb
    · intro hopen
      exact mem_cons_of_mem _ (hf.closed hopen)

theorem Fifo.move {t : State P} {l : P × Act} (hmove : Move s l t) : Fifo t (shows s l ++ h) := by
  cases hmove with
  | read p n hpc =>
    have hshow : shows s (p, .read n) = [] := by simp [shows]
    rw [hshow]
    refine hf.of_writing rfl rfl ?_
    intro q src i a hq
    exact ⟨a, (writing_setPc (by simp) hq).2⟩
  | write p src hpc =>
    have hshow : shows s (p, .write src) = [.called p src] := by simp [shows, hpc]
    rw [hshow]
    exact hf.called src
  | copied p n late hpc hready =>
    have hshow : shows s (p, .turn late) = [.got p n (copies s n).1] := by
      simp [shows, hpc, piperead, hready, gotEvent]
    rw [hshow]
    refine hf.copied hready ?_
    intro q src i a hq
    change (State.setPc _ p .idle).pc q = _ at hq
    obtain ⟨_, hq'⟩ := writing_setPc (by simp) hq
    exact wake_eq_writing hq'
  | gaveUp p n late hpc hwait hkilled =>
    have hshow : shows s (p, .turn late) = [] := by
      simp [shows, hpc, piperead, hwait, hkilled, gotEvent]
    rw [hshow]
    refine hf.of_writing rfl rfl ?_
    intro q src i a hq
    exact ⟨a, (writing_setPc (by simp) hq).2⟩
  | waited p n late hpc hwait hkilled =>
    have hshow : shows s (p, .turn late) = [] := by
      simp [shows, hpc, piperead, hwait, hkilled, gotEvent]
    rw [hshow]
    refine hf.of_writing rfl rfl ?_
    intro q src i a hq
    exact ⟨a, (writing_setPc (by simp) hq).2⟩
  | stored p src i late hpc hall =>
    have hshow : shows s (p, .turn late) =
        .wrote p src.length :: storeEvents p (storing s src i) := by
      simp [shows, hpc, pipewrite, hall, wroteEvent]
    rw [hshow]
    refine ((hf.store hpc false).wrote (hf.fine_wrote hpc hall)).of_writing rfl rfl ?_
    intro q src' i' a hq
    change (State.setPc _ p .idle).pc q = _ at hq
    obtain ⟨hqp, hq'⟩ := writing_setPc (by simp) hq
    obtain ⟨b, hb⟩ := wake_eq_writing hq'
    exact ⟨b, (update_of_ne hqp _ _).trans hb⟩
  | refused p src i late hpc hrest hstop =>
    have hshow : shows s (p, .turn late) =
        .wrote p (-1) :: storeEvents p (storing s src i) := by
      simp [shows, hpc, pipewrite, hrest, hstop, wroteEvent]
    rw [hshow]
    refine ((hf.store hpc false).wrote (fun hne => absurd rfl hne)).of_writing rfl rfl ?_
    intro q src' i' a hq
    obtain ⟨hqp, hq'⟩ := writing_setPc (by simp) hq
    exact ⟨a, (update_of_ne hqp _ _).trans hq'⟩
  | filled p src i late hpc hrest hgo =>
    have hshow : shows s (p, .turn late) = storeEvents p (storing s src i) := by
      simp [shows, hpc, pipewrite, hrest, hgo, wroteEvent]
    rw [hshow]
    refine (hf.store hpc true).of_writing rfl rfl ?_
    intro q src' i' a hq
    change update _ p _ q = _ at hq
    by_cases hqp : q = p
    · subst hqp
      rw [update_self] at hq
      exact ⟨a, (update_self _ _ _).trans hq⟩
    · rw [update_of_ne hqp] at hq
      obtain ⟨b, hb⟩ := wake_eq_writing hq
      exact ⟨b, (update_of_ne hqp _ _).trans hb⟩
  | close p writable hpc =>
    have hshow : shows s (p, .close writable) = [.closed writable] := by simp [shows]
    rw [hshow]
    exact hf.close writable
  | kill p =>
    have hshow : shows s (p, .kill) = [] := by simp [shows]
    rw [hshow]
    refine hf.of_writing rfl rfl ?_
    intro q src i a hq
    change update s.pc p _ q = _ at hq
    by_cases hqp : q = p
    · subst hqp
      rw [update_self] at hq
      exact rouse_eq_writing hq
    · rw [update_of_ne hqp] at hq
      exact ⟨a, hq⟩

end

theorem fifo_init : Fifo (init P) [] where
  ring := by
    refine ⟨[], ⟨by simp, Nat.two_pow_pos 32, rfl, ?_⟩, rfl⟩
    intro i hi
    cases hi
  writer := by
    intro p src i a hp
    cases hp
  closed := by
    intro hopen
    cases hopen
  fine := trivial

theorem fifo_of_reachable (hreach : Reachable recorded (init P, []) (s, h)) : Fifo s h := by
  refine hreach.invariant (fun st => Fifo st.1 st.2) fifo_init ?_
  intro st l st' hf hstep
  obtain ⟨hs, hh⟩ := recordStep_eq_some.mp hstep
  rw [hh]
  exact hf.move (move_of_step hs)

end Steps

/-- In every run what has been read is a first part of what has been stored, the counters count the
rest, a call that returns its length has stored its bytes in order, and a read returns nothing only
at the end. -/
theorem pipe_is_fifo {s : State P} {h : List (Event P)}
    (hreach : Reachable recorded (init P, []) (s, h)) :
    (∃ unread, storedBytes h = readBytes h ++ unread ∧ unread.length ≤ PIPESIZE ∧
          (s.ring.nwrite + UINT - s.ring.nread) % UINT = unread.length) ∧
      (∀ h₁ h₂ p (r : Int), h = h₂ ++ .wrote p r :: h₁ → r ≠ -1 →
        ∃ src, lastCall p h₁ = some src ∧ r = src.length ∧ storedSince p h₁ = src) ∧
      (∀ h₁ h₂ p n, h = h₂ ++ .got p n [] :: h₁ → 0 < n →
        readBytes h₁ = storedBytes h₁ ∧ .closed true ∈ h₁) := by
  have hf := fifo_of_reachable hreach
  obtain ⟨unread, hring, hsplit⟩ := hf.ring
  refine ⟨⟨unread, hsplit, hring.length, hring.count lt_uint⟩, ?_, ?_⟩
  · intro h₁ h₂ p r hh hr
    have hfine := hf.fine
    rw [hh] at hfine
    exact hfine.at hr
  · intro h₁ h₂ p n hh hn
    have hfine := hf.fine
    rw [hh] at hfine
    exact hfine.at rfl hn

/-- One process writes two bytes and closes, another reads them and then the end. -/
theorem pipe_of_two_bytes :
    ∃ (s : State (Fin 2)) (h : List (Event (Fin 2))), Reachable recorded (init (Fin 2), []) (s, h) ∧
        (∃ h₁, h = [] ++ .got 1 5 [] :: h₁ ∧ readBytes h₁ = storedBytes h₁ ∧ .closed true ∈ h₁) ∧
          storedBytes h = [7, 8] := by
  let ls : List (Fin 2 × Act) :=
    [(0, .write [7, 8]), (0, .turn false), (1, .read 5), (1, .turn false), (0, .close true),
      (1, .read 5), (1, .turn false)]
  have hrun : ∃ s h₁, run recorded (init (Fin 2), []) ls = some (s, .got 1 5 [] :: h₁) ∧
      storedBytes h₁ = [7, 8] :=
    ⟨_, _, rfl, rfl⟩
  obtain ⟨s, h₁, hrun, hstored⟩ := hrun
  have hreach : Reachable recorded (init (Fin 2), []) (s, .got 1 5 [] :: h₁) := ⟨ls, hrun⟩
  refine ⟨s, .got 1 5 [] :: h₁, hreach, ⟨h₁, rfl, ?_⟩, hstored⟩
  exact (pipe_is_fifo hreach).2.2 h₁ [] 1 5 rfl (by decide)

end Xv6.Pipe
