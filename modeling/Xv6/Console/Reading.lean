import Xv6.Console.Writing

/-!
# Reading from the console

`consoleread` waits for a line while it sleeps on `cons.lock`, and then stores one character
after the other with the lock held.  Lines that fill the buffer and contain no newline make it
come to every byte of its buffer.
-/

namespace Xv6.Console

open Lib Lib.Prog Ptable Vm Function

variable {s s' : State} {i i₀ : Input} {j dst n a m : Nat} {K : Symbols} {A : Pool K} {p : Slot}
variable {D : Frame} {k k' k0 : Kernel.State} {E : Halt → State → Prop} {b : UInt8}

def typeAll (i : Input) (cs : List UInt8) : Input :=
  cs.foldl (fun i c => (key i c).input) i

theorem consoleintr_spec {cs : List UInt8} (hcons : s.held .cons = false)
    (hptable : s.held .ptable = false) :
    wp (consoleintr cs)
      (fun _ s' => ∃ out, s' = { s with input := typeAll s.input cs, out := out }) E s := by
  have hother : update s.held .cons true .ptable = false := by simpa using hptable
  have hloop : ∀ (cs : List UInt8) (t : State), t.held .ptable = false → wp (forEach cs typeKey)
        (fun _ s' => ∃ out, s' = { t with input := typeAll t.input cs, out := out }) E t := by
    intro cs
    induction cs with
    | nil =>
      intro t _
      exact ⟨t.out, rfl⟩
    | cons c cs ih =>
      intro t ht
      unfold forEach typeKey
      rw [wp_bind, wp_bind, wp_get, wp_bind, wp_modify, wp_ite]
      -- with or without a wakeup the loop goes on from the same state
      have hnext := ih
        { t with input := (key t.input c).input, out := t.out ++ (key t.input c).out }
        ht
      split
      · rw [wp_wakeup (by exact ht)]
        exact hnext
      · exact hnext
  unfold consoleintr
  rw [wp_bind, wp_acquire hcons]
  refine wp_seq (hloop cs _ hother) ?_
  rintro _ s' ⟨out, rfl⟩
  rw [wp_release (by simp)]
  simp only [update_back hcons]
  exact ⟨out, rfl⟩

def plainKey : UInt8 :=
  'x'.toUInt8

structure Typing (i₀ : Input) (j : Nat) (i : Input) : Prop where
  r : i.r = i₀.r
  w : i.w = i₀.r
  e : i.e = i₀.r + UInt32.ofNat j
  buf : ∀ k < j, i.buf (slot (i₀.r + UInt32.ofNat k)) = plainKey

theorem toNat_slot (r : UInt32) (k : Nat) :
    (slot (r + UInt32.ofNat k)).val = (r.toNat + k) % INPUT_BUF := by
  unfold slot INPUT_BUF
  simp only [UInt32.toNat_add, UInt32.toNat_ofNat']
  omega

theorem slot_ne {r : UInt32} {k : Nat} (hk : k < j) (hj : j < INPUT_BUF) :
    slot (r + UInt32.ofNat k) ≠ slot (r + UInt32.ofNat j) := by
  intro heq
  have hval := congrArg Fin.val heq
  rw [toNat_slot, toNat_slot] at hval
  unfold INPUT_BUF at *
  omega

theorem exists_slot (r : UInt32) (q : Fin INPUT_BUF) :
    ∃ k < INPUT_BUF, slot (r + UInt32.ofNat k) = q := by
  have hq := q.isLt
  refine ⟨(q.val + (INPUT_BUF - r.toNat % INPUT_BUF)) % INPUT_BUF, Nat.mod_lt _ (by decide), ?_⟩
  apply Fin.ext
  rw [toNat_slot]
  unfold INPUT_BUF at *
  omega

theorem key_plain (i : Input) : key i plainKey = insertChar i plainKey := by
  unfold key
  rw [if_neg (by decide), if_neg (by decide), if_neg (by decide)]

theorem Typing.key_eq (h : Typing i₀ j i) (hj : j < INPUT_BUF) :
    (key i plainKey).input =
      { buf := update i.buf (slot (i₀.r + UInt32.ofNat j)) plainKey
        r := i₀.r
        w := if j + 1 = INPUT_BUF then i₀.r + UInt32.ofNat (j + 1) else i₀.r
        e := i₀.r + UInt32.ofNat (j + 1) } := by
  have hcount : (i.e - i.r).toNat < INPUT_BUF := by
    rw [h.e, h.r, UInt32.add_comm, UInt32.add_sub_cancel, UInt32.toNat_ofNat']
    unfold INPUT_BUF at *
    omega
  have hnext : i.e + 1 = i₀.r + UInt32.ofNat (j + 1) := by
    rw [h.e, UInt32.add_assoc, UInt32.ofNat_add]
    rfl
  have hfull : i.e + 1 = i.r + INPUT_BUF.toUInt32 ↔ j + 1 = INPUT_BUF := by
    rw [hnext, h.r, UInt32.add_right_inj]
    constructor
    · intro heq
      have hval := congrArg UInt32.toNat heq
      rw [UInt32.toNat_ofNat'] at hval
      unfold INPUT_BUF at *
      have : (128 : Nat).toUInt32.toNat = 128 := rfl
      omega
    · intro heq
      rw [heq]
  rw [key_plain]
  unfold insertChar
  rw [if_pos ⟨by decide, hcount⟩]
  simp only [show ¬plainKey = '\r'.toUInt8 by decide, show ¬plainKey = newline by decide,
    show ¬plainKey = C 'D' by decide, if_false, false_or, hfull]
  rw [← hnext, ← h.e]
  split
  · simp only [h.r]
  · simp only [h.r, h.w]

theorem Typing.next (h : Typing i₀ j i) (hj : j + 1 < INPUT_BUF) :
    Typing i₀ (j + 1) (key i plainKey).input := by
  rw [h.key_eq (by omega), if_neg (by omega)]
  refine ⟨rfl, rfl, rfl, ?_⟩
  intro k hk
  rcases Nat.lt_succ_iff_lt_or_eq.mp hk with hlt | rfl
  · simp only
    rw [update_of_ne (slot_ne hlt (by omega))]
    exact h.buf k hlt
  · simp only [update_self]

def fullInput (r : UInt32) : Input where
  buf := fun _ => plainKey
  r := r
  w := r + UInt32.ofNat INPUT_BUF
  e := r + UInt32.ofNat INPUT_BUF

theorem Typing.last (h : Typing i₀ j i) (hj : j + 1 = INPUT_BUF) :
    (key i plainKey).input = fullInput i₀.r := by
  rw [h.key_eq (by omega), if_pos hj]
  have hbuf : update i.buf (slot (i₀.r + UInt32.ofNat j)) plainKey =
      fun _ => plainKey := by
    funext q
    obtain ⟨k, hk, rfl⟩ := exists_slot i₀.r q
    rcases Nat.lt_or_ge k j with hlt | hge
    · rw [update_of_ne (slot_ne hlt (by omega))]
      exact h.buf k hlt
    · obtain rfl : k = j := by omega
      rw [update_self]
  unfold fullInput
  rw [hbuf, hj]

def fullLine : List UInt8 :=
  List.replicate INPUT_BUF plainKey

theorem typeAll_fullLine (hw : i.w = i.r) (he : i.e = i.r) :
    typeAll i fullLine = fullInput i.r := by
  have hfrom : ∀ (m j : Nat) (t : Input), Typing i j t → j + (m + 1) = INPUT_BUF →
      typeAll t (List.replicate (m + 1) plainKey) = fullInput i.r := by
    intro m
    induction m with
    | zero =>
      intro j t ht hj
      exact ht.last hj
    | succ m ih =>
      intro j t ht hj
      rw [List.replicate_succ]
      exact ih (j + 1) _ (ht.next (by omega)) (by omega)
  refine hfrom 127 0 i ⟨rfl, hw, ?_, ?_⟩ rfl
  · rw [he]
    exact (UInt32.add_zero _).symm
  · intro k hk
    exact absurd hk (Nat.not_lt_zero k)

structure SamePages (p : Slot) (D : Frame) (k k' : Kernel.State) : Prop where
  sz : (k'.proc p).sz = (k.proc p).sz
  pte : k'.mem.pte D = k.mem.pte D

theorem SamePages.present (h : SamePages p D k k') : Present k' D a ↔ Present k D a := by
  unfold Present
  rw [h.pte]

theorem Buffer.tail (hbuf : Buffer k p D dst (n + 1)) : Buffer k p D (dst + 1) n := by
  intro i hi
  have hbyte := hbuf (i + 1) (by omega)
  rwa [show dst + (i + 1) = dst + 1 + i by omega] at hbyte

theorem Broken.tail (hbroken : Broken k p D dst (n + 1) (j + 1)) : Broken k p D (dst + 1) n j := by
  have hadd : dst + (j + 1) = dst + 1 + j := by omega
  refine ⟨by have := hbroken.lt; omega, ?_, hbroken.before.tail, ?_⟩
  · rw [← hadd]
    exact hbroken.inside
  · rw [← hadd]
    exact hbroken.missing

theorem Caller.setKilled (h : Caller A k p D) :
    Caller A (Kernel.setKilled k p true) p D ∧ SamePages p D k (Kernel.setKilled k p true) := by
  have hproc := Kernel.setKilled_proc k p true
  refine ⟨⟨h.inv.setKilled true, ?_, ?_⟩, ⟨?_, rfl⟩⟩
  · rw [hproc]
    exact h.state
  · rw [hproc]
    exact h.pgdir
  · rw [hproc]

def Happened (p : Slot) (s s' : State) : Event → Prop
  | .typed cs => s'.kernel = s.kernel ∧ s'.input = typeAll s.input cs
  | .kill => s'.kernel = Kernel.setKilled s.kernel p true ∧ s'.input = s.input

theorem happen_spec (hheld : s.held = fun _ => false) :
    wp (happen p)
      (fun _ s' => (s'.held = fun _ => false) ∧ s'.locking = s.locking ∧ s'.ipLocked = s.ipLocked ∧
        ∃ ev, s.events = ev :: s'.events ∧ Happened p s s' ev)
      (fun e _ => e = .asleep ∧ s.events = []) s := by
  unfold happen
  rw [wp_bind, wp_get]
  cases hev : s.events with
  | nil => exact ⟨rfl, rfl⟩
  | cons ev rest =>
    cases ev with
    | typed cs =>
      simp only [wp_bind, wp_modify]
      refine wp_post (consoleintr_spec (by simp only [hheld]) (by simp only [hheld])) ?_
      rintro _ t ⟨out, rfl⟩
      exact ⟨hheld, rfl, rfl, .typed cs, rfl, rfl, rfl⟩
    | kill =>
      simp only [wp_bind, wp_modify, wp_onKernel, Kernel.wp_updProc]
      exact ⟨hheld, trivial, trivial, .kill, rfl, rfl, rfl⟩

theorem Busy.sleep (h : Busy s) :
    wp (sleep .cons (happen p))
      (fun _ s' => Busy s' ∧ ∃ ev, s.events = ev :: s'.events ∧ Happened p s s' ev)
      (fun e _ => e = .asleep ∧ s.events = []) s := by
  have hback : update (update (update s.held .ptable true) .cons false)
      .ptable false = fun _ => false := by
    rw [h.held]
    funext l
    cases l with
    | cons => rfl
    | kmem => rfl
    | ptable => rfl
    | log => rfl
    | inode => rfl
  unfold Console.sleep
  rw [wp_bind, wp_acquire (by simp [h.held]), wp_bind, wp_release (by simp [h.held]), wp_bind,
    wp_release (by simp), wp_bind]
  simp only [hback]
  refine wp_post (happen_spec rfl) ?_
  rintro _ t ⟨hheld, hlocking, hip, ev, hev, hhap⟩
  rw [wp_bind, wp_acquire (by rw [hheld]), wp_bind, wp_release (by simp)]
  simp only [update_back (show t.held .ptable = false by rw [hheld])]
  rw [wp_acquire (by rw [hheld])]
  refine ⟨⟨?_, hlocking.trans h.locking, hip.trans h.ipLocked⟩, ev, hev, ?_⟩
  · rw [hheld]
  · cases ev with
    | typed cs => exact hhap
    | kill => exact hhap

structure Reading (A : Pool K) (p : Slot) (D : Frame) (s₀ : Kernel.State) (s : State) : Prop where
  busy : Busy s
  caller : Caller A s.kernel p D
  same : SamePages p D s₀ s.kernel

theorem Reading.happened {ev : Event} (h : Reading A p D k0 s) (hbusy : Busy s')
    (hev : Happened p s s' ev) : Reading A p D k0 s' := by
  cases ev with
  | typed cs =>
    obtain ⟨hk, _⟩ := hev
    refine ⟨hbusy, ?_, ?_⟩
    · rw [hk]
      exact h.caller
    · rw [hk]
      exact h.same
  | kill =>
    obtain ⟨hk, _⟩ := hev
    obtain ⟨hcaller, hsame⟩ := h.caller.setKilled
    rw [← hk] at hcaller hsame
    exact ⟨hbusy, hcaller, hsame.sz.trans h.same.sz, hsame.pte.trans h.same.pte⟩

theorem Reading.wait (h : Reading A p D k0 s) (m : Nat) :
    wp (waitInput p m) (fun _ s' => Reading A p D k0 s') (fun e _ => e = .asleep) s := by
  induction m generalizing s with
  | zero => rfl
  | succ m ih =>
    unfold waitInput
    rw [wp_bind, wp_get, wp_ite]
    split
    · rw [wp_ite]
      split
      · exact h
      · rw [wp_bind]
        refine wp_mono h.busy.sleep ?_ fun _ _ he => he.1
        rintro _ s' ⟨hbusy, ev, _, hev⟩
        exact ih (h.happened hbusy hev)
    · exact h

theorem wp_store {Q : Unit → State → Prop}
    (h : Caller A s.kernel p D) (ha : a < (s.kernel.proc p).sz) (hP : Present s.kernel D a) :
    wp (store K p a b) Q E s ↔
      Q () { s with kernel := { s.kernel with
        mem := Kernel.setByteAt s.kernel.mem
          (pteFrame (s.kernel.mem.pte D (a / 4096))) a b } } := by
  unfold store
  rw [wp_bind, wp_access h ha hP, wp_onKernel, wp_modify]

section
variable (h : Reading A p D k0 s)
include h

theorem Reading.store (ha : a < (k0.proc p).sz) (hP : Present k0 D a) :
    wp (store K p a b)
      (fun _ s' => Reading A p D k0 s' ∧ s'.input = s.input ∧ s'.events = s.events ∧
        s'.kernel.proc = s.kernel.proc) (fun _ _ => False) s := by
  rw [← h.same.sz] at ha
  rw [← h.same.present] at hP
  rw [wp_store h.caller ha hP]
  obtain ⟨hcaller, hpte⟩ := h.caller.setByteAt ha hP b
  exact ⟨⟨⟨h.busy.held, h.busy.locking, h.busy.ipLocked⟩, hcaller, h.same.sz,
    hpte.trans h.same.pte⟩, rfl, rfl, rfl⟩

theorem Reading.setInput (i : Input) : Reading A p D k0 { s with input := i } :=
  ⟨⟨h.busy.held, h.busy.locking, h.busy.ipLocked⟩, h.caller, h.same⟩

theorem readLoop_safe {target : Nat} (hbuf : Buffer k0 p D dst n) :
    wp (readLoop K p target n dst) (fun _ s' => Busy s') (fun e _ => e = .asleep) s := by
  induction n generalizing s dst with
  | zero => exact h.busy
  | succ n ih =>
    unfold readLoop
    rw [wp_bind, wp_get]
    refine wp_seq (h.wait _) ?_
    intro ready s1 h1
    cases ready with
    | false => exact h1.busy
    | true =>
      unfold nextChar
      rw [wp_ite, if_pos rfl, wp_bind, wp_bind, wp_get, wp_bind, wp_modify, wp_pure, wp_ite]
      have h2 := h1.setInput { s1.input with r := s1.input.r + 1 }
      split
      · unfold unread
        rw [wp_bind, wp_ite]
        split
        · exact (h2.setInput _).busy
        · exact h2.busy
      obtain ⟨hin, hP⟩ := hbuf 0 (Nat.succ_pos n)
      rw [wp_bind]
      refine wp_mono (h2.store hin hP) ?_ fun _ _ he => he.elim
      rintro _ s3 ⟨h3, _⟩
      rw [wp_ite]
      split
      · exact h3.busy
      · exact ih h3 hbuf.tail

end

/-- Every character that can be read is a plain one, and nothing is being edited. -/
structure Plain (i : Input) : Prop where
  e : i.e = i.w
  buf : i.r ≠ i.w → ∀ q, i.buf q = plainKey

theorem plain_fullInput (r : UInt32) : Plain (fullInput r) :=
  ⟨rfl, fun _ _ => rfl⟩

theorem fullInput_ne (r : UInt32) : (fullInput r).r ≠ (fullInput r).w := by
  intro heq
  have hzero : r + 0 = r + UInt32.ofNat INPUT_BUF := (UInt32.add_zero r).trans heq
  have h := (UInt32.add_right_inj r).mp hzero
  exact absurd h (by decide)

structure Supplied (p : Slot) (m : Nat) (s : State) : Prop where
  plain : Plain s.input
  events : s.events = List.replicate m (.typed fullLine)
  alive : (s.kernel.proc p).killed = false

theorem Supplied.wait {c : Nat} (hbusy : Busy s) (h : Supplied p (m + 1) s) :
    wp (waitInput p (c + 2))
      (fun ready s' => ready = true ∧ Busy s' ∧ s'.kernel = s.kernel ∧ s'.input.r ≠ s'.input.w ∧
        ∃ m' ≥ m, Supplied p m' s') (fun _ _ => False) s := by
  unfold waitInput
  rw [wp_bind, wp_get, wp_ite]
  by_cases hempty : s.input.r = s.input.w
  · rw [if_pos hempty, wp_ite, if_neg (by rw [h.alive]; decide), wp_bind]
    refine wp_mono hbusy.sleep ?_ ?_
    · rintro _ s' ⟨hbusy', ev, hev, hhap⟩
      rw [h.events, List.replicate_succ, List.cons.injEq] at hev
      obtain ⟨rfl, hrest⟩ := hev
      obtain ⟨hk, hinput⟩ := hhap
      rw [typeAll_fullLine hempty.symm (h.plain.e.trans hempty.symm)] at hinput
      unfold waitInput
      rw [wp_bind, wp_get, wp_ite, if_neg (by rw [hinput]; exact fullInput_ne _)]
      refine ⟨rfl, hbusy', hk, ?_, m, le_rfl, ?_, hrest.symm, ?_⟩
      · rw [hinput]
        exact fullInput_ne _
      · rw [hinput]
        exact plain_fullInput _
      · rw [hk]
        exact h.alive
    · rintro _ _ ⟨_, hnil⟩
      rw [h.events] at hnil
      cases hnil
  · rw [if_neg hempty]
    exact ⟨rfl, hbusy, rfl, hempty, m + 1, by omega, h⟩

theorem readLoop_panics {target : Nat} (h : Reading A p D k0 s)
    (hsupplied : Supplied p (m + 1) s) (hm : j ≤ m) (hbroken : Broken k0 p D dst n j) :
    wp (readLoop K p target n dst) (fun _ _ => False) (fun e _ => e = .acquire .cons) s := by
  induction n generalizing s dst j m with
  | zero => exact absurd hbroken.lt (Nat.not_lt_zero j)
  | succ n ih =>
    have hlen : s.events.length + 1 = m + 2 := by rw [hsupplied.events, List.length_replicate]
    unfold readLoop
    rw [wp_bind, wp_get, wp_bind, hlen]
    refine wp_mono (hsupplied.wait h.busy) ?_ fun _ _ he => he.elim
    rintro ready s1 ⟨rfl, hbusy1, hk1, hne, m', hm', hsupplied1⟩
    have hplain : s1.input.buf (slot s1.input.r) = plainKey := hsupplied1.plain.buf hne _
    have h1 : Reading A p D k0 s1 := by
      refine ⟨hbusy1, ?_, ?_⟩
      · rw [hk1]
        exact h.caller
      · rw [hk1]
        exact h.same
    have h2 := h1.setInput { s1.input with r := s1.input.r + 1 }
    unfold nextChar
    rw [wp_ite, if_pos rfl, wp_bind, wp_bind, wp_get, wp_bind, wp_modify, wp_pure, wp_ite,
      hplain, if_neg (by decide), wp_bind]
    cases j with
    | zero =>
      unfold store
      refine wp_seq (access_panics h2.caller ?_ h2.busy.locking h2.busy.held_cons
        h2.busy.held_kmem ?_) ?_
      · rw [h2.same.sz]
        exact hbroken.inside
      · rw [h2.same.present]
        exact hbroken.missing
      · intro _ _ hc
        exact hc.elim
    | succ j =>
      obtain ⟨hin, hP⟩ := hbroken.before 0 (Nat.succ_pos j)
      refine wp_mono (h2.store hin hP) ?_ fun _ _ he => he.elim
      rintro _ s3 ⟨h3, hinput3, hevents3, hproc3⟩
      rw [wp_ite, if_neg (by decide)]
      obtain ⟨m'', rfl⟩ : ∃ q, m' = q + 1 := ⟨m' - 1, by omega⟩
      refine ih h3 ⟨?_, hevents3.trans hsupplied1.events, ?_⟩ (by omega) hbroken.tail
      · rw [hinput3]
        exact ⟨hsupplied1.plain.e, fun _ => hsupplied1.plain.buf hne⟩
      · rw [hproc3]
        exact hsupplied1.alive

theorem fileread_safe (h : Quiet false s) (hcaller : Caller A s.kernel p D)
    (hbuf : Buffer s.kernel p D dst n) :
    wp (fileread K p dst n) (fun _ _ => True) (fun e _ => e = .asleep) s := by
  unfold fileread consoleread
  rw [wp_bind, wp_ilock (by rw [h.held]), wp_bind]
  refine wp_enter ⟨h.held, h.locking, rfl⟩ ?_
  intro s1 hbusy hk _ _
  rw [wp_bind]
  have hreading : Reading A p D s.kernel s1 := by
    refine ⟨hbusy, ?_, ?_⟩
    · rw [hk]
      exact hcaller
    · rw [hk]
      exact ⟨rfl, rfl⟩
  refine wp_post (readLoop_safe hreading hbuf) ?_
  intro left s2 hbusy2
  refine wp_leave hbusy2 ?_
  intro s3 hquiet _
  have hend : ∀ r : Int, wp (do
      iunlock
      pure r) (fun _ _ => True) (fun e _ => e = .asleep) s3 := by
    intro r
    rw [wp_bind, wp_iunlock (by rw [hquiet.held]) (by rw [hquiet.held]) hquiet.ipLocked]
    trivial
  cases left with
  | none => exact hend (-1)
  | some left => exact hend (n - left)

theorem fileread_panics (h : Quiet false s) (hcaller : Caller A s.kernel p D)
    (hsupplied : Supplied p (m + 1) s) (hm : j ≤ m) (hbroken : Broken s.kernel p D dst n j) :
    wp (fileread K p dst n) (fun _ _ => False) (fun e _ => e = .acquire .cons) s := by
  unfold fileread consoleread
  rw [wp_bind, wp_ilock (by rw [h.held]), wp_bind]
  refine wp_enter ⟨h.held, h.locking, rfl⟩ ?_
  intro s1 hbusy hk hinput hevents
  rw [wp_bind]
  have hreading : Reading A p D s.kernel s1 := by
    refine ⟨hbusy, ?_, ?_⟩
    · rw [hk]
      exact hcaller
    · rw [hk]
      exact ⟨rfl, rfl⟩
  have hsupplied1 : Supplied p (m + 1) s1 := by
    refine ⟨?_, hevents.trans hsupplied.events, ?_⟩
    · rw [hinput]
      exact hsupplied.plain
    · rw [hk]
      exact hsupplied.alive
  refine wp_post (readLoop_panics hreading hsupplied1 hm hbroken) ?_
  intro _ _ hc
  exact hc.elim

end Xv6.Console
