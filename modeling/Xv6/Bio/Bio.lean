import Xv6.Lib.Counting
import Xv6.Lib.DoubleRing
import Xv6.Lib.Transition
import Xv6.Log.Cache

/-!
# The buffer cache with any number of processes

`binit`, `bget`, `bread`, `bwrite` and `brelse` (bio.c), `log_write` (log.c) and the
`iderw` of memide.c, called by any number of processes.  What a process does while it
holds `bcache.lock` or `log.lock` is one step, and so is taking or releasing the
sleep-lock of a buffer.  Between two such steps other processes may take theirs.

The processes keep to the rules of bio.c: the device is not 0, a buffer is modified,
logged and written only by the process that holds its lock, and a buffer that has been
modified is released only after `log_write` or `bwrite`; `unsaved` records that this is
still to be done.  What the rest of log.c does to the log is a step of its own.

A panic ends the run: the step is not enabled.  `refcnt` counts processes, of which
there are at most 64, so that it does not overflow.
-/

namespace Xv6.Bio

open Lib Function
open Log (Block Addr NBUF LOGSIZE)

variable {accepts : Addr → Bool}

abbrev Node := Option (Fin NBUF)

/-- `struct buf`, without the pointers. -/
structure Buf (P : Type) where
  valid : Bool
  dirty : Bool
  dev : Nat
  blockno : Nat
  lock : Option P
  refcnt : Nat
  data : Block

def Buf.key {P : Type} (b : Buf P) : Addr :=
  (b.dev, b.blockno)

/-- The fields of `struct log` that `log_write` uses; `block` has `lh.n` entries. -/
structure LogState where
  block : List Nat
  size : Int
  outstanding : Int

/-- Where a process is: in `bread` of a block, in `log_write`, in `bwrite` or in `brelse`. -/
inductive Pc where
  | idle
  | locking (i : Fin NBUF) (a : Addr)
  | filling (i : Fin NBUF) (a : Addr)
  | logging (i : Fin NBUF)
  | writing (i : Fin NBUF)
  | releasing (i : Fin NBUF)
deriving DecidableEq

/-- `bcache`, the log, the disk and the processes. -/
structure State (P : Type) where
  buf : Fin NBUF → Buf P
  links : Links Node
  log : LogState
  disk : Addr → Block
  pc : P → Pc
  unsaved : Fin NBUF → Bool

inductive Act where
  | bread (a : Addr)
  | modify (i : Fin NBUF) (data : Block)
  | logWrite (i : Fin NBUF)
  | bwrite (i : Fin NBUF)
  | brelse (i : Fin NBUF)
  | turn
  | log (log : LogState)

section Steps

variable {P : Type} [DecidableEq P]

namespace State

def setPc (s : State P) (p : P) (c : Pc) : State P :=
  { s with pc := update s.pc p c }

def setBuf (s : State P) (i : Fin NBUF) (b : Buf P) : State P :=
  { s with buf := update s.buf i b }

def setUnsaved (s : State P) (i : Fin NBUF) (u : Bool) : State P :=
  { s with unsaved := update s.unsaved i u }

def setDisk (s : State P) (a : Addr) (data : Block) : State P :=
  { s with disk := update s.disk a data }

def key (s : State P) (i : Fin NBUF) : Addr :=
  (s.buf i).key

end State

def stopAt (test : Fin NBUF → Bool) : Node → Bool
  | none => true
  | some i => test i

/-- A loop over the list, along `next` or along `prev`, from the head back to the head. -/
def scan (ptr : Node → Node) (test : Fin NBUF → Bool) : Option (Fin NBUF) :=
  (seek ptr (stopAt test) (NBUF + 1) (ptr none)).join

def bget (s : State P) (p : P) (a : Addr) : Option (State P) :=
  match scan s.links.next fun i => s.key i = a with
  | some i =>
    some ((s.setBuf i { s.buf i with refcnt := (s.buf i).refcnt + 1 }).setPc p (.locking i a))
  | none =>
    match scan s.links.prev fun i => (s.buf i).refcnt = 0 ∧ (s.buf i).dirty = false with
    | some i =>
      some ((s.setBuf i
        { s.buf i with
          dev := a.1
          blockno := a.2
          valid := false
          dirty := false
          refcnt := 1 }).setPc p (.locking i a))
    | none => none

/-- The requests that memide.c does not panic on, for a disk of `disksize` blocks. -/
def memide (disksize : Nat) (a : Addr) : Bool :=
  a.1 = 1 ∧ a.2 < disksize

def iderw (accepts : Addr → Bool) (s : State P) (p : P) (i : Fin NBUF) : Option (State P) :=
  if (s.buf i).lock ≠ some p then none
  else if (s.buf i).valid = true ∧ (s.buf i).dirty = false then none
  else if accepts (s.key i) = false then none
  else if (s.buf i).dirty = true then
    some ((s.setDisk (s.key i) (s.buf i).data).setBuf i
      { s.buf i with dirty := false, valid := true })
  else some (s.setBuf i { s.buf i with data := s.disk (s.key i), valid := true })

def bread (accepts : Addr → Bool) (s : State P) (p : P) (i : Fin NBUF) : Option (State P) :=
  if (s.buf i).valid = false then iderw accepts s p i else some s

def LogState.absorb (lg : LogState) (blockno : Nat) : LogState :=
  if blockno ∈ lg.block then lg else { lg with block := lg.block ++ [blockno] }

def LogState.Room (lg : LogState) : Prop :=
  ¬((LOGSIZE : Int) ≤ lg.block.length ∨ lg.size - 1 ≤ lg.block.length) ∧ 1 ≤ lg.outstanding

instance (lg : LogState) : Decidable lg.Room :=
  inferInstanceAs (Decidable (_ ∧ _))

def logWrite (s : State P) (i : Fin NBUF) : State P :=
  ({ s with log := s.log.absorb (s.buf i).blockno }.setBuf i
    { s.buf i with dirty := true }).setUnsaved i false

/-- `brelse` with `bcache.lock` held: the last one moves the buffer to the front. -/
def brelse (s : State P) (i : Fin NBUF) : State P :=
  if (s.buf i).refcnt - 1 = 0 then
    { s.setBuf i { s.buf i with refcnt := (s.buf i).refcnt - 1 } with
      links := (s.links.unlink (some i)).push none (some i) }
  else s.setBuf i { s.buf i with refcnt := (s.buf i).refcnt - 1 }

/-- One step of a process. -/
def step (accepts : Addr → Bool) (s : State P) (l : P × Act) : Option (State P) :=
  match l.2, s.pc l.1 with
  | .bread a, .idle => if a.1 = 0 then none else bget s l.1 a
  | .turn, .locking i a =>
    if (s.buf i).lock = none then
      some ((s.setBuf i { s.buf i with lock := some l.1 }).setPc l.1 (.filling i a))
    else none
  | .turn, .filling i _ => (bread accepts s l.1 i).map fun t => t.setPc l.1 .idle
  | .modify i data, .idle =>
    if (s.buf i).lock = some l.1 then
      some ((s.setBuf i { s.buf i with data := data }).setUnsaved i true)
    else none
  | .logWrite i, .idle =>
    if (s.buf i).lock = some l.1 ∧ s.log.Room then some (s.setPc l.1 (.logging i)) else none
  | .turn, .logging i => some ((logWrite s i).setPc l.1 .idle)
  | .bwrite i, .idle =>
    if (s.buf i).lock = some l.1 then
      some ((s.setBuf i { s.buf i with dirty := true }).setPc l.1 (.writing i))
    else none
  | .turn, .writing i =>
    (iderw accepts s l.1 i).map fun t => (t.setUnsaved i false).setPc l.1 .idle
  | .brelse i, .idle =>
    if (s.buf i).lock = some l.1 ∧ s.unsaved i = false then
      some ((s.setBuf i { s.buf i with lock := none }).setPc l.1 (.releasing i))
    else none
  | .turn, .releasing i => some ((brelse s i).setPc l.1 .idle)
  | .log lg, _ => some { s with log := lg }
  | _, _ => none

def binit (l : Links Node) : Links Node :=
  (List.finRange NBUF).foldl (fun l i => l.push none (some i)) ⟨update l.next none none,
    update l.prev none none⟩

/-- The cache after `binit`: everything else is zero. -/
def boot (disk : Addr → Block) (log : LogState) : State P where
  buf := fun _ =>
    { valid := false, dirty := false, dev := 0, blockno := 0, lock := none, refcnt := 0,
      data := fun _ => 0 }
  links := binit ⟨fun _ => none, fun _ => none⟩
  log := log
  disk := disk
  pc := fun _ => .idle
  unsaved := fun _ => false

end Steps

section Fields

variable {P : Type} (s : State P) (p : P) (i j : Fin NBUF) (a : Addr)

@[simp, grind =] theorem setBuf_buf (b : Buf P) :
    (s.setBuf i b).buf j = if j = i then b else s.buf j := by
  simp [State.setBuf, update_apply]

@[simp, grind =] theorem setBuf_key (b : Buf P) :
    (s.setBuf i b).key j = if j = i then b.key else s.key j := by
  simp only [State.key, setBuf_buf, apply_ite Buf.key]

@[simp, grind =] theorem setBuf_pc (b : Buf P) : (s.setBuf i b).pc p = s.pc p := rfl

@[simp, grind =] theorem setBuf_disk (b : Buf P) : (s.setBuf i b).disk a = s.disk a := rfl

@[simp, grind =] theorem setBuf_unsaved (b : Buf P) : (s.setBuf i b).unsaved j = s.unsaved j := rfl

@[simp, grind =] theorem setUnsaved_buf (u : Bool) : (s.setUnsaved i u).buf j = s.buf j := rfl

@[simp, grind =] theorem setUnsaved_key (u : Bool) : (s.setUnsaved i u).key j = s.key j := rfl

@[simp, grind =] theorem setUnsaved_pc (u : Bool) : (s.setUnsaved i u).pc p = s.pc p := rfl

@[simp, grind =] theorem setUnsaved_disk (u : Bool) : (s.setUnsaved i u).disk a = s.disk a := rfl

@[simp, grind =] theorem setUnsaved_unsaved (u : Bool) :
    (s.setUnsaved i u).unsaved j = if j = i then u else s.unsaved j := by
  simp [State.setUnsaved, update_apply]

@[simp, grind =] theorem setDisk_buf (data : Block) : (s.setDisk a data).buf j = s.buf j := rfl

@[simp, grind =] theorem setDisk_key (data : Block) : (s.setDisk a data).key j = s.key j := rfl

@[simp, grind =] theorem setDisk_pc (data : Block) : (s.setDisk a data).pc p = s.pc p := rfl

@[simp, grind =] theorem setDisk_disk (data : Block) (b : Addr) :
    (s.setDisk a data).disk b = if b = a then data else s.disk b := by
  simp [State.setDisk, update_apply]

@[simp, grind =] theorem setDisk_unsaved (data : Block) :
    (s.setDisk a data).unsaved j = s.unsaved j := rfl

@[simp, grind =] theorem logWrite_buf :
    (logWrite s i).buf j = if j = i then { s.buf i with dirty := true } else s.buf j :=
  setBuf_buf ..

@[simp, grind =] theorem logWrite_key : (logWrite s i).key j = s.key j := by
  simp only [State.key, logWrite_buf]
  split
  case isTrue h => rw [h]; rfl
  case isFalse => rfl

@[simp, grind =] theorem logWrite_pc : (logWrite s i).pc p = s.pc p := rfl

@[simp, grind =] theorem logWrite_disk : (logWrite s i).disk a = s.disk a := rfl

@[simp, grind =] theorem logWrite_unsaved :
    (logWrite s i).unsaved j = if j = i then false else s.unsaved j :=
  setUnsaved_unsaved ..

@[simp, grind =] theorem brelse_buf :
    (brelse s i).buf j =
      if j = i then { s.buf i with refcnt := (s.buf i).refcnt - 1 } else s.buf j := by
  unfold brelse
  split
  · exact setBuf_buf ..
  · exact setBuf_buf ..

@[simp, grind =] theorem brelse_key : (brelse s i).key j = s.key j := by
  simp only [State.key, brelse_buf]
  split
  case isTrue h => rw [h]; rfl
  case isFalse => rfl

@[simp, grind =] theorem brelse_pc : (brelse s i).pc p = s.pc p := by
  unfold brelse
  split
  · rfl
  · rfl

@[simp, grind =] theorem brelse_disk : (brelse s i).disk a = s.disk a := by
  unfold brelse
  split
  · rfl
  · rfl

@[simp, grind =] theorem brelse_unsaved : (brelse s i).unsaved j = s.unsaved j := by
  unfold brelse
  split
  · rfl
  · rfl

variable [DecidableEq P]

@[simp, grind =] theorem setPc_buf (c : Pc) : (s.setPc p c).buf j = s.buf j := rfl

@[simp, grind =] theorem setPc_key (c : Pc) : (s.setPc p c).key j = s.key j := rfl

@[simp, grind =] theorem setPc_pc (c : Pc) (q : P) :
    (s.setPc p c).pc q = if q = p then c else s.pc q := by
  simp [State.setPc, update_apply]

@[simp, grind =] theorem setPc_disk (c : Pc) : (s.setPc p c).disk a = s.disk a := rfl

@[simp, grind =] theorem setPc_unsaved (c : Pc) : (s.setPc p c).unsaved j = s.unsaved j := rfl

end Fields

section Moves

variable {P : Type} [DecidableEq P]

/-- The ways in which a step changes the state, one for each way out of a critical section. -/
inductive Move (accepts : Addr → Bool) (s : State P) : P × Act → State P → Prop where
  | found (p : P) (a : Addr) (i : Fin NBUF) (hpc : s.pc p = .idle) (hdev : a.1 ≠ 0)
      (hscan : scan s.links.next (fun i => s.key i = a) = some i) :
      Move accepts s (p, .bread a)
        ((s.setBuf i { s.buf i with refcnt := (s.buf i).refcnt + 1 }).setPc p (.locking i a))
  | recycled (p : P) (a : Addr) (i : Fin NBUF) (hpc : s.pc p = .idle) (hdev : a.1 ≠ 0)
      (hmiss : scan s.links.next (fun i => s.key i = a) = none)
      (hscan : scan s.links.prev
        (fun i => (s.buf i).refcnt = 0 ∧ (s.buf i).dirty = false) = some i) :
      Move accepts s (p, .bread a)
        ((s.setBuf i
          { s.buf i with
            dev := a.1
            blockno := a.2
            valid := false
            dirty := false
            refcnt := 1 }).setPc p (.locking i a))
  | locked (p : P) (i : Fin NBUF) (a : Addr) (hpc : s.pc p = .locking i a)
      (hfree : (s.buf i).lock = none) :
      Move accepts s (p, .turn)
        ((s.setBuf i { s.buf i with lock := some p }).setPc p (.filling i a))
  | hit (p : P) (i : Fin NBUF) (a : Addr) (hpc : s.pc p = .filling i a)
      (hvalid : (s.buf i).valid = true) :
      Move accepts s (p, .turn) (s.setPc p .idle)
  | filled (p : P) (i : Fin NBUF) (a : Addr) (hpc : s.pc p = .filling i a)
      (hvalid : (s.buf i).valid = false) (t : State P) (ht : iderw accepts s p i = some t) :
      Move accepts s (p, .turn) (t.setPc p .idle)
  | modified (p : P) (i : Fin NBUF) (data : Block) (hpc : s.pc p = .idle)
      (hlock : (s.buf i).lock = some p) :
      Move accepts s (p, .modify i data)
        ((s.setBuf i { s.buf i with data := data }).setUnsaved i true)
  | logging (p : P) (i : Fin NBUF) (hpc : s.pc p = .idle) (hlock : (s.buf i).lock = some p)
      (hroom : s.log.Room) :
      Move accepts s (p, .logWrite i) (s.setPc p (.logging i))
  | logged (p : P) (i : Fin NBUF) (hpc : s.pc p = .logging i) :
      Move accepts s (p, .turn) ((logWrite s i).setPc p .idle)
  | writing (p : P) (i : Fin NBUF) (hpc : s.pc p = .idle) (hlock : (s.buf i).lock = some p) :
      Move accepts s (p, .bwrite i)
        ((s.setBuf i { s.buf i with dirty := true }).setPc p (.writing i))
  | written (p : P) (i : Fin NBUF) (hpc : s.pc p = .writing i) (t : State P)
      (ht : iderw accepts s p i = some t) :
      Move accepts s (p, .turn) ((t.setUnsaved i false).setPc p .idle)
  | releasing (p : P) (i : Fin NBUF) (hpc : s.pc p = .idle) (hlock : (s.buf i).lock = some p)
      (hsaved : s.unsaved i = false) :
      Move accepts s (p, .brelse i)
        ((s.setBuf i { s.buf i with lock := none }).setPc p (.releasing i))
  | released (p : P) (i : Fin NBUF) (hpc : s.pc p = .releasing i) :
      Move accepts s (p, .turn) ((brelse s i).setPc p .idle)
  | log (p : P) (lg : LogState) :
      Move accepts s (p, .log lg) { s with log := lg }

theorem move_of_bget {s t : State P} {p : P} {a : Addr}
    (hpc : s.pc p = .idle) (hdev : a.1 ≠ 0) (h : bget s p a = some t) :
    Move accepts s (p, .bread a) t := by
  unfold bget at h
  cases hscan : scan s.links.next (fun i => s.key i = a) with
  | some i =>
    simp only [hscan] at h
    cases h
    exact .found p a i hpc hdev hscan
  | none =>
    simp only [hscan] at h
    cases hold : scan s.links.prev
        (fun i => (s.buf i).refcnt = 0 ∧ (s.buf i).dirty = false) with
    | some i =>
      simp only [hold] at h
      cases h
      exact .recycled p a i hpc hdev hscan hold
    | none =>
      simp only [hold] at h
      cases h

theorem move_of_step {s t : State P} {l : P × Act}
    (h : step accepts s l = some t) : Move accepts s l t := by
  obtain ⟨p, act⟩ := l
  simp only [step] at h
  split at h
  case h_1 a hpc =>
      split at h
      case isTrue => cases h
      case isFalse hdev => exact move_of_bget hpc hdev h
  case h_2 i a hpc =>
      split at h
      case isTrue hfree =>
          cases h
          exact .locked p i a hpc hfree
      case isFalse => cases h
  case h_3 i a hpc =>
      obtain ⟨t, ht, rfl⟩ := Option.map_eq_some_iff.mp h
      unfold bread at ht
      split at ht
      case isTrue hvalid => exact .filled p i a hpc hvalid t ht
      case isFalse hvalid =>
          cases ht
          exact .hit p i a hpc (by simpa using hvalid)
  case h_4 i data hpc =>
      split at h
      case isTrue hlock =>
          cases h
          exact .modified p i data hpc hlock
      case isFalse => cases h
  case h_5 i hpc =>
      split at h
      case isTrue hlock =>
          cases h
          exact .logging p i hpc hlock.1 hlock.2
      case isFalse => cases h
  case h_6 i hpc =>
      cases h
      exact .logged p i hpc
  case h_7 i hpc =>
      split at h
      case isTrue hlock =>
          cases h
          exact .writing p i hpc hlock
      case isFalse => cases h
  case h_8 i hpc =>
      obtain ⟨t, ht, rfl⟩ := Option.map_eq_some_iff.mp h
      exact .written p i hpc t ht
  case h_9 i hpc =>
      split at h
      case isTrue hlock =>
          cases h
          exact .releasing p i hpc hlock.1 hlock.2
      case isFalse => cases h
  case h_10 i hpc =>
      cases h
      exact .released p i hpc
  case h_11 _ lg =>
      cases h
      exact .log p lg
  case h_12 => cases h

theorem iderw_cases {s t : State P} {p : P} {i : Fin NBUF} (h : iderw accepts s p i = some t) :
    (s.buf i).lock = some p ∧ ((s.buf i).dirty = true ∧
          t = (s.setDisk (s.key i) (s.buf i).data).setBuf i
            { s.buf i with dirty := false, valid := true } ∨
        (s.buf i).dirty = false ∧ (s.buf i).valid = false ∧
          t = s.setBuf i { s.buf i with data := s.disk (s.key i), valid := true }) := by
  unfold iderw at h
  split at h
  case isTrue => cases h
  case isFalse hlock =>
      refine ⟨not_not.mp hlock, ?_⟩
      split at h
      case isTrue => cases h
      case isFalse hidle =>
          split at h
          case isTrue => cases h
          case isFalse =>
              split at h
              case isTrue hdirty =>
                  cases h
                  exact .inl ⟨hdirty, rfl⟩
              case isFalse hclean =>
                  cases h
                  have hclean : (s.buf i).dirty = false := by simpa using hclean
                  refine .inr ⟨hclean, ?_, rfl⟩
                  cases hvalid : (s.buf i).valid with
                  | false => rfl
                  | true => exact absurd ⟨hvalid, hclean⟩ hidle

end Moves

end Xv6.Bio
