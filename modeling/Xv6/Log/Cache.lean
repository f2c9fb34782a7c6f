import Xv6.Lib.Trace
import Xv6.Lib.Bytes

/-!
# The buffer cache

bio.c and the part of ide.c that bio.c relies on, run by one process.  A buffer
is known by its index in `bcache.buf`; the linked list through `prev` and `next`
is the list of the indices from `head.next` to `head.prev`.

`iderw` returns when the transfer is done.  The disk is a function of device and
block number, and every block written to it is appended to `trace`, so that the
disk after a crash is the one that a first part of the trace leaves behind.

A kernel panic stops the program.  So does an `acquiresleep` on a lock that is
taken, since nobody else runs who could release it.
-/

namespace Xv6.Log

open Lib Lib.Prog Function

variable {s t u : State} {i j : Fin NBUF} {E : Stop → State → Prop} {Q : Unit → State → Prop}

/-- Block size (fs.h). -/
abbrev BSIZE : Nat := 512

/-- Most blocks that one file system operation writes (param.h). -/
abbrev MAXOPBLOCKS : Nat := 10

/-- Most data blocks in the on-disk log (param.h). -/
abbrev LOGSIZE : Nat := MAXOPBLOCKS * 3

/-- Size of the disk block cache (param.h). -/
abbrev NBUF : Nat := MAXOPBLOCKS * 3

abbrev Block := Bytes BSIZE

/-- Device and block number. -/
abbrev Addr := Nat × Nat

abbrev Disk := Addr → Block

/-- `struct buf`, with the sleep-lock as a flag. -/
structure Buf where
  valid : Bool
  dirty : Bool
  dev : Nat
  blockno : Nat
  locked : Bool
  refcnt : Nat
  data : Block

def Buf.key (b : Buf) : Addr :=
  (b.dev, b.blockno)

/-- `struct logheader`; only the entries below `n` are used. -/
structure LogHeader where
  n : Int
  block : Nat → Nat

structure Layout where
  start : Nat
  size : Nat
  dev : Nat
deriving DecidableEq

/-- `struct log` without its lock and without `committing`, which is set only during a commit. -/
structure LogState extends Layout where
  outstanding : Int
  lh : LogHeader

/-- The block layer: the buffer cache, the log, the disk and the writes issued so far. -/
structure State where
  buf : Fin NBUF → Buf
  order : List (Fin NBUF)
  log : LogState
  disk : Disk
  trace : List (Addr × Block)

/-- Why the program does not go on. -/
inductive Stop where
  | noBuffers
  | bwriteUnlocked
  | brelseUnlocked
  | iderwUnlocked
  | iderwIdle
  | busy
  | tooBig
  | outsideTrans
  /-- `read_head` runs past the end of `log.lh.block` -/
  | badHeader
deriving DecidableEq, Repr

abbrev M := Prog State Stop

def setBuf (i : Fin NBUF) (b : Buf) (s : State) : State :=
  { s with buf := update s.buf i b }

/-- `acquiresleep(&b->lock)`. -/
def acquiresleep (i : Fin NBUF) : M Unit := do
  let s ← get
  if (s.buf i).locked = true then throw .busy
  else modify (setBuf i { s.buf i with locked := true })

def bget (dev blockno : Nat) : M (Fin NBUF) := do
  let s ← get
  match s.order.find? fun i => (s.buf i).dev = dev ∧ (s.buf i).blockno = blockno with
  | some i =>
    modify (setBuf i { s.buf i with refcnt := (s.buf i).refcnt + 1 })
    acquiresleep i
    pure i
  | none =>
    -- the second loop goes through the list backwards
    match s.order.reverse.find? fun i => (s.buf i).refcnt = 0 ∧ (s.buf i).dirty = false with
    | some i =>
      modify (setBuf i
        { s.buf i with
          dev := dev
          blockno := blockno
          valid := false
          dirty := false
          refcnt := 1 })
      acquiresleep i
      pure i
    | none => throw .noBuffers

def iderw (i : Fin NBUF) : M Unit := do
  let s ← get
  if (s.buf i).locked = false then throw .iderwUnlocked
  else if (s.buf i).valid = true ∧ (s.buf i).dirty = false then throw .iderwIdle
  else if (s.buf i).dirty = true then
    modify fun s => setBuf i { s.buf i with valid := true, dirty := false }
        { s with
          disk := update s.disk (s.buf i).key (s.buf i).data
          trace := s.trace ++ [((s.buf i).key, (s.buf i).data)] }
  else
    modify fun s => setBuf i { s.buf i with valid := true, data := s.disk (s.buf i).key } s

def bread (dev blockno : Nat) : M (Fin NBUF) := do
  let i ← bget dev blockno
  let s ← get
  if (s.buf i).valid = false then
    iderw i
    pure i
  else pure i

def bwrite (i : Fin NBUF) : M Unit := do
  let s ← get
  if (s.buf i).locked = false then throw .bwriteUnlocked
  else
    modify (setBuf i { s.buf i with dirty := true })
    iderw i

def brelse (i : Fin NBUF) : M Unit := do
  let s ← get
  if (s.buf i).locked = false then throw .brelseUnlocked
  else
    modify fun s =>
      let t := setBuf i { s.buf i with locked := false, refcnt := (s.buf i).refcnt - 1 } s
      if (t.buf i).refcnt = 0 then { t with order := i :: t.order.erase i } else t

def setData (i : Fin NBUF) (data : Block) : M Unit :=
  modify fun s => setBuf i { s.buf i with data := data } s

/-- Every buffer is in the list, no block is cached twice, dirty data are valid. -/
structure CacheInv (s : State) : Prop where
  cover : ∀ i, i ∈ s.order
  inj : ∀ i j, (s.buf i).dev ≠ 0 → (s.buf i).key = (s.buf j).key → i = j
  dirty_valid : ∀ i, (s.buf i).dirty = true → (s.buf i).valid = true

structure OnlyBuf (s t : State) (i : Fin NBUF) : Prop where
  buf : ∀ j, j ≠ i → t.buf j = s.buf j
  order : t.order = s.order
  log : t.log = s.log
  disk : t.disk = s.disk
  trace : t.trace = s.trace

@[simp] theorem setBuf_buf_self (b : Buf) : (setBuf i b s).buf i = b := by
  simp [setBuf]

theorem setBuf_buf_of_ne (b : Buf) (hj : j ≠ i) : (setBuf i b s).buf j = s.buf j := by
  simp [setBuf, hj]

theorem OnlyBuf.setBuf (b : Buf) : OnlyBuf s (setBuf i b s) i :=
  ⟨fun _ hj => setBuf_buf_of_ne b hj, rfl, rfl, rfl, rfl⟩

theorem OnlyBuf.trans (h1 : OnlyBuf s t i) (h2 : OnlyBuf t u i) :
    OnlyBuf s u i where
  buf := fun j hj => (h2.buf j hj).trans (h1.buf j hj)
  order := h2.order.trans h1.order
  log := h2.log.trans h1.log
  disk := h2.disk.trans h1.disk
  trace := h2.trace.trans h1.trace

inductive Source (s : State) (k : Addr) (i : Fin NBUF) (b : Buf) : Prop
  | hit (hkey : (s.buf i).key = k) (hvalid : (s.buf i).valid = true)
      (hdata : b.data = (s.buf i).data) (hdirty : b.dirty = (s.buf i).dirty)
  | fill (hkey : (s.buf i).key = k) (hvalid : (s.buf i).valid = false)
      (hdata : b.data = s.disk k) (hdirty : b.dirty = false)
  | miss (hkey : ∀ j, (s.buf j).key ≠ k) (hfree : (s.buf i).refcnt = 0)
      (hclean : (s.buf i).dirty = false) (hdata : b.data = s.disk k) (hdirty : b.dirty = false)

structure Fetched (s : State) (k : Addr) (i : Fin NBUF) (t : State) : Prop where
  frame : OnlyBuf s t i
  key : (t.buf i).key = k
  valid : (t.buf i).valid = true
  locked : (t.buf i).locked = true
  refcnt : (t.buf i).refcnt = (s.buf i).refcnt + 1
  source : Source s k i (t.buf i)

/-- Why `bread` stops: no buffer is left, or the one it needs is taken. -/
def NoRoom (s : State) (k : Addr) : Prop :=
  (∀ j, (s.buf j).refcnt ≠ 0 ∨ (s.buf j).dirty = true) ∨
    ∃ j, (s.buf j).locked = true ∧ ((s.buf j).key = k ∨ (s.buf j).refcnt = 0)

/-- The buffer `bget` returns: the cached one, or a clean and unused one for a new block. -/
inductive Found (s : State) (k : Addr) (i : Fin NBUF) (b : Buf) : Prop
  | hit (hkey : (s.buf i).key = k)
      (heq : b = { s.buf i with refcnt := (s.buf i).refcnt + 1, locked := true })
  | miss (hkey : ∀ j, (s.buf j).key ≠ k) (hfree : (s.buf i).refcnt = 0)
      (hclean : (s.buf i).dirty = false)
      (heq : b =
        { s.buf i with
          dev := k.1
          blockno := k.2
          valid := false
          dirty := false
          refcnt := 1
          locked := true })

theorem acquiresleep_spec (s : State) (i : Fin NBUF) :
    wp (acquiresleep i)
      (fun _ t => t = setBuf i { s.buf i with locked := true } s)
      (fun _ t => t = s ∧ (s.buf i).locked = true) s := by
  unfold acquiresleep
  simp only [wp_bind, wp_get, wp_ite, wp_throw, wp_modify]
  split
  · rename_i hlock
    exact ⟨trivial, hlock⟩
  · trivial

theorem bget_spec (h : CacheInv s) (dev blockno : Nat) :
    wp (bget dev blockno)
      (fun i t => OnlyBuf s t i ∧ Found s (dev, blockno) i (t.buf i))
      (fun _ t => t.trace = s.trace ∧ NoRoom s (dev, blockno)) s := by
  unfold bget
  simp only [wp_bind, wp_get]
  split
  · rename_i i hfind
    have hkey : (s.buf i).key = (dev, blockno) := by
      have := List.find?_some hfind
      simpa [Buf.key] using this
    simp only [wp_bind, wp_modify, wp_pure]
    refine wp_mono (acquiresleep_spec _ i) ?_ ?_
    · rintro _ t rfl
      refine ⟨(OnlyBuf.setBuf _).trans (OnlyBuf.setBuf _), .hit hkey ?_⟩
      simp
    · rintro _ t ⟨rfl, hlock⟩
      exact ⟨rfl, .inr ⟨i, by simpa using hlock, .inl hkey⟩⟩
  rename_i hnone
  have hkey : ∀ j, (s.buf j).key ≠ (dev, blockno) := by
    intro j hj
    have := List.find?_eq_none.mp hnone j (h.cover j)
    simp only [Buf.key, Prod.mk.injEq] at hj
    simp [hj] at this
  split
  · rename_i i hfind
    have hfree : (s.buf i).refcnt = 0 ∧ (s.buf i).dirty = false := by
      simpa using List.find?_some hfind
    simp only [wp_bind, wp_modify, wp_pure]
    refine wp_mono (acquiresleep_spec _ i) ?_ ?_
    · rintro _ t rfl
      refine ⟨(OnlyBuf.setBuf _).trans (OnlyBuf.setBuf _), .miss hkey hfree.1 hfree.2 ?_⟩
      simp
    · rintro _ t ⟨rfl, hlock⟩
      exact ⟨rfl, .inr ⟨i, by simpa using hlock, .inr hfree.1⟩⟩
  rename_i hall
  refine ⟨rfl, .inl ?_⟩
  intro j
  have := List.find?_eq_none.mp hall j (by simpa using h.cover j)
  by_cases h0 : (s.buf j).refcnt = 0
  · simp only [h0, true_and, decide_eq_true_eq, Bool.not_eq_false] at this
    exact .inr this
  · exact .inl h0

theorem iderw_fill (hlock : (s.buf i).locked = true) (hvalid : (s.buf i).valid = false)
    (hdirty : (s.buf i).dirty = false)
    (hQ : Q () (setBuf i { s.buf i with valid := true, data := s.disk (s.buf i).key } s)) :
    wp (iderw i) Q E s := by
  unfold iderw
  simp only [wp_bind, wp_get, wp_ite, wp_throw, wp_modify]
  rw [if_neg (by simp [hlock]), if_neg (by simp [hvalid]), if_neg (by simp [hdirty])]
  exact hQ

theorem iderw_flush (hlock : (s.buf i).locked = true) (hdirty : (s.buf i).dirty = true)
    (hQ : Q () (setBuf i { s.buf i with valid := true, dirty := false }
      { s with
        disk := update s.disk (s.buf i).key (s.buf i).data
        trace := s.trace ++ [((s.buf i).key, (s.buf i).data)] })) :
    wp (iderw i) Q E s := by
  unfold iderw
  simp only [wp_bind, wp_get, wp_ite, wp_throw, wp_modify]
  rw [if_neg (by simp [hlock]), if_neg (by simp [hdirty]), if_pos hdirty]
  exact hQ

theorem bread_spec (h : CacheInv s) (dev blockno : Nat) :
    wp (bread dev blockno) (fun i t => Fetched s (dev, blockno) i t)
      (fun _ t => t.trace = s.trace ∧ NoRoom s (dev, blockno)) s := by
  unfold bread
  simp only [wp_bind, wp_get]
  refine wp_mono (bget_spec h dev blockno) ?_ fun _ _ ht => ht
  rintro i t ⟨hframe, hfound⟩
  simp only [wp_ite, wp_bind, wp_pure]
  cases hfound with
  | hit hkey heq =>
    split
    · rename_i hvalid
      have hv : (s.buf i).valid = false := by simpa [heq] using hvalid
      have hd : (s.buf i).dirty = false := by
        by_contra hne
        have := h.dirty_valid i (by simpa using hne)
        rw [hv] at this
        cases this
      refine iderw_fill (by simp [heq]) hvalid (by simp [heq, hd]) ?_
      refine ⟨hframe.trans (OnlyBuf.setBuf _), ?_, by simp, by simp [heq], by simp [heq], ?_⟩
      · simpa [heq, Buf.key] using hkey
      · refine .fill hkey hv ?_ (by simp [heq, hd])
        have : (t.buf i).key = (dev, blockno) := by simpa [heq, Buf.key] using hkey
        simp [this, hframe.disk]
    · rename_i hvalid
      have hv : (s.buf i).valid = true := by simpa [heq] using hvalid
      exact ⟨hframe, by simpa [heq, Buf.key] using hkey, by simp [heq, hv], by simp [heq],
        by simp [heq], .hit hkey hv (by simp [heq]) (by simp [heq])⟩
  | miss hkey hfree hclean heq =>
    have hk : (t.buf i).key = (dev, blockno) := by simp [heq, Buf.key]
    rw [if_pos (by simp [heq])]
    refine iderw_fill (by simp [heq]) (by simp [heq]) (by simp [heq]) ?_
    refine ⟨hframe.trans (OnlyBuf.setBuf _), ?_, by simp, by simp [heq], by simp [heq, hfree], ?_⟩
    · simpa [Buf.key] using hk
    · exact .miss hkey hfree hclean (by simp [hk, hframe.disk]) (by simp [heq])

def stored (i : Fin NBUF) (data : Block) (s : State) : State :=
  setBuf i { s.buf i with data := data, valid := true, dirty := false }
    { s with
      disk := update s.disk (s.buf i).key data
      trace := s.trace ++ [((s.buf i).key, data)] }

/-- The state after `brelse`. -/
def released (i : Fin NBUF) (s : State) : State :=
  let t := setBuf i { s.buf i with locked := false, refcnt := (s.buf i).refcnt - 1 } s
  if (t.buf i).refcnt = 0 then { t with order := i :: t.order.erase i } else t

@[simp] theorem stored_buf_self (data : Block) :
    (stored i data s).buf i =
      { s.buf i with data := data, valid := true, dirty := false } := by
  simp [stored]

theorem stored_buf_of_ne (data : Block) (hj : j ≠ i) : (stored i data s).buf j = s.buf j := by
  simp [stored, setBuf, hj]

theorem released_eq (i : Fin NBUF) (s : State) :
    ∃ order, released i s =
        { setBuf i { s.buf i with locked := false, refcnt := (s.buf i).refcnt - 1 } s with
          order := order } ∧
      ∀ j, j ∈ s.order → j ∈ order := by
  unfold released
  simp only
  split
  · refine ⟨_, rfl, ?_⟩
    intro j hj
    by_cases h : j = i
    · simp [h]
    · exact List.mem_cons_of_mem i ((List.mem_erase_of_ne h).mpr hj)
  · exact ⟨_, rfl, fun _ hj => hj⟩

@[simp] theorem released_buf_self :
    (released i s).buf i =
      { s.buf i with locked := false, refcnt := (s.buf i).refcnt - 1 } := by
  obtain ⟨order, heq, _⟩ := released_eq i s
  simp [heq]

theorem released_buf_of_ne (hj : j ≠ i) : (released i s).buf j = s.buf j := by
  obtain ⟨order, heq, _⟩ := released_eq i s
  simp [heq, setBuf, hj]

@[simp] theorem released_disk : (released i s).disk = s.disk := by
  obtain ⟨order, heq, _⟩ := released_eq i s
  simp [heq, setBuf]

@[simp] theorem released_trace : (released i s).trace = s.trace := by
  obtain ⟨order, heq, _⟩ := released_eq i s
  simp [heq, setBuf]

@[simp] theorem released_log : (released i s).log = s.log := by
  obtain ⟨order, heq, _⟩ := released_eq i s
  simp [heq, setBuf]

theorem released_buf (i : Fin NBUF) (s : State) (j : Fin NBUF) :
    ((released i s).buf j).key = (s.buf j).key ∧ ((released i s).buf j).valid = (s.buf j).valid ∧
      ((released i s).buf j).dirty = (s.buf j).dirty ∧
      ((released i s).buf j).data = (s.buf j).data := by
  by_cases h : j = i
  · subst h
    simp [Buf.key]
  · simp [released_buf_of_ne h]

theorem wp_setData_bwrite {β : Type} (data : Block) {k : Unit → M β} {Q : β → State → Prop}
    (hlock : (s.buf i).locked = true) (hk : wp (k ()) Q E (stored i data s)) :
    wp (setData i data >>= fun _ => bwrite i >>= k) Q E s := by
  unfold setData bwrite
  simp only [wp_bind, wp_get, wp_ite, wp_throw, wp_modify]
  rw [if_neg (by simp [hlock])]
  refine iderw_flush (by simp [hlock]) (by simp) ?_
  convert hk using 1
  simp [stored, setBuf, Buf.key]

theorem wp_brelse
    (hlock : (s.buf i).locked = true) (hQ : Q () (released i s)) : wp (brelse i) Q E s := by
  unfold brelse
  simp only [wp_bind, wp_get, wp_ite, wp_throw, wp_modify]
  rw [if_neg (by simp [hlock])]
  exact hQ

end Xv6.Log
