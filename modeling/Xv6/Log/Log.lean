import Xv6.Log.Cache

/-!
# The write-ahead log

log.c.  The in-memory header is `log.lh`; on disk it is the first block of the
log, read and written as a `struct logheader`, that is as little-endian words.
-/

namespace Xv6.Log

open Lib Lib.Prog

variable {lh : LogHeader} {b : Block} {blockno : Nat}

/-- The field `n` of the `struct logheader` in a block. -/
@[irreducible] def headerCount (b : Block) : Int :=
  Int.bmod (readWord b 0 : Int) (2 ^ 32)

/-- The field `block[j]` of the `struct logheader` in a block. -/
def headerEntry (b : Block) (j : Nat) : Nat :=
  readWord b (4 * (j + 1))

def encodeHeader (lh : LogHeader) (b : Block) : Block :=
  (List.range lh.n.toNat).foldl
    (fun b j => writeWord b (4 * (j + 1)) (lh.block j))
    (writeWord b 0 (lh.n % 2 ^ 32).toNat)

def decodeHeader (b : Block) (lh : LogHeader) : LogHeader where
  n := headerCount b
  block := fun j => if (j : Int) < headerCount b then headerEntry b j else lh.block j

def setLh (lh : LogHeader) (s : State) : State :=
  { s with log := { s.log with lh := lh } }

/-- `log.lh.n = 0`. -/
def clearLh : M Unit :=
  modify fun s => setLh { s.log.lh with n := 0 } s

def installOne (tail : Nat) : M Unit := do
  let s ← get
  let lbuf ← bread s.log.dev (s.log.start + tail + 1)
  let dbuf ← bread s.log.dev (s.log.lh.block tail)
  let s ← get
  setData dbuf (s.buf lbuf).data
  bwrite dbuf
  brelse lbuf
  brelse dbuf

def installTrans : M Unit := do
  let s ← get
  forEach (List.range s.log.lh.n.toNat) installOne

def readHead : M Unit := do
  let s ← get
  let buf ← bread s.log.dev s.log.start
  let s ← get
  let lh := decodeHeader (s.buf buf).data s.log.lh
  if (LOGSIZE : Int) < lh.n then throw .badHeader
  else
    modify (setLh lh)
    brelse buf

def writeHead : M Unit := do
  let s ← get
  let buf ← bread s.log.dev s.log.start
  let s ← get
  setData buf (encodeHeader s.log.lh (s.buf buf).data)
  bwrite buf
  brelse buf

def recoverFromLog : M Unit := do
  readHead
  installTrans
  clearLh
  writeHead

def writeOne (tail : Nat) : M Unit := do
  let s ← get
  let toBuf ← bread s.log.dev (s.log.start + tail + 1)
  let fromBuf ← bread s.log.dev (s.log.lh.block tail)
  let s ← get
  setData toBuf (s.buf fromBuf).data
  bwrite toBuf
  brelse fromBuf
  brelse toBuf

def writeLog : M Unit := do
  let s ← get
  forEach (List.range s.log.lh.n.toNat) writeOne

def commit : M Unit := do
  let s ← get
  if 0 < s.log.lh.n then
    writeLog
    writeHead
    installTrans
    clearLh
    writeHead
  else pure ()

/-- The entry for a block in `log_write`; a block that has one keeps it. -/
def LogHeader.record (lh : LogHeader) (blockno : Nat) : LogHeader :=
  match (List.range lh.n.toNat).find? fun j => lh.block j = blockno with
  | some j => { lh with block := Function.update lh.block j blockno }
  | none => { n := lh.n + 1, block := Function.update lh.block lh.n.toNat blockno }

def logWrite (i : Fin NBUF) : M Unit := do
  let s ← get
  if (LOGSIZE : Int) ≤ s.log.lh.n ∨ (s.log.size : Int) - 1 ≤ s.log.lh.n then throw .tooBig
  else if s.log.outstanding < 1 then throw .outsideTrans
  else
    modify (setLh (s.log.lh.record (s.buf i).blockno))
    modify fun s => setBuf i { s.buf i with dirty := true } s

def setOutstanding (f : Int → Int) (s : State) : State :=
  { s with log := { s.log with outstanding := f s.log.outstanding } }

def beginOp : M Unit := do
  let s ← get
  if (LOGSIZE : Int) < s.log.lh.n + (s.log.outstanding + 1) * MAXOPBLOCKS then throw .busy
  else modify (setOutstanding (· + 1))

def endOp : M Unit := do
  modify (setOutstanding (· - 1))
  let s ← get
  if s.log.outstanding = 0 then commit else pure ()

def emptied (L : LogState) : LogState :=
  { L with lh := { L.lh with n := 0 } }

theorem BSIZE_eq : BSIZE = 512 := rfl

theorem LOGSIZE_eq : LOGSIZE = 30 := rfl

private theorem readWord_entries (block : Nat → Nat) (m : Nat) (hm : m ≤ LOGSIZE)
    (hword : ∀ j < m, block j < 2 ^ 32) :
    let c := (List.range m).foldl (fun b j => writeWord b (4 * (j + 1)) (block j)) b
    readWord c 0 = readWord b 0 ∧ ∀ j < m, readWord c (4 * (j + 1)) = block j := by
  have hB := BSIZE_eq
  have hL := LOGSIZE_eq
  induction m with
  | zero => simp
  | succ m ih =>
    obtain ⟨hzero, hentry⟩ := ih (by omega) fun j hj => hword j (by omega)
    simp only [List.range_succ, List.foldl_append, List.foldl_cons, List.foldl_nil]
    refine ⟨?_, ?_⟩
    · rw [readWord_writeWord_of_disjoint (by omega) (by omega), hzero]
    · intro j hj
      by_cases hjm : j = m
      · subst hjm
        exact readWord_writeWord (by omega) (hword j (by omega))
      · rw [readWord_writeWord_of_disjoint (by omega) (by omega)]
        exact hentry j (by omega)

theorem headerCount_encodeHeader (hn : 0 ≤ lh.n) (hmax : lh.n ≤ LOGSIZE)
    (hword : ∀ j < lh.n.toNat, lh.block j < 2 ^ 32) : headerCount (encodeHeader lh b) = lh.n := by
  have hL := LOGSIZE_eq
  have h := (readWord_entries (b := writeWord b 0 (lh.n % 2 ^ 32).toNat)
    lh.block lh.n.toNat (by omega) hword).1
  unfold headerCount encodeHeader
  rw [h, readWord_writeWord (by decide) (by omega)]
  have hmod : lh.n % 2 ^ 32 = lh.n := Int.emod_eq_of_lt hn (by omega)
  rw [hmod, Int.toNat_of_nonneg hn]
  exact Int.bmod_eq_of_le (by omega) (by omega)

theorem headerEntry_encodeHeader (hmax : lh.n ≤ LOGSIZE)
    (hword : ∀ j < lh.n.toNat, lh.block j < 2 ^ 32) {j : Nat} (hj : j < lh.n.toNat) :
    headerEntry (encodeHeader lh b) j = lh.block j :=
  (readWord_entries lh.block lh.n.toNat (by omega) hword).2 j hj

theorem record_of_logged
    (h : ∃ tail < lh.n.toNat, lh.block tail = blockno) : lh.record blockno = lh := by
  unfold LogHeader.record
  cases hfind : (List.range lh.n.toNat).find? fun j => lh.block j = blockno with
  | some j =>
    have hblock : lh.block j = blockno := by simpa using List.find?_some hfind
    simp [← hblock]
  | none =>
    obtain ⟨tail, htail, hblock⟩ := h
    have := List.find?_eq_none.mp hfind tail (List.mem_range.mpr htail)
    simp [hblock] at this

theorem record_of_not_logged (h : ¬∃ tail < lh.n.toNat, lh.block tail = blockno) :
    lh.record blockno =
      { n := lh.n + 1, block := Function.update lh.block lh.n.toNat blockno } := by
  unfold LogHeader.record
  cases hfind : (List.range lh.n.toNat).find? fun j => lh.block j = blockno with
  | some j =>
    have hblock : lh.block j = blockno := by simpa using List.find?_some hfind
    exact absurd ⟨j, List.mem_range.mp (List.mem_of_find?_eq_some hfind), hblock⟩ h
  | none => rfl

end Xv6.Log
