import Xv6.Fs.Safety

/-!
# Files as byte arrays

A sequence of `readi` and `writei` calls on locked regular files gives the answers
of a table of byte arrays, as long as there are enough free blocks and the log has
room.  `writei` puts no bound on the length of a write but that of the file, so
the second condition is one: a write of many blocks fills the log and panics.
-/

namespace Xv6.Fs

open Lib Lib.Prog Log Ptable Function List

abbrev Contents := Nat → List UInt8

variable {R : Multiset Ino} {L : Finset Ino} {X : Finset Nat} {s s' s₀ : State} {a e ip : Ino}
variable {c : Contents} {off n : Nat} {src l : List UInt8}

/-- `begin_op(); ilock(ip);` -/
def beginLocked (ip : Ino) : FM Unit := do
  beginOp
  ilock ip

theorem Settled.beginLocked (h : Settled s₀) (hheld : 0 < s₀.holders ip)
    (hlock : beginLocked ip s₀ = (.ok (), s)) : In s 0 {ip} ∅ := by
  have href := h.inv.begun.ref_of_holders hheld
  have hspec : wp (Fs.beginLocked ip) (fun _ s' => In s' 0 (insert ip ∅) ∅)
      (fun _ _ => True) s₀ := by
    unfold Fs.beginLocked
    rw [wp_bind, wp_beginOp]
    exact wp_mono (ilock_spec h.inv.begun href (Finset.notMem_empty ip))
      (fun _ _ hq => hq.1) fun _ _ _ => trivial
  have hin := wp_ok hspec hlock
  exact hin

/-- Why `writei` returns -1. -/
def Rejects (l : List UInt8) (off n : Nat) : Prop :=
  l.length < off ∨ 2 ^ 32 ≤ off + n ∨ MAXFILE * BSIZE < off + n

instance (l : List UInt8) (off n : Nat) : Decidable (Rejects l off n) :=
  inferInstanceAs (Decidable (_ ∨ _ ∨ _))

/-- A call, or the end of a transaction and the beginning of the next. -/
inductive Io where
  | read (e : Ino) (off n : Nat)
  | write (e : Ino) (off : Nat) (src : List UInt8)
  | commit

inductive Reply where
  | bytes (r : Option (List UInt8))
  | count (r : Int)
  | done
deriving DecidableEq

/-- The calls as the kernel makes them. -/
def Io.exec : Io → FM Reply
  | .read e off n => do
    let r ← readi e off n
    pure (.bytes r)
  | .write e off src => do
    let r ← writei e off src
    pure (.count r)
  | .commit => do
    endOp
    beginOp
    pure .done

def execAll : List Io → FM (List Reply)
  | [] => pure []
  | op :: ops => do
    let r ← op.exec
    let rs ← execAll ops
    pure (r :: rs)

/-- The contents that the disk has. -/
def State.contents (s : State) : Contents :=
  fun n => (s.node n).data

/-- The inode numbers in the cache. -/
def State.inums (s : State) : Ino → Nat :=
  fun e => (s.icache e).inum

/-- There are enough free blocks for the call, and what it logs fits: until `log_write` is called
for the last time, the log is not full.  A block that is logged twice counts once. -/
def Io.Fits (s : State) : Io → Prop
  | .write e off src =>
    Rejects (s.contents (s.inums e)) off src.length ∨ src = [] ∨
      blocksTaken (s.icache e).d.size off src.length ≤ s.free ∧
        s.HasRoom (s.rewrites e off src.length ∪
          s.taking (blocksTaken (s.icache e).d.size off src.length))
  | _ => True

instance (s : State) : (op : Io) → Decidable (op.Fits s)
  | .read _ _ _ => inferInstanceAs (Decidable True)
  | .write _ _ _ => inferInstanceAs (Decidable (_ ∨ _ ∨ _ ∧ _))
  | .commit => inferInstanceAs (Decidable True)

/-- Each of the calls fits the state that it is made in. -/
def Enough : List Io → State → Prop
  | [], _ => True
  | op :: ops, s => op.Fits s ∧ Enough ops (op.exec s).2

instance instDecidableEnough : (ops : List Io) → (s : State) → Decidable (Enough ops s)
  | [], _ => inferInstanceAs (Decidable True)
  | op :: ops, s =>
    have : Decidable (Enough ops (op.exec s).2) := instDecidableEnough ops _
    inferInstanceAs (Decidable (_ ∧ _))

def writeTwice : List Io :=
  [.write 1 0 (List.replicate 1536 7), .commit, .write 1 2 [4], .read 1 1 3]

def emptyFileTest (s₀ : State) : Bool :=
  match beginLocked 1 s₀ with
  | (.ok _, s) => decide ((s₀.file 0).ip = some 1 ∧ s.outstanding = 1 ∧ s.logged = [] ∧
      (s.icache 1).inum = 2 ∧ (s.node 2).type = T_FILE ∧ (s.node 2).data = [] ∧ 30 ≤ s.free ∧
        Enough writeTwice s ∧
      (writei 1 0 (List.replicate 14336 0) s).1 = .error .tooBig)
  | _ => false

theorem exists_empty_file :
    ∃ s, In s 0 {1} ∅ ∧ s.outstanding = 1 ∧ s.logged = [] ∧ (s.icache 1).inum = 2 ∧
      (s.node 2).type = T_FILE ∧ (s.node 2).data = [] ∧ 30 ≤ s.free ∧ Enough writeTwice s ∧
      (writei 1 0 (List.replicate 14336 0) s).1 = .error .tooBig := by
  obtain ⟨s₀, hrun, htest⟩ := exists_of_run_map step (boot freshImage [])
    [(0, .openf (some [120]) 514)] emptyFileTest (by decide +kernel)
  have hsettled := settled_of_reachable consistent_freshImage ⟨_, hrun⟩
  unfold emptyFileTest at htest
  cases hlock : beginLocked 1 s₀ with
  | mk r s =>
    rw [hlock] at htest
    cases r with
    | error x => cases htest
    | ok _ =>
      obtain ⟨hip, htest⟩ := of_decide_eq_true htest
      exact ⟨s, hsettled.beginLocked (State.holders_of_file hip) hlock, htest⟩

/-- The blocks that a call passes to `log_write`, each of them once: what it adds to an empty
log. -/
def loggedBy {α : Type} (m : FM α) (s : State) : List Nat :=
  (m { s with logged := [] }).2.logged

theorem chunk_blocks {size : Nat} (hoff : off ≤ size)
    (hn : n ≤ (MAXOPBLOCKS - 1 - 1 - 2) / 2 * 512) :
    touched off n + allocs (blocksFor size) (blocksFor (off + n)) + 2 ≤ MAXOPBLOCKS := by
  change n ≤ 1536 at hn
  change _ ≤ 10
  unfold touched allocs blocksFor
  by_cases h0 : n = 0
  · rw [if_pos h0]
    split <;> omega
  · rw [if_neg h0]
    split <;> omega

theorem In.length_logged (h : In s R L X) (ha : a ∈ L) (hout : 0 < s.outstanding)
    (htype : (s.node (s.icache a).inum).type = T_FILE)
    (hoff : off ≤ (s.node (s.icache a).inum).data.length)
    (hn : src.length ≤ (MAXOPBLOCKS - 1 - 1 - 2) / 2 * 512) :
    (writei a off src s).2.logged.length ≤ s.logged.length + MAXOPBLOCKS := by
  have hd := h.locked_dinode ha
  have hblocks := chunk_blocks hoff hn
  rw [State.length_node_data] at hoff hblocks
  have hlen := writei_length_logged h.rep.ok hout (h.range a (h.locked a ha).1)
    (by rw [hd.1]; exact h.rep.local hd.2)
    (by rw [hd.1, ← State.node_type, htype]; decide) (by rw [hd.1]; exact hoff)
    (Prod.eta (writei a off src s)).symm
  rw [hd.1] at hlen
  unfold entriesMade at hlen
  omega

/-- One chunk of `filewrite` stays within the reservation of one operation, whatever the file system
looks like and however full the log is. -/
theorem write_chunk_fits_reservation (h : In s R L X) (ha : a ∈ L) (hout : 0 < s.outstanding)
    (htype : (s.node (s.icache a).inum).type = T_FILE)
    (hoff : off ≤ (s.node (s.icache a).inum).data.length)
    (hn : src.length ≤ (MAXOPBLOCKS - 1 - 1 - 2) / 2 * 512) :
    (loggedBy (writei a off src) s).length ≤ MAXOPBLOCKS ∧
      (writei a off src s).2.logged.length ≤ s.logged.length + MAXOPBLOCKS := by
  constructor
  · have hempty : In { s with logged := [] } R L X :=
      ⟨h.rep, h.range, h.uniq, h.sync, h.refs, h.locks, h.locked, h.alloc, h.live, h.dirs, h.files⟩
    have hlen := hempty.length_logged ha hout htype hoff hn
    rw [length_nil, Nat.zero_add] at hlen
    exact hlen
  · exact h.length_logged ha hout htype hoff hn

theorem chunk_of_empty_file :
    ∃ s : State, (s.node (s.icache 1).inum).type = T_FILE ∧
      (loggedBy (writei 1 0 (List.replicate 1536 7)) s).length ≤ MAXOPBLOCKS := by
  obtain ⟨s, h, hout, _, hinum, htype, _⟩ := exists_empty_file
  have htype' : (s.node (s.icache 1).inum).type = T_FILE := by
    rw [hinum]
    exact htype
  have hlen : (List.replicate 1536 (7 : UInt8)).length ≤ (MAXOPBLOCKS - 1 - 1 - 2) / 2 * 512 := by
    rw [length_replicate]
    decide
  exact ⟨s, htype', (write_chunk_fits_reservation h (Finset.mem_singleton_self 1) (by omega) htype'
    (Nat.zero_le _) hlen).1⟩

def splice (l : List UInt8) (off : Nat) (src : List UInt8) : List UInt8 :=
  l.take off ++ src ++ l.drop (off + src.length)

theorem getD_splice (hoff : off ≤ l.length) (i : Nat) :
    (splice l off src).getD i 0 =
      if off ≤ i ∧ i < off + src.length then src.getD (i - off) 0 else l.getD i 0 := by
  have htake : (l.take off).length = off := by
    rw [length_take]
    omega
  simp only [splice, append_assoc, getD_eq_getElem?_getD]
  by_cases hlow : i < off
  · rw [if_neg (by omega), List.getElem?_append_left (by omega), List.getElem?_take_of_lt hlow]
  · rw [List.getElem?_append_right (by omega), htake]
    by_cases hin : i < off + src.length
    · rw [if_pos (by omega), List.getElem?_append_left (by omega)]
    · rw [if_neg (by omega), List.getElem?_append_right (by omega), List.getElem?_drop]
      congr 2
      omega

theorem Node.write_data {f : Node} (src : List UInt8) (hoff : off ≤ f.data.length) :
    (f.write off src).data = splice f.data off src := by
  have hlen : (f.write off src).data.length = (splice f.data off src).length := by
    rw [Node.length_write]
    simp only [splice, length_append, length_take, length_drop]
    omega
  apply ext_getElem hlen
  intro i hi hi'
  have hbyte := (Node.getD_write f off src i).trans (getD_splice hoff i).symm
  rw [getD_eq_getElem?_getD, getD_eq_getElem?_getD, List.getElem?_eq_getElem hi,
    List.getElem?_eq_getElem hi'] at hbyte
  exact hbyte

def writeArray (l : List UInt8) (off : Nat) (src : List UInt8) : Int × List UInt8 :=
  if Rejects l off src.length then (-1, l) else (src.length, splice l off src)

def readArray (l : List UInt8) (off n : Nat) : Option (List UInt8) :=
  if l.length < off ∨ 2 ^ 32 ≤ off + n then none else some ((l.drop off).take n)

def Io.onArrays (inum : Ino → Nat) : Io → Contents → Reply × Contents
  | .read e off n, c => (.bytes (readArray (c (inum e)) off n), c)
  | .write e off src, c =>
    (.count (writeArray (c (inum e)) off src).1,
      update c (inum e) (writeArray (c (inum e)) off src).2)
  | .commit, c => (.done, c)

def onArraysAll (inum : Ino → Nat) : List Io → Contents → List Reply × Contents
  | [], c => ([], c)
  | op :: ops, c =>
    ((op.onArrays inum c).1 :: (onArraysAll inum ops (op.onArrays inum c).2).1,
      (onArraysAll inum ops (op.onArrays inum c).2).2)

/-- The call is on a locked regular file, with arguments of 32 bits. -/
def Io.OnFile (s : State) (L : Finset Ino) : Io → Prop
  | .read e off n => e ∈ L ∧ (s.node (s.icache e).inum).type = T_FILE ∧ off < 2 ^ 32 ∧ n < 2 ^ 32
  | .write e off src =>
    e ∈ L ∧ (s.node (s.icache e).inum).type = T_FILE ∧ off < 2 ^ 32 ∧ src.length < 2 ^ 32
  | .commit => True

/-- The file system after some of the calls: only contents have changed, to `c`. -/
structure Follows (R : Multiset Ino) (L : Finset Ino) (X : Finset Nat) (s : State) (c : Contents)
    (s' : State) : Prop where
  inv : In s' R L X
  node : ∀ n, s'.node n = { s.node n with data := c n }
  inums : s'.inums = s.inums
  outstanding : s'.outstanding = 1

theorem wraps_iff (hoff : off < 2 ^ 32) (hn : n < 2 ^ 32) :
    (off + n) % 2 ^ 32 < off ↔ 2 ^ 32 ≤ off + n := by
  omega

section
variable (h : Follows R L X s c s')
include h

theorem Follows.read (hon : (Io.read e off n).OnFile s L) :
    wp (Io.read e off n).exec
      (fun r s'' => r = .bytes (readArray (c (s.inums e)) off n) ∧ Follows R L X s c s'')
      (fun _ _ => False) s' := by
  obtain ⟨he, htype, hoff, hn⟩ := hon
  have hinum : (s'.icache e).inum = s.inums e := congrFun h.inums e
  have hnode := h.node (s.inums e)
  simp only [Io.exec, wp_bind, wp_pure]
  refine wp_mono (readi_spec h.inv he ?_ off n) ?_ fun _ _ hx => hx
  · rw [hinum, hnode]
    change (s.node (s.icache e).inum).type ≠ T_DEV
    rw [htype]
    decide
  · rintro r t ⟨rfl, rfl⟩
    rw [hinum, hnode]
    refine ⟨?_, h⟩
    simp only [readArray, wraps_iff hoff hn]

theorem Follows.reject
    (hon : (Io.write e off src).OnFile s L) (hrej : Rejects (c (s.inums e)) off src.length) :
    wp (Io.write e off src).exec
      (fun r s'' => r = .count (-1) ∧ Follows R L X s c s'')
      (fun _ _ => False) s' := by
  obtain ⟨he, htype, hoff, hn⟩ := hon
  have hd := h.inv.locked_dinode he
  have hinum : (s'.icache e).inum = s.inums e := congrFun h.inums e
  have hnode := h.node (s.inums e)
  have hlen := State.length_node_data s' (s.inums e)
  have hty : (s'.ino (s.inums e)).type = T_FILE := by
    rw [← State.node_type, hnode]
    exact htype
  rw [hnode] at hlen
  rw [hinum] at hd
  simp only [Io.exec, wp_bind, wp_pure]
  unfold writei
  simp only [wp_bind, wp_get, wp_ite, wp_pure]
  rw [hd.1, if_neg (by rw [hty]; decide)]
  split
  · exact ⟨trivial, h⟩
  rename_i hstart
  rw [wraps_iff hoff hn, ← hlen] at hstart
  rw [if_pos ?_]
  · exact ⟨trivial, h⟩
  · rcases hrej with hrej | hrej | hrej
    · exact absurd (.inl hrej) hstart
    · exact absurd (.inr hrej) hstart
    · exact hrej

theorem Follows.write
    (hon : (Io.write e off src).OnFile s L) (hacc : ¬Rejects (c (s.inums e)) off src.length)
    (hfits : (Io.write e off src).Fits s') :
    wp (Io.write e off src).exec
      (fun r s'' => r = .count src.length ∧
        Follows R L X s (update c (s.inums e) (splice (c (s.inums e)) off src)) s'')
      (fun _ _ => False) s' := by
  obtain ⟨he, htype, hoff, hn⟩ := hon
  have hd := h.inv.locked_dinode he
  have hinum : (s'.icache e).inum = s.inums e := congrFun h.inums e
  have hnode := h.node (s.inums e)
  have hdata : (s'.node (s.inums e)).data = c (s.inums e) := by rw [hnode]
  have hcontents : s'.contents (s'.inums e) = c (s.inums e) := by
    rw [h.inums]
    exact hdata
  have hty : (s'.node (s.inums e)).type = T_FILE := by
    rw [hnode]
    exact htype
  have hend : off ≤ (c (s.inums e)).length ∧ off + src.length ≤ 71680 := by
    simp only [Rejects, not_or, not_lt] at hacc
    exact ⟨hacc.1, hacc.2.2⟩
  have hout : 0 < s'.outstanding := by
    rw [h.outstanding]
    decide
  have huse := writei_uses off src h.inv.rep.ok hout (h.inv.range e (h.inv.locked e he).1)
    (by rw [hd.1]; exact h.inv.rep.local hd.2)
    (by rw [hd.1, ← State.node_type, hinum, hty]; decide)
  have haccept := writei_accept h.inv he hout (by rw [hinum, hty]; decide)
    (by rw [hinum, hdata]; exact hend.1) hend.2
    (Node.dirOk_of_type _ (by rw [Node.type_write, hinum, hty]; decide))
  rw [hinum] at haccept
  simp only [Io.exec, wp_bind, wp_pure]
  refine wp_mono (wp_and haccept huse) ?_ ?_
  · rintro _ t ⟨⟨rfl, hin, hch⟩, _⟩
    refine ⟨rfl, hin, ?_, ?_, ?_⟩
    · intro n
      by_cases hne : n = s.inums e
      · subst hne
        have hself := hch.self
        rw [hinum] at hself
        rw [hself, update_self, ← hdata, ← Node.write_data src (by rw [hdata]; exact hend.1), hnode]
        rfl
      · rw [update_of_ne hne, hch.rest n (by rw [hinum]; exact hne)]
        exact h.node n
    · rw [← h.inums]
      funext b
      exact hch.inum b
    · rw [hch.outstanding]
      exact h.outstanding
  · rintro x t ⟨_, hlen, hfails⟩
    rcases hfits with hrej | rfl | ⟨hfree, hlog⟩
    · rw [hcontents] at hrej
      exact hacc hrej
    · exact absurd hlen (Nat.lt_irrefl 0)
    · exact hfails.false_of_room hlog hfree

theorem Follows.commit :
    wp Io.commit.exec (fun r s'' => r = .done ∧ Follows R L X s c s'')
      (fun _ _ => False) s' := by
  simp only [Io.exec, wp_bind, wp_endOp, wp_beginOp, wp_pure]
  refine ⟨trivial, h.inv.ended.begun, h.node, h.inums, ?_⟩
  change s'.outstanding - 1 + 1 = 1
  rw [h.outstanding]

theorem Follows.call {op : Io} (hon : op.OnFile s L) (hfits : op.Fits s') :
    wp op.exec (fun r s'' => r = (op.onArrays s.inums c).1 ∧
        Follows R L X s (op.onArrays s.inums c).2 s'')
      (fun _ _ => False) s' := by
  cases op with
  | read e off n => exact h.read hon
  | write e off src =>
    simp only [Io.onArrays, writeArray]
    by_cases hrej : Rejects (c (s.inums e)) off src.length
    · rw [if_pos hrej, update_eq_self]
      exact h.reject hon hrej
    · rw [if_neg hrej]
      exact h.write hon hrej hfits
  | commit => exact h.commit

theorem Follows.all {ops : List Io} (hon : ∀ op ∈ ops, op.OnFile s L) (henough : Enough ops s') :
    wp (execAll ops)
      (fun rs s'' => rs = (onArraysAll s.inums ops c).1 ∧
        Follows R L X s (onArraysAll s.inums ops c).2 s'')
      (fun _ _ => False) s' := by
  induction ops generalizing s' c with
  | nil => exact ⟨rfl, h⟩
  | cons op ops ih =>
    obtain ⟨hfits, hrest⟩ := henough
    unfold execAll
    simp only [wp_bind, wp_pure]
    obtain ⟨_, t, hrun, rfl, ht⟩ :=
      exists_ok (h.call (hon op mem_cons_self) hfits) fun _ _ hx => hx
    rw [hrun] at hrest
    rw [wp, hrun]
    refine wp_mono (ih ht (fun o ho => hon o (mem_cons_of_mem op ho)) hrest) ?_ fun _ _ hx => hx
    rintro rs u ⟨rfl, hu⟩
    exact ⟨rfl, hu⟩

end

/-- Files are byte arrays: in a consistent file system in which every call finds enough free blocks
and enough room in the log, any sequence of calls on locked regular files returns what the arrays
return, and afterwards every inode has the contents of its array and all its other fields as
before. -/
theorem files_are_byte_arrays (ops : List Io) (h : In s R L X) (hout : s.outstanding = 1)
    (hon : ∀ op ∈ ops, op.OnFile s L) (henough : Enough ops s) :
    ∃ s', execAll ops s = (.ok (onArraysAll s.inums ops s.contents).1, s') ∧ In s' R L X ∧
      ∀ n, s'.node n = { s.node n with data := (onArraysAll s.inums ops s.contents).2 n } := by
  have hstart : Follows R L X s s.contents s := ⟨h, fun _ => rfl, rfl, hout⟩
  obtain ⟨rs, s', hrun, hrs, hfollow⟩ := exists_ok (hstart.all hon henough) fun _ _ hx => hx
  subst hrs
  exact ⟨s', hrun, hfollow.inv, hfollow.node⟩

/-- A write of 20 blocks, which logs 23, and two calls in the next transaction. -/
theorem write_then_read :
    ∃ s s' : State, s.contents 2 = [] ∧ execAll writeTwice s =
      (.ok [.count 1536, .done, .count 1, .bytes (some [7, 4, 7])], s') := by
  obtain ⟨s, h, hout, _, hinum, htype, hdata, _, henough, _⟩ := exists_empty_file
  have hinum' : s.inums 1 = 2 := hinum
  have hcontents : s.contents 2 = [] := hdata
  have htype' : (s.node (s.icache 1).inum).type = T_FILE := by
    rw [hinum]
    exact htype
  obtain ⟨s', hrun, _⟩ := files_are_byte_arrays writeTwice h hout
    (by simp [writeTwice, Io.OnFile, htype', -reduceReplicate]) henough
  refine ⟨s, s', hcontents, ?_⟩
  rw [hrun]
  simp [writeTwice, onArraysAll, Io.onArrays, writeArray, readArray, Rejects, hinum', hcontents,
    splice, MAXFILE, NDIRECT, NINDIRECT, BSIZE, -reduceReplicate]

/-- A write of 28 blocks into an empty file, with 30 free blocks and nothing in the log, is within
all bounds of `writei`; it fills the log and panics. -/
theorem big_write_fills_log :
    ∃ s, In s 0 {1} ∅ ∧ s.outstanding = 1 ∧ s.logged = [] ∧
      (s.node (s.icache 1).inum).type = T_FILE ∧
      ¬Rejects (s.contents (s.inums 1)) 0 14336 ∧
      blocksTaken (s.contents (s.inums 1)).length 0 14336 ≤ s.free ∧
      (writei 1 0 (List.replicate 14336 0) s).1 = .error .tooBig := by
  obtain ⟨s, h, hout, hlogged, hinum, htype, hdata, hfree, _, hbig⟩ := exists_empty_file
  have hcontents : s.contents (s.inums 1) = [] := by
    change (s.node (s.icache 1).inum).data = []
    rw [hinum]
    exact hdata
  refine ⟨s, h, hout, hlogged, ?_, ?_, ?_, hbig⟩
  · rw [hinum]
    exact htype
  · rw [hcontents]
    decide
  · rw [hcontents]
    exact le_trans (by decide) hfree

end Xv6.Fs
