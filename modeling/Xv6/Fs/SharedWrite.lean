import Mathlib.Data.List.GetD
import Xv6.Fs.Safety

/-!
# Writers that share an open file

Any number of processes call `filewrite` on one `struct file`.  A step is one turn
of its loop: what is done between `begin_op` and `end_op`, under the lock of the
inode.  The history has the calls, the chunks, one for each inner `writei`, and the
values returned.
-/

namespace Xv6.Fs

open Lib Lib.Prog Function List
open Ptable (NFILE)
open Log (BSIZE)

variable {src : List UInt8} {i : Nat}

section Selecting

variable {P α : Type} [DecidableEq P]

/-- What one process did. -/
def sel (p : P) (xs : List (P × α)) : List α :=
  xs.filterMap fun x => if x.1 = p then some x.2 else none

@[simp] theorem sel_nil (p : P) : sel p ([] : List (P × α)) = [] := by
  rfl

theorem sel_concat (p q : P) (xs : List (P × α)) (x : α) :
    sel p (xs ++ [(q, x)]) = if q = p then sel p xs ++ [x] else sel p xs := by
  by_cases hq : q = p
  · simp [sel, hq]
  · simp [sel, hq]

theorem sel_of_forall {p : P} {xs : List (P × α)} (h : ∀ x ∈ xs, x.1 = p) :
    sel p xs = xs.map Prod.snd := by
  induction xs with
  | nil => rfl
  | cons x xs ih =>
    have hx : x.1 = p := h x mem_cons_self
    have hrest : sel p xs = xs.map Prod.snd := ih fun y hy => h y (mem_cons_of_mem x hy)
    rw [map_cons, ← hrest]
    simp [sel, hx]

theorem sum_sel (g : α → Nat) (S : Finset P) (xs : List (P × α)) (hS : ∀ x ∈ xs, x.1 ∈ S) :
    (xs.map fun x => g x.2).sum = ∑ p ∈ S, ((sel p xs).map g).sum := by
  induction xs using List.reverseRecOn with
  | nil => simp
  | append_singleton xs x ih =>
    obtain ⟨q, x⟩ := x
    have hq : q ∈ S := hS (q, x) (by simp)
    have hstep : ∀ p ∈ S, ((sel p (xs ++ [(q, x)])).map g).sum =
        ((sel p xs).map g).sum + if q = p then g x else 0 := by
      intro p _
      rw [sel_concat]
      by_cases hqp : q = p
      · simp [hqp]
      · simp [hqp]
    rw [Finset.sum_congr rfl hstep, Finset.sum_add_distrib, Finset.sum_ite_eq S q, if_pos hq,
      ← ih fun y hy => hS y (mem_append_left _ hy)]
    simp

end Selecting

section System

variable {P : Type} [DecidableEq P]

/-- Where a process is in `filewrite`; `i` is the loop variable. -/
inductive WriterPc where
  | idle
  | writing (src : List UInt8) (i : Nat)

/-- What is left to write. -/
def WriterPc.rest : WriterPc → List UInt8
  | .idle => []
  | .writing src i => src.drop i

structure Shared (P : Type) where
  fs : State
  pc : P → WriterPc

def Shared.setPc (s : Shared P) (p : P) (c : WriterPc) : Shared P :=
  { s with pc := update s.pc p c }

inductive WriterAct where
  | call (src : List UInt8)
  | turn

inductive WriteEvent (P : Type) where
  | called (p : P) (src : List UInt8)
  | chunk (p : P) (bs : List UInt8)
  | returned (p : P) (r : Int)

/-- The next chunk of a call. -/
def chunkAt (src : List UInt8) (i : Nat) : List UInt8 :=
  (src.drop i).take writeMax

/-- One turn of the loop in `filewrite`, or its end.  A panic stops everything. -/
def filewriteTurn (f : Fin NFILE) (s : Shared P) (p : P) (src : List UInt8) (i : Nat) :
    Option (Shared P × WriteEvent P) :=
  match (s.fs.file f).ip with
  | none => none
  | some ip =>
    if i < src.length then
      match writeChunk f ip (chunkAt src i) s.fs with
      | (.error _, _) => none
      | (.ok r, t) =>
        if r < 0 then some (({ s with fs := t }).setPc p .idle, .returned p (-1))
        else if r ≠ (chunkAt src i).length then none
        else some (({ s with fs := t }).setPc p (.writing src (i + r.toNat)),
          .chunk p (chunkAt src i))
    else some (s.setPc p .idle, .returned p src.length)

/-- One step, and what it shows. -/
def writerTurn (f : Fin NFILE) (s : Shared P) (l : P × WriterAct) :
    Option (Shared P × WriteEvent P) :=
  match l.2, s.pc l.1 with
  | .call src, .idle =>
    if (s.fs.file f).writable = false then some (s, .returned l.1 (-1))
    else some (s.setPc l.1 (.writing src 0), .called l.1 src)
  | .turn, .writing src i => filewriteTurn f s l.1 src i
  | _, _ => none

/-- The system with its history, the newest event last. -/
def writerStep (f : Fin NFILE) (sh : Shared P × List (WriteEvent P)) (l : P × WriterAct) :
    Option (Shared P × List (WriteEvent P)) :=
  (writerTurn f sh.1 l).map fun te => (te.1, sh.2 ++ [te.2])

def chunks (h : List (WriteEvent P)) : List (P × List UInt8) :=
  h.filterMap fun
    | .chunk p bs => some (p, bs)
    | _ => none

def calls (h : List (WriteEvent P)) : List (P × List UInt8) :=
  h.filterMap fun
    | .called p src => some (p, src)
    | _ => none

def returns (h : List (WriteEvent P)) : List (P × Int) :=
  h.filterMap fun
    | .returned p r => some (p, r)
    | _ => none

/-- All bytes of all chunks, in the order of the writes. -/
def written (h : List (WriteEvent P)) : List UInt8 :=
  (chunks h).flatMap fun x => x.2

/-- How much was asked for. -/
def asked (h : List (WriteEvent P)) : Nat :=
  ((calls h).map fun x => x.2.length).sum

/-- The chunks of a buffer. -/
def pieces (src : List UInt8) : List (List UInt8) :=
  if src = [] then []
  else src.take writeMax :: pieces (src.drop writeMax)
termination_by src.length
decreasing_by
  rename_i h
  have hpos := length_pos_iff.mpr h
  change (src.drop 1536).length < src.length
  rw [length_drop]
  omega

theorem pieces_nil : pieces [] = [] := by
  rw [pieces, if_pos rfl]

theorem pieces_of_ne (hsrc : src ≠ []) :
    pieces src = src.take writeMax :: pieces (src.drop writeMax) := by
  rw [pieces, if_neg hsrc]

theorem flatten_pieces (src : List UInt8) : (pieces src).flatten = src := by
  induction src using pieces.induct with
  | case1 => rw [pieces_nil, flatten_nil]
  | case2 src hsrc ih => rw [pieces_of_ne hsrc, flatten_cons, ih, take_append_drop]

theorem bytes_eq {xs ys : List UInt8} (hlen : xs.length = ys.length)
    (hget : ∀ i, xs.getD i 0 = ys.getD i 0) : xs = ys := by
  refine ext_getElem hlen ?_
  intro i hx hy
  rw [getElem_eq_getD 0, getElem_eq_getD 0]
  exact hget i

theorem Node.write_write (node : Node) (off : Nat) (xs ys : List UInt8) :
    (node.write off xs).write (off + xs.length) ys = node.write off (xs ++ ys) := by
  have hdata : ((node.write off xs).write (off + xs.length) ys).data =
      (node.write off (xs ++ ys)).data := by
    apply bytes_eq
    · simp only [Node.length_write, length_append]
      omega
    intro i
    simp only [Node.getD_write, length_append]
    by_cases hlow : i < off + xs.length
    · rw [if_neg (by omega)]
      by_cases hoff : off ≤ i
      · rw [if_pos (by omega), if_pos (by omega), getD_append _ _ _ _ (by omega)]
      · rw [if_neg (by omega), if_neg (by omega)]
    · by_cases hhigh : i < off + xs.length + ys.length
      · rw [if_pos (by omega), if_pos (by omega), getD_append_right _ _ _ _ (by omega)]
        congr 1
        omega
      · rw [if_neg (by omega), if_neg (by omega), if_neg (by omega)]
  exact Node.ext rfl rfl rfl rfl hdata

theorem Node.write_nil {node : Node} {off : Nat} (hoff : off ≤ node.data.length) :
    node.write off [] = node := by
  have hdata : (node.write off []).data = node.data := by
    apply bytes_eq
    · rw [Node.length_write, length_nil, Nat.add_zero, Nat.max_eq_left hoff]
    · intro i
      rw [Node.getD_write, length_nil, if_neg (by omega)]
  exact Node.ext rfl rfl rfl rfl hdata

/-- The file is open for writing on a regular inode. -/
structure OpenFor (f : Fin NFILE) (a : Ino) (n : Nat) (t : State) : Prop where
  inv : In t 0 ∅ ∅
  ip : (t.file f).ip = some a
  writable : (t.file f).writable = true
  inum : (t.icache a).inum = n
  type : (t.node n).type = T_FILE

theorem writeChunk_accept {f : Fin NFILE} {a : Ino} {n : Nat} {t : State}
    (h : OpenFor f a n t) (hoff : (t.file f).off ≤ (t.node n).data.length)
    (hmax : (t.file f).off + src.length ≤ 71680) :
    wp (writeChunk f a src)
      (fun r t' => r = src.length ∧ OpenFor f a n t' ∧
        t'.node n = (t.node n).write (t.file f).off src ∧
        (t'.file f).off = (t.file f).off + src.length)
      (fun e _ => NoRoom e) t := by
  have hheld := State.holders_of_file h.ip
  have hfiles := h.inv.files f a h.ip
  have hty : (t.begun.node (t.begun.icache a).inum).type = T_FILE := by
    change (t.node (t.icache a).inum).type = T_FILE
    rw [h.inum]
    exact h.type
  unfold writeChunk setFile
  simp only [wp_bind, wp_beginOp, wp_get, wp_modify, wp_endOp, wp_pure]
  refine wp_mono (ilock_spec h.inv.begun (h.inv.ref_of_holders hheld) (Finset.notMem_empty a)) ?_
    fun _ _ he => absurd (he.2.symm.trans hty) (by decide)
  rintro _ s1 ⟨h1, hq1, hinum1, _⟩
  have hn1 : (s1.icache a).inum = n := hinum1.trans h.inum
  have hnode1 : s1.node n = t.node n := by
    rw [hq1.node]
    rfl
  have hoff1 : (s1.file f).off = (t.file f).off := by
    rw [hq1.file]
    rfl
  have htype1 : (s1.node (s1.icache a).inum).type = T_FILE := by
    rw [hn1, hnode1]
    exact h.type
  refine wp_post (writei_accept h1 (Finset.mem_insert_self a ∅)
    (by rw [hq1.outstanding]; exact Nat.succ_pos _) (by rw [htype1]; decide)
    (by rw [hn1, hnode1, hoff1]; exact hoff) (by rw [hoff1]; exact hmax)
    (Node.dirOk_of_type _ (by rw [Node.type_write, htype1]; decide))) ?_
  rintro _ s2 ⟨rfl, h2, hch⟩
  have hfile2 : s2.file f = t.file f := by
    rw [hch.file, hq1.file]
    rfl
  have hself := hch.self
  rw [hn1, hnode1, hoff1] at hself
  have hinum2 : (s2.icache a).inum = n := (hch.inum a).trans hn1
  have hput := h2.putFile_same (i := f)
    (f := { s2.file f with off := (s2.file f).off + (src.length : Int).toNat }) rfl
    (by simp only [hfile2]; exact hfiles.1) rfl
  refine wp_post (iunlock_spec hput (Finset.notMem_empty a)) ?_
  rintro _ s3 ⟨h3, hq3, hinum3⟩
  have hfile3 : s3.ended.file f =
      { t.file f with off := (t.file f).off + (src.length : Int).toNat } := by
    change s3.file f = _
    rw [hq3.file, ← hfile2]
    exact update_self f _ s2.file
  have hnode3 : s3.ended.node n = s2.node n := by
    change s3.node n = _
    rw [hq3.node]
    rfl
  refine ⟨rfl, ⟨h3.ended, ?_, ?_, hinum3.trans hinum2, ?_⟩, ?_, ?_⟩
  · rw [hfile3]
    exact h.ip
  · rw [hfile3]
    exact h.writable
  · rw [hnode3, hself, Node.type_write]
    exact h.type
  · rw [hnode3, hself]
  · rw [hfile3]
    rfl

inductive WriterMove (f : Fin NFILE) (s : Shared P) :
    P × WriterAct → Shared P → WriteEvent P → Prop where
  | refused (p : P) (src : List UInt8) (hpc : s.pc p = .idle)
      (hw : (s.fs.file f).writable = false) :
      WriterMove f s (p, .call src) s (.returned p (-1))
  | call (p : P) (src : List UInt8) (hpc : s.pc p = .idle) :
      WriterMove f s (p, .call src) (s.setPc p (.writing src 0)) (.called p src)
  | broke (p : P) (src : List UInt8) (i : Nat) (a : Ino) (r : Int) (t : State)
      (hpc : s.pc p = .writing src i) (hip : (s.fs.file f).ip = some a) (hi : i < src.length)
      (hchunk : writeChunk f a (chunkAt src i) s.fs = (.ok r, t)) (hr : r < 0) :
      WriterMove f s (p, .turn) (({ s with fs := t }).setPc p .idle) (.returned p (-1))
  | wrote (p : P) (src : List UInt8) (i : Nat) (a : Ino) (r : Int) (t : State)
      (hpc : s.pc p = .writing src i) (hip : (s.fs.file f).ip = some a) (hi : i < src.length)
      (hchunk : writeChunk f a (chunkAt src i) s.fs = (.ok r, t))
      (hr : r = (chunkAt src i).length) :
      WriterMove f s (p, .turn) (({ s with fs := t }).setPc p (.writing src (i + r.toNat)))
        (.chunk p (chunkAt src i))
  | done (p : P) (src : List UInt8) (i : Nat) (hpc : s.pc p = .writing src i)
      (hi : ¬ i < src.length) :
      WriterMove f s (p, .turn) (s.setPc p .idle) (.returned p src.length)

theorem writerMove_of_filewriteTurn {f : Fin NFILE} {s : Shared P} {p : P}
    {te : Shared P × WriteEvent P} (hpc : s.pc p = .writing src i)
    (h : filewriteTurn f s p src i = some te) : WriterMove f s (p, .turn) te.1 te.2 := by
  unfold filewriteTurn at h
  cases hip : (s.fs.file f).ip with
  | none =>
    rw [hip] at h
    cases h
  | some a =>
    rw [hip] at h
    simp only at h
    split at h
    case isFalse hi =>
        cases h
        exact .done p src i hpc hi
    case isTrue hi =>
        rcases hchunk : writeChunk f a (chunkAt src i) s.fs with ⟨_ | r, t⟩
        · rw [hchunk] at h
          cases h
        rw [hchunk] at h
        simp only at h
        split at h
        case isTrue hr =>
            cases h
            exact .broke p src i a r t hpc hip hi hchunk hr
        case isFalse hr =>
            split at h
            case isTrue => cases h
            case isFalse hlen =>
                cases h
                exact .wrote p src i a r t hpc hip hi hchunk (not_not.mp hlen)

theorem writerMove_of_turn
    {f : Fin NFILE} {s : Shared P} {l : P × WriterAct} {te : Shared P × WriteEvent P}
    (h : writerTurn f s l = some te) : WriterMove f s l te.1 te.2 := by
  obtain ⟨p, act⟩ := l
  unfold writerTurn at h
  split at h
  case h_1 src hact hpc =>
      cases hact
      split at h
      case isTrue hw =>
          cases h
          exact .refused p src hpc hw
      case isFalse =>
          cases h
          exact .call p src hpc
  case h_2 src i hact hpc =>
      cases hact
      exact writerMove_of_filewriteTurn hpc h
  case h_3 => cases h

def WriterPc.owed : WriterPc → List Int
  | .idle => []
  | .writing src _ => [(src.length : Int)]

structure Sharing (f : Fin NFILE) (a : Ino) (n : Nat) (s₀ : State)
    (s : Shared P) (h : List (WriteEvent P)) : Prop where
  openFor : OpenFor f a n s.fs
  node : s.fs.node n = (s₀.node n).write (s₀.file f).off (written h)
  off : (s.fs.file f).off = (s₀.file f).off + (written h).length
  size : ∀ x ∈ chunks h, 0 < x.2.length ∧ x.2.length ≤ writeMax
  order : ∀ p, sel p (chunks h) ++ pieces (s.pc p).rest = (sel p (calls h)).flatMap pieces
  result : ∀ p, sel p (returns h) ++ (s.pc p).owed =
    (sel p (calls h)).map fun src => (src.length : Int)

section Sharing

variable {f : Fin NFILE} {a : Ino} {n : Nat} {s₀ : State} {s : Shared P}
  {h : List (WriteEvent P)}

theorem sum_length_pieces_self (src : List UInt8) :
    ((pieces src).map List.length).sum = src.length := by
  rw [← length_flatten, flatten_pieces]

theorem sum_length_pieces (xs : List (List UInt8)) :
    ((xs.flatMap pieces).map List.length).sum = (xs.map List.length).sum := by
  induction xs with
  | nil => rfl
  | cons x xs ih =>
    simp only [flatMap_cons, map_append, sum_append, map_cons, sum_cons, sum_length_pieces_self, ih]

theorem Sharing.sum_calls (hs : Sharing f a n s₀ s h) (p : P) :
    ((sel p (calls h)).map List.length).sum =
      ((sel p (chunks h)).map List.length).sum + (s.pc p).rest.length := by
  have horder := congrArg (fun xs => (xs.map List.length).sum) (hs.order p)
  simp only [map_append, sum_append, sum_length_pieces] at horder
  rw [← horder, sum_length_pieces_self]

theorem Sharing.asked_eq (hs : Sharing f a n s₀ s h) (S : Finset P)
    (hcalls : ∀ x ∈ calls h, x.1 ∈ S) (hchunks : ∀ x ∈ chunks h, x.1 ∈ S) :
    asked h = (written h).length + ∑ p ∈ S, (s.pc p).rest.length := by
  have hwritten : (written h).length = ((chunks h).map fun x => x.2.length).sum :=
    length_flatMap
  have hsplit : ∀ p ∈ S, ((sel p (calls h)).map List.length).sum =
      ((sel p (chunks h)).map List.length).sum + (s.pc p).rest.length :=
    fun p _ => hs.sum_calls p
  unfold asked
  rw [hwritten, sum_sel List.length S _ hcalls, sum_sel List.length S _ hchunks,
    Finset.sum_congr rfl hsplit, Finset.sum_add_distrib]

def writers (h : List (WriteEvent P)) : Finset P :=
  ((calls h ++ chunks h).map Prod.fst).toFinset

theorem Sharing.rest_le (hs : Sharing f a n s₀ s h) (p : P) :
    (written h).length + (s.pc p).rest.length ≤ asked h := by
  have hmem : ∀ x ∈ calls h ++ chunks h, x.1 ∈ insert p (writers h) := by
    intro x hx
    apply Finset.mem_insert_of_mem
    rw [writers, mem_toFinset]
    exact mem_map_of_mem hx
  rw [hs.asked_eq (insert p (writers h)) (fun x hx => hmem x (mem_append_left _ hx))
    fun x hx => hmem x (mem_append_right _ hx)]
  have hle : (s.pc p).rest.length ≤ ∑ q ∈ insert p (writers h), (s.pc q).rest.length :=
    Finset.single_le_sum (f := fun q => (s.pc q).rest.length) (fun _ _ => Nat.zero_le _)
      (Finset.mem_insert_self p _)
  omega

theorem Sharing.asked_of_idle (hs : Sharing f a n s₀ s h) (hidle : ∀ p, s.pc p = .idle) :
    (written h).length = asked h := by
  have hmem : ∀ x ∈ calls h ++ chunks h, x.1 ∈ writers h := by
    intro x hx
    rw [writers, mem_toFinset]
    exact mem_map_of_mem hx
  have hzero : ∑ p ∈ writers h, (s.pc p).rest.length = 0 := by
    apply Finset.sum_eq_zero
    intro p _
    rw [hidle p]
    rfl
  rw [hs.asked_eq (writers h) (fun x hx => hmem x (mem_append_left _ hx))
    fun x hx => hmem x (mem_append_right _ hx), hzero, Nat.add_zero]

theorem pc_update (c : WriterPc) (p q : P) :
    (q = p ∧ update s.pc p c q = c) ∨ (q ≠ p ∧ update s.pc p c q = s.pc q) := by
  by_cases hqp : q = p
  · subst hqp
    exact .inl ⟨rfl, update_self _ _ _⟩
  · exact .inr ⟨hqp, update_of_ne hqp _ _⟩

section
variable (hs : Sharing f a n s₀ s h)
include hs

theorem Sharing.call {p : P} (hpc : s.pc p = .idle) (src : List UInt8) :
    Sharing f a n s₀ (s.setPc p (.writing src 0)) (h ++ [.called p src]) := by
  have hchunks : chunks (h ++ [.called p src]) = chunks h := by simp [chunks]
  have hreturns : returns (h ++ [.called p src]) = returns h := by simp [returns]
  have hcalls : calls (h ++ [.called p src]) = calls h ++ [(p, src)] := by simp [calls]
  have hwritten : written (h ++ [.called p src]) = written h := by rw [written, hchunks, written]
  refine ⟨hs.openFor, ?_, ?_, ?_, ?_, ?_⟩
  · rw [hwritten]
    exact hs.node
  · rw [hwritten]
    exact hs.off
  · rw [hchunks]
    exact hs.size
  · intro q
    change _ ++ pieces (update s.pc p (.writing src 0) q).rest = _
    rw [hchunks, hcalls, sel_concat]
    rcases pc_update (s := s) (.writing src 0) p q with ⟨rfl, hq⟩ | ⟨hne, hq⟩
    · have horder := hs.order q
      rw [hpc] at horder
      rw [hq, if_pos rfl, flatMap_append, ← horder]
      simp [WriterPc.rest, pieces_nil]
    · rw [hq, if_neg (Ne.symm hne)]
      exact hs.order q
  intro q
  change _ ++ (update s.pc p (.writing src 0) q).owed = _
  rw [hreturns, hcalls, sel_concat]
  rcases pc_update (s := s) (.writing src 0) p q with ⟨rfl, hq⟩ | ⟨hne, hq⟩
  · have hresult := hs.result q
    rw [hpc] at hresult
    rw [hq, if_pos rfl, map_append, ← hresult]
    simp [WriterPc.owed]
  · rw [hq, if_neg (Ne.symm hne)]
    exact hs.result q

theorem Sharing.done {p : P} (hpc : s.pc p = .writing src i) (hi : ¬ i < src.length) :
    Sharing f a n s₀ (s.setPc p .idle) (h ++ [.returned p src.length]) := by
  have hchunks : chunks (h ++ [.returned p src.length]) = chunks h := by simp [chunks]
  have hreturns : returns (h ++ [.returned p src.length]) =
      returns h ++ [(p, (src.length : Int))] := by simp [returns]
  have hcalls : calls (h ++ [.returned p src.length]) = calls h := by simp [calls]
  have hwritten : written (h ++ [.returned p src.length]) = written h := by
    rw [written, hchunks, written]
  refine ⟨hs.openFor, ?_, ?_, ?_, ?_, ?_⟩
  · rw [hwritten]
    exact hs.node
  · rw [hwritten]
    exact hs.off
  · rw [hchunks]
    exact hs.size
  · intro q
    change _ ++ pieces (update s.pc p .idle q).rest = _
    rw [hchunks, hcalls, ← hs.order q]
    rcases pc_update (s := s) .idle p q with ⟨rfl, hq⟩ | ⟨hne, hq⟩
    · have hrest : (s.pc q).rest = [] := by
        rw [hpc]
        exact drop_eq_nil_of_le (Nat.not_lt.mp hi)
      rw [hq, hrest]
      rfl
    · rw [hq]
  intro q
  change _ ++ (update s.pc p .idle q).owed = _
  rw [hreturns, hcalls, ← hs.result q, sel_concat]
  rcases pc_update (s := s) .idle p q with ⟨rfl, hq⟩ | ⟨hne, hq⟩
  · rw [hq, hpc, if_pos rfl]
    simp [WriterPc.owed]
  · rw [hq, if_neg (Ne.symm hne)]

theorem Sharing.within
    (hmax : (s₀.file f).off + asked h ≤ MAXFILE * BSIZE) {p : P} (hpc : s.pc p = .writing src i) :
    (s.fs.file f).off ≤ (s.fs.node n).data.length ∧
      (s.fs.file f).off + (chunkAt src i).length ≤ 71680 := by
  have hle := hs.rest_le p
  have hmax' : (s₀.file f).off + asked h ≤ 71680 := hmax
  have hchunk : (chunkAt src i).length ≤ (s.pc p).rest.length := by
    rw [hpc]
    exact length_take_le' _ _
  rw [hs.node, hs.off, Node.length_write]
  omega

end

theorem drop_chunk (src : List UInt8) (i : Nat) :
    src.drop (i + (chunkAt src i).length) = (src.drop i).drop writeMax := by
  have hlen : (chunkAt src i).length = min 1536 (src.length - i) := by
    change ((src.drop i).take 1536).length = _
    rw [length_take, length_drop]
  change _ = (src.drop i).drop 1536
  rw [drop_drop]
  rcases Nat.le_total 1536 (src.length - i) with hfull | hlast
  · rw [hlen, Nat.min_eq_left hfull]
  · rw [hlen, Nat.min_eq_right hlast, drop_eq_nil_of_le (by omega), drop_eq_nil_of_le (by omega)]

theorem Sharing.wrote (hs : Sharing f a n s₀ s h) {p : P} {t : State}
    (hpc : s.pc p = .writing src i) (hi : i < src.length) (hopen : OpenFor f a n t)
    (hnode : t.node n = (s.fs.node n).write (s.fs.file f).off (chunkAt src i))
    (hoff : (t.file f).off = (s.fs.file f).off + (chunkAt src i).length) :
    Sharing f a n s₀ (({ s with fs := t }).setPc p (.writing src (i + (chunkAt src i).length)))
      (h ++ [.chunk p (chunkAt src i)]) := by
  have hchunks : chunks (h ++ [.chunk p (chunkAt src i)]) = chunks h ++ [(p, chunkAt src i)] := by
    simp [chunks]
  have hreturns : returns (h ++ [.chunk p (chunkAt src i)]) = returns h := by simp [returns]
  have hcalls : calls (h ++ [.chunk p (chunkAt src i)]) = calls h := by simp [calls]
  have hwritten : written (h ++ [.chunk p (chunkAt src i)]) = written h ++ chunkAt src i := by
    rw [written, hchunks, flatMap_append, written]
    simp
  have hne : src.drop i ≠ [] := by
    intro hnil
    have hlen := congrArg List.length hnil
    rw [length_drop, length_nil] at hlen
    omega
  refine ⟨hopen, ?_, ?_, ?_, ?_, ?_⟩
  · change t.node n = _
    rw [hnode, hwritten, hs.node, hs.off, Node.write_write]
  · change (t.file f).off = _
    rw [hoff, hwritten, hs.off, length_append, Nat.add_assoc]
  · intro x hx
    rw [hchunks, mem_append, mem_singleton] at hx
    rcases hx with hx | rfl
    · exact hs.size x hx
    · have hpos := length_pos_iff.mpr hne
      change 0 < ((src.drop i).take 1536).length ∧ ((src.drop i).take 1536).length ≤ 1536
      rw [length_take]
      omega
  · intro q
    change _ ++ pieces (update s.pc p _ q).rest = _
    rw [hchunks, hcalls, sel_concat, ← hs.order q]
    rcases pc_update (s := s) (.writing src (i + (chunkAt src i).length)) p q with
      ⟨rfl, hq⟩ | ⟨hne', hq⟩
    · rw [hq, hpc, if_pos rfl]
      simp only [WriterPc.rest]
      rw [pieces_of_ne hne, drop_chunk, append_assoc]
      rfl
    · rw [hq, if_neg (Ne.symm hne')]
  intro q
  change _ ++ (update s.pc p _ q).owed = _
  rw [hreturns, hcalls, ← hs.result q]
  rcases pc_update (s := s) (.writing src (i + (chunkAt src i).length)) p q with
    ⟨rfl, hq⟩ | ⟨hne', hq⟩
  · rw [hq, hpc]
    rfl
  · rw [hq]

theorem Sharing.move {l : P × WriterAct} {t : Shared P} {e : WriteEvent P}
    (hs : Sharing f a n s₀ s h) (hmax : (s₀.file f).off + asked h ≤ MAXFILE * BSIZE)
    (hmove : WriterMove f s l t e) : Sharing f a n s₀ t (h ++ [e]) := by
  cases hmove with
  | refused p src hpc hw =>
    rw [hs.openFor.writable] at hw
    cases hw
  | call p src hpc => exact hs.call hpc src
  | broke p src i b r t hpc hip hi hchunk hr =>
    rw [hs.openFor.ip] at hip
    cases hip
    obtain ⟨hin, htotal⟩ := hs.within hmax hpc
    obtain ⟨hlen, _⟩ := wp_ok (writeChunk_accept hs.openFor hin htotal) hchunk
    omega
  | wrote p src i b r t hpc hip hi hchunk hr =>
    rw [hs.openFor.ip] at hip
    cases hip
    obtain ⟨hin, htotal⟩ := hs.within hmax hpc
    obtain ⟨_, hopen, hnode, hoff'⟩ := wp_ok (writeChunk_accept hs.openFor hin htotal) hchunk
    subst hr
    exact hs.wrote hpc hi hopen hnode hoff'
  | done p src i hpc hi => exact hs.done hpc hi

theorem sharing_start (hopen : OpenFor f a n s₀)
    (hoff : (s₀.file f).off ≤ (s₀.node n).data.length) :
    Sharing (P := P) f a n s₀ ⟨s₀, fun _ => .idle⟩ [] where
  openFor := hopen
  node := (Node.write_nil hoff).symm
  off := rfl
  size := by
    intro x hx
    cases hx
  order := by
    intro p
    change [] ++ pieces [] = []
    rw [pieces_nil, nil_append]
  result := fun _ => rfl

omit [DecidableEq P] in
theorem asked_concat_le (e : WriteEvent P) : asked h ≤ asked (h ++ [e]) := by
  unfold asked calls
  rw [filterMap_append, map_append, sum_append]
  exact Nat.le_add_right _ _

theorem sharing_of_reachable {t : Shared P} (hopen : OpenFor f a n s₀)
    (hoff : (s₀.file f).off ≤ (s₀.node n).data.length)
    (hreach : Reachable (writerStep f) (⟨s₀, fun _ => .idle⟩, []) (t, h))
    (hmax : (s₀.file f).off + asked h ≤ MAXFILE * BSIZE) : Sharing f a n s₀ t h := by
  -- What has been asked for only grows, so the bound at the end is a bound all along.
  refine hreach.invariant
    (fun sh => (s₀.file f).off + asked sh.2 ≤ MAXFILE * BSIZE → Sharing f a n s₀ sh.1 sh.2)
    (fun _ => sharing_start hopen hoff) ?_ hmax
  rintro ⟨s, h⟩ l ⟨t, h'⟩ ih hstep hle
  obtain ⟨te, hturn, heq⟩ := Option.map_eq_some_iff.mp hstep
  cases heq
  have hbefore := Nat.le_trans (Nat.add_le_add_left (asked_concat_le te.2) _) hle
  exact (ih hbefore).move hbefore (writerMove_of_turn hturn)

theorem Sharing.turn (hs : Sharing f a n s₀ s h)
    (hmax : (s₀.file f).off + asked h ≤ MAXFILE * BSIZE) {p : P} (hpc : s.pc p = .writing src i) :
    (∃ te, writerTurn f s (p, .turn) = some te) ∨
      ∃ e u, writeChunk f a (chunkAt src i) s.fs = (.error e, u) ∧ NoRoom e := by
  obtain ⟨hin, htotal⟩ := hs.within hmax hpc
  have hspec := writeChunk_accept hs.openFor hin htotal
  by_cases hi : i < src.length
  · rcases hchunk : writeChunk f a (chunkAt src i) s.fs with ⟨e | r, u⟩
    · refine .inr ⟨e, u, rfl, ?_⟩
      unfold wp at hspec
      rw [hchunk] at hspec
      exact hspec
    · obtain ⟨hr, _⟩ := wp_ok hspec hchunk
      refine .inl ⟨(({ s with fs := u }).setPc p (.writing src (i + r.toNat)),
        .chunk p (chunkAt src i)), ?_⟩
      simp only [writerTurn, hpc, filewriteTurn, hs.openFor.ip, if_pos hi, hchunk]
      rw [if_neg (by omega), if_neg (by simp [hr])]
  · refine .inl ⟨(s.setPc p .idle, .returned p src.length), ?_⟩
    simp only [writerTurn, hpc, filewriteTurn, hs.openFor.ip, if_neg hi]

theorem Sharing.written_of_one (hs : Sharing f a n s₀ s h) {p : P}
    (hcalls : calls h = [(p, src)]) (hidle : ∀ q, s.pc q = .idle) : written h = src := by
  have horder : ∀ q, sel q (chunks h) = (sel q [(p, src)]).flatMap pieces := by
    intro q
    have hq := hs.order q
    rw [hidle q, hcalls] at hq
    change _ ++ pieces [] = _ at hq
    rw [pieces_nil, append_nil] at hq
    exact hq
  -- No other process has written a chunk.
  have hfst : ∀ x ∈ chunks h, x.1 = p := by
    intro x hx
    by_contra hne
    have hmem : x.2 ∈ sel x.1 (chunks h) := mem_filterMap.mpr ⟨x, hx, if_pos rfl⟩
    rw [horder x.1] at hmem
    simp [sel, Ne.symm hne] at hmem
  have hp := horder p
  rw [sel_of_forall hfst] at hp
  have hflat := congrArg List.flatten hp
  simp only [sel, filterMap_cons, if_true, filterMap_nil, flatMap_cons,
    flatMap_nil, append_nil, flatten_pieces] at hflat
  exact hflat

end Sharing

/-- Concurrent writers of one open file lose nothing.  The file has the chunks one after the other
from the first offset on, each of at most 1536 bytes; the chunks of a process are those of its calls
in order; when no call is in progress the offset has moved by all that was asked for, and every call
has returned its length.  A single call has the effect of one `writei` of its whole buffer. -/
theorem shared_writes
    {f : Fin NFILE} {a : Ino} {n : Nat} {s₀ : State} {t : Shared P} {h : List (WriteEvent P)}
    (hopen : OpenFor f a n s₀) (hoff : (s₀.file f).off ≤ (s₀.node n).data.length)
    (hreach : Reachable (writerStep f) (⟨s₀, fun _ => .idle⟩, []) (t, h))
    (hmax : (s₀.file f).off + asked h ≤ MAXFILE * BSIZE) :
    t.fs.node n = (s₀.node n).write (s₀.file f).off (written h) ∧
      (t.fs.file f).off = (s₀.file f).off + (written h).length ∧
      (∀ x ∈ chunks h, 0 < x.2.length ∧ x.2.length ≤ 1536) ∧
      (∀ p, sel p (chunks h) ++ pieces (t.pc p).rest = (sel p (calls h)).flatMap pieces) ∧
      ((∀ p, t.pc p = .idle) → (t.fs.file f).off = (s₀.file f).off + asked h ∧
          ∀ p, sel p (returns h) = (sel p (calls h)).map fun src => (src.length : Int)) ∧
      (∀ p src i, t.pc p = .writing src i → (∃ te, writerTurn f t (p, .turn) = some te) ∨
          ∃ e u, writeChunk f a (chunkAt src i) t.fs = (.error e, u) ∧ NoRoom e) ∧
      (∀ p src, calls h = [(p, src)] → (∀ q, t.pc q = .idle) → wp (writeChunk f a src)
          (fun r u => r = src.length ∧ u.node n = t.fs.node n ∧ (u.file f).off = (t.fs.file f).off)
          (fun e _ => NoRoom e) s₀) := by
  have hs := sharing_of_reachable hopen hoff hreach hmax
  refine ⟨hs.node, hs.off, hs.size, hs.order, ?_, ?_, ?_⟩
  · intro hidle
    constructor
    · rw [hs.off, hs.asked_of_idle hidle]
    · intro p
      have hresult := hs.result p
      rw [hidle p] at hresult
      exact (append_nil _).symm.trans hresult
  · intro p src i hpc
    exact hs.turn hmax hpc
  intro p src hcalls hidle
  have hasked : asked h = src.length := by simp [asked, hcalls]
  have hmax' : (s₀.file f).off + src.length ≤ 71680 := by
    rw [hasked] at hmax
    exact hmax
  have hwritten : written h = src := hs.written_of_one hcalls hidle
  refine wp_post (writeChunk_accept hopen hoff hmax') ?_
  rintro r u ⟨hr, _, hnode, hend⟩
  refine ⟨hr, ?_, ?_⟩
  · rw [hnode, hs.node, hwritten]
  · rw [hend, hs.off, hwritten]

def twoWriters {Q : Type} (p q : Q) : List (Q × WriterAct) :=
  [(p, .call [1, 2]), (q, .call [3]), (q, .turn), (p, .turn)]

theorem shared_writes_of_two :
    ∃ s₀ t h, OpenFor 0 1 2 s₀ ∧
      Reachable (writerStep (P := Fin 2) 0) (⟨s₀, fun _ => .idle⟩, []) (t, h) ∧
        written h = [3, 1, 2] ∧ t.fs.node 2 = (s₀.node 2).write (s₀.file 0).off (written h) := by
  obtain ⟨s₀, hrun, htest⟩ := exists_of_run_map step (boot freshImage [])
    [(0, .openf (some [120]) 514)]
    (fun s => decide (((s.file 0).ip = some 1 ∧ (s.file 0).writable = true ∧
      (s.icache 1).inum = 2 ∧ (s.node 2).type = T_FILE ∧ (s.file 0).off = 0) ∧
      (run (writerStep 0) (⟨s, fun _ => .idle⟩, []) (twoWriters (0 : Fin 2) 1)).map
        (fun th => decide (written th.2 = [3, 1, 2] ∧ asked th.2 = 3)) = some true))
    (by decide +kernel)
  obtain ⟨⟨hip, hw, hinum, htype, hoff⟩, hwriters⟩ := of_decide_eq_true htest
  have hsettled := settled_of_reachable consistent_freshImage ⟨_, hrun⟩
  have hopen : OpenFor 0 1 2 s₀ := ⟨hsettled.inv, hip, hw, hinum, htype⟩
  obtain ⟨⟨t, h⟩, hth, hdone⟩ := exists_of_run_map (writerStep 0) _ _ _ hwriters
  obtain ⟨hwritten, hasked⟩ := of_decide_eq_true hdone
  have hreach : Reachable (writerStep (P := Fin 2) 0) (⟨s₀, fun _ => .idle⟩, []) (t, h) :=
    ⟨twoWriters 0 1, hth⟩
  refine ⟨s₀, t, h, hopen, hreach, hwritten, ?_⟩
  exact (shared_writes hopen (by rw [hoff]; exact Nat.zero_le _) hreach
    (by rw [hoff]; change 0 + asked h ≤ 71680; simp only at hasked; omega)).1

end System

end Xv6.Fs
