import Xv6.Bio.Bio

/-!
# The buffer cache refines an array of blocks

In every state that the processes can reach each block has at most one buffer, the list
is a ring of all buffers, and the buffers and the disk together hold an array of blocks:
a valid buffer has the content of its block, and the disk has it unless a buffer of the
block is dirty or still to be saved.
-/

namespace Xv6.Bio

open Lib List
open Log (Block Addr NBUF LOGSIZE)

variable {P : Type} {s t : State P} {accepts : Addr → Bool} {l : P × Act} {test : Fin NBUF → Bool}
variable {i : Fin NBUF} {c : Pc}

section Lists

variable [DecidableEq P]

def State.Ringed (s : State P) : Prop :=
  ∃ js : List (Fin NBUF), DoubleRing s.links none (js.map some) ∧ js.Perm (List.finRange NBUF)

theorem find_stopAt (test : Fin NBUF → Bool) (js : List (Fin NBUF)) :
    ((js.map some ++ [none]).find? (stopAt test)).join = js.find? test := by
  induction js with
  | nil => rfl
  | cons j js ih =>
    rw [map_cons, cons_append]
    cases htest : test j with
    | true =>
      rw [List.find?_cons_of_pos htest,
        List.find?_cons_of_pos (show stopAt test (some j) = true from htest)]
      rfl
    | false =>
      have hno : ¬test j = true := by simp [htest]
      rw [List.find?_cons_of_neg hno,
        List.find?_cons_of_neg (show ¬stopAt test (some j) = true from hno)]
      exact ih

theorem scan_eq_find {links : Links Node} {js : List (Fin NBUF)}
    (h : DoubleRing links none (js.map some)) (hperm : js.Perm (List.finRange NBUF))
    (test : Fin NBUF → Bool) : scan links.next test = js.find? test := by
  have hlen : (js.map some).length < NBUF + 1 := by
    rw [length_map, hperm.length_eq, length_finRange]
    exact Nat.lt_succ_self _
  unfold scan
  rw [h.seek_next rfl hlen, find_stopAt]

omit [DecidableEq P] in
theorem State.Ringed.of_scan (h : s.Ringed)
    (hscan : scan s.links.next test = some i ∨ scan s.links.prev test = some i) :
    test i = true := by
  obtain ⟨js, hring, hperm⟩ := h
  rcases hscan with hscan | hscan
  · rw [scan_eq_find hring hperm] at hscan
    exact List.find?_some hscan
  · have hsymm := hring.symm
    rw [← map_reverse] at hsymm
    have heq := scan_eq_find hsymm ((reverse_perm js).trans hperm) test
    exact List.find?_some (heq.symm.trans hscan)

omit [DecidableEq P] in
theorem State.Ringed.scan_none (h : s.Ringed)
    (hscan : scan s.links.next test = none) (i : Fin NBUF) : ¬test i = true := by
  obtain ⟨js, hring, hperm⟩ := h
  rw [scan_eq_find hring hperm] at hscan
  exact List.find?_eq_none.mp hscan i (hperm.mem_iff.mpr (mem_finRange i))

theorem ringed_step (h : s.Ringed) (hstep : step accepts s l = some t) : t.Ringed := by
  cases move_of_step hstep with
  | found => exact h
  | recycled => exact h
  | locked => exact h
  | hit => exact h
  | filled p i a hpc hvalid t ht =>
    obtain ⟨_, ⟨_, rfl⟩ | ⟨_, _, rfl⟩⟩ := iderw_cases ht
    · exact h
    · exact h
  | modified => exact h
  | logging => exact h
  | logged => exact h
  | writing => exact h
  | written p i hpc t ht =>
    obtain ⟨_, ⟨_, rfl⟩ | ⟨_, _, rfl⟩⟩ := iderw_cases ht
    · exact h
    · exact h
  | releasing => exact h
  | released p i hpc =>
    obtain ⟨js, hring, hperm⟩ := h
    have hmem : i ∈ js := hperm.mem_iff.mpr (mem_finRange i)
    obtain ⟨us, vs, rfl⟩ := append_of_mem hmem
    unfold brelse
    split
    · have hnodup : (i :: (us ++ vs)).Nodup :=
        (perm_middle.symm.trans hperm).nodup_iff.mpr (nodup_finRange NBUF)
      rw [map_append, map_cons] at hring
      refine ⟨i :: (us ++ vs), ?_, perm_middle.symm.trans hperm⟩
      rw [map_cons, map_append]
      refine hring.unlink.push ?_
      rw [← map_append]
      simpa using (nodup_cons.mp hnodup).1
    · exact ⟨_, hring, hperm⟩
  | log => exact h

omit [DecidableEq P] in
theorem ringed_boot (disk : Addr → Block) (log : LogState) : (boot disk log : State P).Ringed := by
  have hloop : ∀ (is js : List (Fin NBUF)) (links : Links Node),
      DoubleRing links none (js.map some) → (is ++ js).Nodup →
      DoubleRing (is.foldl (fun links i => links.push none (some i)) links) none
        ((is.reverse ++ js).map some) := by
    intro is
    induction is with
    | nil =>
      intro js links hring _
      exact hring
    | cons i is ih =>
      intro js links hring hnodup
      have hperm : (is ++ i :: js).Perm (i :: is ++ js) := perm_middle
      have hnew : i ∉ is ++ js := (nodup_cons.mp hnodup).1
      have hpush : DoubleRing (links.push none (some i)) none ((i :: js).map some) :=
        hring.push (by simpa using fun hmem => hnew (mem_append_right is hmem))
      have hrest := ih (i :: js) _ hpush (hperm.nodup_iff.mpr hnodup)
      rw [reverse_cons, append_assoc]
      exact hrest
  have hempty : DoubleRing (⟨Function.update (fun _ => none) none none,
      Function.update (fun _ => none) none none⟩ : Links Node) none [] := by
    refine ⟨?_, ?_, nodup_singleton none⟩
    · exact linked_cons_cons.mpr ⟨rfl, isChain_singleton _⟩
    · exact linked_cons_cons.mpr ⟨rfl, isChain_singleton _⟩
  refine ⟨(List.finRange NBUF).reverse ++ [], ?_, ?_⟩
  · refine hloop (List.finRange NBUF) [] _ hempty ?_
    rw [append_nil]
    exact nodup_finRange NBUF
  · rw [append_nil]
    exact reverse_perm _

end Lists

/-- The references to buffer `i` of a process that waits for its lock or has just released it. -/
def Pc.waits (i : Fin NBUF) : Pc → Nat
  | .locking j _ => if j = i then 1 else 0
  | .releasing j => if j = i then 1 else 0
  | _ => 0

/-- The process is in a call that needs the lock of buffer `i`. -/
def Pc.Works (i : Fin NBUF) : Pc → Prop
  | .filling j _ => j = i
  | .logging j => j = i
  | .writing j => j = i
  | _ => False

/-- The process has the lock of buffer `i` and has not yet looked at `valid`. -/
def Pc.Fills (i : Fin NBUF) : Pc → Prop
  | .filling j _ => j = i
  | _ => False

/-- The reference of the process that holds the lock. -/
def lockRef {P : Type} : Option P → Nat
  | none => 0
  | some _ => 1

section References

variable [Fintype P]

def State.Counted (s : State P) : Prop :=
  ∀ i, (s.buf i).refcnt = lockRef (s.buf i).lock + total (Pc.waits i) s.pc

theorem waits_le (s : State P) (p : P) (i : Fin NBUF) :
    (s.pc p).waits i ≤ total (Pc.waits i) s.pc :=
  Finset.single_le_sum (f := fun q => (s.pc q).waits i) (fun _ _ => Nat.zero_le _)
    (Finset.mem_univ p)

theorem State.Counted.unused (h : s.Counted) (hzero : (s.buf i).refcnt = 0) :
    (s.buf i).lock = none ∧ ∀ p, (s.pc p).waits i = 0 := by
  have hcount := h i
  rw [hzero] at hcount
  constructor
  · cases hlock : (s.buf i).lock with
    | none => rfl
    | some p =>
      rw [hlock, lockRef] at hcount
      omega
  · intro p
    have hle := waits_le s p i
    omega

variable [DecidableEq P]

theorem State.Counted.update {p : P} {b : Buf P} (h : s.Counted)
    (hbuf : ∀ j, t.buf j = if j = i then b else s.buf j) (hpc : t.pc = Function.update s.pc p c)
    (hother : ∀ j, j ≠ i → c.waits j = (s.pc p).waits j)
    (hself : b.refcnt + lockRef (s.buf i).lock + (s.pc p).waits i =
      (s.buf i).refcnt + lockRef b.lock + c.waits i) :
    t.Counted := by
  intro j
  have hcount := h j
  have htotal := total_update (Pc.waits j) s.pc p c
  rw [← hpc] at htotal
  rw [hbuf]
  by_cases hji : j = i
  · subst hji
    rw [if_pos rfl]
    omega
  · have hsame := hother j hji
    rw [if_neg hji]
    omega

theorem State.Counted.keep {p : P} (h : s.Counted)
    (hbuf : ∀ j, (t.buf j).refcnt = (s.buf j).refcnt ∧ (t.buf j).lock = (s.buf j).lock)
    (hpc : t.pc = Function.update s.pc p c) (hwaits : ∀ j, c.waits j = (s.pc p).waits j) :
    t.Counted := by
  intro j
  have hcount := h j
  have htotal := total_update (Pc.waits j) s.pc p c
  have hsame := hwaits j
  rw [← hpc] at htotal
  rw [(hbuf j).1, (hbuf j).2]
  omega

omit [Fintype P] in
theorem iderw_refs {p : P} (h : iderw accepts s p i = some t) :
    (∀ j, (t.buf j).refcnt = (s.buf j).refcnt ∧ (t.buf j).lock = (s.buf j).lock) ∧
      t.pc = s.pc := by
  obtain ⟨_, ⟨_, rfl⟩ | ⟨_, _, rfl⟩⟩ := iderw_cases h
  · exact ⟨by grind, rfl⟩
  · exact ⟨by grind, rfl⟩

theorem counted_step (h : s.Counted) (hring : s.Ringed) (hstep : step accepts s l = some t) :
    t.Counted := by
  cases move_of_step hstep with
  | found p a i hpc =>
    refine h.update (fun j => setBuf_buf ..) rfl ?_ ?_
    · intro j hj
      simp [hpc, Pc.waits, Ne.symm hj]
    · simp only [hpc, Pc.waits, if_pos]
      omega
  | recycled p a i hpc hdev hmiss hscan =>
    have hfree := hring.of_scan (.inr hscan)
    simp only [decide_eq_true_eq] at hfree
    refine h.update (fun j => setBuf_buf ..) rfl ?_ ?_
    · intro j hj
      simp [hpc, Pc.waits, Ne.symm hj]
    · simp [hpc, Pc.waits, hfree.1]
      omega
  | locked p i a hpc hfree =>
    refine h.update (fun j => setBuf_buf ..) rfl ?_ ?_
    · intro j hj
      simp [hpc, Pc.waits, Ne.symm hj]
    · simp only [hpc, Pc.waits, if_pos, hfree, lockRef]
  | hit p i a hpc => exact h.keep (fun j => ⟨rfl, rfl⟩) rfl (by simp [hpc, Pc.waits])
  | filled p i a hpc hvalid t ht =>
    obtain ⟨hrefs, hsame⟩ := iderw_refs ht
    have hupdate : (t.setPc p .idle).pc = Function.update s.pc p .idle := by
      rw [← hsame]
      rfl
    exact h.keep hrefs hupdate (by simp [hpc, Pc.waits])
  | modified p i data hpc =>
    refine h.keep (p := p) (c := s.pc p) (by grind) ?_ fun j => rfl
    rw [Function.update_eq_self]
    rfl
  | logging p i hpc => exact h.keep (fun j => ⟨rfl, rfl⟩) rfl (by simp [hpc, Pc.waits])
  | logged p i hpc => exact h.keep (by grind) rfl (by simp [hpc, Pc.waits])
  | writing p i hpc => exact h.keep (by grind) rfl (by simp [hpc, Pc.waits])
  | written p i hpc t ht =>
    obtain ⟨hrefs, hsame⟩ := iderw_refs ht
    have hupdate : ((t.setUnsaved i false).setPc p .idle).pc = Function.update s.pc p .idle := by
      rw [← hsame]
      rfl
    exact h.keep hrefs hupdate (by simp [hpc, Pc.waits])
  | releasing p i hpc hlock =>
    refine h.update (fun j => setBuf_buf ..) rfl ?_ ?_
    · intro j hj
      simp [hpc, Pc.waits, Ne.symm hj]
    · simp only [hpc, Pc.waits, if_pos, hlock, lockRef]
  | released p i hpc =>
    have hone := waits_le s p i
    have hcount := h i
    have hpc' : ((brelse s i).setPc p .idle).pc = Function.update s.pc p .idle := by
      funext q
      rw [setPc_pc, brelse_pc, Function.update_apply]
    simp only [hpc, Pc.waits, if_pos] at hone
    refine h.update (fun j => brelse_buf ..) hpc' ?_ ?_
    · intro j hj
      simp [hpc, Pc.waits, Ne.symm hj]
    · simp only [hpc, Pc.waits, if_pos]
      omega
  | log p lg => exact h

omit [DecidableEq P] in
theorem counted_boot (disk : Addr → Block) (log : LogState) :
    (boot disk log : State P).Counted := by
  intro i
  simp [boot, lockRef, total, Pc.waits]

end References

section Contents

variable [Fintype P] [DecidableEq P]
variable {arr : Addr → Block}

structure State.Locked (s : State P) : Prop where
  unique : ∀ i j, (s.buf i).dev ≠ 0 → s.key i = s.key j → i = j
  dev : ∀ i, 0 < (s.buf i).refcnt → (s.buf i).dev ≠ 0
  working : ∀ p i, (s.pc p).Works i → (s.buf i).lock = some p
  target : ∀ p i a, s.pc p = .locking i a ∨ s.pc p = .filling i a → s.key i = a
  held : ∀ p i, (s.buf i).lock = some p → (s.buf i).valid = true ∨ (s.pc p).Fills i
  clean : ∀ i, (s.buf i).valid = false → (s.buf i).dirty = false
  marked : ∀ p i, s.pc p = .writing i → (s.buf i).dirty = true
  unsaved : ∀ i, s.unsaved i = true → (s.buf i).lock ≠ none ∧ (s.buf i).valid = true

def State.Newer (s : State P) (i : Fin NBUF) : Prop :=
  (s.buf i).valid = true ∧ ((s.buf i).dirty = true ∨ s.unsaved i = true)

/-- The buffers and the disk hold the array `arr`. -/
structure State.Holds (s : State P) (arr : Addr → Block) : Prop where
  data : ∀ i, (s.key i).1 ≠ 0 → (s.buf i).valid = true → (s.buf i).data = arr (s.key i)
  disk : ∀ a, a.1 ≠ 0 → s.disk a = arr a ∨ ∃ i, s.key i = a ∧ s.Newer i

omit [Fintype P] in
theorem State.Locked.setPc {p : P} {c : Pc} (h : s.Locked)
    (hworking : ∀ i, c.Works i → (s.buf i).lock = some p)
    (htarget : ∀ i a, c = .locking i a ∨ c = .filling i a → s.key i = a)
    (hheld : ∀ i, (s.buf i).lock = some p → (s.buf i).valid = true ∨ c.Fills i)
    (hmarked : ∀ i, c ≠ .writing i) : (s.setPc p c).Locked := by
  refine ⟨h.unique, h.dev, ?_, ?_, ?_, h.clean, ?_, h.unsaved⟩
  all_goals
    intro q
    rw [setPc_pc]
    split
  · rename_i hq
    exact hq ▸ hworking
  · exact h.working q
  · exact htarget
  · exact h.target q
  · rename_i hq
    exact hq ▸ hheld
  · exact h.held q
  · exact fun i hi => absurd hi (hmarked i)
  · exact h.marked q

theorem locked_step (h : s.Locked) (hring : s.Ringed) (hcount : s.Counted)
    (hstep : step accepts s l = some t) : t.Locked := by
  obtain ⟨hunique, hdev, hworking, htarget, hheld, hclean, hmarked, hunsaved⟩ := id h
  have hmove := move_of_step hstep
  clear hstep
  cases hmove with
  | found p a i hpc ha hscan =>
    have hkey := hring.of_scan (.inl hscan)
    simp only [decide_eq_true_eq] at hkey
    constructor <;> grind -ring -linarith [State.key, Buf.key, Pc.Works, Pc.Fills]
  | recycled p a i hpc ha hmiss hscan =>
    -- no buffer has the new identity, and nobody uses the one that gets it
    have hno := hring.scan_none hmiss
    have hfree := hring.of_scan (.inr hscan)
    simp only [decide_eq_true_eq] at hno hfree
    obtain ⟨hlock, hwaits⟩ := hcount.unused hfree.1
    have hworks : ∀ q, ¬(s.pc q).Works i := by
      intro q hq
      rw [hworking q i hq] at hlock
      cases hlock
    have hother : ∀ q b, s.pc q ≠ .locking i b ∧ s.pc q ≠ .filling i b := by
      intro q b
      constructor
      · intro hq
        have hzero := hwaits q
        simp [hq, Pc.waits] at hzero
      · intro hq
        exact hworks q (by rw [hq]; rfl)
    constructor <;> grind -ring -linarith [State.key, Buf.key, Pc.Works, Pc.Fills]
  | locked p i a hpc hfree =>
    constructor <;> grind -ring -linarith [State.key, Buf.key, Pc.Works, Pc.Fills]
  | hit p i a hpc hvalid =>
    refine h.setPc (fun _ hc => hc.elim) (by simp) ?_ (by simp)
    intro j hj
    have hfills := h.held p j hj
    rw [hpc] at hfills
    exact .inl (hfills.elim id fun hij => hij ▸ hvalid)
  | filled p i a hpc hvalid t ht =>
    obtain ⟨hlock, ⟨hdirty, rfl⟩ | ⟨hdirty, _, rfl⟩⟩ := iderw_cases ht
    · rw [hclean i hvalid] at hdirty
      cases hdirty
    · constructor <;> grind -ring -linarith [State.key, Buf.key, Pc.Works, Pc.Fills]
  | modified p i data hpc hlock =>
    constructor <;> grind -ring -linarith [State.key, Buf.key, Pc.Works, Pc.Fills]
  | logging p i hpc hlock hroom =>
    refine h.setPc (fun _ hc => hc ▸ hlock) (by simp) ?_ (by simp)
    intro j hj
    have hfills := h.held p j hj
    rw [hpc] at hfills
    exact .inl (hfills.resolve_right id)
  | logged p i hpc =>
    have hlock := hworking p i (by rw [hpc]; rfl)
    have hvalid := hheld p i hlock
    constructor <;> grind -ring -linarith [State.key, Buf.key, Pc.Works, Pc.Fills]
  | writing p i hpc hlock =>
    have hvalid := hheld p i hlock
    constructor <;> grind -ring -linarith [State.key, Buf.key, Pc.Works, Pc.Fills]
  | written p i hpc t ht =>
    have hdirty := hmarked p i hpc
    obtain ⟨hlock, ⟨_, rfl⟩ | ⟨hno, _⟩⟩ := iderw_cases ht
    · clear ht
      constructor <;> grind -ring -linarith [State.key, Buf.key, Pc.Works, Pc.Fills]
    · rw [hdirty] at hno
      cases hno
  | releasing p i hpc hlock hsaved =>
    constructor <;> grind -ring -linarith [State.key, Buf.key, Pc.Works, Pc.Fills]
  | released p i hpc =>
    constructor <;> grind -ring -linarith [State.key, Buf.key, Pc.Works, Pc.Fills]
  | log p lg => exact ⟨hunique, hdev, hworking, htarget, hheld, hclean, hmarked, hunsaved⟩

omit [Fintype P] [DecidableEq P] in
theorem locked_boot (disk : Addr → Block) (log : LogState) : (boot disk log : State P).Locked := by
  constructor <;> simp [boot, Pc.Works]

omit [Fintype P] [DecidableEq P] in
theorem holds_boot (disk : Addr → Block) (log : LogState) :
    (boot disk log : State P).Holds disk where
  data := by simp [boot]
  disk := fun a _ => .inl rfl

omit [DecidableEq P] in
theorem dev_of_lock {p : P} (h : s.Locked) (hcount : s.Counted)
    (hlock : (s.buf i).lock = some p) : (s.buf i).dev ≠ 0 := by
  have hone := hcount i
  simp only [hlock, lockRef] at hone
  exact h.dev i (by omega)

def given (s : State P) (l : P × Act) (arr : Addr → Block) : Addr → Block :=
  match l.2 with
  | .modify i data => Function.update arr (s.key i) data
  | _ => arr

omit [Fintype P] [DecidableEq P] in
theorem State.Holds.keep (h : s.Holds arr)
    (hbuf : ∀ j, t.key j = s.key j ∧ (t.buf j).valid = (s.buf j).valid ∧
      (t.buf j).data = (s.buf j).data)
    (hnewer : ∀ j, s.Newer j → t.Newer j) (hdisk : ∀ a, t.disk a = s.disk a) :
    t.Holds arr where
  data := by
    intro j hdev hvalid
    obtain ⟨hkey, hv, hd⟩ := hbuf j
    rw [hkey] at hdev ⊢
    rw [hv] at hvalid
    rw [hd]
    exact h.data j hdev hvalid
  disk := by
    intro a ha
    rw [hdisk]
    obtain hsame | ⟨j, hkey, hj⟩ := h.disk a ha
    · exact .inl hsame
    · exact .inr ⟨j, (hbuf j).1.trans hkey, hnewer j hj⟩

omit [Fintype P] [DecidableEq P] in
theorem State.Holds.update {new : Addr → Block} (h : s.Holds arr)
    (hbuf : ∀ j, j ≠ i → t.buf j = s.buf j ∧ t.unsaved j = s.unsaved j)
    (hself : (t.key i).1 ≠ 0 → (t.buf i).valid = true → (t.buf i).data = new (t.key i))
    (hnew : ∀ j, j ≠ i → (s.key j).1 ≠ 0 → new (s.key j) = arr (s.key j))
    (hdisk : ∀ a, a.1 ≠ 0 → (t.disk a = s.disk a ∧ new a = arr a ∧ (s.key i = a → ¬s.Newer i)) ∨
        t.disk a = new a ∨ t.key i = a ∧ t.Newer i) :
    t.Holds new where
  data := by
    intro j hdev hvalid
    by_cases hji : j = i
    · subst hji
      exact hself hdev hvalid
    · have hkey : t.key j = s.key j := congrArg Buf.key (hbuf j hji).1
      rw [hkey] at hdev ⊢
      rw [(hbuf j hji).1] at hvalid ⊢
      rw [hnew j hji hdev]
      exact h.data j hdev hvalid
  disk := by
    intro a ha
    obtain ⟨hsame, hnew, hold⟩ | hsame | hself := hdisk a ha
    · rw [hsame, hnew]
      obtain hsame | ⟨j, hkey, hj⟩ := h.disk a ha
      · exact .inl hsame
      have hji : j ≠ i := by
        rintro rfl
        exact hold hkey hj
      have hkeep : t.key j = s.key j := congrArg Buf.key (hbuf j hji).1
      have hnewer : t.Newer j := by
        unfold State.Newer
        rw [(hbuf j hji).1, (hbuf j hji).2]
        exact hj
      exact .inr ⟨j, hkeep.trans hkey, hnewer⟩
    · exact .inl hsame
    · exact .inr ⟨i, hself⟩

theorem holds_step (h : s.Holds arr) (hlocked : s.Locked) (hring : s.Ringed) (hcount : s.Counted)
    (hstep : step accepts s l = some t) : t.Holds (given s l arr) := by
  cases move_of_step hstep with
  | found p a i => exact h.keep (by grind [State.key, Buf.key]) (by grind [State.Newer]) (by grind)
  | recycled p a i hpc ha hmiss hscan =>
    -- the buffer that is given away has nothing that the disk does not have
    have hfree := hring.of_scan (.inr hscan)
    simp only [decide_eq_true_eq] at hfree
    have hold : ¬s.Newer i := by
      rintro ⟨_, hdirty | hunsaved⟩
      · rw [hfree.2] at hdirty
        cases hdirty
      · exact (hlocked.unsaved i hunsaved).1 (hcount.unused hfree.1).1
    exact h.update (i := i) (by grind) (by grind) (fun j _ _ => rfl)
      fun b _ => .inl ⟨rfl, rfl, fun _ => hold⟩
  | locked p i a => exact h.keep (by grind [State.key, Buf.key]) (by grind [State.Newer]) (by grind)
  | hit p i a => exact h.keep (by grind) (by grind [State.Newer]) (by grind)
  | filled p i a hpc hvalid t ht =>
    obtain ⟨hlock, ⟨hdirty, rfl⟩ | ⟨hdirty, _, rfl⟩⟩ := iderw_cases ht
    · rw [hlocked.clean i hvalid] at hdirty
      cases hdirty
    have hdev := dev_of_lock hlocked hcount hlock
    have hold : ∀ j, s.Newer j → j ≠ i := by
      rintro j hj rfl
      rw [hj.1] at hvalid
      cases hvalid
    -- a newer content would be in a valid buffer of the same block
    have hread : s.disk (s.key i) = arr (s.key i) := by
      obtain hsame | ⟨j, hkey, hj⟩ := h.disk (s.key i) hdev
      · exact hsame
      · exact absurd (hlocked.unique i j hdev hkey.symm).symm (hold j hj)
    refine h.update (i := i) (by grind) ?_ (fun j _ _ => rfl)
      fun b _ => .inl ⟨rfl, rfl, fun _ hi => hold i hi rfl⟩
    intro _ _
    rw [setPc_buf, setPc_key, setBuf_buf, setBuf_key, if_pos rfl, if_pos rfl]
    exact hread
  | modified p i data hpc hlock =>
    have hdev := dev_of_lock hlocked hcount hlock
    have hvalid : (s.buf i).valid = true := by
      obtain hvalid | hfills := hlocked.held p i hlock
      · exact hvalid
      · rw [hpc] at hfills
        cases hfills
    refine h.update (i := i) (by grind) ?_ ?_ ?_
    · intro _ _
      rw [setUnsaved_buf, setUnsaved_key, setBuf_buf, setBuf_key, if_pos rfl, if_pos rfl]
      exact (Function.update_self (s.key i) data arr).symm
    · intro j hji _
      have hkey : s.key j ≠ s.key i := fun heq => hji (hlocked.unique i j hdev heq.symm).symm
      exact Function.update_of_ne hkey _ _
    · intro b _
      by_cases hb : b = s.key i
      · exact .inr (.inr ⟨by grind [State.key, Buf.key], by grind [State.Newer]⟩)
      · exact .inl ⟨rfl, Function.update_of_ne hb _ _, fun heq => absurd heq.symm hb⟩
  | logging p i => exact h.keep (by grind) (by grind [State.Newer]) (by grind)
  | logged p i => exact h.keep (by grind) (by grind [State.Newer]) (by grind)
  | writing p i => exact h.keep (by grind [State.key, Buf.key]) (by grind [State.Newer]) (by grind)
  | written p i hpc t ht =>
    have hdirty := hlocked.marked p i hpc
    obtain ⟨hlock, ⟨_, rfl⟩ | ⟨hno, _⟩⟩ := iderw_cases ht
    · have hdev := dev_of_lock hlocked hcount hlock
      have hvalid : (s.buf i).valid = true := by
        cases hv : (s.buf i).valid with
        | true => rfl
        | false =>
          rw [hlocked.clean i hv] at hdirty
          cases hdirty
      have hsaved := h.data i hdev hvalid
      refine h.update (i := i) (by grind) ?_ (fun j _ _ => rfl) ?_
      · intro _ _
        rw [setPc_buf, setPc_key, setUnsaved_buf, setUnsaved_key, setBuf_buf, setBuf_key,
          if_pos rfl, if_pos rfl]
        exact hsaved
      intro b _
      rw [setPc_disk, setUnsaved_disk, setBuf_disk, setDisk_disk]
      by_cases hb : b = s.key i
      · rw [if_pos hb, hb]
        exact .inr (.inl hsaved)
      · rw [if_neg hb]
        exact .inl ⟨rfl, rfl, fun heq => absurd heq.symm hb⟩
    · rw [hdirty] at hno
      cases hno
  | releasing p i =>
    exact h.keep (by grind [State.key, Buf.key]) (by grind [State.Newer]) (by grind)
  | released p i => exact h.keep (by grind) (by grind [State.Newer]) (by grind)
  | log p lg => exact h.keep (fun j => ⟨rfl, rfl, rfl⟩) (fun j hj => hj) fun a => rfl

end Contents

end Xv6.Bio
