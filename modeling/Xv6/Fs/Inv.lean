import Xv6.Lib.Counting
import Xv6.Fs.Calls
import Xv6.Fs.Node

/-!
# The inode cache in the middle of a call

`In s R L X` is the invariant that holds while a call runs: `R` are the references
the call has taken, `L` the inodes it has locked, and `X` the inodes whose links
it is about to settle.  An inode in the cache that is valid is the inode on disk;
every reference is held by a process, by an open file or by the call; and an inode
without links is held by a process or an open file.
-/

namespace Xv6.Fs

open Lib Lib.Prog Ptable Function Multiset

variable {R R' : Multiset Ino} {s s' s'' : State} {a : Ino} {E : Stop → State → Prop}

namespace State

/-- The inode on disk. -/
def ino (s : State) (n : Nat) : Dinode :=
  inodeAt s.sb s.disk n

/-- The file with an inode number. -/
def node (s : State) (n : Nat) : Node :=
  nodeAt s.sb s.disk n

def setEntry (s : State) (a : Ino) (i : Inode) : State :=
  { s with icache := update s.icache a i }

section SetEntry

variable (s : State) (a : Ino) (i j : Inode)

@[simp] theorem setEntry_sb : (s.setEntry a i).sb = s.sb := rfl
@[simp] theorem setEntry_disk : (s.setEntry a i).disk = s.disk := rfl

@[simp] theorem setEntry_icache_self : (s.setEntry a i).icache a = i := by
  simp [setEntry]

@[simp] theorem setEntry_setEntry : (s.setEntry a i).setEntry a j = s.setEntry a j := by
  simp [setEntry]

end SetEntry

/-- The references that current directories and open files hold. -/
def holders (s : State) (a : Ino) : Nat :=
  total (fun q : Proc => if q.cwd = some a then 1 else 0) s.proc +
    total (fun f : File => if f.ip = some a then 1 else 0) s.file

theorem node_type (s : State) (n : Nat) : (s.node n).type = (s.ino n).type := rfl
theorem node_nlink (s : State) (n : Nat) : (s.node n).nlink = (s.ino n).nlink := rfl

theorem length_node_data (s : State) (n : Nat) : (s.node n).data.length = (s.ino n).size := by
  unfold node nodeAt Dinode.node ino
  simp

theorem holders_of_file {s : State} {i : Fin NFILE} {a : Ino} (h : (s.file i).ip = some a) :
    0 < s.holders a := by
  have hle : (if (s.file i).ip = some a then 1 else 0) ≤
      total (fun f : File => if f.ip = some a then 1 else 0) s.file :=
    Finset.single_le_sum (f := fun i => if (s.file i).ip = some a then 1 else 0)
      (fun _ _ => Nat.zero_le _) (Finset.mem_univ i)
  rw [if_pos h] at hle
  unfold holders
  omega

theorem holders_of_cwd {s : State} {p : Slot} {a : Ino} (h : (s.proc p).cwd = some a) :
    0 < s.holders a := by
  have hle : (if (s.proc p).cwd = some a then 1 else 0) ≤
      total (fun q : Proc => if q.cwd = some a then 1 else 0) s.proc :=
    Finset.single_le_sum (f := fun p => if (s.proc p).cwd = some a then 1 else 0)
      (fun _ _ => Nat.zero_le _) (Finset.mem_univ p)
  rw [if_pos h] at hle
  unfold holders
  omega

end State

/-- The invariant in the middle of a call. -/
structure In (s : State) (R : Multiset Ino) (L : Finset Ino) (X : Finset Nat) : Prop where
  rep : Rep s.sb s.disk
  range : ∀ a, 0 < (s.icache a).ref → s.sb.IsInum (s.icache a).inum
  uniq : ∀ a b, 0 < (s.icache a).ref → 0 < (s.icache b).ref →
    (s.icache a).inum = (s.icache b).inum → a = b
  sync : ∀ a, 0 < (s.icache a).ref → (s.icache a).valid = true →
    (s.icache a).d = s.ino (s.icache a).inum ∧ (s.ino (s.icache a).inum).type ≠ 0
  refs : ∀ a, (s.icache a).ref = s.holders a + R.count a
  locks : ∀ a, (s.icache a).locked = true ↔ a ∈ L
  locked : ∀ a ∈ L, 0 < (s.icache a).ref ∧ (s.icache a).valid = true
  alloc : ∀ a, 0 < s.holders a → (s.ino (s.icache a).inum).type ≠ 0
  live : ∀ n, n ∉ X → (s.node n).type ≠ 0 → (s.node n).nlink = 0 →
    ∃ a, (s.icache a).inum = n ∧ 0 < s.holders a ∧ (s.icache a).valid = true
  dirs : ∀ n, (s.node n).DirOk s.sb
  files : ∀ i a, (s.file i).ip = some a → 0 < (s.file i).ref ∧
    ((s.file i).writable = true → (s.node (s.icache a).inum).type ≠ T_DIR)

/-- Only references and locks have changed. -/
structure Quiet (R : Multiset Ino) (s s' : State) : Prop where
  state : s' = { s with icache := s'.icache }
  inum : ∀ b, 0 < s.holders b + R.count b → (s'.icache b).inum = (s.icache b).inum
  valid : ∀ b, 0 < s.holders b + R.count b → (s.icache b).valid = true → (s'.icache b).valid = true

/-- What a call leaves as it is until it is done: open files, processes, and which inodes the
references are to. -/
structure Frame (R : Multiset Ino) (s s' : State) : Prop where
  sb : s'.sb = s.sb
  file : s'.file = s.file
  proc : s'.proc = s.proc
  outstanding : s'.outstanding = s.outstanding
  inum : ∀ b, 0 < s.holders b + R.count b → (s'.icache b).inum = (s.icache b).inum

namespace Frame

theorem refl (R : Multiset Ino) (s : State) : Frame R s s :=
  ⟨rfl, rfl, rfl, rfl, fun _ _ => rfl⟩

theorem holders (h : Frame R s s') (a : Ino) : s'.holders a = s.holders a := by
  unfold State.holders
  rw [h.proc, h.file]

theorem trans (h : Frame R s s') (h' : Frame R' s' s'') (hle : R ≤ R') :
    Frame R s s'' where
  sb := h'.sb.trans h.sb
  file := h'.file.trans h.file
  proc := h'.proc.trans h.proc
  outstanding := h'.outstanding.trans h.outstanding
  inum := by
    intro b hb
    have hcount := count_le_of_le b hle
    rw [h'.inum b (by rw [h.holders]; omega), h.inum b hb]

theorem mono (h : Frame R' s s') (hle : R ≤ R') :
    Frame R s s' where
  sb := h.sb
  file := h.file
  proc := h.proc
  outstanding := h.outstanding
  inum := by
    intro b hb
    have hcount := count_le_of_le b hle
    exact h.inum b (by omega)

theorem held (h : Frame R s s') (ha : a ∈ R) : (s'.icache a).inum = (s.icache a).inum :=
  h.inum a (Nat.add_pos_right _ (count_pos.mpr ha))

end Frame

namespace Quiet

theorem refl (R : Multiset Ino) (s : State) : Quiet R s s :=
  ⟨rfl, fun _ _ => rfl, fun _ _ hv => hv⟩

theorem sb (h : Quiet R s s') : s'.sb = s.sb := by rw [h.state]
theorem disk (h : Quiet R s s') : s'.disk = s.disk := by rw [h.state]
theorem proc (h : Quiet R s s') : s'.proc = s.proc := by rw [h.state]
theorem file (h : Quiet R s s') : s'.file = s.file := by rw [h.state]
theorem outstanding (h : Quiet R s s') : s'.outstanding = s.outstanding := by rw [h.state]

theorem holders (h : Quiet R s s') (a : Ino) : s'.holders a = s.holders a := by
  unfold State.holders
  rw [h.proc, h.file]

theorem ino (h : Quiet R s s') (n : Nat) : s'.ino n = s.ino n := by
  unfold State.ino
  rw [h.sb, h.disk]

theorem node (h : Quiet R s s') (n : Nat) : s'.node n = s.node n := by
  unfold State.node
  rw [h.sb, h.disk]

theorem trans (h : Quiet R s s') (h' : Quiet R' s' s'') (hle : R ≤ R') :
    Quiet R s s'' where
  state := by
    rw [h'.state, h.state]
  inum := by
    intro b hb
    have hcount := count_le_of_le b hle
    rw [h'.inum b (by rw [h.holders]; omega), h.inum b hb]
  valid := by
    intro b hb hv
    have hcount := count_le_of_le b hle
    exact h'.valid b (by rw [h.holders]; omega) (h.valid b hb hv)

theorem mono (h : Quiet R' s s') (hle : R ≤ R') :
    Quiet R s s' where
  state := h.state
  inum := by
    intro b hb
    have hcount := count_le_of_le b hle
    exact h.inum b (by omega)
  valid := by
    intro b hb
    have hcount := count_le_of_le b hle
    exact h.valid b (by omega)

section
variable (h : Quiet R s s')
include h

theorem frame : Frame R s s' :=
  ⟨h.sb, h.file, h.proc, h.outstanding, h.inum⟩

theorem node_eq : s'.node = s.node :=
  funext h.node

theorem held (ha : a ∈ R) : (s'.icache a).inum = (s.icache a).inum :=
  h.frame.held ha

theorem held_valid (ha : a ∈ R) : (s.icache a).valid = true → (s'.icache a).valid = true :=
  h.valid a (Nat.add_pos_right _ (count_pos.mpr ha))

end

end Quiet

structure Still (R : Multiset Ino) (s s' : State) : Prop where
  frame : Frame R s s'
  node : s'.node = s.node
  bits : ∀ b, bitAt s'.sb s'.disk b = bitAt s.sb s.disk b

namespace Still

theorem trans (h : Still R s s') (h' : Still R' s' s'') (hle : R ≤ R') :
    Still R s s'' where
  frame := h.frame.trans h'.frame hle
  node := h'.node.trans h.node
  bits := fun b => (h'.bits b).trans (h.bits b)

end Still

theorem Quiet.still {s : State} (h : Quiet R s s') :
    Still R s s' where
  frame := h.frame
  node := h.node_eq
  bits := by
    intro b
    rw [h.sb, h.disk]

section Entry

variable {s : State} {L L' : Finset Ino} {X : Finset Nat}

theorem In.ref_of_holders (h : In s R L X) (ha : 0 < s.holders a) : 0 < (s.icache a).ref := by
  have href := h.refs a
  omega

theorem In.ref_pos (h : In s R L X) (ha : a ∈ R) : 0 < (s.icache a).ref := by
  have href := h.refs a
  have hcount := count_pos.mpr ha
  omega

theorem State.forall_setEntry {P : Ino → Inode → Prop} {i : Inode} (ha : P a i)
    (hother : ∀ b, b ≠ a → P b (s.icache b)) (b : Ino) : P b ((s.setEntry a i).icache b) :=
  (forall_update_iff s.icache P).mpr ⟨ha, hother⟩ b

theorem setEntry_keeps {C : Ino → Prop} {i : Inode}
    (h : C a → i.inum = (s.icache a).inum ∧ ((s.icache a).valid = true → i.valid = true)) (b : Ino)
    (hb : C b) : ((s.setEntry a i).icache b).inum = (s.icache b).inum ∧
      ((s.icache b).valid = true → ((s.setEntry a i).icache b).valid = true) :=
  State.forall_setEntry (P := fun b i => C b → i.inum = (s.icache b).inum ∧
    ((s.icache b).valid = true → i.valid = true)) h (fun _ _ _ => ⟨rfl, id⟩) b hb

theorem quiet_setEntry {i : Inode} (h : 0 < s.holders a + R.count a → i.inum = (s.icache a).inum ∧
      ((s.icache a).valid = true → i.valid = true)) :
    Quiet R s (s.setEntry a i) where
  state := rfl
  inum := fun b hb => (setEntry_keeps (C := fun b => 0 < s.holders b + R.count b) h b hb).1
  valid := fun b hb => (setEntry_keeps (C := fun b => 0 < s.holders b + R.count b) h b hb).2

theorem In.setEntry {i : Inode} (h : In s R L X) (hrange : 0 < i.ref → s.sb.IsInum i.inum)
    (huniq : ∀ b, b ≠ a → 0 < (s.icache b).ref → 0 < i.ref → (s.icache b).inum ≠ i.inum)
    (hsync : 0 < i.ref → i.valid = true → i.d = s.ino i.inum ∧ (s.ino i.inum).type ≠ 0)
    (hrefs : i.ref = s.holders a + R'.count a) (hR : ∀ b, b ≠ a → R'.count b = R.count b)
    (hlocks : i.locked = true ↔ a ∈ L') (hL : ∀ b, b ≠ a → (b ∈ L' ↔ b ∈ L))
    (hlocked : a ∈ L' → 0 < i.ref ∧ i.valid = true)
    (hheld : 0 < s.holders a → i.inum = (s.icache a).inum ∧
      ((s.icache a).valid = true → i.valid = true)) :
    In (s.setEntry a i) R' L' X where
  rep := h.rep
  range := State.forall_setEntry (P := fun _ i => 0 < i.ref → s.sb.IsInum i.inum) hrange
    fun b _ => h.range b
  uniq := by
    intro b c hb hc heq
    by_cases hba : b = a
    · subst hba
      by_cases hcb : c = b
      · exact hcb.symm
      · simp only [State.setEntry, update_self, update_of_ne hcb] at hb hc heq
        exact absurd heq.symm (huniq c hcb hc hb)
    · by_cases hca : c = a
      · subst hca
        simp only [State.setEntry, update_self, update_of_ne hba] at hb hc heq
        exact absurd heq (huniq b hba hb hc)
      · simp only [State.setEntry, update_of_ne hba, update_of_ne hca] at hb hc heq
        exact h.uniq b c hb hc heq
  sync := State.forall_setEntry (P := fun _ i => 0 < i.ref → i.valid = true →
    i.d = s.ino i.inum ∧ (s.ino i.inum).type ≠ 0) hsync fun b _ => h.sync b
  refs := State.forall_setEntry (P := fun b i => i.ref = s.holders b + R'.count b) hrefs
    fun b hba => by rw [hR b hba]; exact h.refs b
  locks := State.forall_setEntry (P := fun b i => i.locked = true ↔ b ∈ L') hlocks
    fun b hba => (h.locks b).trans (hL b hba).symm
  locked := State.forall_setEntry (P := fun b i => b ∈ L' → 0 < i.ref ∧ i.valid = true) hlocked
    fun b hba hb => h.locked b ((hL b hba).mp hb)
  alloc := State.forall_setEntry (P := fun b i => 0 < s.holders b → (s.ino i.inum).type ≠ 0)
    (fun hb => by rw [(hheld hb).1]; exact h.alloc a hb) fun b _ => h.alloc b
  live := by
    intro n hn ht hl
    obtain ⟨b, hinum, hb, hv⟩ := h.live n hn ht hl
    obtain ⟨hinum', hvalid⟩ := setEntry_keeps (C := fun b => 0 < s.holders b) hheld b hb
    exact ⟨b, hinum'.trans hinum, hb, hvalid hv⟩
  dirs := h.dirs
  files := by
    intro i' b hip
    have hfile := h.files i' b hip
    refine ⟨hfile.1, ?_⟩
    rw [(setEntry_keeps (C := fun b => 0 < s.holders b) hheld b (State.holders_of_file hip)).1]
    exact hfile.2

theorem In.count_eq_zero (h : In s R L X) (ha : (s.icache a).ref = 0) :
    s.holders a = 0 ∧ R.count a = 0 := by
  have href := h.refs a
  omega

theorem In.notMem_of_ref (h : In s R L X) (ha : (s.icache a).ref = 0) : a ∉ L := by
  intro hL
  have hpos := (h.locked a hL).1
  omega

theorem In.addRef (h : In s R L X) (ha : 0 < (s.icache a).ref) :
    In (s.setEntry a { s.icache a with ref := (s.icache a).ref + 1 }) (a ::ₘ R) L X := by
  apply h.setEntry
  · intro _
    exact h.range a ha
  · intro b hba hb _ heq
    exact hba (h.uniq b a hb ha heq)
  · intro _ hv
    exact h.sync a ha hv
  · simp only [h.refs a, count_cons_self]
    omega
  · intro b hba
    rw [count_cons_of_ne hba]
  · exact h.locks a
  · intro b _
    exact Iff.rfl
  · intro hL
    exact ⟨Nat.succ_pos _, (h.locked a hL).2⟩
  · intro _
    exact ⟨rfl, id⟩

def CacheRoom (s : State) (i : Nat) : Prop :=
  ∃ b, (0 < (s.icache b).ref ∧ (s.icache b).inum = i) ∨ (s.icache b).ref = 0

inductive Got (b : Ino) (i : Nat) (s : State) : State → Prop where
  | shared
      (href : 0 < (s.icache b).ref)
      (hinum : (s.icache b).inum = i) :
      Got b i s (s.setEntry b { s.icache b with ref := (s.icache b).ref + 1 })
  | recycled
      (href : (s.icache b).ref = 0)
      (hnew : ∀ c, 0 < (s.icache c).ref → (s.icache c).inum ≠ i) :
      Got b i s (s.setEntry b { s.icache b with inum := i, ref := 1, valid := false })

theorem Got.room {b : Ino} {i : Nat} (h : Got b i s s') : CacheRoom s i := by
  cases h with
  | shared href hinum => exact ⟨b, .inl ⟨href, hinum⟩⟩
  | recycled href _ => exact ⟨b, .inr href⟩

theorem iget_got (s : State) (i : Nat) :
    wp (iget i) (fun b s' => Got b i s s') (fun e _ => e = .igetNoInodes ∧ ¬CacheRoom s i) s := by
  unfold iget setInode
  simp only [wp_bind, wp_get]
  cases hfind : (List.finRange NINODE).find? fun e =>
      decide (0 < (s.icache e).ref ∧ (s.icache e).inum = i) with
  | some b =>
    have hb := List.find?_some hfind
    simp only [decide_eq_true_eq] at hb
    exact .shared hb.1 hb.2
  | none =>
    have hnew : ∀ c, 0 < (s.icache c).ref → (s.icache c).inum ≠ i := by
      intro c hc hi
      have hnot := List.find?_eq_none.mp hfind c (List.mem_finRange c)
      simp only [decide_eq_true_eq] at hnot
      exact hnot ⟨hc, hi⟩
    cases hslot : (List.finRange NINODE).find? fun e => decide ((s.icache e).ref = 0) with
    | some b =>
      have hb := List.find?_some hslot
      simp only [decide_eq_true_eq] at hb
      exact .recycled hb hnew
    | none =>
      refine ⟨rfl, ?_⟩
      rintro ⟨b, hb | hb⟩
      · exact hnew b hb.1 hb.2
      · have hnot := List.find?_eq_none.mp hslot b (List.mem_finRange b)
        simp only [decide_eq_true_eq] at hnot
        exact hnot hb

theorem iget_spec {n : Nat} (h : In s R L X) (hn : s.sb.IsInum n) :
    wp (iget n)
      (fun a s' => In s' (a ::ₘ R) L X ∧ Quiet R s s' ∧ (s'.icache a).inum = n)
      (fun e _ => e = .igetNoInodes) s := by
  refine wp_mono (iget_got s n) ?_ fun _ _ he => he.1
  rintro a _ (⟨ha, hinum⟩ | ⟨ha, hnone⟩)
  · refine ⟨h.addRef ha, quiet_setEntry fun _ => ⟨rfl, id⟩, ?_⟩
    simpa using hinum
  have hzero := h.count_eq_zero ha
  refine ⟨?_, quiet_setEntry (by omega), by simp⟩
  apply h.setEntry
  · intro _
    exact hn
  · intro b _ hb _
    exact hnone b hb
  · intro _ hv
    cases hv
  · simp only [count_cons_self]
    omega
  · intro b hba
    rw [count_cons_of_ne hba]
  · simp only
    exact h.locks a
  · intro b _
    exact Iff.rfl
  · intro hL
    exact absurd hL (h.notMem_of_ref ha)
  · intro hheld
    omega

theorem idup_spec (h : In s R L X) (ha : 0 < (s.icache a).ref) :
    wp (idup a)
      (fun b s' => b = a ∧ In s' (a ::ₘ R) L X ∧ Quiet R s s' ∧
        (s'.icache a).inum = (s.icache a).inum) E s := by
  unfold idup setInode
  simp only [wp_bind, wp_modify, wp_pure]
  exact ⟨trivial, h.addRef ha, quiet_setEntry fun _ => ⟨rfl, id⟩, by simp⟩

theorem acquiresleep_free (h : (s.icache a).locked ≠ true) :
    wp (acquiresleep a) (fun _ s' => s' = s.setEntry a { s.icache a with locked := true })
      (fun _ _ => False) s := by
  unfold acquiresleep
  simp only [wp_bind, wp_get, wp_ite]
  rw [if_neg h]
  exact rfl

theorem loadInode_spec (s : State) (a : Ino) :
    wp (loadInode a)
      (fun _ s' => s' = s.setEntry a
          { s.icache a with valid := true, d := dinodeAt s.sb s.disk (s.icache a).inum } ∧
        (dinodeAt s.sb s.disk (s.icache a).inum).type ≠ 0)
      (fun e _ => e = .noType ∧ (dinodeAt s.sb s.disk (s.icache a).inum).type = 0) s := by
  -- the test is decided first: it must not be evaluated
  unfold loadInode
  rw [wp_bind, wp_get]
  by_cases ht : (dinodeAt s.sb s.disk (s.icache a).inum).type = 0
  · rw [if_pos ht, wp_bind]
    exact ⟨rfl, ht⟩
  · rw [if_neg ht, wp_bind]
    exact ⟨rfl, ht⟩

theorem ilock_spec (h : In s R L X) (ha : 0 < (s.icache a).ref) (hL : a ∉ L) :
    wp (ilock a)
      (fun _ s' => In s' R (insert a L) X ∧ Quiet R s s' ∧ (s'.icache a).inum = (s.icache a).inum ∧
        (s.node (s.icache a).inum).type ≠ 0)
      (fun e _ => e = .noType ∧ (s.node (s.icache a).inum).type = 0) s := by
  have hfree : (s.icache a).locked ≠ true := fun hl => hL ((h.locks a).mp hl)
  -- what is left to show about the locked entry in either case
  have hentry : ∀ i : Inode, i.inum = (s.icache a).inum → i.ref = (s.icache a).ref →
      i.locked = true → i.valid = true → i.d = s.ino (s.icache a).inum →
      (s.ino (s.icache a).inum).type ≠ 0 →
      In (s.setEntry a i) R (insert a L) X := by
    intro i hinum href hlocked hvalid hd ht
    apply h.setEntry
    · intro _
      rw [hinum]
      exact h.range a ha
    · intro b hba hb _ heq
      rw [hinum] at heq
      exact hba (h.uniq b a hb ha heq)
    · intro _ _
      rw [hinum]
      exact ⟨hd, ht⟩
    · rw [href]
      exact h.refs a
    · intro b _
      rfl
    · simp [hlocked]
    · intro b hba
      simp [hba]
    · intro _
      exact ⟨href ▸ ha, hvalid⟩
    · intro _
      exact ⟨hinum, fun _ => hvalid⟩
  unfold ilock
  simp only [wp_bind, wp_get, wp_ite]
  rw [if_neg (by omega)]
  refine wp_mono (acquiresleep_free hfree) ?_ fun _ _ he => he.elim
  rintro _ _ rfl
  by_cases hv : (s.icache a).valid = true
  · rw [if_pos hv]
    have hsync := h.sync a ha hv
    exact ⟨hentry _ rfl rfl rfl hv hsync.1 hsync.2, quiet_setEntry fun _ => ⟨rfl, id⟩,
      by simp, hsync.2⟩
  rw [if_neg hv]
  have hino : dinodeAt s.sb s.disk (s.icache a).inum = s.ino (s.icache a).inum :=
    (inodeAt_of_isInum (h.range a ha)).symm
  refine wp_mono (loadInode_spec _ a) ?_ ?_
  · rintro _ _ ⟨rfl, ht⟩
    simp only [State.setEntry_icache_self, State.setEntry_setEntry, State.setEntry_sb,
      State.setEntry_disk] at ht ⊢
    rw [hino] at ht ⊢
    exact ⟨hentry _ rfl rfl rfl rfl rfl ht, quiet_setEntry fun _ => ⟨rfl, fun _ => rfl⟩,
      by simp, ht⟩
  · rintro e t ⟨rfl, ht⟩
    simp only [State.setEntry_icache_self, State.setEntry_sb, State.setEntry_disk] at ht
    rw [hino] at ht
    exact ⟨rfl, ht⟩

theorem iunlock_spec (h : In s R (insert a L) X) (hL : a ∉ L) :
    wp (iunlock a)
      (fun _ s' => In s' R L X ∧ Quiet R s s' ∧ (s'.icache a).inum = (s.icache a).inum) E s := by
  have ha := h.locked a (Finset.mem_insert_self a L)
  have hlock : (s.icache a).locked = true := (h.locks a).mpr (Finset.mem_insert_self a L)
  unfold iunlock releasesleep setInode
  simp only [wp_bind, wp_get, wp_ite, wp_throw, wp_modify]
  rw [if_neg (by simp [hlock]; omega)]
  refine ⟨?_, quiet_setEntry fun _ => ⟨rfl, id⟩, by simp⟩
  apply h.setEntry
  · intro _
    exact h.range a ha.1
  · intro b hba hb _ heq
    exact hba (h.uniq b a hb ha.1 heq)
  · intro _ hv
    exact h.sync a ha.1 hv
  · exact h.refs a
  · intro b _
    rfl
  · simp [hL]
  · intro b hba
    simp [hba]
  · intro hin
    exact absurd hin hL
  · intro _
    exact ⟨rfl, id⟩

def Pinned (s : State) (R : Multiset Ino) (X : Finset Nat) : Prop :=
  ∀ n ∈ X, ∃ b ∈ R, (s.icache b).inum = n

theorem pinned_empty (s : State) (R : Multiset Ino) : Pinned s R ∅ := by
  intro n hn
  simp at hn

theorem Pinned.quiet (h : Pinned s R X) (hq : Quiet R s s') : Pinned s' R X := by
  intro n hn
  obtain ⟨b, hb, hinum⟩ := h n hn
  have hcount := count_pos.mpr hb
  exact ⟨b, hb, by rw [hq.inum b (by omega)]; exact hinum⟩

section
variable (h : In s (a ::ₘ R) L X)
include h

theorem In.not_unused (hX : Pinned s R X) :
    ¬((s.icache a).valid = true ∧ (s.icache a).d.nlink = 0 ∧ (s.icache a).ref = 1) := by
  rintro ⟨hv, hl, href⟩
  have hsync := h.sync a (by omega) hv
  rw [hsync.1] at hl
  have hcount := h.refs a
  rw [count_cons_self] at hcount
  by_cases hin : (s.icache a).inum ∈ X
  · obtain ⟨b, hb, hinum⟩ := hX _ hin
    have hbR := count_pos.mpr hb
    have hbref := h.refs b
    have hle : R.count b ≤ (a ::ₘ R).count b := count_le_of_le b (le_cons_self R a)
    have hba : b = a := h.uniq b a (by omega) (by omega) hinum
    subst hba
    omega
  · obtain ⟨b, hinum, hb, _⟩ := h.live _ hin hsync.2 hl
    have hba : b = a := h.uniq b a (h.ref_of_holders hb) (by omega) hinum
    subst hba
    omega

theorem In.dropRef (hL : a ∉ L) :
    In (s.setEntry a { s.icache a with locked := false, ref := (s.icache a).ref - 1 }) R L X := by
  have href := h.refs a
  rw [count_cons_self] at href
  have ha : 0 < (s.icache a).ref := by omega
  apply h.setEntry
  · intro _
    exact h.range a ha
  · intro b hba hb _ heq
    exact hba (h.uniq b a hb ha heq)
  · intro _ hv
    exact h.sync a ha hv
  · simp only
    omega
  · intro b hba
    rw [count_cons_of_ne hba]
  · simp [hL]
  · intro b _
    exact Iff.rfl
  · intro hin
    exact absurd hin hL
  · intro _
    exact ⟨rfl, id⟩

theorem iput_keep (hL : a ∉ L)
    (hX : Pinned s R X) : wp (iput a) (fun _ s' => In s' R L X ∧ Quiet R s s') E s := by
  have hfree : (s.icache a).locked ≠ true := fun hl => hL ((h.locks a).mp hl)
  have hkeep := h.not_unused hX
  unfold iput acquiresleep ifreeUnused releasesleep setInode
  simp only [wp_bind, wp_get, wp_ite, wp_throw, wp_modify, wp_pure]
  rw [if_neg hfree]
  simp only [update_self, update_idem]
  rw [if_neg hkeep]
  exact ⟨h.dropRef hL, quiet_setEntry fun _ => ⟨rfl, id⟩⟩

end

theorem iunlockput_keep (h : In s (a ::ₘ R) (insert a L) X) (hL : a ∉ L)
    (hX : Pinned s R X) : wp (iunlockput a) (fun _ s' => In s' R L X ∧ Quiet R s s') E s := by
  unfold iunlockput
  simp only [wp_bind]
  refine wp_post (iunlock_spec h hL) ?_
  rintro _ s1 ⟨h1, hq1, _⟩
  have hq := hq1.mono (le_cons_self R a)
  refine wp_post (iput_keep h1 hL (hX.quiet hq)) ?_
  rintro _ s2 ⟨h2, hq2⟩
  exact ⟨h2, hq.trans hq2 (le_refl R)⟩

end Entry

end Xv6.Fs
