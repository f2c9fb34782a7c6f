import Xv6.Fs.Linking
import Xv6.Fs.Unlinking
import Xv6.Fs.Creating

/-!
# Open files and current directories

References to inodes move between the running call, open files and current
directories.  `In.putFile` and `In.putProc` say what has to be shown when they do.
-/

namespace Xv6.Fs

open Lib Lib.Prog Log Ptable Function

variable {L : Finset Ino} {R S : Multiset Ino} {X Y : Finset Nat} {a b : Ino} {i : Fin NFILE}
variable {f : File} {q : Proc} {n : Nat}

variable {s : State} {p : Slot}

namespace State

def putFile (s : State) (i : Fin NFILE) (f : File) : State :=
  { s with file := update s.file i f }

def putProc (s : State) (p : Slot) (q : Proc) : State :=
  { s with proc := update s.proc p q }

variable (s : State)

theorem holders_putFile (i : Fin NFILE) (f : File) (a : Ino) :
    (s.putFile i f).holders a + (if (s.file i).ip = some a then 1 else 0) =
      s.holders a + (if f.ip = some a then 1 else 0) := by
  have hfile := total_update (fun g : File => if g.ip = some a then 1 else 0) s.file i f
  unfold holders putFile
  simp only
  omega

theorem holders_putProc (p : Slot) (q : Proc) (a : Ino) :
    (s.putProc p q).holders a + (if (s.proc p).cwd = some a then 1 else 0) =
      s.holders a + (if q.cwd = some a then 1 else 0) := by
  have hproc := total_update (fun r : Proc => if r.cwd = some a then 1 else 0) s.proc p q
  unfold holders putProc
  simp only
  omega

end State

section
variable (h : In s R L X)
include h

theorem In.rehold {F : Fin NFILE → File} {P : Slot → Proc}
    (hrefs : ∀ a, State.holders { s with file := F, proc := P } a + S.count a =
      s.holders a + R.count a)
    (halloc : ∀ a, 0 < State.holders { s with file := F, proc := P } a →
      (s.ino (s.icache a).inum).type ≠ 0)
    (hX : X ⊆ Y)
    (hlive : ∀ a, 0 < s.holders a → 0 < State.holders { s with file := F, proc := P } a ∨
      (s.icache a).inum ∈ Y)
    (hfiles : ∀ i a, (F i).ip = some a → 0 < (F i).ref ∧
      ((F i).writable = true → (s.node (s.icache a).inum).type ≠ T_DIR)) :
    In { s with file := F, proc := P } S L Y where
  rep := h.rep
  range := h.range
  uniq := h.uniq
  sync := h.sync
  refs := by
    intro a
    rw [hrefs a]
    exact h.refs a
  locks := h.locks
  locked := h.locked
  alloc := halloc
  live := by
    intro n hn ht hl
    obtain ⟨a, hinum, ha, hv⟩ := h.live n (fun hx => hn (hX hx)) ht hl
    rcases hlive a ha with hpos | hin
    · exact ⟨a, hinum, hpos, hv⟩
    · rw [hinum] at hin
      exact absurd hin hn
  dirs := h.dirs
  files := hfiles

theorem In.putFile (hR : ∀ a, S.count a + (if f.ip = some a then 1 else 0) =
      R.count a + (if (s.file i).ip = some a then 1 else 0))
    (halloc : ∀ a, f.ip = some a → (s.ino (s.icache a).inum).type ≠ 0) (hX : X ⊆ Y)
    (hlive : ∀ a, (s.file i).ip = some a → f.ip = some a ∨ (s.icache a).inum ∈ Y)
    (hfile : ∀ a, f.ip = some a → 0 < f.ref ∧
      (f.writable = true → (s.node (s.icache a).inum).type ≠ T_DIR)) :
    In (s.putFile i f) S L Y := by
  have hhold := s.holders_putFile i f
  refine h.rehold ?_ ?_ hX ?_ ?_
  · intro a
    have h1 := hhold a
    have h2 := hR a
    change (s.putFile i f).holders a + S.count a = s.holders a + R.count a
    omega
  · intro a ha
    have h1 := hhold a
    change 0 < (s.putFile i f).holders a at ha
    by_cases hf : f.ip = some a
    · exact halloc a hf
    · rw [if_neg hf] at h1
      exact h.alloc a (by omega)
  · intro a ha
    have h1 := hhold a
    change 0 < (s.putFile i f).holders a ∨ _
    by_cases hold : (s.file i).ip = some a
    · rcases hlive a hold with hf | hin
      · left
        rw [if_pos hold, if_pos hf] at h1
        omega
      · exact .inr hin
    · left
      rw [if_neg hold] at h1
      omega
  intro j a hj
  by_cases hji : j = i
  · subst hji
    rw [update_self] at hj ⊢
    exact hfile a hj
  · rw [update_of_ne hji] at hj ⊢
    exact h.files j a hj

theorem In.putProc {p : Slot} (hR : ∀ a, S.count a + (if q.cwd = some a then 1 else 0) =
      R.count a + (if (s.proc p).cwd = some a then 1 else 0))
    (halloc : ∀ a, q.cwd = some a → (s.ino (s.icache a).inum).type ≠ 0) (hX : X ⊆ Y)
    (hlive : ∀ a, (s.proc p).cwd = some a → q.cwd = some a ∨ (s.icache a).inum ∈ Y) :
    In (s.putProc p q) S L Y := by
  have hhold := s.holders_putProc p q
  refine h.rehold ?_ ?_ hX ?_ h.files
  · intro a
    have h1 := hhold a
    have h2 := hR a
    change (s.putProc p q).holders a + S.count a = s.holders a + R.count a
    omega
  · intro a ha
    have h1 := hhold a
    change 0 < (s.putProc p q).holders a at ha
    by_cases hq : q.cwd = some a
    · exact halloc a hq
    · rw [if_neg hq] at h1
      exact h.alloc a (by omega)
  intro a ha
  have h1 := hhold a
  change 0 < (s.putProc p q).holders a ∨ _
  by_cases hold : (s.proc p).cwd = some a
  · rcases hlive a hold with hq | hin
    · left
      rw [if_pos hold, if_pos hq] at h1
      omega
    · exact .inr hin
  · left
    rw [if_neg hold] at h1
    omega

theorem In.putFile_same (hip : f.ip = (s.file i).ip)
    (href : 0 < f.ref) (hw : f.writable = (s.file i).writable) : In (s.putFile i f) R L X := by
  apply h.putFile
  · intro a
    rw [hip]
  · intro a ha
    rw [hip] at ha
    exact h.alloc a (State.holders_of_file ha)
  · exact Finset.Subset.refl X
  · intro a ha
    rw [hip]
    exact .inl ha
  · intro a ha
    rw [hip] at ha
    rw [hw]
    exact ⟨href, (h.files i a ha).2⟩

theorem In.putProc_same {p : Slot} (hcwd : q.cwd = (s.proc p).cwd) : In (s.putProc p q) R L X := by
  apply h.putProc
  · intro a
    rw [hcwd]
  · intro a ha
    rw [hcwd] at ha
    exact h.alloc a (State.holders_of_cwd ha)
  · exact Finset.Subset.refl X
  · intro a ha
    rw [hcwd]
    exact .inl ha

theorem In.valid_of_held (ha : 0 < s.holders a)
    (hn : (s.icache a).inum = n) (hX : n ∉ X) (ht : (s.node n).type ≠ 0)
    (hl : (s.node n).nlink = 0) : (s.icache a).valid = true := by
  obtain ⟨b, hinum, hb, hv⟩ := h.live n hX ht hl
  have hba : b = a := h.uniq b a (h.ref_of_holders hb) (h.ref_of_holders ha) (hinum.trans hn.symm)
  rw [← hba]
  exact hv

end

theorem iputOp_spec (h : In s {a} ∅ {n}) (hn : (s.icache a).inum = n)
    (hv : (s.node n).type ≠ 0 → (s.node n).nlink = 0 → (s.icache a).valid = true) :
    wp (iputOp a)
      (fun _ s' => In s' 0 ∅ ∅ ∧ s'.proc = s.proc ∧ s'.file = s.file ∧
        s'.outstanding = s.outstanding ∧ Frees s.node s'.node)
      (fun e _ => e.expected = true) s := by
  unfold iputOp
  rw [wp_bind, wp_beginOp, wp_bind]
  refine wp_mono (iput_last (Y := ∅) h.begun (Finset.notMem_empty a) hn (Nat.succ_pos _)
    (Multiset.count_zero a) hv ?_) ?_ fun _ _ he => he.expected
  · intro m hm _
    exact Finset.notMem_singleton.mpr hm
  rintro _ t ⟨ht, hend⟩
  rw [wp_endOp]
  rcases hend with ⟨hq, _⟩ | ⟨hf, hty, hl, _⟩
  · refine ⟨ht.ended, hq.proc, hq.file, ?_, ?_⟩
    · change t.outstanding - 1 = s.outstanding
      rw [hq.outstanding]
      exact Nat.add_sub_cancel _ _
    · change Frees s.node t.node
      rw [hq.node_eq]
      exact Relation.ReflTransGen.refl
  · refine ⟨ht.ended, hf.frame.proc, hf.frame.file, ?_, ?_⟩
    · change t.outstanding - 1 = s.outstanding
      rw [hf.frame.outstanding]
      exact Nat.add_sub_cancel _ _
    · exact Relation.ReflTransGen.single ⟨n, hty, hl, hf.node⟩

theorem fileclose_spec (h : In s 0 ∅ ∅) :
    wp (fileclose i)
      (fun _ s' => In s' 0 ∅ ∅ ∧ s'.proc = s.proc ∧ s'.outstanding = s.outstanding ∧
        Frees s.node s'.node)
      (fun e _ => e.expected = true) s := by
  unfold fileclose setFile
  rw [wp_bind, wp_get, wp_ite]
  by_cases hzero : (s.file i).ref < 1
  · rw [if_pos hzero]
    exact rfl
  rw [if_neg hzero, wp_ite]
  by_cases hmany : 1 < (s.file i).ref
  · rw [if_pos hmany]
    refine ⟨?_, rfl, rfl, Relation.ReflTransGen.refl⟩
    exact h.putFile_same (f := { s.file i with ref := (s.file i).ref - 1 }) rfl
      (by simp only; omega) rfl
  rw [if_neg hmany, wp_bind, wp_modify]
  change wp _ _ _ (s.putFile i { s.file i with ref := 0, ip := none })
  cases hip : (s.file i).ip with
  | none =>
    refine ⟨?_, rfl, rfl, Relation.ReflTransGen.refl⟩
    apply h.putFile
    · intro b
      simp [hip]
    · intro b hb
      cases hb
    · exact Finset.Subset.refl _
    · intro b hb
      rw [hip] at hb
      cases hb
    · intro b hb
      cases hb
  | some a =>
    have hheld := State.holders_of_file hip
    have hmoved : In (s.putFile i { s.file i with ref := 0, ip := none }) {a} ∅
        {(s.icache a).inum} := by
      apply h.putFile
      · intro b
        by_cases hab : a = b
        · subst hab
          simp [hip]
        · simp [hip, hab, Ne.symm hab]
      · intro b hb
        cases hb
      · exact Finset.empty_subset _
      · intro b hb
        rw [hip] at hb
        cases hb
        exact .inr (Finset.mem_singleton_self _)
      · intro b hb
        cases hb
    refine wp_post (iputOp_spec hmoved rfl ?_) ?_
    · intro ht hl
      exact h.valid_of_held hheld rfl (Finset.notMem_empty _) ht hl
    · rintro _ s' ⟨h', hproc, _, hout, hfrees⟩
      exact ⟨h', hproc, hout, hfrees⟩

section Commute

variable (p : Slot) (g : Proc → Proc)

def State.editProc (s : State) : State :=
  s.putProc p (g (s.proc p))

theorem commutes_setInode (e : Ino) (f : Inode → Inode) :
    Commutes (State.editProc p g) (setInode e f) :=
  Commutes.modify fun _ => rfl

theorem commutes_logWrite (b : Nat) (data : Block) :
    Commutes (State.editProc p g) (logWrite b data) :=
  Commutes.get (fun _ => rfl) fun _ =>
    Commutes.ite (Commutes.throw _) (Commutes.ite (Commutes.throw _) (Commutes.modify fun _ => rfl))

theorem commutes_bfree (b : Nat) : Commutes (State.editProc p g) (bfree b) :=
  Commutes.get (fun _ => rfl) fun _ => Commutes.ite (Commutes.throw _) (commutes_logWrite p g _ _)

theorem commutes_updateInode (e : Ino) (f : Dinode → Dinode) :
    Commutes (State.editProc p g) (updateInode e f) :=
  (commutes_setInode p g e _).bind fun _ =>
    Commutes.get (fun _ => rfl) fun _ => commutes_logWrite p g _ _

theorem commutes_freeDirect (e : Ino) (k : Nat) : Commutes (State.editProc p g) (freeDirect e k) :=
  Commutes.get (fun _ => rfl) fun _ =>
    Commutes.ite (Commutes.pure ()) ((commutes_bfree p g _).bind fun _ => commutes_setInode p g e _)

theorem commutes_bread (b : Nat) : Commutes (State.editProc p g) (bread b) :=
  Commutes.get (fun _ => rfl) fun _ => Commutes.pure _

section
variable (e : Ino)

theorem commutes_truncIndirect : Commutes (State.editProc p g) (truncIndirect e) :=
  Commutes.get (fun _ => rfl) fun _ => Commutes.ite (Commutes.pure ())
      ((commutes_bread p g _).bind fun _ =>
        (Commutes.forEach _ fun _ => Commutes.ite (Commutes.pure ()) (commutes_bfree p g _)).bind
          fun _ => (commutes_bfree p g _).bind fun _ => commutes_setInode p g e _)

theorem commutes_ifree : Commutes (State.editProc p g) (ifree e) :=
  ((Commutes.forEach _ fun k => commutes_freeDirect p g e k).bind fun _ =>
    (commutes_truncIndirect p g e).bind fun _ => commutes_updateInode p g e _).bind fun _ =>
      (commutes_updateInode p g e _).bind fun _ => commutes_setInode p g e _

theorem commutes_acquiresleep : Commutes (State.editProc p g) (acquiresleep e) :=
  Commutes.get (fun _ => rfl) fun _ => Commutes.ite (Commutes.throw _) (commutes_setInode p g e _)

theorem commutes_ifreeUnused : Commutes (State.editProc p g) (ifreeUnused e) :=
  Commutes.get (fun _ => rfl) fun _ => Commutes.ite (commutes_ifree p g e) (Commutes.pure ())

theorem commutes_iput : Commutes (State.editProc p g) (iput e) :=
  (commutes_acquiresleep p g e).bind fun _ =>
    (commutes_ifreeUnused p g e).bind fun _ =>
      (commutes_setInode p g e _).bind fun _ => commutes_setInode p g e _

end

end Commute

theorem In.chdir {c : Option Ino} (h : In s (c.elim 0 fun a => {a}) ∅ ∅)
    (hcwd : (s.proc p).cwd = some b) (hq : q.cwd = c) (hn : (s.icache b).inum = n)
    (halloc : ∀ a, c = some a → (s.ino (s.icache a).inum).type ≠ 0) :
    In (s.putProc p q) {b} ∅ {n} := by
  apply h.putProc
  · intro a
    rw [hq, hcwd]
    cases c with
    | none =>
      by_cases hab : b = a
      · subst hab
        simp
      · simp [hab, Ne.symm hab]
    | some c =>
      simp only [Option.elim, Multiset.count_singleton, Option.some.injEq, eq_comm]
      omega
  · intro a ha
    rw [hq] at ha
    exact halloc a ha
  · exact Finset.empty_subset _
  · intro a ha
    rw [hcwd] at ha
    cases ha
    rw [hn]
    exact .inr (Finset.mem_singleton_self n)

end Xv6.Fs
