import Xv6.Kernel.State

/-!
# Open files and the pages of pipes

A pipe page belongs to the files that are its ends: there is at most one file
for each end, the flags of the pipe say which ends are open, and the page goes
back to the free list with the last end.
-/

namespace Xv6.Kernel

open Lib Lib.Prog Ptable Vm Function

variable {file file' : Files} {pipe pipe' : Frame → Pipe} {i j : Fin NFILE} {P : Frame} {w : Bool}

abbrev Files := Fin NFILE → OpenFile

def End (file : Files) (i : Fin NFILE) (P : Frame) (w : Bool) : Prop :=
  (file i).type = .pipe ∧ (file i).pipe = some P ∧ (file i).writable = w

instance (file : Files) (i : Fin NFILE) (P : Frame) (w : Bool) : Decidable (End file i P w) :=
  inferInstanceAs (Decidable (_ ∧ _ ∧ _))

def Pipe.isOpen (q : Pipe) (w : Bool) : Bool :=
  if w then q.writeopen else q.readopen

def physFrames : Nat :=
  57344

def pipeFrames (file : Files) : Multiset Nat :=
  collect physFrames fun P => if ∃ i w, End file i P w then some P else none

structure FileInv (file : Files) (pipe : Frame → Pipe) : Prop where
  unref : ∀ i, (file i).ref = 0 → (file i).type = .none
  hasPipe : ∀ i, (file i).type = .pipe → ∃ P, (file i).pipe = some P
  bound : ∀ i P w, End file i P w → P < physFrames
  isOpen : ∀ i P w, End file i P w → (pipe P).isOpen w = true
  single : ∀ i j P w, End file i P w → End file j P w → i = j
  hasEnd : ∀ i P w w', End file i P w → (pipe P).isOpen w' = true → ∃ j, End file j P w'

theorem pipeFrames_congr (h : ∀ P, (∃ i w, End file' i P w) ↔ ∃ i w, End file i P w) :
    pipeFrames file' = pipeFrames file := by
  refine collect_congr ?_
  intro P _
  simp only [h]

theorem End.unique {P' : Frame} {w' : Bool} (h : End file i P w) (h' : End file i P' w') :
    P = P' ∧ w = w' :=
  ⟨Option.some.inj (h.2.1.symm.trans h'.2.1), h.2.2.symm.trans h'.2.2⟩

/-- What holds for each file: one without references has no type, and a pipe has its page. -/
def OpenFile.Ok (f : OpenFile) : Prop :=
  (f.ref = 0 → f.type = .none) ∧ (f.type = .pipe → ∃ P, f.pipe = some P)

theorem FileInv.ok (h : FileInv file pipe) (i : Fin NFILE) : (file i).Ok :=
  ⟨h.unref i, h.hasPipe i⟩

theorem ok_update {v : OpenFile} (h : ∀ k, (file k).Ok) (hv : v.Ok) : ∀ k, (update file i v k).Ok :=
  (forall_update_iff file fun _ f => f.Ok).mpr ⟨hv, fun k _ => h k⟩

section
variable (hinv : FileInv file pipe)
include hinv

theorem FileInv.congr (hends : ∀ i P w, End file' i P w ↔ End file i P w)
    (hok : ∀ i, (file' i).Ok) : FileInv file' pipe ∧ pipeFrames file' = pipeFrames file := by
  refine ⟨⟨fun i => (hok i).1, fun i => (hok i).2, ?_, ?_, ?_, ?_⟩, ?_⟩
  · intro i P w h
    exact hinv.bound i P w ((hends i P w).mp h)
  · intro i P w h
    exact hinv.isOpen i P w ((hends i P w).mp h)
  · intro i j P w hi hj
    exact hinv.single i j P w ((hends i P w).mp hi) ((hends j P w).mp hj)
  · intro i P w w' h hopen
    obtain ⟨j, hj⟩ := hinv.hasEnd i P w w' ((hends i P w).mp h) hopen
    exact ⟨j, (hends j P w').mpr hj⟩
  · exact pipeFrames_congr fun P => by simp only [hends]

theorem FileInv.setOther {v : OpenFile} (hold : (file i).type ≠ .pipe)
    (hnew : v.type ≠ .pipe) (hunref : v.ref = 0 → v.type = .none) :
    FileInv (update file i v) pipe ∧
      pipeFrames (update file i v) = pipeFrames file := by
  refine hinv.congr ?_ (ok_update hinv.ok ⟨hunref, fun h => absurd h hnew⟩)
  intro k P w
  by_cases hk : k = i
  · subst hk
    simp [End, hold, hnew]
  · simp [End, update_of_ne hk]

theorem FileInv.setRef {n : Nat} (hn : 0 < n) :
    FileInv (update file i ((file i).setRef n)) pipe ∧
      pipeFrames (update file i ((file i).setRef n)) = pipeFrames file := by
  refine hinv.congr ?_ (ok_update hinv.ok ⟨fun h => absurd h (Nat.ne_of_gt hn), hinv.hasPipe i⟩)
  intro k P w
  by_cases hk : k = i
  · subst hk
    simp [End, OpenFile.setRef]
  · simp [End, update_of_ne hk]

end

theorem mem_pipeFrames (hP : P < physFrames) (h : End file i P w) : P ∈ pipeFrames file := by
  refine mem_collect.mpr ⟨P, hP, ?_⟩
  rw [if_pos ⟨i, w, h⟩]

def withPipe (file : Files) (i j : Fin NFILE) (P : Frame) : Files :=
  update (update file i ((file i).asPipe P false)) j
    ((update file i ((file i).asPipe P false) j).asPipe P true)

theorem end_withPipe (hij : i ≠ j) (hi : (file i).type ≠ .pipe) (hj : (file j).type ≠ .pipe)
    (k : Fin NFILE) (P' : Frame) (w : Bool) :
    End (withPipe file i j P) k P' w ↔
      End file k P' w ∨ P' = P ∧ (k = i ∧ w = false ∨ k = j ∧ w = true) := by
  unfold withPipe
  by_cases hkj : k = j
  · subst hkj
    simp only [End, update_self, update_of_ne hij.symm, OpenFile.asPipe, hj, Option.some.injEq]
    constructor
    · rintro ⟨_, rfl, rfl⟩
      simp
    · rintro (⟨h, _⟩ | ⟨rfl, h | ⟨_, rfl⟩⟩)
      · cases h
      · exact absurd h.1.symm hij
      · simp
  by_cases hki : k = i
  · subst hki
    simp only [End, update_of_ne hkj, update_self, OpenFile.asPipe, hi, Option.some.injEq]
    constructor
    · rintro ⟨_, rfl, rfl⟩
      simp
    · rintro (⟨h, _⟩ | ⟨rfl, ⟨_, rfl⟩ | h⟩)
      · cases h
      · simp
      · exact absurd h.1 hij
  · simp [End, hki, hkj]

theorem FileInv.withPipe (hinv : FileInv file pipe) (hij : i ≠ j) (hi : (file i).type ≠ .pipe)
    (hj : (file j).type ≠ .pipe) (hiref : (file i).ref ≠ 0) (hjref : (file j).ref ≠ 0)
    (hfresh : P ∉ pipeFrames file) (hP : P < physFrames) :
    FileInv (withPipe file i j P) (update pipe P ⟨true, true⟩) ∧
      pipeFrames (withPipe file i j P) = P ::ₘ pipeFrames file := by
  have hends := end_withPipe (P := P) hij hi hj
  have hnone : ∀ k w, ¬End file k P w := fun k w h => hfresh (mem_pipeFrames hP h)
  have hok : ∀ k, (Kernel.withPipe file i j P k).Ok := by
    refine ok_update (ok_update hinv.ok ⟨fun h => absurd h hiref, fun _ => ⟨P, rfl⟩⟩) ?_
    rw [update_of_ne hij.symm]
    exact ⟨fun h => absurd h hjref, fun _ => ⟨P, rfl⟩⟩
  refine ⟨⟨fun k => (hok k).1, fun k => (hok k).2, ?_, ?_, ?_, ?_⟩, ?_⟩
  · intro k P' w h
    rcases (hends k P' w).mp h with hold | ⟨rfl, _⟩
    · exact hinv.bound k P' w hold
    · exact hP
  · intro k P' w h
    rcases (hends k P' w).mp h with hold | ⟨rfl, _⟩
    · have hne : P' ≠ P := by
        rintro rfl
        exact hnone k w hold
      rw [update_of_ne hne]
      exact hinv.isOpen k P' w hold
    · rw [update_self]
      cases w <;> rfl
  · intro k l P' w hk hl
    rcases (hends k P' w).mp hk with holdk | ⟨rfl, hnewk⟩
    · rcases (hends l P' w).mp hl with holdl | ⟨rfl, _⟩
      · exact hinv.single k l P' w holdk holdl
      · exact absurd holdk (hnone k w)
    rcases (hends l P' w).mp hl with holdl | ⟨_, hnewl⟩
    · exact absurd holdl (hnone l w)
    rcases hnewk with ⟨hk', rfl⟩ | ⟨hk', rfl⟩
    · rcases hnewl with ⟨hl', _⟩ | ⟨_, hw⟩
      · rw [hk', hl']
      · cases hw
    · rcases hnewl with ⟨_, hw⟩ | ⟨hl', _⟩
      · cases hw
      · rw [hk', hl']
  · intro k P' w w' h hopen
    rcases (hends k P' w).mp h with hold | ⟨rfl, _⟩
    · have hne : P' ≠ P := by
        rintro rfl
        exact hnone k w hold
      rw [update_of_ne hne] at hopen
      obtain ⟨l, hl⟩ := hinv.hasEnd k P' w w' hold hopen
      exact ⟨l, (hends l P' w').mpr (.inl hl)⟩
    · cases w' with
      | false => exact ⟨i, (hends i P' false).mpr (.inr ⟨rfl, .inl ⟨rfl, rfl⟩⟩)⟩
      | true => exact ⟨j, (hends j P' true).mpr (.inr ⟨rfl, .inr ⟨rfl, rfl⟩⟩)⟩
  have hput := collect_put (g := fun P' => if ∃ i w, End file i P' w then some P' else none) hP
    (if_neg (by rintro ⟨k, w, h⟩; exact hnone k w h)) P
  refine Eq.trans (collect_congr ?_) hput
  intro P' _
  by_cases hne : P' = P
  · rw [hne, update_self]
    exact if_pos ⟨i, false, (hends i P false).mpr (Or.inr ⟨rfl, .inl ⟨rfl, rfl⟩⟩)⟩
  · rw [update_of_ne hne]
    refine if_congr ?_ rfl rfl
    simp only [hends, hne, false_and, or_false]

def withoutFile (file : Files) (i : Fin NFILE) : Files :=
  update file i { file i with ref := 0, type := .none }

theorem end_withoutFile (k : Fin NFILE) (P : Frame) (w : Bool) :
    End (withoutFile file i) k P w ↔ k ≠ i ∧ End file k P w := by
  unfold withoutFile
  by_cases hk : k = i
  · subst hk
    simp [End]
  · simp [End, hk]

theorem isOpen_shut (q : Pipe) (w w' : Bool) :
    (q.shut w).isOpen w' = if w' = w then false else q.isOpen w' := by
  cases w <;> cases w' <;> rfl

theorem FileInv.withoutFile (hinv : FileInv file pipe) (hend : End file i P w) :
    FileInv (withoutFile file i) (update pipe P ((pipe P).shut w)) ∧
      (((pipe P).shut w).isOpen (!w) = true → pipeFrames (withoutFile file i) = pipeFrames file) ∧
      (((pipe P).shut w).isOpen (!w) = false →
        pipeFrames file = P ::ₘ pipeFrames (withoutFile file i)) := by
  have hends : ∀ k P w, End (Kernel.withoutFile file i) k P w ↔ k ≠ i ∧ End file k P w :=
    end_withoutFile
  have hP := hinv.bound i P w hend
  have hother : ∀ k w', End file k P w' → k ≠ i → w' = !w := by
    intro k w' hk hne
    by_contra hc
    have hw' : w' = w := by cases w <;> cases w' <;> simp_all
    subst hw'
    exact hne (hinv.single k i P w' hk hend)
  have hflag : ((pipe P).shut w).isOpen (!w) = (pipe P).isOpen (!w) := by
    rw [isOpen_shut, if_neg (by simp)]
  have hok : ∀ k, (Kernel.withoutFile file i k).Ok :=
    ok_update hinv.ok ⟨fun _ => rfl, nofun⟩
  refine ⟨⟨fun k => (hok k).1, fun k => (hok k).2, ?_, ?_, ?_, ?_⟩, ?_, ?_⟩
  · intro k P' w' h
    exact hinv.bound k P' w' ((hends k P' w').mp h).2
  · intro k P' w' h
    obtain ⟨hki, h⟩ := (hends k P' w').mp h
    by_cases hne : P' = P
    · subst hne
      rw [update_self, hother k w' h hki, hflag, ← hother k w' h hki]
      exact hinv.isOpen k P' w' h
    · rw [update_of_ne hne]
      exact hinv.isOpen k P' w' h
  · intro k l P' w' hk hl
    exact hinv.single k l P' w' ((hends k P' w').mp hk).2 ((hends l P' w').mp hl).2
  · intro k P' w1 w2 h hopen
    obtain ⟨hki, h⟩ := (hends k P' w1).mp h
    by_cases hne : P' = P
    · subst hne
      rw [update_self] at hopen
      have hw2 : w2 ≠ w := by
        rintro rfl
        rw [isOpen_shut, if_pos rfl] at hopen
        cases hopen
      refine ⟨k, (hends k P' w2).mpr ⟨hki, ?_⟩⟩
      have hw : w2 = w1 := by
        rw [hother k w1 h hki]
        cases w <;> cases w2 <;> simp_all
      rw [hw]
      exact h
    · rw [update_of_ne hne] at hopen
      obtain ⟨l, hl⟩ := hinv.hasEnd k P' w1 w2 h hopen
      refine ⟨l, (hends l P' w2).mpr ⟨?_, hl⟩⟩
      rintro rfl
      exact hne (hl.unique hend).1
  · intro hopen
    rw [hflag] at hopen
    obtain ⟨j, hj⟩ := hinv.hasEnd i P w (!w) hend hopen
    have hji : j ≠ i := by
      rintro rfl
      have hww := (hend.unique hj).2
      cases w <;> cases hww
    refine pipeFrames_congr fun P' => ?_
    constructor
    · rintro ⟨k, w', hk⟩
      exact ⟨k, w', ((hends k P' w').mp hk).2⟩
    · rintro ⟨k, w', hk⟩
      by_cases hki : k = i
      · subst hki
        obtain ⟨rfl, _⟩ := hk.unique hend
        exact ⟨j, !w, (hends j P' (!w)).mpr ⟨hji, hj⟩⟩
      · exact ⟨k, w', (hends k P' w').mpr ⟨hki, hk⟩⟩
  intro hclosed
  rw [hflag] at hclosed
  have htake := collect_take (g := fun P' => if ∃ i w, End file i P' w then some P' else none)
    hP (if_pos ⟨i, w, hend⟩)
  refine htake.trans (congrArg (Multiset.cons P) (collect_congr ?_))
  intro P' _
  by_cases hne : P' = P
  · rw [hne, update_self, if_neg]
    rintro ⟨k, w', hk⟩
    obtain ⟨hki, hk⟩ := (hends k P w').mp hk
    rw [hother k w' hk hki] at hk
    rw [hinv.isOpen k P (!w) hk] at hclosed
    cases hclosed
  rw [update_of_ne hne]
  refine if_congr ?_ rfl rfl
  constructor
  · rintro ⟨k, w', hk⟩
    refine ⟨k, w', (hends k P' w').mpr ⟨?_, hk⟩⟩
    rintro rfl
    exact hne (hk.unique hend).1
  · rintro ⟨k, w', hk⟩
    exact ⟨k, w', ((hends k P' w').mp hk).2⟩

end Xv6.Kernel
