import Xv6.Kernel.Ownership

/-!
# The calls keep the invariant

One lemma for each function of the machine.  None of them says when a call stops
with a panic: a step is a call that comes to an end.
-/

namespace Xv6.Kernel

open Lib Lib.Prog Ptable Vm Function

variable {s : State} {p : Slot} {E : Stop → State → Prop} {K : Symbols} {A : Pool K}
variable {i j : Fin NFILE} {t t' t'' : Table} {fd : Fin NOFILE} {Q : Unit → State → Prop}
variable {w readable writable : Bool}

def AnyStop (_ : Stop) (_ : State) : Prop :=
  True

theorem wp_onMem {α : Type} {x : M α} {Q : α → State → Prop} :
    wp (onMem x) Q E s ↔
      wp x (fun a m => Q a { s with mem := m }) (fun e m => E e { s with mem := m }) s.mem :=
  wp_zoom x

theorem wp_updProc {f : Proc → Proc} :
    wp (updProc p f) Q E s ↔ Q () { s with proc := set s.proc p (f (s.proc p)) } := by
  rfl

theorem wp_updFile {f : OpenFile → OpenFile} :
    wp (updFile i f) Q E s ↔ Q () { s with file := update s.file i (f (s.file i)) } := by
  rfl

theorem wp_pgdirOf {D : Frame} {Q : Frame → State → Prop} (hD : (s.proc p).pgdir = some D) :
    wp (pgdirOf p) Q E s ↔ Q D s := by
  unfold pgdirOf
  rw [wp_bind, wp_get, hD]
  rfl

theorem set_set (t : Table) (p : Slot) (v w : Proc) : set (set t p v) p w = set t p w :=
  update_idem _ _ _

def SameOom (s s' : State) : Prop :=
  s'.mem.oom = s.mem.oom

structure Allocated (A : Pool K) (s : State) (i : Fin NFILE) (s' : State) : Prop where
  inv : Inv A s'
  proc : s'.proc = s.proc
  before : (s.file i).ref = 0
  ref : (s'.file i).ref = 1
  type : (s'.file i).type = .none
  others : ∀ j, j ≠ i → s'.file j = s.file j

section
variable (h : Inv A s)
include h

theorem filealloc_spec {Q : Option (Fin NFILE) → State → Prop}
    (hnone : Q none s) (hsome : ∀ i s', Allocated A s i s' → Q (some i) s') :
    wp filealloc Q E s := by
  unfold filealloc
  rw [wp_bind, wp_get]
  cases hf : (List.finRange NFILE).find? fun i => (s.file i).ref = 0 with
  | none => exact hnone
  | some i =>
    have href : (s.file i).ref = 0 := by simpa using List.find?_some hf
    have htype := h.files.unref i href
    have htype' : ((s.file i).setRef 1).type = .none := htype
    refine hsome i { s with file := update s.file i ((s.file i).setRef 1) }
      ⟨h.setFile (h.files.setOther ?_ ?_ ?_), rfl, href, ?_, ?_, ?_⟩
    · rw [htype]
      simp
    · rw [htype']
      simp
    · intro _
      exact htype'
    · simp [OpenFile.setRef]
    · simp [htype']
    · intro j hj
      exact update_of_ne hj _ _

theorem filedup_spec : wp (filedup i) (fun _ s' => Inv A s' ∧ s'.proc = s.proc) AnyStop s := by
  unfold filedup
  rw [wp_bind, wp_get, wp_ite]
  by_cases href : (s.file i).ref < 1
  · rw [if_pos href]
    trivial
  · rw [if_neg href, wp_updFile]
    exact ⟨h.setFile (h.files.setRef (by omega)), rfl⟩

theorem pipeclose_spec {P : Frame} (hend : End s.file i P w) :
    wp (pipeclose K P w) (fun _ s' => Inv A s' ∧ s'.proc = s.proc ∧ SameOom s s') E
      { s with file := withoutFile s.file i } := by
  obtain ⟨hfiles, hopen, hclosed⟩ := h.files.withoutFile hend
  unfold pipeclose
  simp only [wp_bind, wp_modify, wp_get, wp_ite, update_self, wp_onMem]
  have hflag : ((s.pipe P).shut w).isOpen w = false := by rw [isOpen_shut, if_pos rfl]
  by_cases hboth : ((s.pipe P).shut w).readopen = false ∧ ((s.pipe P).shut w).writeopen = false
  · have hother : ((s.pipe P).shut w).isOpen (!w) = false := by
      unfold Pipe.isOpen
      split
      · exact hboth.2
      · exact hboth.1
    have huses := h.uses
    unfold State.used State.fixed at huses
    rw [hclosed hother, Multiset.cons_add, Multiset.add_cons] at huses
    rw [if_pos hboth]
    refine wp_kfree (huses.valid (Multiset.mem_cons_self _ _)) ⟨?_, trivial, rfl⟩
    refine h.setFiles ?_ (huses.release rfl) hfiles
    refine huses.keeps_freed.mono fun f hf => ?_
    simp only [Multiset.mem_add] at hf ⊢
    tauto
  have hother : ((s.pipe P).shut w).isOpen (!w) = true := by
    by_contra hc
    refine hboth ?_
    cases w with
    | false => exact ⟨hflag, by simpa [Pipe.isOpen] using hc⟩
    | true => exact ⟨by simpa [Pipe.isOpen] using hc, hflag⟩
  have huses := h.uses
  unfold State.used State.fixed at huses
  rw [← hopen hother] at huses
  rw [if_neg hboth]
  exact ⟨h.setFiles (Keeps.refl _ s.mem) huses hfiles, rfl, rfl⟩

theorem fileclose_ends :
    wp (fileclose K i) (fun _ s' => Inv A s' ∧ s'.proc = s.proc ∧ SameOom s s')
      (fun e s' => e = .fileclose ∧ SameOom s s') s := by
  unfold fileclose
  rw [wp_bind, wp_get, wp_ite]
  by_cases hzero : (s.file i).ref < 1
  · rw [if_pos hzero]
    exact ⟨rfl, rfl⟩
  rw [if_neg hzero, wp_ite]
  by_cases hmany : 1 < (s.file i).ref
  · rw [if_pos hmany, wp_updFile]
    exact ⟨h.setFile (h.files.setRef (by omega)), rfl, rfl⟩
  rw [if_neg hmany, wp_bind, wp_updFile, wp_ite]
  by_cases htype : (s.file i).type = .pipe
  · obtain ⟨P, hP⟩ := h.files.hasPipe i htype
    rw [if_pos htype]
    change wp _ _ _ { s with file := withoutFile s.file i }
    rw [hP]
    exact pipeclose_spec h ⟨htype, hP, rfl⟩
  · rw [if_neg htype]
    exact ⟨h.setFile (h.files.setOther htype (by simp) fun _ => rfl), rfl, rfl⟩

theorem fileclose_spec : wp (fileclose K i) (fun _ s' => Inv A s' ∧ s'.proc = s.proc) AnyStop s :=
  wp_mono (fileclose_ends h) (fun _ _ h1 => ⟨h1.1, h1.2.1⟩) fun _ _ _ => trivial

theorem Inv.setOom (n : Nat) : Inv A { s with mem := { s.mem with oom := n } } :=
  h.setFiles (fun _ _ => rfl) h.uses h.files

theorem Inv.newPipe {P : Nat} {l : List Nat} (hij : i ≠ j)
    (hi : (s.file i).type ≠ .pipe) (hj : (s.file j).type ≠ .pipe) (hiref : (s.file i).ref ≠ 0)
    (hjref : (s.file j).ref ≠ 0) (hfree : s.mem.free = P :: l) :
    Inv A { s with
      mem := { s.mem with free := l }
      file := withPipe s.file i j P
      pipe := update s.pipe P ⟨true, true⟩ } := by
  have hmem : P ∈ s.mem.free := by simp [hfree]
  have hvalid := h.uses.valid_of_free hmem
  have hP : P < physFrames := by
    have := hvalid.2
    unfold PHYSTOP at this
    unfold physFrames
    omega
  have hfresh : P ∉ pipeFrames s.file := by
    intro hc
    refine h.uses.notMem_free ?_ hmem
    unfold State.used State.fixed
    simp only [Multiset.mem_add]
    exact .inr (.inl hc)
  obtain ⟨hfiles, hframes⟩ := h.files.withPipe hij hi hj hiref hjref hfresh hP
  have huses : Uses A { s.mem with free := l } (P ::ₘ s.used) := h.uses.alloc hfree rfl
  refine h.setFiles (fun _ _ => rfl) ?_ hfiles
  unfold State.used State.fixed at huses
  rwa [hframes, Multiset.cons_add, Multiset.add_cons]

theorem pipealloc_spec : wp (pipealloc K) (fun _ s' => Inv A s' ∧ s'.proc = s.proc) AnyStop s := by
  unfold pipealloc
  rw [wp_bind]
  refine filealloc_spec h ⟨h, rfl⟩ ?_
  intro i s1 h1
  rw [wp_bind]
  refine filealloc_spec h1.inv ?_ ?_
  · rw [wp_bind]
    refine wp_post (fileclose_spec h1.inv) ?_
    rintro _ s2 ⟨h2, hproc2⟩
    exact ⟨h2, hproc2.trans h1.proc⟩
  intro j s2 h2
  have hproc := h2.proc.trans h1.proc
  have hij : i ≠ j := by
    rintro rfl
    have := h1.ref.symm.trans h2.before
    omega
  have hfi := h2.others i hij
  rw [wp_bind, wp_onMem]
  refine wp_kalloc ?_ ?_
  · intro _
    refine wp_seq (fileclose_spec (h2.inv.setOom _)) ?_
    rintro _ s3 ⟨h3, hproc3⟩
    refine wp_seq (fileclose_spec h3) ?_
    rintro _ s4 ⟨h4, hproc4⟩
    exact ⟨h4, hproc4.trans (hproc3.trans hproc)⟩
  intro P l hfree
  simp only [wp_bind, wp_modify, wp_updFile, wp_pure]
  refine ⟨h2.inv.newPipe hij ?_ ?_ ?_ ?_ hfree, hproc⟩
  · rw [hfi, h1.type]
    simp
  · rw [h2.type]
    simp
  · rw [hfi, h1.ref]
    simp
  · rw [h2.ref]
    simp

end

/-! ### Descriptors -/

theorem Inv.setOfile (h : Inv A s) (of : Fin NOFILE → Option (Fin NFILE)) :
    Inv A { s with proc := set s.proc p { s.proc p with ofile := of } } :=
  h.setTable (sameFrames_set ⟨rfl, rfl, rfl, Iff.rfl, fun hu => hu⟩)

def OnlyFds (p : Slot) (t t' : Table) : Prop :=
  ∃ of, t' = set t p { t p with ofile := of }

theorem OnlyFds.refl (p : Slot) (t : Table) : OnlyFds p t t :=
  ⟨(t p).ofile, (update_eq_self p t).symm⟩

theorem OnlyFds.trans (h : OnlyFds p t t') (h' : OnlyFds p t' t'') : OnlyFds p t t'' := by
  obtain ⟨of, rfl⟩ := h
  obtain ⟨of', rfl⟩ := h'
  refine ⟨of', ?_⟩
  rw [set_set, set_self]

theorem OnlyFds.state (h : OnlyFds p t t') (q : Slot) : (t' q).state = (t q).state := by
  obtain ⟨of, rfl⟩ := h
  by_cases hq : q = p
  · subst hq
    rw [set_self]
  · rw [set_of_ne _ _ hq]

section
variable (h : Inv A s)
include h

theorem fdalloc_spec :
    wp (fdalloc p i) (fun _ s' => Inv A s' ∧ OnlyFds p s.proc s'.proc) AnyStop s := by
  unfold fdalloc
  rw [wp_bind, wp_get]
  cases (List.finRange NOFILE).find? fun fd => ((s.proc p).ofile fd).isNone with
  | none => exact ⟨h, OnlyFds.refl p s.proc⟩
  | some fd => exact ⟨h.setOfile _, _, rfl⟩

theorem clearFd_spec :
    wp (clearFd p fd) (fun _ s' => Inv A s' ∧ OnlyFds p s.proc s'.proc) AnyStop s :=
  ⟨h.setOfile _, _, rfl⟩

theorem dup_spec : wp (dup p fd) (fun _ s' => Inv A s') AnyStop s := by
  unfold dup
  rw [wp_bind, wp_get]
  cases (s.proc p).ofile fd with
  | none => exact h
  | some i =>
    simp only [wp_bind]
    refine wp_post (fdalloc_spec h) ?_
    rintro r s1 ⟨h1, _⟩
    cases r with
    | none => exact h1
    | some fd' => exact wp_seq (filedup_spec h1) fun _ _ h2 => h2.1

theorem close_spec : wp (close K p fd) (fun _ s' => Inv A s') AnyStop s := by
  unfold close
  rw [wp_bind, wp_get]
  cases (s.proc p).ofile fd with
  | none => exact h
  | some i =>
    simp only [wp_bind]
    refine wp_post (clearFd_spec h) ?_
    rintro _ s1 ⟨h1, _⟩
    exact wp_post (fileclose_spec h1) fun _ _ h2 => h2.1

theorem openInode_spec : wp (openInode K p readable writable) (fun _ s' => Inv A s') AnyStop s := by
  unfold openInode
  rw [wp_bind]
  refine filealloc_spec h h ?_
  intro i s1 h1
  simp only [wp_bind]
  have htype : (s1.file i).type ≠ .pipe := by
    rw [h1.type]
    simp
  have href : (s1.file i).ref ≠ 0 := by
    rw [h1.ref]
    simp
  unfold fdalloc
  rw [wp_bind, wp_get]
  cases (List.finRange NOFILE).find? fun fd => ((s1.proc p).ofile fd).isNone with
  | none =>
    simp only [wp_pure]
    exact wp_seq (fileclose_spec h1.inv) fun _ _ h2 => h2.1
  | some fd =>
    simp only [wp_bind, wp_updProc, wp_updFile, wp_pure]
    have h2 := h1.inv.setOfile (p := p)
      (update (s1.proc p).ofile fd (some i))
    exact h2.setFile (h2.files.setOther htype (by simp) fun hc => absurd hc href)

end

end Xv6.Kernel
