import Xv6.Kernel.Calls
import Xv6.Vm.Follow

/-!
# Processes keep the invariant

`fork`, `exec`, `sbrk`, `exit`, `wait` and the accesses to user memory.
-/

namespace Xv6.Kernel

open Lib Lib.Prog Ptable Vm Multiset

variable {K : Symbols} {A : Pool K} {s : State} {p np : Slot} {t t' : Table} {v : Proc}
variable {fd : Fin NOFILE} {m : Mem} {argv : List (List UInt8)}

theorem SameFrames.refl (v : Proc) : SameFrames v v :=
  ⟨rfl, rfl, rfl, Iff.rfl, fun hu => hu⟩

theorem SameFrames.trans {u w : Proc} (h : SameFrames u v) (h' : SameFrames v w) : SameFrames u w :=
  ⟨h'.kstack.trans h.kstack, h'.pgdir.trans h.pgdir, h'.sz.trans h.sz, h'.alive.trans h.alive,
    fun hw => h.unused (h'.unused hw)⟩

theorem sameFrames_wake (v : Proc) (ch : Option Chan) : SameFrames v (v.wake ch) := by
  unfold Proc.wake
  split
  · rename_i h
    refine ⟨rfl, rfl, rfl, ?_, fun hu => by cases hu⟩
    simp [Alive, h.1]
  · exact SameFrames.refl v

theorem sameFrames_wakeup1 (t : Table) (ch : Option Chan) (q : Slot) :
    SameFrames (t q) (wakeup1 t ch q) :=
  sameFrames_wake (t q) ch

theorem sameFrames_zombie (h : Alive v) : SameFrames v { v with state := .zombie } := by
  refine ⟨rfl, rfl, rfl, ?_, fun hu => by cases hu⟩
  simp only [h, iff_true]
  simp [Alive]

theorem sameFrames_reparentBody (cur init : Slot) (t : Table) (q r : Slot) :
    SameFrames (t r) (reparentBody cur init t q r) := by
  have hset : SameFrames (t r) (set t q { t q with parent := some init } r) := by
    refine sameFrames_set ?_ r
    exact ⟨rfl, rfl, rfl, Iff.rfl, fun hu => hu⟩
  unfold reparentBody
  split
  · dsimp only
    split
    · exact hset.trans (sameFrames_wake _ _)
    · exact hset
  · exact SameFrames.refl _

theorem sameFrames_reparent (cur init : Slot) (t : Table) (r : Slot) :
    SameFrames (t r) (reparent cur init t r) := by
  have hfold : ∀ (l : List Slot) (t : Table),
      SameFrames (t r) (l.foldl (reparentBody cur init) t r) := by
    intro l
    induction l with
    | nil =>
      intro t
      exact SameFrames.refl _
    | cons q l ih =>
      intro t
      exact (sameFrames_reparentBody cur init t q r).trans (ih _)
  exact hfold slots t

theorem closeFd_spec (h : Inv A s) :
    wp (closeFd K p fd) (fun _ s' => Inv A s' ∧ OnlyFds p s.proc s'.proc ∧ SameOom s s')
      (fun e s' => e = .fileclose ∧ SameOom s s') s := by
  unfold closeFd
  rw [wp_bind, wp_get]
  cases (s.proc p).ofile fd with
  | none => exact ⟨h, OnlyFds.refl p s.proc, rfl⟩
  | some i =>
    simp only [wp_bind]
    refine wp_post (fileclose_ends h) ?_
    rintro _ s1 ⟨h1, hproc, hoom⟩
    rw [← hproc]
    exact ⟨(clearFd_spec h1).1, (clearFd_spec h1).2, hoom⟩

theorem exit_ends (h : Inv A s) (hp : (s.proc p).state = .runnable) :
    wp (exit K p) (fun _ s' => Inv A s' ∧ (s'.proc p).state = .zombie ∧ SameOom s s')
      (fun e s' => (e = .fileclose ∨ e = .initExiting) ∧ SameOom s s') s := by
  unfold exit
  rw [wp_bind, wp_get, wp_ite]
  by_cases hinit : p = s.initproc
  · rw [if_pos hinit]
    exact ⟨.inr rfl, rfl⟩
  rw [if_neg hinit, wp_bind]
  have hloop : wp (forEach (List.finRange NOFILE) (closeFd K p))
      (fun _ s' => Inv A s' ∧ OnlyFds p s.proc s'.proc ∧ SameOom s s')
      (fun e s' => (e = .fileclose ∨ e = .initExiting) ∧ SameOom s s') s := by
    refine wp_forEach ?_ ⟨h, OnlyFds.refl p s.proc, rfl⟩
    rintro fd _ s1 ⟨h1, hfds, hoom⟩
    refine wp_mono (closeFd_spec h1) ?_ fun _ _ he => ⟨.inl he.1, he.2.trans hoom⟩
    rintro _ s2 ⟨h2, hfds2, hoom2⟩
    exact ⟨h2, hfds.trans hfds2, hoom2.trans hoom⟩
  refine wp_post hloop ?_
  rintro _ s1 ⟨h1, hfds, hoom⟩
  have hstate : (s1.proc p).state = .runnable := (hfds.state p).trans hp
  have hsame : ∀ q, SameFrames (s1.proc q)
      (reparent p s1.initproc (wakeup1 s1.proc ((s1.proc p).parent.map .proc)) q) := by
    intro q
    exact (sameFrames_wakeup1 s1.proc _ q).trans (sameFrames_reparent _ _ _ q)
  have halive : Alive (reparent p s1.initproc
      (wakeup1 s1.proc ((s1.proc p).parent.map .proc)) p) := by
    refine (hsame p).alive.mpr ?_
    simp [Alive, hstate]
  rw [wp_modify]
  refine ⟨h1.setTable fun q => (hsame q).trans (sameFrames_set (sameFrames_zombie halive) q),
    ?_, hoom⟩
  simp only [set_self]

theorem exit_spec (h : Inv A s) (hp : (s.proc p).state = .runnable) :
    wp (exit K p) (fun _ s' => Inv A s') AnyStop s :=
  wp_mono (exit_ends h hp) (fun _ _ h1 => h1.1) fun _ _ _ => trivial

theorem wait_spec (h : Inv A s) : wp (wait K p) (fun _ s' => Inv A s') AnyStop s := by
  unfold wait
  rw [wp_bind, wp_get]
  cases hscan : waitScan s.proc p with
  | fail => exact h
  | block => trivial
  | reap k =>
    obtain ⟨_, hzombie⟩ := waitScan_reap hscan
    have halive : Alive (s.proc k) := by simp [Alive, hzombie]
    obtain ⟨D, hD, hspace⟩ := h.toSpace halive
    simp only [wp_bind, wp_onMem, hD]
    cases hstack : (s.proc k).kstack with
    | none => trivial
    | some ks =>
      have hstackOf : stackOf (s.proc k) = {ks} := by
        unfold stackOf
        rw [hstack]
      rw [hstackOf, singleton_add] at hspace
      unfold kfreePtr
      refine wp_kfree (hspace.dir.uses.valid (by simp)) ?_
      obtain ⟨hdir, _, _, hkeeps⟩ := hspace.dir.freed
      refine wp_mono (freevm_spec hdir) ?_ fun _ _ he => he.elim
      rintro _ m ⟨huses, hkeeps', _⟩
      simp only [wp_updProc, wp_pure]
      refine h.setSlot ?_ ?_ ?_ ?_
      · exact Keeps.trans hkeeps.right hkeeps'
      · have hzero : slotFrames m (s.proc k).reap = 0 := by
          unfold slotFrames stackOf spaceOf Proc.reap
          simp [Alive]
        rw [hzero, zero_add]
        exact huses
      · intro hc
        exact absurd rfl hc.1
      · intro _
        rfl

theorem alive_of_runnable (h : v.state = .runnable) : Alive v := by
  simp [Alive, h]

theorem deallocuvm_any {D sz newsz : Nat} {R : Multiset Nat} {E : Stop → Mem → Prop}
    (h : Space A m D sz R) :
    wp (deallocuvm K D sz newsz)
      (fun r m' => r = min sz newsz ∧ Space A m' D r R ∧ Keeps R m m') E m := by
  by_cases hle : sz ≤ newsz
  · unfold deallocuvm
    rw [wp_ite, if_pos hle]
    exact ⟨(Nat.min_eq_left hle).symm, h, Keeps.refl _ m⟩
  · refine wp_mono (deallocuvm_spec h.dir (le_of_lt h.size)) ?_ fun _ _ he => he.elim
    rintro r m' ⟨hr, hm'⟩
    have hmin : min sz newsz = newsz := Nat.min_eq_right (by omega)
    refine ⟨hr, ?_, hm'.keeps⟩
    rw [hr, hmin]
    exact hm'.space h (by omega)

theorem sbrk_spec {n : Int} (h : Inv A s) (hp : (s.proc p).state = .runnable) :
    wp (sbrk K p n) (fun _ s' => Inv A s') AnyStop s := by
  have halive := alive_of_runnable hp
  obtain ⟨D, hD, hspace⟩ := h.toSpace halive
  unfold sbrk
  rw [wp_bind, wp_get, wp_bind, wp_pgdirOf hD, wp_ite]
  by_cases hn : n = 0
  · rw [if_pos hn]
    exact h
  rw [if_neg hn, wp_bind, wp_onMem, wp_ite]
  -- either way the result is the size of the address space, or 0
  have hend : ∀ r m', (∃ sz, Space A m' D sz (stackOf (s.proc p) + s.rest p) ∧
        sz ≤ (s.proc p).sz ∧ r = 0 ∨
        Space A m' D r (stackOf (s.proc p) + s.rest p)) →
      Keeps (stackOf (s.proc p) + s.rest p) s.mem m' →
      wp (if r = 0 then pure (-1) else do
        updProc p fun v => { v with sz := r }
        pure ((s.proc p).sz : Int)) (fun _ s' => Inv A s') AnyStop { s with mem := m' } := by
    intro r m' hm' hkeeps
    rw [wp_ite]
    by_cases hr : r = 0
    · rw [if_pos hr]
      obtain ⟨sz, hm' | hm'⟩ := hm'
      · exact h.setMem halive hD hkeeps (hm'.1.grow hm'.2.1 hspace.size)
      · exact h.setMem halive hD hkeeps (hm'.grow (by omega) hspace.size)
    · rw [if_neg hr, wp_bind, wp_updProc]
      obtain ⟨sz, hm' | hm'⟩ := hm'
      · exact absurd hm'.2.2 hr
      · exact h.setSpace hkeeps hm' halive rfl hD rfl
  by_cases hpos : 0 < n
  · rw [if_pos hpos]
    refine wp_post (allocuvm_any hspace) ?_
    rintro r m' ⟨hm', hkeeps⟩
    rcases hm' with ⟨hr, hm'⟩ | hm'
    · exact hend r m' ⟨_, .inl ⟨hm', le_rfl, hr⟩⟩ hkeeps
    · exact hend r m' ⟨0, .inr hm'⟩ hkeeps
  · rw [if_neg hpos]
    refine wp_post (deallocuvm_any hspace) ?_
    rintro r m' ⟨_, hm', hkeeps⟩
    exact hend r m' ⟨0, .inr hm'⟩ hkeeps

structure NewImage (ip : Vm.File) (s : State) (p : Slot) (s' : State) : Prop where
  state : (s'.proc p).state = (s.proc p).state
  sz : (s'.proc p).sz = PGROUNDUP (topOf (ip.segments ip.elfhdr.phoff ip.elfhdr.phnum)) + 8192
  room : s.mem.free.length ≤ s'.mem.free.length + (1025 + pages (s'.proc p).sz)
  guard : ∃ D, (s'.proc p).pgdir = some D ∧ (Eager ((s'.proc p).sz - 8192) (s'.proc p).sz →
      s'.mem.guarded D (((s'.proc p).sz - 8192) / 4096) = true)

section
variable (h : Inv A s) (hp : (s.proc p).state = .runnable)
include h hp

theorem execFile_plan {ip : Vm.File} :
    wp (execFile K p (some ip) argv)
      (fun r s' => Inv A s' ∧ (r = -1 ∧ planExec ip argv s.mem.free.length = .bad ∨
          r = 0 ∧ planExec ip argv s.mem.free.length = .more () ∧ NewImage ip s p s'))
      (fun e _ => ExecStops ip argv s.mem.free.length e) s := by
  have halive := alive_of_runnable hp
  obtain ⟨D, hD, hspace⟩ := h.toSpace halive
  unfold execFile
  rw [wp_bind, wp_get]
  simp only [wp_bind, wp_onMem]
  refine wp_post (exec_spec hspace.dir.uses) ?_
  rintro r m1 ⟨hkeeps, hr⟩
  have hown : Keeps (s.mem.own D) s.mem m1 := hkeeps.left
  cases r with
  | none => exact ⟨h.setMem halive hD hkeeps.right (hspace.congr hown hr.2), .inl ⟨rfl, hr.1⟩⟩
  | some img =>
    obtain ⟨hplan, hnew, hready, hguard⟩ := hr
    simp only [wp_bind, wp_updProc, wp_onMem, hD, wp_pure]
    have hold := beside_new hspace hown hnew
    refine wp_mono (freevm_spec hold.dir) ?_ fun _ _ he => he.elim
    rintro _ m2 ⟨huses2, hkeeps2, _⟩
    have himg : Keeps (m1.own img.pgdir) m1 m2 := hkeeps2.left
    refine ⟨h.setSpace (hkeeps.right.trans hkeeps2.right) (hnew.congr himg huses2) halive rfl rfl
      rfl, .inr ⟨trivial, hplan, ?_⟩⟩
    have hcard := hspace.dir.uses.card_eq (hnew.congr himg huses2).dir.uses
    have hle := (hnew.congr himg huses2).card_own_le
    refine ⟨by simp only [set_self], ?_, ?_, img.pgdir, ?_, ?_⟩
    · simp only [set_self]
      exact hready.sz
    · simp only [set_self]
      omega
    · simp only [set_self]
    · simp only [set_self]
      intro heager
      have hpage := div_lt_userPages (lt_of_le_of_lt (Nat.sub_le img.sz 8192) hnew.size)
      exact (himg.same _ hpage).2.trans (hguard heager)

theorem execFile_starts {ip : Vm.File} (hplan : planExec ip argv s.mem.free.length = .more ()) :
    ∃ s', execFile K p (some ip) argv s = (.ok 0, s') ∧ NewImage ip s p s' := by
  obtain ⟨r, s', hrun, _, ⟨_, hbad⟩ | ⟨rfl, _, hnew⟩⟩ :=
    exists_ok (execFile_plan h hp) fun _ _ hstop => by cases hplan.symm.trans hstop.plan
  · cases hplan.symm.trans hbad
  · exact ⟨s', hrun, hnew⟩

theorem execFile_spec {ip : Option Vm.File} :
    wp (execFile K p ip argv) (fun _ s' => Inv A s') AnyStop s := by
  cases ip with
  | none => exact h
  | some ip => exact wp_mono (execFile_plan h hp) (fun _ _ hr => hr.1) fun _ _ _ => trivial

end

def Dupped (s : State) (np : Slot) (s' : State) : Prop :=
  ∃ file of, s' = { s with
      file := file
      proc := set s.proc np { s.proc np with ofile := of } } ∧
    FileInv file s.pipe ∧ pipeFrames file = pipeFrames s.file

theorem dupFd_spec {s1 : State} (h : Dupped s np s1) :
    wp (dupFd p np fd) (fun _ => Dupped s np) AnyStop s1 := by
  obtain ⟨file, of, rfl, hfiles, hframes⟩ := h
  unfold dupFd
  rw [wp_bind, wp_get]
  cases (set s.proc np { s.proc np with ofile := of } p).ofile fd with
  | none => exact ⟨file, of, rfl, hfiles, hframes⟩
  | some i =>
    unfold filedup
    simp only [wp_bind, wp_get, wp_ite, wp_throw, wp_updFile, wp_updProc]
    by_cases href : (file i).ref < 1
    · rw [if_pos href]
      trivial
    · rw [if_neg href]
      obtain ⟨hfiles', hframes'⟩ := hfiles.setRef (i := i) (n := (file i).ref + 1) (by omega)
      refine ⟨_, Function.update of fd (some i), ?_, hfiles', hframes'.trans hframes⟩
      simp only [set_set, set_self]

theorem dupFds_spec (h : FileInv s.file s.pipe) :
    wp (forEach (List.finRange NOFILE) (dupFd p np)) (fun _ => Dupped s np) AnyStop s := by
  refine wp_forEach (fun fd _ _ ht => dupFd_spec ht) ⟨s.file, (s.proc np).ofile, ?_, h, rfl⟩
  have hset : set s.proc np (s.proc np) = s.proc := Function.update_eq_self _ _
  rw [hset]

section
variable (h : Inv A s) (hnp : slotFrames s.mem (s.proc np) = 0) (hkeeps : Keeps s.used s.mem m)
include h hnp hkeeps

theorem Inv.newChild {k d sz : Nat}
    (hspace : Space A m d sz (k ::ₘ s.used)) (hv : Alive v) (hsz : v.sz = sz)
    (hk : v.kstack = some k) (hd : v.pgdir = some d) :
    Inv A { s with mem := m, proc := set s.proc np v } := by
  have hrest : s.used = s.rest np := by rw [used_eq s np, hnp, zero_add]
  rw [hrest] at hkeeps hspace
  refine h.setSlot hkeeps ?_ (fun _ => ⟨d, hd, hsz ▸ local_of_space hspace⟩)
    fun hc => absurd hc hv.1
  have hframes : slotFrames m v = k ::ₘ m.own d := by
    unfold slotFrames stackOf
    rw [hk, spaceOf_alive hv hd, singleton_add]
  have huses := hspace.dir.uses
  rwa [hframes, cons_add, ← add_cons]

theorem Inv.noChild (huses : Uses A m s.used) (hv : v.state = .unused)
    (hk : v.kstack = none) : Inv A { s with mem := m, proc := set s.proc np v } := by
  have hrest : s.used = s.rest np := by rw [used_eq s np, hnp, zero_add]
  rw [hrest] at hkeeps huses
  refine h.setSlot hkeeps ?_ (fun hc => absurd hv hc.1) fun _ => hk
  have hframes : slotFrames m v = 0 := by
    unfold slotFrames stackOf spaceOf
    rw [hk, if_neg fun hc => hc.1 hv, zero_add]
  rw [hframes, zero_add]
  exact huses

end

theorem slotFrames_unused (h : Inv A s) (hnp : (s.proc np).state = .unused) :
    slotFrames s.mem (s.proc np) = 0 := by
  unfold slotFrames stackOf spaceOf
  rw [h.unused np hnp, if_neg fun hc => hc.1 hnp, zero_add]

theorem fork_spec (h : Inv A s) (hp : (s.proc p).state = .runnable) :
    wp (fork K p) (fun _ s' => Inv A s') AnyStop s := by
  have halive := alive_of_runnable hp
  obtain ⟨D, hD, hspace⟩ := h.toSpace halive
  have hused : s.mem.own D + (stackOf (s.proc p) + s.rest p) = s.used := by
    rw [used_eq s p, slotFrames, spaceOf_alive halive hD, add_assoc, add_left_comm]
  unfold fork
  rw [wp_bind, wp_get]
  cases halloc : allocproc s.proc s.nextpid with
  | none => exact h
  | some r =>
    obtain ⟨np, t, n⟩ := r
    obtain ⟨_, rfl, rfl⟩ := allocproc_eq_some.mp halloc
    have hunused := allocproc_unused halloc
    have hnp := slotFrames_unused h hunused
    have hne : p ≠ np := by
      rintro rfl
      rw [hp] at hunused
      cases hunused
    simp only [wp_bind, wp_modify, wp_onMem]
    refine wp_kalloc ?_ ?_
    · intro _
      simp only [wp_bind, wp_updProc, wp_pure, set_set]
      exact (h.noChild (m := { s.mem with oom := s.mem.oom + 1 }) hnp (fun _ _ => rfl) h.uses
        rfl rfl).of_eq rfl rfl rfl rfl rfl rfl
    intro k l hfree
    simp only [wp_bind, wp_updProc, set_set]
    rw [wp_pgdirOf (by simp only [set_of_ne _ _ hne]; exact hD), wp_onMem]
    have hown : ({ s.mem with free := l } : Mem).own D = s.mem.own D :=
      (Keeps.view (m := s.mem) fun _ _ => rfl).2.2
    have htaken : Uses A { s.mem with free := l } (k ::ₘ s.used) := h.uses.alloc hfree rfl
    have hsum : s.mem.own D + k ::ₘ (stackOf (s.proc p) + s.rest p) = k ::ₘ s.used := by
      rw [add_cons, hused]
    have hparent : Space A { s.mem with free := l } D (s.proc p).sz
        (k ::ₘ (stackOf (s.proc p) + s.rest p)) := by
      refine hspace.congr (fun _ _ => rfl) ?_
      rw [hsum]
      exact htaken
    refine wp_mono (copyuvm_spec hparent) ?_ fun _ _ he => he.elim
    rintro r m' (⟨d, rfl, hchild, hkeeps, _⟩ | ⟨rfl, huses, hkeeps, _⟩)
    · rw [hown, hsum] at hchild hkeeps
      have hkeeps' : Keeps s.used s.mem m' :=
        fun f hf => hkeeps f (mem_cons_of_mem hf)
      simp only [wp_bind, wp_updProc, set_set]
      refine wp_post (dupFds_spec h.files) ?_
      rintro _ _ ⟨file, of, rfl, hfiles, hframes⟩
      simp only [wp_pure, set_set, set_self]
      refine ((h.newChild hnp hkeeps' hchild ?_ ?_ ?_ ?_).setFile
        ⟨hfiles, hframes⟩).of_eq rfl rfl rfl rfl rfl rfl
      · exact alive_of_runnable rfl
      · rfl
      · rfl
      · rfl
    rw [hown, hsum] at huses hkeeps
    simp only [wp_bind, wp_onMem, wp_updProc, wp_pure, set_set]
    refine wp_kfree (huses.valid (mem_cons_self _ _)) ?_
    refine (h.noChild hnp ?_ (huses.release rfl) ?_ ?_).of_eq rfl rfl rfl rfl rfl rfl
    · exact Keeps.trans (fun f hf => hkeeps f (mem_cons_of_mem hf))
        huses.keeps_freed
    · rfl
    · rfl

end Xv6.Kernel
