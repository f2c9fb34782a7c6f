import Xv6.Kernel.Procs
import Xv6.Vm.Grow

/-!
# Accesses keep the invariant

What an access to user memory finds, what a store changes, and from this that
every step of the machine keeps the invariant.
-/

namespace Xv6.Kernel

open Lib Lib.Prog Ptable Vm

variable {K : Symbols} {s s' s1 s2 : State} {p : Slot} {A : Pool K} {D a f v addr : Nat}
variable {user write : Bool} {m : Mem} {i j : Fin NFILE} {b : UInt8} {l : Label}

/-- The frame of an address has been found, after a page fault if need be. -/
structure Found (A : Pool K) (s : State) (p : Slot) (D a f : Nat) (user : Bool) (s' : State) :
    Prop where
  state : s' = { s with mem := s'.mem }
  space : Space A s'.mem D (s.proc p).sz (stackOf (s.proc p) + s.rest p)
  same : Same s.mem s'.mem D
  keeps : Keeps (stackOf (s.proc p) + s.rest p) s.mem s'.mem
  page : a / 4096 < userPages
  frame : s'.mem.frameAt D (a / 4096) = some f
  free : user = true → s'.mem.guarded D (a / 4096) = false

def Barred (s : State) (p : Slot) (D a : Nat) (s' : State) : Prop :=
  a < 4096 ∨ (s.proc p).sz ≤ a ∨ s.mem.guarded D (a / 4096) = true ∨ s.mem.oom < s'.mem.oom

theorem Barred.congr (h : Barred s p D a s1) (hoom : SameOom s1 s2) : Barred s p D a s2 := by
  unfold SameOom at hoom
  unfold Barred at h ⊢
  rwa [hoom]

theorem present_of_guarded (h : m.guarded D v = true) : flag (m.pte D v) PTE_P = true := by
  simp only [Mem.guarded, Bool.and_eq_true] at h
  exact h.1

theorem guarded_of_three (hP : flag (m.pte D v) PTE_P = true)
    (h : PTE_FLAGS (m.pte D v) = 3) : m.guarded D v = true := by
  have hU : flag (m.pte D v) PTE_U = false := by
    have hbit := Nat.testBit_mod_two_pow (m.pte D v) 12 2
    rw [show m.pte D v % 2 ^ 12 = 3 from h, show (3 : Nat).testBit 2 = false from rfl] at hbit
    rw [flag_U]
    simpa using hbit.symm
  simp [Mem.guarded, hP, hU]

theorem guarded_of_untranslated {sz : Nat} {R : Multiset Nat} (h : Space A m D sz R)
    (ha : a < sz) (hnone : m.translate D user write a = none)
    (hP : flag (m.pte D (a / 4096)) PTE_P = true) : m.guarded D (a / 4096) = true := by
  have hsize := h.size
  unfold KERNBASE at hsize
  have hu : a / 4096 < userPages := by
    unfold userPages
    omega
  rcases h.rights _ hu hP with h7 | h3
  · rw [h.translate (by omega) h7] at hnone
    cases hnone
  · exact guarded_of_three hP h3

theorem guarded_of_user (h : flag (m.pte D v) PTE_U = true) : m.guarded D v = false := by
  simp [Mem.guarded, h]

theorem found_of_translate
    (hspace : Space A m D (s.proc p).sz (stackOf (s.proc p) + s.rest p)) (hsame : Same s.mem m D)
    (hkeeps : Keeps (stackOf (s.proc p) + s.rest p) s.mem m) (ha : a < 2 ^ 32)
    (hkern : user = true ∨ a < (s.proc p).sz) (h : m.translate D user write a = some f) :
    Found A s p D a f user { s with mem := m } := by
  obtain ⟨hframe, huser⟩ := translate_some ha h
  refine ⟨rfl, hspace, hsame, hkeeps, ?_, hframe, fun hc => guarded_of_user (huser hc)⟩
  rcases hkern with hc | hlt
  · by_contra hge
    have hU := hspace.kernel (a / 4096) (by omega)
    rw [huser hc] at hU
    cases hU
  · have hsize := hspace.size
    unfold KERNBASE at hsize
    unfold userPages
    omega

section
variable (h : Inv A s) (hp : (s.proc p).state = .runnable) (hD : (s.proc p).pgdir = some D)
include h hp hD

theorem access_spec (ha : a < 2 ^ 32) (hkern : user = true ∨ a < (s.proc p).sz) :
    wp (access K p user write a)
      (fun r s' => match r with
        | some f => Found A s p D a f user s'
        | none => user = true ∧ Inv A s' ∧ Barred s p D a s')
      (fun _ s' => Barred s p D a s') s := by
  have halive := alive_of_runnable hp
  have hspace := h.spaceAt halive hD
  unfold access
  rw [wp_bind, wp_pgdirOf hD, wp_bind, wp_get]
  cases htr : s.mem.translate D user write a with
  | some f => exact found_of_translate hspace (Same.refl _ _) (Keeps.refl _ _) ha hkern htr
  | none =>
    simp only [wp_bind, wp_onMem]
    refine wp_mono (handleLazyAllocation_spec hspace) ?_ ?_
    · rintro r m (⟨rfl, hm, _⟩ | ⟨rfl, hm, _⟩)
      · -- the page is there now, so the access is tried again and succeeds
        have hagain : m.translate D user write a = some _ := hm.space.translate ha hm.flags
        rw [wp_ite, if_pos rfl, wp_bind, wp_get]
        simp only [hagain]
        exact found_of_translate hm.space hm.same hm.keeps ha hkern hagain
      have hbarred : Barred s p D a { s with mem := m } := by
        rcases hm.cause with hlow | hhigh | hoom
        · exact .inl hlow
        · exact .inr (.inl hhigh)
        · exact .inr (.inr (.inr hoom.1))
      have hinv : Inv A { s with mem := m } := h.setMem halive hD hm.keeps hm.space
      rw [wp_ite, if_neg (by decide)]
      cases user with
      | false =>
        rw [wp_ite, if_neg (by decide)]
        exact hbarred
      | true =>
        rw [wp_ite, if_pos rfl, wp_bind, wp_updProc, wp_bind]
        have hkilled : Inv A { s with
            mem := m
            proc := set s.proc p { s.proc p with killed := true } } :=
          hinv.setTable (sameFrames_set ⟨rfl, rfl, rfl, Iff.rfl, fun hu => hu⟩)
        have hstate : (set s.proc p { s.proc p with killed := true } p).state =
            .runnable := by
          rw [set_self]
          exact hp
        refine wp_mono (exit_ends hkilled hstate) ?_ fun _ _ he => hbarred.congr he.2
        rintro _ s1 ⟨hinv1, _, hoom1⟩
        exact ⟨rfl, hinv1, hbarred.congr hoom1⟩
    · rintro _ m ⟨_, _, hhigh, _, hP⟩
      exact .inr (.inr (.inl (guarded_of_untranslated hspace hhigh htr hP)))

theorem Found.inv (hfound : Found A s p D a f user s') : Inv A s' := by
  rw [hfound.state]
  exact h.setMem (alive_of_runnable hp) hD hfound.keeps hfound.space

theorem load_spec (ha : a < 2 ^ 32) (hkern : user = true ∨ a < (s.proc p).sz) :
    wp (load K p user a)
      (fun r s' => match r with
        | some b => (∃ f, Found A s p D a f user s') ∧
            b = getByte (s.mem.content D (a / 4096)) (a % 4096)
        | none => user = true ∧ Inv A s' ∧ Barred s p D a s')
      (fun _ s' => Barred s p D a s') s := by
  unfold load
  refine wp_seq (access_spec h hp hD ha hkern) ?_
  intro r s' hr
  cases r with
  | none => exact hr
  | some f =>
    have hfound : Found A s p D a f user s' := hr
    rw [wp_bind, wp_get]
    refine ⟨⟨f, hfound⟩, ?_⟩
    rw [← (hfound.same _ hfound.page).1, content_of_frame hfound.frame]
    rfl

end

structure Stored (A : Pool K) (s : State) (p : Slot) (D a : Nat) (b : UInt8) (s' : State) :
    Prop where
  state : s' = { s with mem := s'.mem }
  space : Space A s'.mem D (s.proc p).sz (stackOf (s.proc p) + s.rest p)
  keeps : Keeps (stackOf (s.proc p) + s.rest p) s.mem s'.mem
  content : ∀ u < userPages, s'.mem.content D u = if u = a / 4096 then
      fun j => if j.val = a % 4096 then b else s.mem.content D u j
    else s.mem.content D u
  guarded : ∀ u < userPages, s'.mem.guarded D u = s.mem.guarded D u

theorem Stored.inv (h : Inv A s) (hp : (s.proc p).state = .runnable)
    (hD : (s.proc p).pgdir = some D) (hstored : Stored A s p D a b s') : Inv A s' := by
  rw [hstored.state]
  exact h.setMem (alive_of_runnable hp) hD hstored.keeps hstored.space

theorem Found.store (b : UInt8) (h : Found A s p D a f user s') :
    Stored A s p D a b { s' with mem := setByteAt s'.mem f a b } := by
  have hpage := content_of_frame h.frame
  obtain ⟨hspace, hkeeps, hpte, hcontent⟩ := h.space.setUser
    (fun j => if j.val = a % 4096 then b else s'.mem.page f j) h.page h.frame
  refine ⟨?_, hspace, h.keeps.trans hkeeps, ?_, ?_⟩
  · rw [h.state]
  · intro u hu
    refine (hcontent u hu).trans ?_
    by_cases hua : u = a / 4096
    · rw [if_pos hua, if_pos hua, ← (h.same u hu).1, hua, hpage]
    · rw [if_neg hua, if_neg hua, (h.same u hu).1]
  · intro u hu
    exact (guarded_congr (congrFun hpte u)).trans (h.same u hu).2

theorem store_spec (h : Inv A s) (hp : (s.proc p).state = .runnable)
    (hD : (s.proc p).pgdir = some D) (ha : a < 2 ^ 32) (hkern : user = true ∨ a < (s.proc p).sz) :
    wp (store K p user a b)
      (fun r s' => match r with
        | true => Stored A s p D a b s'
        | false => user = true ∧ Inv A s' ∧ Barred s p D a s')
      (fun _ s' => Barred s p D a s') s := by
  unfold store
  refine wp_seq (access_spec h hp hD ha hkern) ?_
  intro r s' hr
  cases r with
  | none => exact hr
  | some f =>
    have hfound : Found A s p D a f user s' := hr
    rw [wp_bind, wp_modify]
    exact hfound.store b

theorem store_kernel_spec (h : Inv A s) (hp : (s.proc p).state = .runnable)
    (ha : a < (s.proc p).sz) :
    wp (store K p false a b) (fun _ s' => Inv A s' ∧ s'.proc = s.proc) AnyStop s := by
  obtain ⟨D, hD, hspace⟩ := h.toSpace (alive_of_runnable hp)
  have hsize := hspace.size
  unfold KERNBASE at hsize
  refine wp_mono (store_spec h hp hD (by omega) (.inr ha)) ?_ fun _ _ _ => trivial
  intro r s' hr
  cases r with
  | false => exact absurd hr.1 (by decide)
  | true =>
    have hstored : Stored A s p D a b s' := hr
    refine ⟨hstored.inv h hp hD, ?_⟩
    rw [hstored.state]

theorem OnlyFds.sz {t t' : Table} (h : OnlyFds p t t') (q : Slot) : (t' q).sz = (t q).sz := by
  obtain ⟨of, rfl⟩ := h
  by_cases hq : q = p
  · subst hq
    rw [set_self]
  · rw [set_of_ne _ _ hq]

section
variable (h : Inv A s)
include h

theorem storeBytes_spec {l : List UInt8}
    (hp : (s.proc p).state = .runnable) (hl : addr + l.length ≤ (s.proc p).sz) :
    wp (forEach (l.zipIdx addr) fun x => do
      let _ ← store K p false x.2 x.1
      pure ()) (fun _ s' => Inv A s') AnyStop s := by
  have hloop : wp (forEach (l.zipIdx addr) fun x => do
      let _ ← store K p false x.2 x.1
      pure ()) (fun _ s' => Inv A s' ∧ s'.proc = s.proc) AnyStop s := by
    refine wp_forEach ?_ ⟨h, rfl⟩
    rintro ⟨b, i⟩ hx s1 ⟨h1, hproc⟩
    obtain ⟨_, hi, _⟩ := List.mem_zipIdx hx
    refine wp_seq (store_kernel_spec h1 (by rw [hproc]; exact hp) (by rw [hproc]; omega)) ?_
    rintro _ s2 ⟨h2, hproc2⟩
    exact ⟨h2, hproc2.trans hproc⟩
  exact wp_post hloop fun _ _ h1 => h1.1

theorem closeBoth_spec :
    wp (do
      fileclose K i
      fileclose K j
      pure (-1 : Int)) (fun _ s' => Inv A s') AnyStop s := by
  refine wp_seq (fileclose_spec h) ?_
  rintro _ s1 ⟨h1, _⟩
  exact wp_seq (fileclose_spec h1) fun _ _ h2 => h2.1

theorem pipe_spec (hp : (s.proc p).state = .runnable) :
    wp (pipe K p addr) (fun _ s' => Inv A s') AnyStop s := by
  unfold pipe
  rw [wp_bind, wp_get, wp_ite]
  by_cases hbound : (s.proc p).sz ≤ addr ∨ (s.proc p).sz < addr + 8
  · rw [if_pos hbound]
    exact h
  rw [if_neg hbound]
  refine wp_seq (pipealloc_spec h) ?_
  rintro r s1 ⟨h1, hproc1⟩
  cases r with
  | none => exact h1
  | some r =>
    obtain ⟨rf, wf⟩ := r
    simp only [wp_bind]
    refine wp_post (fdalloc_spec h1) ?_
    rintro r s2 ⟨h2, hfds2⟩
    cases r with
    | none => exact closeBoth_spec h2
    | some fd0 =>
      simp only [wp_bind]
      refine wp_post (fdalloc_spec h2) ?_
      rintro r s3 ⟨h3, hfds3⟩
      have hfds : OnlyFds p s.proc s3.proc := by
        rw [← hproc1]
        exact hfds2.trans hfds3
      cases r with
      | none =>
        refine wp_seq (clearFd_spec h3) ?_
        rintro _ s4 ⟨h4, _⟩
        exact closeBoth_spec h4
      | some fd1 =>
        rw [wp_bind]
        refine storeBytes_spec h3 ((hfds.state p).trans hp) ?_
        rw [hfds.sz p]
        simp only [wordBytes, List.length_append, List.length_cons, List.length_nil]
        omega

theorem load_inv (hp : (s.proc p).state = .runnable)
    (ha : a < 2 ^ 32) (hkern : user = true ∨ a < (s.proc p).sz) :
    wp (load K p user a) (fun _ s' => Inv A s') AnyStop s := by
  obtain ⟨D, hD, _⟩ := h.toSpace (alive_of_runnable hp)
  refine wp_mono (load_spec h hp hD ha hkern) ?_ fun _ _ _ => trivial
  intro r s' hr
  cases r with
  | none => exact hr.2.1
  | some b =>
    obtain ⟨⟨f, hfound⟩, _⟩ := hr
    exact hfound.inv h hp hD

theorem store_inv (hp : (s.proc p).state = .runnable) (ha : a < 2 ^ 32)
    (hkern : user = true ∨ a < (s.proc p).sz) :
    wp (store K p user a b) (fun _ s' => Inv A s') AnyStop s := by
  obtain ⟨D, hD, _⟩ := h.toSpace (alive_of_runnable hp)
  refine wp_mono (store_spec h hp hD ha hkern) ?_ fun _ _ _ => trivial
  intro r s' hr
  cases r with
  | false => exact hr.2.1
  | true => exact Stored.inv h hp hD hr

end

theorem addr32_lt (a : Nat) : addr32 a < 2 ^ 32 :=
  Nat.mod_lt _ (by decide)

theorem runCall_spec (c : Call) (h : Inv A s) (hp : (s.proc p).state = .runnable) :
    wp (runCall K p c) (fun _ s' => Inv A s') AnyStop s := by
  cases c with
  | fork => exact (wp_bind _ _).mpr (fork_spec h hp)
  | exec ip argv => exact (wp_bind _ _).mpr (execFile_spec h hp)
  | sbrk n => exact (wp_bind _ _).mpr (sbrk_spec h hp)
  | exit => exact (wp_bind _ _).mpr (exit_spec h hp)
  | wait => exact (wp_bind _ _).mpr (wait_spec h)
  | pipe addr => exact (wp_bind _ _).mpr (pipe_spec h hp)
  | dup fd => exact (wp_bind _ _).mpr (dup_spec h)
  | close fd => exact (wp_bind _ _).mpr (close_spec h)
  | openInode readable writable => exact (wp_bind _ _).mpr (openInode_spec h)
  | load a => exact (wp_bind _ _).mpr (load_inv h hp (addr32_lt a) (.inl rfl))
  | store a b => exact (wp_bind _ _).mpr (store_inv h hp (addr32_lt a) (.inl rfl))
  | copyIn a =>
    unfold runCall
    rw [wp_bind, wp_get, wp_ite]
    split
    · exact h
    · rename_i hsz
      exact (wp_bind _ _).mpr (load_inv h hp (addr32_lt a) (.inr (by omega)))
  | copyOut a b =>
    unfold runCall
    rw [wp_bind, wp_get, wp_ite]
    split
    · exact h
    · rename_i hsz
      exact (wp_bind _ _).mpr (store_inv h hp (addr32_lt a) (.inr (by omega)))

theorem step_eq_some :
    step K s l = some s' ↔
      (s.proc l.proc).state = .runnable ∧ ∃ r, runCall K l.proc l.call s = (.ok r, s') := by
  unfold step
  by_cases hp : (s.proc l.proc).state = .runnable
  · rw [if_pos hp]
    rcases hcall : runCall K l.proc l.call s with ⟨r | r, t⟩
    · simp
    · simp [hp]
  · simp [hp]

theorem Inv.step (h : Inv A s) (hstep : step K s l = some s') : Inv A s' := by
  obtain ⟨hp, r, hcall⟩ := step_eq_some.mp hstep
  have hspec := runCall_spec (K := K) l.call h hp
  exact wp_ok (Q := fun _ s' => Inv A s') hspec hcall

end Xv6.Kernel
