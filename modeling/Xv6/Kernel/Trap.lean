import Xv6.Kernel.Sbrk

/-!
# Page faults in `trap`

`trap` for T_PGFLT: `handle_lazy_allocation` is tried, and a process whose fault it does not
resolve is marked as killed.  A process that was interrupted in user mode then exits.  Code of
the kernel that touches user memory is let run on until it comes back from the system call;
but it never does, since the instruction that faulted is tried again, on the same missing page.
Code that holds `cons.lock` (`consoleread`, `consolewrite`) does not get so far: `trap` prints,
and the `acquire` in `cprintf` panics.
-/

namespace Xv6.Kernel

open Lib Lib.Prog Ptable Vm

variable {K : Symbols} {A : Pool K} {s s₀ : State} {p : Slot} {D : Frame} {user : Bool}
variable {initcode : List UInt8} {ncpu fa k : Nat}

/-- How `trap` ends. -/
inductive Outcome where
  /-- the interrupted instruction is tried again -/
  | resumed
  | exited
deriving DecidableEq, Repr

/--
The end of `trap`: a process that has been killed exits if it was in user mode.  The source
checks twice, but between the two checks nothing happens after a page fault.
-/
def forceExit (K : Symbols) (p : Slot) (user : Bool) : KM Outcome := do
  let s ← get
  if (s.proc p).killed = true ∧ user = true then do
    exit K p
    pure .exited
  else pure .resumed

/-- `cprintf`, as far as it can fail; `held` says that this CPU holds `cons.lock`. -/
def cprintf (held : Bool) : KM Unit :=
  if held = true then throw .acquire else pure ()

/--
`trap` for T_PGFLT at an address, in a process that runs; `user` says that `tf->cs & 3` is
DPL_USER.  `handle_lazy_allocation` prints one line on each way out.
-/
def trapPageFault (K : Symbols) (p : Slot) (user held : Bool) (faultaddr : Nat) : KM Outcome := do
  let D ← pgdirOf p
  let s ← get
  let r ← onMem (handleLazyAllocation K D (s.proc p).sz faultaddr)
  cprintf held
  if r = 0 then forceExit K p user
  else do
    cprintf held
    updProc p fun v => { v with killed := true }
    forceExit K p user

def Panics (e : Stop) : Prop :=
  e = .remap ∨ e = .fileclose ∨ e = .kfree ∨ e = .initExiting ∨ e = .acquire

/--
What is to be true after `trap`: the page is there if the instruction is tried again, and
otherwise the process has exited or the kernel has panicked.
-/
def Settled (p : Slot) (D : Frame) (fa : Nat) : Except Stop Outcome × State → Prop
  | (.ok .resumed, s) => flag (s.mem.pte D (fa / 4096)) PTE_P = true
  | (.ok .exited, s) => (s.proc p).state = .zombie
  | (.error e, _) => Panics e

/-- The `killed` field is written, which any process may do with `kill`. -/
def setKilled (s : State) (p : Slot) (killed : Bool) : State :=
  { s with proc := set s.proc p { s.proc p with killed := killed } }

theorem exit_panics (h : Inv A s) (hp : (s.proc p).state = .runnable) :
    wp (exit K p) (fun _ s' => (s'.proc p).state = .zombie) (fun e _ => Panics e) s := by
  refine wp_mono (exit_ends h hp) (fun _ _ h1 => h1.2.1) ?_
  rintro e _ ⟨rfl | rfl, _⟩
  · exact .inr (.inl rfl)
  · exact .inr (.inr (.inr (.inl rfl)))

theorem cprintf_free {Q : Unit → State → Prop} {E : Stop → State → Prop} :
    wp (cprintf false) Q E s ↔ Q () s :=
  Iff.rfl

theorem setKilled_proc (s : State) (p : Slot) (k : Bool) :
    (setKilled s p k).proc p = { s.proc p with killed := k } := by
  unfold setKilled
  simp only [set_self]

theorem Inv.setKilled (h : Inv A s) (k : Bool) : Inv A (setKilled s p k) :=
  h.setTable (sameFrames_set ⟨rfl, rfl, rfl, Iff.rfl, fun hu => hu⟩)

structure Trapped (A : Pool K) (s : State) (p : Slot) (D : Frame) (fa : Nat) (user : Bool)
    (o : Outcome) (s' : State) : Prop where
  exited : o = .exited → user = true ∧ (s'.proc p).state = .zombie
  resumed : o = .resumed → Served s.mem D (s.proc p).sz fa s'.mem ∧ s'.proc = s.proc ∨
      user = false ∧ Unserved s.mem D (s.proc p).sz fa s'.mem ∧
        Inv A s' ∧ s'.proc = set s.proc p { s.proc p with killed := true }

section
variable (h : Inv A s) (hp : (s.proc p).state = .runnable) (hD : (s.proc p).pgdir = some D)
include h hp hD

theorem trapPageFault_spec (user : Bool) (fa : Nat) :
    wp (trapPageFault K p user false fa) (Trapped A s p D fa user)
      (fun e _ => Panics e ∧ (user = true ∨ flag (s.mem.pte D (fa / 4096)) PTE_P = true)) s := by
  have halive := alive_of_runnable hp
  have hspace := h.spaceAt halive hD
  unfold trapPageFault
  rw [wp_bind, wp_pgdirOf hD, wp_bind, wp_get, wp_bind, wp_onMem]
  refine wp_mono (handleLazyAllocation_spec hspace) ?_ ?_
  · rintro r m (⟨rfl, hres, hserved⟩ | ⟨rfl, href, hunserved⟩)
    · have hinv : Inv A { s with mem := m } := h.setMem halive hD hres.keeps hres.space
      rw [wp_bind, cprintf_free, wp_ite, if_pos rfl]
      unfold forceExit
      rw [wp_bind, wp_get, wp_ite]
      by_cases hexit : (s.proc p).killed = true ∧ user = true
      · rw [if_pos hexit, wp_bind]
        refine wp_mono (exit_panics hinv hp) ?_ fun _ _ he => ⟨he, .inl hexit.2⟩
        intro _ s1 hzombie
        exact ⟨fun _ => ⟨hexit.2, hzombie⟩, nofun⟩
      · rw [if_neg hexit]
        exact ⟨nofun, fun _ => .inl ⟨hserved, rfl⟩⟩
    have hinv : Inv A (setKilled { s with mem := m } p true) :=
      (h.setMem halive hD href.keeps href.space).setKilled true
    rw [wp_bind, cprintf_free, wp_ite, if_neg (by decide), wp_bind, cprintf_free, wp_bind,
      wp_updProc]
    unfold forceExit
    rw [wp_bind, wp_get, wp_ite]
    simp only [set_self, true_and]
    cases user with
    | true =>
      rw [if_pos rfl, wp_bind]
      refine wp_mono (exit_panics hinv (by simpa only [set_self] using hp)) ?_ fun _ _ he =>
        ⟨he, .inl rfl⟩
      intro _ s1 hzombie
      exact ⟨fun _ => ⟨rfl, hzombie⟩, nofun⟩
    | false =>
      rw [if_neg (by decide)]
      exact ⟨nofun, fun _ => .inr ⟨rfl, hunserved, hinv, rfl⟩⟩
  · rintro e m ⟨rfl, _, _, _, hP⟩
    exact ⟨.inl rfl, .inr hP⟩

theorem trapPageFault_held (user : Bool) (fa : Nat) :
    wp (trapPageFault K p user true fa) (fun _ _ => False) (fun e _ => Panics e) s := by
  have hspace := h.spaceAt (alive_of_runnable hp) hD
  unfold trapPageFault
  rw [wp_bind, wp_pgdirOf hD, wp_bind, wp_get, wp_bind, wp_onMem]
  refine wp_mono (handleLazyAllocation_spec hspace) ?_ ?_
  · intro _ m _
    exact .inr (.inr (.inr (.inr rfl)))
  · rintro e m ⟨rfl, _⟩
    exact .inl rfl

theorem settled_iff (user : Bool) (fa : Nat) :
    Settled p D fa (trapPageFault K p user false fa s) ↔
      user = true ∨ flag (s.mem.pte D (fa / 4096)) PTE_P = true ∨
        4096 ≤ fa ∧ fa < (s.proc p).sz ∧ lazyFrames s.mem D fa ≤ s.mem.free.length := by
  have hspec : wp (trapPageFault K p user false fa) _ _ s := trapPageFault_spec h hp hD user fa
  unfold wp at hspec
  rcases hrun : trapPageFault K p user false fa s with ⟨e | o, s'⟩
  · rw [hrun] at hspec
    obtain ⟨hpanic, hcause⟩ := hspec
    refine iff_of_true hpanic ?_
    rcases hcause with huser | hP
    · exact .inl huser
    · exact .inr (.inl hP)
  rw [hrun] at hspec
  have htrapped : Trapped A s p D fa user o s' := hspec
  cases o with
  | exited =>
    obtain ⟨huser, hzombie⟩ := htrapped.exited rfl
    exact iff_of_true hzombie (.inl huser)
  | resumed =>
    rcases htrapped.resumed rfl with ⟨hserved, _⟩ | ⟨rfl, hunserved, _⟩
    · have hfree := hserved.free
      exact iff_of_true hserved.self
        (.inr (.inr ⟨hserved.low, hserved.high, by omega⟩))
    have hcause := hunserved.cause
    show flag (s'.mem.pte D (fa / 4096)) PTE_P = true ↔ _
    rw [hunserved.pte]
    constructor
    · intro hP
      exact .inr (.inl hP)
    · rintro (hc | hP | ⟨hlow, hhigh, hfree⟩)
      · cases hc
      · exact hP
      · omega

end

/--
An instruction of the kernel that touches user memory, without `cons.lock`, is tried again and
again while its page is missing; `none` if the page is there after less than `n` faults.
-/
def retry (K : Symbols) (p : Slot) (D : Frame) (fa : Nat) : Nat → State → Option State
  | 0, s => some s
  | n + 1, s =>
    if flag (s.mem.pte D (fa / 4096)) PTE_P then none
    else
      match trapPageFault K p false false fa s with
      | (.ok .resumed, s') => retry K p D fa n s'
      | _ => none

structure Stuck (A : Pool K) (s : State) (p : Slot) (D : Frame) (fa : Nat) : Prop where
  inv : Inv A s
  state : (s.proc p).state = .runnable
  pgdir : (s.proc p).pgdir = some D
  missing : flag (s.mem.pte D (fa / 4096)) PTE_P = false
  cause : fa < 4096 ∨ (s.proc p).sz ≤ fa ∨ s.mem.free.length < lazyFrames s.mem D fa

theorem Stuck.next (h : Stuck A s p D fa) :
    ∃ s', trapPageFault K p false false fa s = (.ok .resumed, s') ∧ Stuck A s' p D fa := by
  obtain ⟨o, s', hrun, htrapped⟩ :=
    exists_ok (trapPageFault_spec h.inv h.state h.pgdir false fa) (by
      rintro _ _ ⟨_, hc | hP⟩
      · cases hc
      · rw [h.missing] at hP
        cases hP)
  cases o with
  | exited => cases (htrapped.exited rfl).1
  | resumed =>
    refine ⟨s', hrun, ?_⟩
    rcases htrapped.resumed rfl with ⟨hserved, _⟩ | ⟨_, hunserved, hinv, hproc⟩
    · have hcause := h.cause
      have hlow := hserved.low
      have hhigh := hserved.high
      have hfree := hserved.free
      omega
    have hp : s'.proc p = { s.proc p with killed := true } := by rw [hproc, set_self]
    have hframes : lazyFrames s'.mem D fa = lazyFrames s.mem D fa := by
      unfold lazyFrames tableFrames
      rw [hunserved.table]
    refine ⟨hinv, ?_, ?_, ?_, ?_⟩
    · rw [hp]
      exact h.state
    · rw [hp]
      exact h.pgdir
    · rw [hunserved.pte]
      exact h.missing
    · rw [hp, hframes, hunserved.free]
      exact h.cause

theorem Stuck.forever (h : Stuck A s p D fa) (n : Nat) : (retry K p D fa n s).isSome = true := by
  induction n generalizing s with
  | zero => rfl
  | succ n ih =>
    obtain ⟨s', hrun, hnext⟩ := h.next
    unfold retry
    rw [if_neg (by rw [h.missing]; decide), hrun]
    exact ih hnext

theorem Inv.free_le (h : Inv A s) : s.mem.free.length ≤ physFrames := by
  have hnodup : s.mem.free.Nodup := Multiset.coe_nodup.mp (Multiset.nodup_add.mp h.uses.nodup).1
  have hsub : s.mem.free ⊆ List.range physFrames := by
    intro f hf
    have hvalid := (h.uses.valid_of_free hf).2
    unfold PHYSTOP at hvalid
    rw [List.mem_range]
    unfold physFrames
    omega
  have hle := (List.subperm_of_subset hnodup hsub).length_le
  rwa [List.length_range] at hle

theorem step_load_missing (fa : Nat) (h : Inv A s) (hp : (s.proc p).state = .runnable)
    (hD : (s.proc p).pgdir = some D) (hlow : 4096 ≤ fa) (hhigh : fa < (s.proc p).sz)
    (hmissing : flag (s.mem.pte D (fa / 4096)) PTE_P = false)
    (hfree : lazyFrames s.mem D fa ≤ s.mem.free.length) :
    ∃ s', Kernel.step K s ⟨p, .load fa⟩ = some s' ∧ s'.proc = s.proc ∧
      Served s.mem D (s.proc p).sz fa s'.mem := by
  have hspace := h.spaceAt (alive_of_runnable hp) hD
  have hsize := hspace.size
  have hfa : fa < 2 ^ 32 := by
    unfold KERNBASE at hsize
    omega
  have hnone : s.mem.translate D true false fa = none := by
    cases htr : s.mem.translate D true false fa with
    | none => rfl
    | some f =>
      have hframe := (translate_some hfa htr).1
      rw [frameAt_eq, entryFrame_of_flag hmissing] at hframe
      cases hframe
  have hload : wp (load K p true fa)
      (fun _ s' => s'.proc = s.proc ∧ Served s.mem D (s.proc p).sz fa s'.mem)
      (fun _ _ => False) s := by
    unfold load access
    rw [wp_bind, wp_bind, wp_pgdirOf hD, wp_bind, wp_get, hnone]
    simp only [wp_bind, wp_onMem]
    refine wp_mono (handleLazyAllocation_spec hspace) ?_ ?_
    · rintro r m (⟨rfl, hres, hserved⟩ | ⟨rfl, _, hunserved⟩)
      · have hagain : m.translate D true false fa = some _ := hres.space.translate hfa hres.flags
        rw [wp_ite, if_pos rfl, wp_bind, wp_get]
        simp only [hagain]
        exact ⟨rfl, hserved⟩
      · have hcause := hunserved.cause
        omega
    · rintro e m ⟨_, _, _, _, hP⟩
      rw [hmissing] at hP
      cases hP
  have hcall : wp (runCall K p (.load fa))
      (fun _ s' => s'.proc = s.proc ∧ Served s.mem D (s.proc p).sz fa s'.mem)
      (fun _ _ => False) s := by
    refine (wp_bind _ _).mpr ?_
    rw [show addr32 fa = fa from Nat.mod_eq_of_lt hfa]
    exact hload
  obtain ⟨r, s', hrun, hproc, hserved⟩ := exists_ok hcall fun _ _ hc => hc
  exact ⟨s', step_eq_some.mpr ⟨hp, r, hrun⟩, hproc, hserved⟩

theorem exists_stuck {n : Nat} (hs : Reachable (Kernel.step K) s₀ s) (h : Inv A s)
    (hp : (s.proc p).state = .runnable) (hD : (s.proc p).pgdir = some D) (hk : 0 < k)
    (hmissing : ∀ u, k ≤ u → u < userPages → flag (s.mem.pte D u) PTE_P = false)
    (hfree : s.mem.free.length ≤ n) (hroom : 4096 * (k + n) < (s.proc p).sz) :
    ∃ t fa, Reachable (Kernel.step K) s₀ t ∧ (t.proc p).sz = (s.proc p).sz ∧ 4096 ≤ fa ∧
      fa < (t.proc p).sz ∧ Stuck A t p D fa := by
  have hsize : (s.proc p).sz < KERNBASE := by
    obtain ⟨_, _, hspace⟩ := h.toSpace (alive_of_runnable hp)
    exact hspace.size
  unfold KERNBASE at hsize
  -- the free list gets shorter with every page
  induction n generalizing s k with
  | zero =>
    refine ⟨s, 4096 * k, hs, rfl, by omega, by omega, h, hp, hD, ?_, .inr (.inr ?_)⟩
    · rw [Nat.mul_div_cancel_left k (by omega)]
      exact hmissing k le_rfl (by unfold userPages; omega)
    · unfold lazyFrames
      omega
  | succ n ih =>
    have hdiv : 4096 * k / 4096 = k := Nat.mul_div_cancel_left k (by omega)
    have hself := hmissing k le_rfl (by unfold userPages; omega)
    by_cases hmore : lazyFrames s.mem D (4096 * k) ≤ s.mem.free.length
    · obtain ⟨s', hstep, hproc, hserved⟩ := step_load_missing (K := K) (4096 * k) h hp hD
        (by omega) (by omega) (by rw [hdiv]; exact hself) hmore
      have hcount := hserved.free
      unfold lazyFrames at hcount
      obtain ⟨t, fa, ht, hsz, hfa⟩ := ih (s := s') (k := k + 1) (hs.tail hstep) (h.step hstep)
        (by rw [hproc]; exact hp) (by rw [hproc]; exact hD) (by omega)
        (by
          intro u hu hlt
          rw [hserved.others u (by omega)]
          exact hmissing u (by omega) hlt)
        (by omega) (by rw [hproc]; omega) (by rw [hproc]; omega)
      rw [hproc] at hsz
      exact ⟨t, fa, ht, hsz, hfa⟩
    · refine ⟨s, 4096 * k, hs, rfl, by omega, by omega, h, hp, hD, ?_, .inr (.inr (by omega))⟩
      rw [hdiv]
      exact hself

theorem exists_lazy_heap :
    ∃ s₀ s D, Booted sampleSymbols [] 1 s₀ ∧ Reachable (Kernel.step sampleSymbols) s₀ s ∧
      (s.proc 0).state = .runnable ∧ (s.proc 0).pgdir = some D ∧
      (s.proc 0).sz = 12288 + 2 ^ 29 ∧ 50000 ≤ s.mem.free.length ∧
      ∀ u, 3 ≤ u → u < userPages → flag (s.mem.pte D u) PTE_P = false := by
  obtain ⟨s₀, s, D, hboot, hs, hstate, hD, hsz, _, hfree⟩ := exists_guard_page
  have hspace := (Inv.reachable sampleSymbols_ok hboot hs).spaceAt (alive_of_runnable hstate) hD
  have hsbrk := sbrk_lazy (K := sampleSymbols) (k := 2 ^ 29) hD (by decide)
    (by rw [hsz]; decide)
  have hcall : runCall sampleSymbols 0 (.sbrk (2 ^ 29)) s = _ := bind_ok hsbrk
  have hstep : Kernel.step sampleSymbols s ⟨0, .sbrk (2 ^ 29)⟩ = some _ :=
    step_eq_some.mpr ⟨hstate, _, hcall⟩
  refine ⟨s₀, _, D, hboot, hs.tail hstep, ?_, ?_, ?_, hfree, ?_⟩
  · rw [resized_proc]
    exact hstate
  · rw [resized_proc]
    exact hD
  · rw [resized_proc, hsz]
  · intro u hu hlt
    refine hspace.absent hlt ?_
    rw [hsz]
    exact hu

/-- `handle_lazy_allocation` returns 0 or -1 unless it finds a page that is present. -/
theorem handleLazyAllocation_returns_iff (hK : K.Ok) (hboot : Booted K initcode ncpu s₀)
    (hs : Reachable (Kernel.step K) s₀ s) (hp : Alive (s.proc p)) (hD : (s.proc p).pgdir = some D)
    (fa : Nat) :
    ((∃ r m, handleLazyAllocation K D (s.proc p).sz fa s.mem = (.ok r, m) ∧ (r = 0 ∨ r = -1)) ↔
      ¬(4096 ≤ fa ∧ fa < (s.proc p).sz ∧ s.mem.free ≠ [] ∧
        flag (s.mem.pte D (fa / 4096)) PTE_P = true)) ∧
    ∀ r m, handleLazyAllocation K D (s.proc p).sz fa s.mem = (.ok r, m) →
      flag (s.mem.pte D (fa / 4096)) PTE_P = true → r = -1 := by
  have hspace := (Inv.reachable hK hboot hs).spaceAt hp hD
  have hspec : wp (handleLazyAllocation K D (s.proc p).sz fa) _ _ s.mem :=
    handleLazyAllocation_spec hspace
  unfold wp at hspec
  cases hrun : handleLazyAllocation K D (s.proc p).sz fa s.mem with
  | mk r m =>
    rw [hrun] at hspec
    cases r with
    | error e =>
      obtain ⟨_, hlow, hhigh, hfree, hP⟩ := hspec
      refine ⟨⟨?_, fun hc => absurd ⟨hlow, hhigh, hfree, hP⟩ hc⟩, ?_⟩
      · rintro ⟨r, m', heq, _⟩
        cases heq
      · intro r m' heq
        cases heq
    | ok r =>
      refine ⟨⟨?_, ?_⟩, ?_⟩
      · rintro - ⟨hlow, hhigh, hfree, hP⟩
        rcases hspec with ⟨_, hres, _⟩ | ⟨_, href, _⟩
        · rw [hres.missing] at hP
          cases hP
        · rcases href.cause with hc | hc | ⟨_, hc | ⟨_, hc⟩⟩
          · omega
          · omega
          · exact hfree hc
          · rw [hc] at hP
            cases hP
      · intro _
        refine ⟨r, m, rfl, ?_⟩
        rcases hspec with ⟨hr, _⟩ | ⟨hr, _⟩
        · exact .inl hr
        · exact .inr hr
      · intro r' m' heq hP
        cases heq
        rcases hspec with ⟨_, hres, _⟩ | ⟨hr, _⟩
        · rw [hres.missing] at hP
          cases hP
        · exact hr

/-- A fault in a page of the heap that is missing is answered. -/
theorem handleLazyAllocation_heap_page :
    ∃ s₀ s D, Booted sampleSymbols [] 1 s₀ ∧ Reachable (Kernel.step sampleSymbols) s₀ s ∧
      (s.proc 0).pgdir = some D ∧ 16384 < (s.proc 0).sz ∧ flag (s.mem.pte D 3) PTE_P = false ∧
      ∃ r m, handleLazyAllocation sampleSymbols D (s.proc 0).sz 12288 s.mem = (.ok r, m) ∧
        (r = 0 ∨ r = -1) := by
  obtain ⟨s₀, s, D, hboot, hs, hstate, hD, hsz, _, habsent⟩ := exists_lazy_heap
  have hmissing := habsent 3 le_rfl (by decide)
  refine ⟨s₀, s, D, hboot, hs, hD, by omega, hmissing, ?_⟩
  refine (handleLazyAllocation_returns_iff sampleSymbols_ok hboot hs
    (alive_of_runnable hstate) hD 12288).1.mpr ?_
  rintro ⟨_, _, _, hP⟩
  rw [show 12288 / 4096 = 3 from rfl, hmissing] at hP
  cases hP

/-- An access of the user to its guard page panics the kernel. -/
theorem guard_page_panics :
    ∃ s₀ s D, Booted sampleSymbols [] 1 s₀ ∧ Reachable (Kernel.step sampleSymbols) s₀ s ∧
      (s.proc 0).state = .runnable ∧ (s.proc 0).pgdir = some D ∧ (s.proc 0).sz = 12288 ∧
      s.mem.guarded D 1 = true ∧
      ∃ m, handleLazyAllocation sampleSymbols D (s.proc 0).sz 4096 s.mem = (.error .remap, m) := by
  obtain ⟨s₀, s, D, hboot, hs, hstate, hD, hsz, hguard, hfree⟩ := exists_guard_page
  refine ⟨s₀, s, D, hboot, hs, hstate, hD, hsz, hguard, ?_⟩
  have hspace := (Inv.reachable sampleSymbols_ok hboot hs).spaceAt (alive_of_runnable hstate) hD
  have hP := present_of_guarded hguard
  have hspec : wp (handleLazyAllocation sampleSymbols D (s.proc 0).sz 4096) _ _ s.mem :=
    handleLazyAllocation_spec hspace
  unfold wp at hspec
  cases hrun : handleLazyAllocation sampleSymbols D (s.proc 0).sz 4096 s.mem with
  | mk r m =>
    rw [hrun] at hspec
    cases r with
    | error e => exact ⟨m, by rw [hspec.1]⟩
    | ok r =>
      rcases hspec with ⟨_, hres, _⟩ | ⟨_, href, _⟩
      · rw [hres.missing] at hP
        cases hP
      rcases href.cause with hc | hc | ⟨_, hc | ⟨_, hc⟩⟩
      · omega
      · omega
      · rw [hc] at hfree
        simp at hfree
      · rw [hc] at hP
        cases hP

/--
In every state that the machine reaches, whether or not the process has been killed, a page
fault at any address is settled if and only if it comes from user mode, the CPU holds
`cons.lock`, the page is there, or `handle_lazy_allocation` can provide it.
-/
theorem page_fault_settled_iff (hK : K.Ok) (hboot : Booted K initcode ncpu s₀)
    (hs : Reachable (Kernel.step K) s₀ s) (hp : (s.proc p).state = .runnable)
    (hD : (s.proc p).pgdir = some D) (killed user held : Bool) (fa : Nat) :
    Settled p D fa (trapPageFault K p user held fa (setKilled s p killed)) ↔
      user = true ∨ held = true ∨ flag (s.mem.pte D (fa / 4096)) PTE_P = true ∨
        4096 ≤ fa ∧ fa < (s.proc p).sz ∧ lazyFrames s.mem D fa ≤ s.mem.free.length := by
  have hinv := (Inv.reachable hK hboot hs).setKilled (p := p) killed
  have hproc := setKilled_proc s p killed
  have hp' : ((setKilled s p killed).proc p).state = .runnable := by rw [hproc]; exact hp
  have hD' : ((setKilled s p killed).proc p).pgdir = some D := by rw [hproc]; exact hD
  cases held with
  | false =>
    have hiff := settled_iff hinv hp' hD' user fa
    rw [hproc] at hiff
    rw [hiff]
    simp only [Bool.false_eq_true, false_or]
    rfl
  | true =>
    refine iff_of_true ?_ (.inr (.inl rfl))
    have hspec : wp (trapPageFault K p user true fa) _ _ _ :=
      trapPageFault_held hinv hp' hD' user fa
    unfold wp at hspec
    rcases hrun : trapPageFault K p user true fa (setKilled s p killed) with ⟨e | o, s'⟩
    · rw [hrun] at hspec
      exact hspec
    · rw [hrun] at hspec
      exact hspec.elim

/-- A system call is given a page of the heap that has not been touched. -/
theorem untouched_page_settled :
    ∃ s₀ s D, Booted sampleSymbols [] 1 s₀ ∧ Reachable (Kernel.step sampleSymbols) s₀ s ∧
      (s.proc 0).state = .runnable ∧ (s.proc 0).pgdir = some D ∧
      flag (s.mem.pte D 3) PTE_P = false ∧
      Settled 0 D 12288 (trapPageFault sampleSymbols 0 false false 12288
        (setKilled s 0 false)) := by
  obtain ⟨s₀, s, D, hboot, hs, hstate, hD, hsz, hfree, hmissing⟩ := exists_lazy_heap
  refine ⟨s₀, s, D, hboot, hs, hstate, hD, hmissing 3 le_rfl (by decide), ?_⟩
  have hframes : lazyFrames s.mem D 12288 ≤ 2 := by
    unfold lazyFrames tableFrames
    split
    · decide
    · decide
  exact (page_fault_settled_iff sampleSymbols_ok hboot hs hstate hD false false false 12288).mpr
    (.inr (.inr (.inr ⟨by decide, by rw [hsz]; decide, by omega⟩)))

/--
A process reads one page of its heap after the other until the memory is used up, and then
passes a page that it has not touched to a system call.  The kernel faults on it, `trap` marks
the process as killed and returns to the same instruction, and so on for ever.
-/
theorem kernel_faults_forever :
    ∃ s₀ s D fa s', Booted sampleSymbols [] 1 s₀ ∧ Reachable (Kernel.step sampleSymbols) s₀ s ∧
      (s.proc 0).state = .runnable ∧ (s.proc 0).pgdir = some D ∧
      4096 ≤ fa ∧ fa < (s.proc 0).sz ∧
      trapPageFault sampleSymbols 0 false false fa s = (.ok .resumed, s') ∧
      flag (s'.mem.pte D (fa / 4096)) PTE_P = false ∧
      ∀ n, (retry sampleSymbols 0 D fa n s).isSome = true := by
  obtain ⟨s₀, s, D, hboot, hs, hstate, hD, hsz, _, hmissing⟩ := exists_lazy_heap
  have hinv := Inv.reachable sampleSymbols_ok hboot hs
  obtain ⟨t, fa, ht, _, hlow, hhigh, hstuck⟩ :=
    exists_stuck hs hinv hstate hD (by decide) hmissing hinv.free_le
      (by rw [hsz]; unfold physFrames; decide)
  obtain ⟨s', hrun, hnext⟩ := hstuck.next (K := sampleSymbols)
  exact ⟨s₀, t, D, fa, s', hboot, ht, hstuck.state, hstuck.pgdir, hlow, hhigh, hrun, hnext.missing,
    hstuck.forever⟩

end Xv6.Kernel
