import Xv6.Kernel.Trap

/-!
# The memory that a program sees

A program sees a byte at every address, and which pages are guard pages.  It does not
see whether a page is there already or comes with the first access, nor anything of the
other processes: a load returns the byte that was stored last, a store changes one byte
of one process, `sbrk` clears what it gives back, and `fork` copies the parent's memory.
-/

namespace Xv6.Kernel

open Lib Lib.Prog Ptable Vm Function Multiset

variable {K : Symbols} {A : Pool K} {initcode : List UInt8} {ncpu sz : Nat} {s₀ s s' : State}
variable {p q np : Slot} {D D' : Frame} {n : Int} {R : Multiset Nat} {m : Mem} {a x : Fin KERNBASE}
variable {f : Fin KERNBASE → UInt8 × Bool}

/-- The byte at an address of a process, and whether it lies in a guard page. -/
def State.memory (s : State) (p : Slot) (a : Fin KERNBASE) : UInt8 × Bool :=
  match (s.proc p).pgdir with
  | none => (0, false)
  | some D => (s.mem.byte D a, s.mem.guarded D (a / 4096))

/-- The memory of `p` becomes `f`, and no other process sees a change. -/
def OnlyMemory (s : State) (p : Slot) (f : Fin KERNBASE → UInt8 × Bool) (s' : State) : Prop :=
  ∀ q, Alive (s.proc q) → s'.memory q = if q = p then f else s.memory q

theorem memory_of_pgdir (hD : (s.proc p).pgdir = some D) :
    s.memory p a = (s.mem.byte D a, s.mem.guarded D (a / 4096)) := by
  unfold State.memory
  rw [hD]

theorem memory_eq (hD : (s.proc p).pgdir = some D) (hD' : (s'.proc q).pgdir = some D')
    (h : ∀ u < userPages, SamePage s.mem D s'.mem D' u) : s'.memory q = s.memory p := by
  funext a
  obtain ⟨hcontent, hguarded⟩ := h _ (div_lt_userPages a.isLt)
  rw [memory_of_pgdir hD, memory_of_pgdir hD', hguarded]
  unfold Mem.byte
  rw [hcontent]

section
variable (h : Inv A s)
include h

theorem Inv.memory_of_rest (hq : Alive (s.proc q)) (hne : q ≠ p)
    (hkeeps : Keeps (s.rest p) s.mem s'.mem) (hproc : (s'.proc q).pgdir = (s.proc q).pgdir) :
    s'.memory q = s.memory q := by
  obtain ⟨D, hD, _⟩ := h.space q hq
  refine memory_eq hD (hproc.trans hD) (Keeps.same (hkeeps.mono fun f hf => ?_))
  refine mem_add.mpr (.inl (mem_sum.mpr ⟨q, by simp [hne], ?_⟩))
  unfold slotFrames
  rw [spaceOf_alive hq hD]
  exact mem_add.mpr (.inr hf)

theorem Inv.onlyMemory (hkeeps : Keeps (s.rest p) s.mem s'.mem)
    (hproc : ∀ q, (s'.proc q).pgdir = (s.proc q).pgdir) (hself : s'.memory p = f) :
    OnlyMemory s p f s' := by
  intro q hq
  by_cases hqp : q = p
  · rw [if_pos hqp, hqp, hself]
  · rw [if_neg hqp]
    exact h.memory_of_rest hq hqp hkeeps (hproc q)

end

theorem Stored.byte {b : UInt8} (h : Stored A s p D a b s') :
    s'.mem.byte D x = if x = a then b else s.mem.byte D x := by
  unfold Mem.byte
  rw [h.content _ (div_lt_userPages x.isLt)]
  by_cases hpage : x.val / 4096 = a.val / 4096
  · rw [if_pos hpage]
    refine (getByte_setByte (Nat.mod_lt a.val (by decide)) b _).trans ?_
    by_cases hoff : x.val % 4096 = a.val % 4096
    · rw [if_pos hoff, if_pos (Fin.ext (by omega))]
    · rw [if_neg hoff, if_neg fun hc => hoff (by rw [hc])]
  · rw [if_neg hpage, if_neg fun hc => hpage (by rw [hc])]

/--
In every state that the machine reaches, a load or a store at an address of the process
outside its guard pages returns, unless memory has run out.  The load gives the byte that
is there, and the store changes this byte and no other of any process.
-/
theorem user_access_plain (hK : K.Ok) (hboot : Booted K initcode ncpu s₀)
    (hs : Reachable (Kernel.step K) s₀ s) (hp : (s.proc p).state = .runnable) (hlo : 4096 ≤ a.val)
    (hhi : a.val < (s.proc p).sz) (hguard : (s.memory p a).2 = false) (b : UInt8) :
    wp (load K p true a)
      (fun r s' => r = some (s.memory p a).1 ∧ OnlyMemory s p (s.memory p) s' ∨
        s.mem.oom < s'.mem.oom) (fun _ s' => s.mem.oom < s'.mem.oom) s ∧
    wp (store K p true a b)
      (fun r s' => r = true ∧ OnlyMemory s p (update (s.memory p) a (b, false)) s' ∨
        s.mem.oom < s'.mem.oom) (fun _ s' => s.mem.oom < s'.mem.oom) s := by
  have h := Inv.reachable hK hboot hs
  obtain ⟨D, hD, _⟩ := h.space p (alive_of_runnable hp)
  have hmem := memory_of_pgdir (a := a) hD
  rw [hmem] at hguard ⊢
  have h32 : a.val < 2 ^ 32 := a.isLt.trans (by decide)
  have hbarred : ∀ s', Barred s p D a s' → s.mem.oom < s'.mem.oom := by
    rintro s' (hb | hb | hb | hb)
    · omega
    · omega
    · exact absurd hb (by simp [show s.mem.guarded D (a / 4096) = false from hguard])
    · exact hb
  constructor
  · refine wp_mono (load_spec h hp hD h32 (.inl rfl)) ?_ fun _ s' hb => hbarred s' hb
    rintro (_ | c) s' hr
    · exact .inr (hbarred s' hr.2.2)
    · obtain ⟨⟨f, hf⟩, hc⟩ := hr
      have hproc : s'.proc = s.proc := by rw [hf.state]
      refine .inl ⟨congrArg some hc, h.onlyMemory hf.keeps.right (fun q => by rw [hproc]) ?_⟩
      exact memory_eq hD (by rw [hproc]; exact hD) hf.same
  · refine wp_mono (store_spec h hp hD h32 (.inl rfl)) ?_ fun _ s' hb => hbarred s' hb
    rintro (_ | _) s' hr
    · exact .inr (hbarred s' hr.2.2)
    · have hproc : s'.proc = s.proc := by rw [hr.state]
      refine .inl ⟨rfl, h.onlyMemory hr.keeps.right (fun q => by rw [hproc]) ?_⟩
      funext x
      rw [memory_of_pgdir (by rw [hproc]; exact hD), hr.byte,
        hr.guarded _ (div_lt_userPages x.isLt)]
      by_cases hx : x = a
      · rw [hx, if_pos rfl, update_self]
        exact congrArg (Prod.mk b) hguard
      · rw [if_neg hx, update_of_ne hx, memory_of_pgdir hD]

/-- A page of the heap that has not been touched is read. -/
theorem user_access_plain_heap :
    ∃ s₀ s, Booted sampleSymbols [] 1 s₀ ∧ Reachable (Kernel.step sampleSymbols) s₀ s ∧
      wp (load sampleSymbols 0 true 12288)
        (fun r s' => r = some (s.memory 0 12288).1 ∨ s.mem.oom < s'.mem.oom)
        (fun _ s' => s.mem.oom < s'.mem.oom) s := by
  obtain ⟨s₀, s, D, hboot, hs, hp, hD, hsz, _, habsent⟩ := exists_lazy_heap
  have hguard : (s.memory 0 12288).2 = false := by
    rw [memory_of_pgdir hD]
    change (flag (s.mem.pte D 3) PTE_P && _) = false
    rw [habsent 3 le_rfl (by decide), Bool.false_and]
  refine ⟨s₀, s, hboot, hs, wp_post (user_access_plain sampleSymbols_ok hboot hs hp (by decide)
    (by rw [hsz]; decide) hguard 7).1 ?_⟩
  exact fun _ _ hr => hr.imp_left And.left

/-- The memory below the end `sz`. -/
def cleared (sz : Nat) (f : Fin KERNBASE → UInt8 × Bool) (a : Fin KERNBASE) : UInt8 × Bool :=
  if 4096 * pages sz ≤ a.val then (0, false) else f a

theorem memory_cleared (hD : (s.proc p).pgdir = some D) (hD' : (s'.proc p).pgdir = some D)
    (hspace : Space A s'.mem D sz R)
    (h : ∀ u < userPages, u < pages sz → SamePage s.mem D s'.mem D u) :
    s'.memory p = cleared sz (s.memory p) := by
  funext x
  have hu := div_lt_userPages x.isLt
  unfold cleared
  rw [memory_of_pgdir hD', memory_of_pgdir hD]
  unfold Mem.byte
  by_cases hlo : 4096 * pages sz ≤ x.val
  · have habsent := hspace.absent hu (by omega)
    rw [if_pos hlo, content_of_absent habsent]
    simp [Mem.guarded, getByte, habsent]
  · obtain ⟨hcontent, hguarded⟩ := h _ hu (by omega)
    rw [if_neg hlo, hcontent, hguarded]

theorem Inv.resized_plain (h : Inv A s) (hD : (s.proc p).pgdir = some D)
    (hkeeps : Keeps (s.rest p) s.mem m) (hspace : Space A m D sz R)
    (hsame : ∀ u < userPages, u < pages sz → SamePage s.mem D m D u) :
    OnlyMemory s p (cleared sz (s.memory p)) (resized s p m sz) := by
  have hself : ((resized s p m sz).proc p).pgdir = some D := by rw [resized_proc, hD]
  refine h.onlyMemory hkeeps ?_ (memory_cleared hD hself hspace hsame)
  intro q
  by_cases hq : q = p
  · rw [hq, hself, hD]
  · unfold resized
    simp only [set_of_ne _ _ hq]

/--
`sbrk` moves the end of the process, clears the pages above it and changes nothing else of
any process, whether it allocates pages at once, later or not at all.
-/
theorem sbrk_plain (hK : K.Ok) (hboot : Booted K initcode ncpu s₀)
    (hs : Reachable (Kernel.step K) s₀ s) (hp : (s.proc p).state = .runnable)
    (hpos : 0 < (s.proc p).sz + n) (hlt : (s.proc p).sz + n < KERNBASE) :
    wp (sbrk K p n)
      (fun r s' => r = (s.proc p).sz ∧ ((s'.proc p).sz : Int) = (s.proc p).sz + n ∧
          OnlyMemory s p (cleared (s'.proc p).sz (s.memory p)) s' ∨
        r = -1 ∧ s.mem.oom < s'.mem.oom) (fun _ _ => False) s := by
  have h := Inv.reachable hK hboot hs
  obtain ⟨D, hD, hspace⟩ := h.toSpace (alive_of_runnable hp)
  have hsize := hspace.size
  by_cases hzero : n = 0
  · unfold sbrk
    rw [wp_bind, wp_get, wp_bind, wp_pgdirOf hD, wp_ite, if_pos hzero]
    refine .inl ⟨rfl, by omega, h.onlyMemory (Keeps.refl _ _) (fun _ => rfl) ?_⟩
    exact memory_cleared hD hD hspace fun _ _ _ => ⟨rfl, rfl⟩
  rw [wp_sbrk hD hzero]
  generalize hnew : ((((s.proc p).sz : Int) + n) % 2 ^ 32).toNat = sz
  have hsz : (sz : Int) = (s.proc p).sz + n := by
    unfold KERNBASE at hlt
    omega
  by_cases hgrow : 0 < n
  · rw [if_pos hgrow]
    refine wp_post (allocuvm_spec hspace (by omega) (by omega)) ?_
    rintro r m (⟨rfl, hm⟩ | ⟨rfl, hm⟩)
    · rw [if_neg (by omega), resized_proc]
      exact .inl ⟨rfl, hsz, h.resized_plain hD hm.keeps.right hm.space fun u hu _ => hm.same u hu⟩
    · exact .inr ⟨rfl, hm.oom⟩
  · rw [if_neg hgrow]
    refine wp_post (deallocuvm_spec hspace.dir (le_of_lt hsize)) ?_
    rintro r m ⟨rfl, hd⟩
    rw [Nat.min_eq_right (by omega), if_neg (by omega), resized_proc]
    refine .inl ⟨rfl, hsz, h.resized_plain hD hd.keeps.right (hd.space hspace (by omega)) ?_⟩
    exact fun u hu hlo => hd.same_below hu hlo

/-- A process gives back a page. -/
theorem sbrk_plain_shrink :
    ∃ s₀ s r s', Booted sampleSymbols [] 1 s₀ ∧ Reachable (Kernel.step sampleSymbols) s₀ s ∧
      sbrk sampleSymbols 0 (-4096) s = (.ok r, s') ∧
      (r ≠ -1 → OnlyMemory s 0 (cleared (s'.proc 0).sz (s.memory 0)) s') := by
  obtain ⟨s₀, s, D, hboot, hs, hp, hD, hsz, _⟩ := exists_lazy_heap
  obtain ⟨r, s', hrun, hr⟩ := exists_ok (sbrk_plain (n := -4096) sampleSymbols_ok hboot hs hp
    (by rw [hsz]; decide) (by rw [hsz]; decide)) fun _ _ hc => hc
  exact ⟨s₀, s, r, s', hboot, hs, hrun, fun hne => (hr.resolve_right fun hc => hne hc.1).2.2⟩

theorem dupFd_stops {fd : Fin NOFILE} :
    wp (dupFd p np fd) (fun _ _ => True) (fun e _ => e = .filedup) s := by
  unfold dupFd filedup
  rw [wp_bind, wp_get]
  cases (s.proc p).ofile fd with
  | none => trivial
  | some i =>
    simp only [wp_bind, wp_get, wp_ite, wp_throw, wp_updFile, wp_updProc]
    by_cases href : (s.file i).ref < 1
    · rw [if_pos href]
      trivial
    · rw [if_neg href]
      trivial

theorem Inv.memory_of_used (h : Inv A s) (hnp : (s.proc np).state = .unused)
    (hkeeps : Keeps s.used s.mem s'.mem) (hproc : ∀ q, q ≠ np → s'.proc q = s.proc q) :
    OnlyMemory s p (s.memory p) s' := by
  intro q hq
  have hne : q ≠ np := fun hc => hq.1 (hc ▸ hnp)
  rw [used_eq s np] at hkeeps
  rw [h.memory_of_rest hq hne hkeeps.right (by rw [hproc q hne])]
  by_cases hqp : q = p
  · rw [if_pos hqp, hqp]
  · rw [if_neg hqp]

/--
`fork` gives the child a copy of the parent's memory in pages of its own, or returns -1; no
process sees a change.
-/
theorem fork_plain (hK : K.Ok) (hboot : Booted K initcode ncpu s₀)
    (hs : Reachable (Kernel.step K) s₀ s) (hp : (s.proc p).state = .runnable) :
    wp (fork K p)
      (fun r s' => OnlyMemory s p (s.memory p) s' ∧ (r = -1 ∨ ∃ np, (s.proc np).state = .unused ∧
        (s'.proc np).state = .runnable ∧ (s'.proc np).parent = some p ∧
        (s'.proc np).sz = (s.proc p).sz ∧ s'.memory np = s.memory p))
      (fun e _ => e = .filedup) s := by
  have h := Inv.reachable hK hboot hs
  have halive := alive_of_runnable hp
  obtain ⟨D, hD, hspace⟩ := h.toSpace halive
  unfold fork
  rw [wp_bind, wp_get]
  cases halloc : allocproc s.proc s.nextpid with
  | none =>
    exact ⟨h.onlyMemory (Keeps.refl _ _) (fun _ => rfl) rfl, .inl rfl⟩
  | some r =>
    obtain ⟨np, t, n⟩ := r
    obtain ⟨_, rfl, rfl⟩ := allocproc_eq_some.mp halloc
    have hunused := allocproc_unused halloc
    have hne : p ≠ np := by
      rintro rfl
      rw [hp] at hunused
      cases hunused
    simp only [wp_bind, wp_modify, wp_onMem]
    refine wp_kalloc ?_ ?_
    · intro _
      simp only [wp_bind, wp_updProc, wp_pure, set_set]
      refine ⟨h.memory_of_used hunused (fun _ _ => rfl) ?_, .inl trivial⟩
      exact fun q hq => set_of_ne _ _ hq
    intro k l hfree
    simp only [wp_bind, wp_updProc, set_set]
    rw [wp_pgdirOf (by simp only [set_of_ne _ _ hne]; exact hD), wp_onMem]
    have hown : ({ s.mem with free := l } : Mem).own D = s.mem.own D :=
      (Keeps.view (m := s.mem) fun _ _ => rfl).2.2
    have hsum : s.mem.own D + k ::ₘ (stackOf (s.proc p) + s.rest p) = k ::ₘ s.used := by
      rw [add_cons, used_eq s p, slotFrames, spaceOf_alive halive hD, add_assoc, add_left_comm]
    have hparent : Space (pool hK) { s.mem with free := l } D (s.proc p).sz
        (k ::ₘ (stackOf (s.proc p) + s.rest p)) := by
      refine hspace.congr (fun _ _ => rfl) ?_
      rw [hsum]
      exact h.uses.alloc hfree rfl
    refine wp_mono (copyuvm_spec hparent) ?_ fun _ _ he => he.elim
    rintro r m' (⟨d, rfl, hchild, hkeeps, _, hsame⟩ | ⟨rfl, huses, hkeeps, _⟩)
    · rw [hown, hsum] at hkeeps
      simp only [wp_bind, wp_updProc, set_set]
      refine wp_mono (wp_and (dupFds_spec h.files) (wp_forEach (I := fun _ => True)
        (fun _ _ _ _ => dupFd_stops) trivial)) ?_ fun _ _ he => he.2
      rintro _ _ ⟨⟨file, of, rfl, _⟩, _⟩
      simp only [wp_pure, set_set, set_self]
      refine ⟨h.memory_of_used hunused hkeeps.tail fun q hq => set_of_ne _ _ hq, .inr ?_⟩
      refine ⟨np, hunused, ?_⟩
      simp only [set_self, true_and]
      exact memory_eq hD (by simp only [set_self]) hsame
    · rw [hown, hsum] at huses hkeeps
      simp only [wp_bind, wp_onMem, wp_updProc, wp_pure, set_set]
      refine wp_kfree (huses.valid (mem_cons_self _ _)) ?_
      refine ⟨h.memory_of_used hunused ?_ fun q hq => set_of_ne _ _ hq, .inl trivial⟩
      exact hkeeps.tail.trans huses.keeps_freed

/-- The first process forks. -/
theorem fork_plain_first :
    ∃ s, Booted sampleSymbols [] 1 s ∧ wp (fork sampleSymbols 0)
      (fun _ s' => OnlyMemory s 0 (s.memory 0) s') (fun e _ => e = .filedup) s := by
  obtain ⟨s, hboot⟩ := exists_booted sampleSymbols_ok sampleSymbols_room
  have hp := (hboot.facts sampleSymbols_ok).2.1
  exact ⟨s, hboot, wp_post (fork_plain sampleSymbols_ok hboot (Reachable.init s) hp)
    fun _ _ hr => hr.1⟩

end Xv6.Kernel
