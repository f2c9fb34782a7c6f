import Xv6.Kernel.Files

/-!
# Who owns which page

The invariant of the machine: the frames of the pool are the free ones, the
kernel stacks, the frames of the address spaces, the pages of the pipes and the
frames taken at boot, each once.  A slot owns its kernel stack and, unless it is
UNUSED or EMBRYO, its address space; `wait` leaves a stale directory pointer in
the slot that it gives back.
-/

namespace Xv6.Kernel

open Lib Lib.Prog Ptable Vm Multiset

variable {K : Symbols} {A : Pool K} {s s' : State} {m m' : Mem} {p q : Slot} {v v' : Proc}
variable {D sz D' sz' : Nat} {R : Multiset Nat} {t : Table}

/-- A slot with an address space. -/
def Alive (v : Proc) : Prop :=
  v.state ≠ .unused ∧ v.state ≠ .embryo

instance (v : Proc) : Decidable (Alive v) :=
  inferInstanceAs (Decidable (_ ∧ _))

def stackOf (v : Proc) : Multiset Nat :=
  match v.kstack with
  | none => 0
  | some k => {k}

def spaceOf (m : Mem) (v : Proc) : Multiset Nat :=
  if Alive v then
    match v.pgdir with
    | none => 0
    | some D => m.own D
  else 0

def slotFrames (m : Mem) (v : Proc) : Multiset Nat :=
  stackOf v + spaceOf m v

namespace State

/-- The frames taken at boot: the directory of the kernel and the other processors' stacks. -/
def boot (s : State) : Multiset Nat :=
  s.mem.own s.kpgdir + s.apStacks

def fixed (s : State) : Multiset Nat :=
  pipeFrames s.file + s.boot

def procs (s : State) : Multiset Nat :=
  ∑ p, slotFrames s.mem (s.proc p)

def used (s : State) : Multiset Nat :=
  s.procs + s.fixed

/-- All frames in use outside one slot. -/
def rest (s : State) (p : Slot) : Multiset Nat :=
  (∑ q ∈ Finset.univ \ {p}, slotFrames s.mem (s.proc q)) + s.fixed

end State

structure Local (m : Mem) (D sz : Nat) : Prop where
  flags : ∀ i < NPDENTRIES, flag (m.word D i) PTE_P = true → PTE_FLAGS (m.word D i) = 7
  size : sz < KERNBASE
  below : ∀ u < userPages, flag (m.pte D u) PTE_P = true → u < pages sz
  rights : ∀ u < userPages, flag (m.pte D u) PTE_P = true →
    PTE_FLAGS (m.pte D u) = 7 ∨ PTE_FLAGS (m.pte D u) = 3
  kernel : ∀ u, userPages ≤ u → flag (m.pte D u) PTE_U = false

/-- The invariant. -/
structure Inv {K : Symbols} (A : Pool K) (s : State) : Prop where
  uses : Uses A s.mem s.used
  space : ∀ p, Alive (s.proc p) → ∃ D, (s.proc p).pgdir = some D ∧ Local s.mem D (s.proc p).sz
  unused : ∀ p, (s.proc p).state = .unused → (s.proc p).kstack = none
  files : FileInv s.file s.pipe

theorem local_of_space (h : Space A m D sz R) : Local m D sz :=
  ⟨h.dir.flags, h.size, h.below, h.rights, h.kernel⟩

theorem Local.toSpace (h : Local m D sz) (huses : Uses A m (m.own D + R)) : Space A m D sz R :=
  ⟨⟨huses, h.flags⟩, h.size, h.below, h.rights, h.kernel⟩

theorem Local.congr (h : Local m D sz) (hkeeps : Keeps (m.own D) m m') : Local m' D sz := by
  obtain ⟨_, hpte, _⟩ := hkeeps.view
  refine ⟨?_, h.size, ?_, ?_, ?_⟩
  · intro i hi hP
    have hword : m'.word D i = m.word D i := by
      unfold Mem.word
      rw [hkeeps D (by simp [Mem.own])]
    rw [hword] at hP ⊢
    exact h.flags i hi hP
  · rw [hpte]
    exact h.below
  · rw [hpte]
    exact h.rights
  · rw [hpte]
    exact h.kernel

theorem beside_new (h : Space A m D sz R) (hown : Keeps (m.own D) m m')
    (hnew : Space A m' D' sz' (m.own D + R)) : Space A m' D sz (m'.own D' + R) := by
  refine ((local_of_space h).congr hown).toSpace ?_
  rw [hown.view.2.2, add_left_comm]
  exact hnew.dir.uses

theorem spaceOf_alive (hv : Alive v) (hD : v.pgdir = some D) : spaceOf m v = m.own D := by
  unfold spaceOf
  rw [if_pos hv, hD]

theorem slotFrames_keeps (h : Keeps (slotFrames m v) m m') : slotFrames m' v = slotFrames m v := by
  unfold slotFrames at h ⊢
  have hspace : Keeps (spaceOf m v) m m' := h.right
  have heq : spaceOf m' v = spaceOf m v := by
    by_cases hv : Alive v
    · cases hD : v.pgdir with
      | none =>
        unfold spaceOf
        rw [if_pos hv, if_pos hv, hD]
      | some D =>
        rw [spaceOf_alive hv hD] at hspace ⊢
        rw [spaceOf_alive hv hD]
        exact hspace.view.2.2
    · unfold spaceOf
      rw [if_neg hv, if_neg hv]
  rw [heq]

theorem used_eq (s : State) (p : Slot) : s.used = slotFrames s.mem (s.proc p) + s.rest p := by
  unfold State.used State.procs State.rest
  rw [← add_assoc, Finset.sum_eq_add_sum_sdiff_singleton_of_mem (Finset.mem_univ p)
      fun q => slotFrames s.mem (s.proc q)]

theorem boot_keeps (h : Keeps s.boot s.mem m') : m'.own s.kpgdir + s.apStacks = s.boot := by
  have hown : Keeps (s.mem.own s.kpgdir) s.mem m' :=
    h.left
  unfold State.boot
  rw [hown.view.2.2]

theorem rest_keeps (h : Keeps (s.rest p) s.mem m') (v : Proc) :
    State.rest { s with mem := m', proc := set s.proc p v } p = s.rest p := by
  have hslot : ∀ q ∈ Finset.univ \ {p},
      slotFrames m' (set s.proc p v q) = slotFrames s.mem (s.proc q) := by
    intro q hq
    have hqp : q ≠ p := by simpa using hq
    rw [set_of_ne _ _ hqp]
    refine slotFrames_keeps (h.mono fun f hf => ?_)
    exact mem_add.mpr (.inl (mem_sum.mpr ⟨q, hq, hf⟩))
  have hboot : Keeps s.boot s.mem m' := by
    refine h.mono fun f hf => ?_
    unfold State.rest State.fixed
    simp only [mem_add]
    exact .inr (.inr hf)
  have hboot' : State.boot { s with mem := m', proc := set s.proc p v } = s.boot :=
    boot_keeps (s := s) hboot
  unfold State.rest State.fixed
  rw [Finset.sum_congr rfl hslot, hboot']

section
variable (h : Inv A s)
include h

theorem Inv.local_of_ne (hkeeps : Keeps (s.rest p) s.mem m') (hq : q ≠ p)
    (halive : Alive (s.proc q)) : ∃ D, (s.proc q).pgdir = some D ∧ Local m' D (s.proc q).sz := by
  obtain ⟨D, hD, hlocal⟩ := h.space q halive
  refine ⟨D, hD, hlocal.congr (hkeeps.mono fun f hf => ?_)⟩
  refine mem_add.mpr (.inl (mem_sum.mpr ⟨q, by simp [hq], ?_⟩))
  unfold slotFrames
  rw [spaceOf_alive halive hD]
  exact mem_add.mpr (.inr hf)

theorem Inv.setSlot (hkeeps : Keeps (s.rest p) s.mem m')
    (huses : Uses A m' (slotFrames m' v + s.rest p))
    (hspace : Alive v → ∃ D, v.pgdir = some D ∧ Local m' D v.sz)
    (hunused : v.state = .unused → v.kstack = none) :
    Inv A { s with mem := m', proc := set s.proc p v } := by
  refine ⟨?_, ?_, ?_, h.files⟩
  · rw [used_eq _ p, rest_keeps hkeeps]
    simp only [set_self]
    exact huses
  · intro q halive
    by_cases hq : q = p
    · subst hq
      simp only [set_self] at halive ⊢
      exact hspace halive
    · simp only [set_of_ne _ _ hq] at halive ⊢
      exact h.local_of_ne hkeeps hq halive
  intro q hstate
  by_cases hq : q = p
  · subst hq
    simp only [set_self] at hstate ⊢
    exact hunused hstate
  · simp only [set_of_ne _ _ hq] at hstate ⊢
    exact h.unused q hstate

theorem Inv.toSpace (hp : Alive (s.proc p)) :
    ∃ D, (s.proc p).pgdir = some D ∧
      Space A s.mem D (s.proc p).sz (stackOf (s.proc p) + s.rest p) := by
  obtain ⟨D, hD, hlocal⟩ := h.space p hp
  refine ⟨D, hD, hlocal.toSpace ?_⟩
  have huses := h.uses
  rw [used_eq s p, slotFrames, spaceOf_alive hp hD] at huses
  rwa [← add_assoc, add_comm (s.mem.own D)]

theorem Inv.spaceAt (hp : Alive (s.proc p)) (hD : (s.proc p).pgdir = some D) :
    Space A s.mem D (s.proc p).sz (stackOf (s.proc p) + s.rest p) := by
  obtain ⟨D', hD', hspace⟩ := h.toSpace hp
  obtain rfl : D' = D := Option.some.inj (hD'.symm.trans hD)
  exact hspace

theorem Inv.setSpace (hkeeps : Keeps (stackOf (s.proc p) + s.rest p) s.mem m')
    (hm : Space A m' D sz (stackOf (s.proc p) + s.rest p)) (halive : Alive v)
    (hstack : v.kstack = (s.proc p).kstack) (hD : v.pgdir = some D) (hsz : v.sz = sz) :
    Inv A { s with mem := m', proc := set s.proc p v } := by
  refine h.setSlot hkeeps.right ?_ ?_ ?_
  · have huses := hm.dir.uses
    have hstackOf : stackOf v = stackOf (s.proc p) := by
      unfold stackOf
      rw [hstack]
    rw [slotFrames, spaceOf_alive halive hD, hstackOf]
    rwa [← add_assoc, add_comm (m'.own D)] at huses
  · intro _
    exact ⟨D, hD, hsz ▸ local_of_space hm⟩
  · intro hc
    exact absurd hc halive.1

theorem Inv.setMem (hp : Alive (s.proc p)) (hD : (s.proc p).pgdir = some D)
    (hkeeps : Keeps (stackOf (s.proc p) + s.rest p) s.mem m')
    (hm : Space A m' D (s.proc p).sz (stackOf (s.proc p) + s.rest p)) :
    Inv A { s with mem := m' } := by
  have hinv := h.setSpace (v := s.proc p) hkeeps hm hp rfl hD rfl
  have hset : set s.proc p (s.proc p) = s.proc := Function.update_eq_self _ _
  rwa [hset] at hinv

end

structure SameFrames (v v' : Proc) : Prop where
  kstack : v'.kstack = v.kstack
  pgdir : v'.pgdir = v.pgdir
  sz : v'.sz = v.sz
  alive : Alive v' ↔ Alive v
  unused : v'.state = .unused → v.state = .unused

theorem SameFrames.frames (h : SameFrames v v') : slotFrames m v' = slotFrames m v := by
  unfold slotFrames stackOf spaceOf
  rw [h.kstack, h.pgdir]
  simp only [h.alive]

theorem Inv.setTable (h : Inv A s) (ht : ∀ q, SameFrames (s.proc q) (t q)) :
    Inv A { s with proc := t } := by
  refine ⟨?_, ?_, ?_, h.files⟩
  · have hused : State.used { s with proc := t } = s.used := by
      unfold State.used State.procs
      rw [Finset.sum_congr rfl fun q _ => (ht q).frames]
      rfl
    rw [hused]
    exact h.uses
  · intro q halive
    obtain ⟨D, hD, hlocal⟩ := h.space q ((ht q).alive.mp halive)
    refine ⟨D, (ht q).pgdir.trans hD, ?_⟩
    rw [(ht q).sz]
    exact hlocal
  · intro q hq
    rw [(ht q).kstack]
    exact h.unused q ((ht q).unused hq)

theorem sameFrames_set (h : SameFrames (t p) v) (q : Slot) : SameFrames (t q) (set t p v q) := by
  by_cases hq : q = p
  · subst hq
    rw [set_self]
    exact h
  · rw [set_of_ne _ _ hq]
    exact ⟨rfl, rfl, rfl, Iff.rfl, fun hu => hu⟩

theorem Inv.setFiles {file : Files} {pipe : Frame → Pipe} (h : Inv A s)
    (hkeeps : Keeps (s.procs + s.boot) s.mem m')
    (huses : Uses A m' (s.procs + (pipeFrames file + s.boot))) (hfiles : FileInv file pipe) :
    Inv A { s with mem := m', file := file, pipe := pipe } := by
  have hslot : ∀ q, Keeps (slotFrames s.mem (s.proc q)) s.mem m' := by
    intro q
    refine hkeeps.mono fun f hf => mem_add.mpr (.inl ?_)
    exact mem_sum.mpr ⟨q, Finset.mem_univ q, hf⟩
  refine ⟨?_, ?_, h.unused, hfiles⟩
  · have hprocs : ∑ q, slotFrames m' (s.proc q) = s.procs :=
      Finset.sum_congr rfl fun q _ => slotFrames_keeps (hslot q)
    have hboot : State.boot { s with mem := m', file := file, pipe := pipe } = s.boot :=
      boot_keeps (s := s) hkeeps.right
    unfold State.used State.fixed
    rw [hboot]
    unfold State.procs
    rw [hprocs]
    exact huses
  · intro q halive
    obtain ⟨D, hD, hlocal⟩ := h.space q halive
    refine ⟨D, hD, hlocal.congr ((hslot q).mono fun f hf => ?_)⟩
    unfold slotFrames
    rw [spaceOf_alive halive hD]
    exact mem_add.mpr (.inr hf)

theorem Inv.setFile {file : Files} (h : Inv A s)
    (hfiles : FileInv file s.pipe ∧ pipeFrames file = pipeFrames s.file) :
    Inv A { s with file := file } := by
  have huses := h.uses
  unfold State.used State.fixed at huses
  rw [← hfiles.2] at huses
  exact h.setFiles (Keeps.refl _ s.mem) huses hfiles.1

theorem Inv.of_eq (h : Inv A s) (hmem : s'.mem = s.mem) (hproc : s'.proc = s.proc)
    (hfile : s'.file = s.file) (hpipe : s'.pipe = s.pipe) (hkpgdir : s'.kpgdir = s.kpgdir)
    (hstacks : s'.apStacks = s.apStacks) : Inv A s' := by
  cases s'
  simp only at hmem hproc hfile hpipe hkpgdir hstacks
  subst hmem hproc hfile hpipe hkpgdir hstacks
  exact ⟨h.uses, h.space, h.unused, h.files⟩

end Xv6.Kernel
