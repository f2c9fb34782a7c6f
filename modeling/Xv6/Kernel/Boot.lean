import Xv6.Kernel.Access

/-!
# From boot on

The part of `main` that takes pages: `kinit1`, `kvmalloc`, the stacks of the
other processors, `kinit2` and `userinit`.  Physical memory holds anything at
first.  From there the steps of the machine are taken in any order, and in every
state reached each page has exactly one owner.
-/

namespace Xv6.Kernel

open Lib Lib.Prog Ptable Vm Multiset

variable {K : Symbols} {s s0 : State} {ncpu f D n : Nat} {hK : K.Ok} {A : Pool K} {m : Mem}
variable {R : Multiset Nat} {initcode : List UInt8} {E : Stop → State → Prop}

/-- The end of the memory that the first page directory maps: `P2V(4*1024*1024)`. -/
def kinitEnd : Nat :=
  KERNBASE + 4 * 1024 * 1024

/-- The bss segment before `main`, next to physical memory with any content. -/
def zeroed (page : Nat → Page) : State where
  mem := { page := page, free := [], oom := 0 }
  proc := fun _ => Proc.zero
  nextpid := 1
  initproc := 0
  file := fun _ => { ref := 0, type := .none, readable := false, writable := false, pipe := none }
  pipe := fun _ => ⟨false, false⟩
  kpgdir := 0
  apStacks := []

def kvmalloc (K : Symbols) : KM Unit := do
  match ← onMem (setupkvm K) with
  | none => throw .nullPage
  | some D => modify fun s => { s with kpgdir := D }

def startOther (_ : Nat) : KM Unit := do
  match ← onMem kalloc with
  | none => throw .nullPage
  | some f => modify fun s => { s with apStacks := f :: s.apStacks }

def userinit (K : Symbols) (initcode : List UInt8) : KM Unit := do
  let s ← get
  match allocproc s.proc s.nextpid with
  | none => throw .nullPage
  | some (p, t, n) =>
    modify fun s => { s with proc := t, nextpid := n }
    match ← onMem kalloc with
    | none => throw .nullPage
    | some k =>
      updProc p fun v => { v with kstack := some k, context := .forkret }
      modify fun s => { s with initproc := p }
      match ← onMem (setupkvm K) with
      | none => throw .userinit
      | some D =>
        updProc p fun v => { v with pgdir := some D }
        onMem (inituvm D initcode)
        updProc p fun v => { v with sz := 4096 }
        updProc p fun v => { v with state := .runnable }

/-- `main` on a machine with `ncpu` processors. -/
def main (K : Symbols) (initcode : List UInt8) (ncpu : Nat) : KM Unit := do
  onMem (freerange K K.kend kinitEnd)
  kvmalloc K
  forEach (List.range (ncpu - 1)) startOther
  onMem (freerange K kinitEnd (KERNBASE + PHYSTOP))
  userinit K initcode

/-- The states in which `main` enters the scheduler. -/
def Booted (K : Symbols) (initcode : List UInt8) (ncpu : Nat) (s : State) : Prop :=
  ∃ page, main K initcode ncpu (zeroed page) = (.ok (), s)

/-- The frames of `kinit1`. -/
def lowFrames (K : Symbols) : List Nat :=
  framesBetween K.kend kinitEnd

/-- The frames of `kinit2`. -/
def highFrames : List Nat :=
  framesBetween kinitEnd (KERNBASE + PHYSTOP)

theorem mem_lowFrames (hK : K.Ok) : f ∈ lowFrames K ↔ K.kend ≤ KERNBASE + f * 4096 ∧ f < 1024 := by
  have h1 := hK.data_pos
  have h2 := hK.data_end
  have h3 := hK.end_small
  unfold lowFrames framesBetween kinitEnd PGROUNDUP
  unfold KERNLINK KERNBASE EXTMEM at *
  rw [List.mem_range'_1]
  omega

theorem mem_highFrames : f ∈ highFrames ↔ 1024 ≤ f ∧ f < 57344 := by
  unfold highFrames framesBetween kinitEnd PGROUNDUP KERNBASE PHYSTOP
  rw [List.mem_range'_1]

theorem length_highFrames : highFrames.length = 56320 := by
  unfold highFrames framesBetween kinitEnd PGROUNDUP KERNBASE PHYSTOP
  rw [List.length_range']

theorem lowFrames_valid (hK : K.Ok) : ∀ f ∈ lowFrames K, K.Valid f := by
  intro f hf
  obtain ⟨hend, hlt⟩ := (mem_lowFrames hK).mp hf
  refine ⟨hend, ?_⟩
  unfold PHYSTOP
  omega

theorem highFrames_valid (hK : K.Ok) : ∀ f ∈ highFrames, K.Valid f := by
  intro f hf
  obtain ⟨hlo, hhi⟩ := mem_highFrames.mp hf
  have hsmall := hK.end_small
  refine ⟨by omega, ?_⟩
  unfold PHYSTOP
  omega

theorem frames_disjoint (hK : K.Ok) :
    Disjoint (lowFrames K : Multiset Nat) (highFrames : Multiset Nat) := by
  rw [disjoint_left]
  intro f hlow hhigh
  have h1 := (mem_lowFrames hK).mp hlow
  have h2 := mem_highFrames.mp hhigh
  omega

theorem framesBetween_nodup (vstart vend : Nat) : (framesBetween vstart vend).Nodup :=
  List.nodup_range'

def lowPool (hK : K.Ok) : Pool K where
  ok := hK
  frames := lowFrames K
  nodup := framesBetween_nodup _ _
  valid := lowFrames_valid hK

def pool (hK : K.Ok) : Pool K where
  ok := hK
  frames := lowFrames K + highFrames
  nodup := nodup_add.mpr
    ⟨framesBetween_nodup _ _, framesBetween_nodup _ _, frames_disjoint hK⟩
  valid := by
    intro f hf
    rcases mem_add.mp hf with hlow | hhigh
    · exact lowFrames_valid hK f hlow
    · exact highFrames_valid hK f hhigh

/-- The state before `kinit2`: the directory of the kernel and some stacks are taken. -/
structure Early (hK : K.Ok) (n : Nat) (s : State) : Prop where
  state : ∃ page, s = { zeroed page with
    mem := s.mem, kpgdir := s.kpgdir, apStacks := s.apStacks }
  uses : Uses (lowPool hK) s.mem (s.mem.own s.kpgdir + s.apStacks)
  own : (s.mem.own s.kpgdir).card ≤ 513
  count : s.apStacks.length = n

theorem kinit1_spec (hK : K.Ok) (page : Nat → Page) :
    wp (onMem (freerange K K.kend kinitEnd))
      (fun _ s => (∃ m, s = { zeroed page with mem := m }) ∧ Uses (lowPool hK) s.mem 0)
      E (zeroed page) := by
  rw [wp_onMem]
  refine wp_freerange (lowFrames_valid hK) ?_
  intro m hfree _ _
  refine ⟨⟨m, rfl⟩, ?_⟩
  have hempty : (zeroed page).mem.free = [] := rfl
  rw [hempty, List.append_nil] at hfree
  change (m.free : Multiset Nat) + 0 = (lowFrames K : Multiset Nat)
  rw [hfree, add_zero, coe_reverse]
  rfl

/-- Enough pages below 4 MB, few enough processors, and an `initcode` that fits. -/
structure Room (K : Symbols) (initcode : List UInt8) (ncpu : Nat) : Prop where
  low : 600 ≤ (lowFrames K).length
  cpus : ncpu ≤ 8
  init : initcode.length < 4096

theorem kvmalloc_spec {page : Nat → Page} (hs : ∃ m, s = { zeroed page with mem := m })
    (h : Uses (lowPool hK) s.mem 0) :
    wp (kvmalloc K) (fun _ => Early hK 0) (fun _ _ => (lowFrames K).length ≤ 513) s := by
  obtain ⟨m, rfl⟩ := hs
  unfold kvmalloc
  rw [wp_bind, wp_onMem]
  refine wp_mono (setupkvm_spec h) ?_ fun _ _ he => he.elim
  rintro r m' (⟨D, rfl, _, hfresh, _⟩ | ⟨rfl, _, _, _, hbound⟩)
  · refine ⟨⟨page, rfl⟩, ?_, hfresh.card_own_le, rfl⟩
    exact hfresh.dir.uses
  rw [wp_throw]
  have hcard := congrArg Multiset.card h
  rw [card_add, card_zero, coe_card] at hcard
  have hlow : (lowPool hK).frames.card = (lowFrames K).length := coe_card _
  rw [hlow] at hcard
  unfold kernelFrames at hbound
  exact le_of_eq_of_le hcard.symm (by omega)

theorem Early.card (h : Early hK n s) : (lowFrames K).length ≤ s.mem.free.length + 513 + n := by
  have hcard := congrArg Multiset.card h.uses
  rw [card_add, card_add, coe_card, coe_card, h.count] at hcard
  have hlow : (lowPool hK).frames.card = (lowFrames K).length := coe_card _
  have hown := h.own
  omega

theorem startOther_spec {i : Nat} (h : Early hK n s) :
    wp (startOther i) (fun _ => Early hK (n + 1))
      (fun _ _ => (lowFrames K).length ≤ 513 + n) s := by
  obtain ⟨page, hs⟩ := h.state
  unfold startOther
  rw [wp_bind, wp_onMem]
  refine wp_kalloc ?_ ?_
  · intro hfree
    have hcard := h.card
    rw [hfree, List.length_nil] at hcard
    rw [wp_throw]
    omega
  intro f l hfree
  have hown : ({ s.mem with free := l } : Mem).own s.kpgdir = s.mem.own s.kpgdir :=
    (Keeps.view (m := s.mem) fun _ _ => rfl).2.2
  refine ⟨⟨page, ?_⟩, ?_, ?_, ?_⟩
  · rw [hs]
  · have huses : Uses (lowPool hK) { s.mem with free := l }
        (f ::ₘ (s.mem.own s.kpgdir + s.apStacks)) := h.uses.alloc hfree rfl
    rw [← add_cons, cons_coe] at huses
    simp only
    rw [hown]
    exact huses
  · simp only
    rw [hown]
    exact h.own
  · simp only [List.length_cons]
    rw [h.count]

theorem startOthers_spec (h : Early hK 0 s) :
    wp (forEach (List.range (ncpu - 1)) startOther) (fun _ => Early hK (ncpu - 1))
      (fun _ _ => (lowFrames K).length ≤ 513 + ncpu) s := by
  refine wp_forEach_range (I := Early hK) ?_ h
  intro i hi t ht
  exact wp_mono (startOther_spec ht) (fun _ _ h' => h') fun _ _ h' => by omega

theorem pipeFrames_eq_zero {file : Files} (h : ∀ i, (file i).type ≠ .pipe) :
    pipeFrames file = 0 := by
  refine collect_eq_zero ?_
  intro P _
  refine if_neg ?_
  rintro ⟨i, w, htype, _⟩
  exact h i htype

theorem kinit2_spec (h : Early hK n s) :
    wp (onMem (freerange K kinitEnd (KERNBASE + PHYSTOP)))
      (fun _ s' => Inv (pool hK) s' ∧ s'.proc = (fun _ => Proc.zero) ∧
        56320 ≤ s'.mem.free.length) E s := by
  obtain ⟨page, hs⟩ := h.state
  have hproc : s.proc = fun _ => Proc.zero := by rw [hs]; rfl
  have hfile : ∀ i, (s.file i).type = .none := by rw [hs]; exact fun _ => rfl
  have hpipe : ∀ i, (s.file i).type ≠ .pipe := fun i => by rw [hfile i]; decide
  rw [wp_onMem]
  refine wp_freerange (highFrames_valid hK) ?_
  intro m hfree _ hpage
  have hkeeps : Keeps (s.mem.own s.kpgdir + s.apStacks) s.mem m := by
    intro f hf
    refine hpage f fun hhigh => ?_
    have hlow : f ∈ (lowPool hK).frames := by
      rw [← show _ = _ from h.uses]
      exact mem_add.mpr (.inr hf)
    exact disjoint_left.mp (frames_disjoint hK) hlow hhigh
  have hown : m.own s.kpgdir = s.mem.own s.kpgdir :=
    (hkeeps.left : Keeps _ _ _).view.2.2
  refine ⟨⟨?_, ?_, ?_, ?_⟩, hproc, ?_⟩
  · have hslots : State.procs { s with mem := m } = 0 := by
      unfold State.procs
      refine Finset.sum_eq_zero fun q _ => ?_
      simp only [hproc]
      unfold slotFrames stackOf spaceOf Proc.zero
      simp [Alive]
    have hused : State.used { s with mem := m } = s.mem.own s.kpgdir + s.apStacks := by
      unfold State.used State.fixed State.boot
      rw [hslots, pipeFrames_eq_zero hpipe, zero_add, zero_add]
      simp only
      rw [hown]
    rw [hused]
    have hlow : (s.mem.free : Multiset Nat) + (s.mem.own s.kpgdir + s.apStacks) = lowFrames K :=
      h.uses
    have hsum : (m.free : Multiset Nat) = highFrames + s.mem.free := by
      rw [hfree, ← coe_add, coe_reverse]
      rfl
    change (m.free : Multiset Nat) + (s.mem.own s.kpgdir + s.apStacks) = lowFrames K + highFrames
    rw [hsum, add_assoc, hlow, add_comm]
  · intro q hq
    simp only [hproc] at hq
    exact absurd rfl hq.1
  · intro q _
    simp only [hproc]
    rfl
  · refine ⟨fun i _ => hfile i, fun i hi => absurd hi (hpipe i), ?_, ?_, ?_, ?_⟩
    · rintro i P w ⟨hi, _⟩
      exact absurd hi (hpipe i)
    · rintro i P w ⟨hi, _⟩
      exact absurd hi (hpipe i)
    · rintro i j P w ⟨hi, _⟩
      exact absurd hi (hpipe i)
    · rintro i P w w' ⟨hi, _⟩
      exact absurd hi (hpipe i)
  · simp only
    rw [hfree, List.length_append, List.length_reverse, 
      show framesBetween _ _ = highFrames from rfl,
      length_highFrames]
    omega

theorem inituvm_spec (h : Space A m D 4096 R)
    (habsent : flag (m.pte D 0) PTE_P = false) (hfree : 2 ≤ m.free.length) :
    wp (inituvm D initcode)
      (fun _ m' => Space A m' D 4096 R ∧ Keeps R m m' ∧ m.free.length ≤ m'.free.length + 2)
      (fun _ _ => 4096 ≤ initcode.length) m := by
  have hzero : (0 : Nat) < pages 4096 := by decide
  unfold inituvm
  rw [wp_ite]
  by_cases hlen : PGSIZE ≤ initcode.length
  · rw [if_pos hlen]
    exact hlen
  rw [if_neg hlen, wp_bind]
  refine wp_kalloc ?_ ?_
  · intro hnil
    rw [hnil] at hfree
    simp at hfree
  intro f l hcons
  obtain ⟨hspace, hkeeps⟩ := h.take (fun _ => 0) hcons
  have hown : Keeps (m.own D) m _ := hkeeps.left
  have hpte := hown.view.2.1
  rw [hcons, List.length_cons] at hfree ⊢
  simp only [memset, wp_bind, wp_modify]
  rw [show (0 : Nat) = 4096 * 0 from rfl]
  refine mappages_user_spec hspace.dir (by decide) (by decide) ?_ ?_ ?_
  · intro _ hP
    rw [hpte, habsent] at hP
    cases hP
  · intro hnil _
    have hl : l = [] := hnil
    rw [hl] at hfree
    simp at hfree
  intro m' hm' _
  have hspace' := hspace.map (.inl (by decide)) hzero hm'
  have hframe : m'.frameAt D 0 = some f := by
    rw [frameAt_eq, hm'.pte, Function.update_self]
    exact entryFrame_mkPte (by decide)
  obtain ⟨hspace'', hkeeps'', _⟩ := hspace'.setUser
    (fun j => initcode.getD j.val (m'.page f j)) (by decide) hframe
  have hroom := hm'.room
  rw [setPage_free] at hroom
  refine ⟨hspace'', hkeeps.right.trans (hm'.keeps.right.tail.trans hkeeps''), ?_⟩
  rw [setPage_free]
  simp only at hroom
  omega

theorem firstSlot_zero : firstSlot (fun _ => Proc.zero) (fun v => v.state = .unused) = some 0 := by
  decide

theorem userinit_spec (h : Inv A s) (hproc : s.proc = fun _ => Proc.zero)
    (hfree : 600 ≤ s.mem.free.length) :
    wp (userinit K initcode)
      (fun _ s' => Inv A s' ∧ (s'.proc 0).state = .runnable ∧
        s.mem.free.length ≤ s'.mem.free.length + 600)
      (fun _ _ => 4096 ≤ initcode.length) s := by
  have hunused : (s.proc 0).state = .unused := by rw [hproc]; rfl
  have hnp := slotFrames_unused h hunused
  have halloc : allocproc s.proc s.nextpid = some (0, set s.proc 0 ((s.proc 0).embryo s.nextpid),
      toInt32 (s.nextpid + 1)) := by
    rw [allocproc_eq_some]
    refine ⟨?_, rfl, rfl⟩
    rw [hproc]
    exact firstSlot_zero
  unfold userinit
  rw [wp_bind, wp_get, halloc]
  simp only [wp_bind, wp_modify, wp_onMem]
  refine wp_kalloc ?_ ?_
  · intro hnil
    rw [hnil] at hfree
    simp at hfree
  intro k l hcons
  rw [hcons, List.length_cons] at hfree ⊢
  have htaken : Uses A { s.mem with free := l } (k ::ₘ s.used) := h.uses.alloc hcons rfl
  simp only [wp_bind, wp_updProc, wp_modify, wp_onMem, set_set]
  refine wp_mono (setupkvm_spec htaken) ?_ fun _ _ he => he.elim
  rintro r m1 (⟨D, rfl, _, hfresh, hkeeps, _⟩ | ⟨_, _, _, _, hbound⟩)
  · have hcard := (show Uses A _ (0 + k ::ₘ s.used) by rwa [zero_add]).card_eq
      hfresh.dir.uses
    rw [card_zero] at hcard
    simp only at hcard
    have hown := hfresh.card_own_le
    have habsent : flag (m1.pte D 0) PTE_P = false := by
      rw [hfresh.pte_eq_zero (by decide), flag_zero]
    simp only [wp_bind, wp_updProc, wp_onMem, set_set]
    refine wp_post (inituvm_spec (hfresh.space (by decide)) habsent (by omega)) ?_
    rintro _ m2 ⟨hspace, hkeeps2, hroom⟩
    have hkeeps' : Keeps s.used s.mem m2 :=
      fun f hf => (hkeeps.trans hkeeps2) f (mem_cons_of_mem hf)
    simp only [set_self]
    refine ⟨?_, trivial, by omega⟩
    refine (h.newChild hnp hkeeps' hspace ?_ ?_ ?_ ?_).of_eq rfl rfl rfl rfl rfl rfl
    · exact alive_of_runnable rfl
    · rfl
    · rfl
    · rfl
  · simp only at hbound
    unfold kernelFrames at hbound
    omega

theorem main_spec (hK : K.Ok) (page : Nat → Page) :
    wp (main K initcode ncpu)
      (fun _ s' => Inv (pool hK) s' ∧ (s'.proc 0).state = .runnable ∧ 55000 ≤ s'.mem.free.length)
      (fun _ _ => ¬Room K initcode ncpu) (zeroed page) := by
  unfold main
  refine wp_seq (kinit1_spec hK page) ?_
  rintro _ s1 ⟨hs1, h1⟩
  rw [wp_bind]
  refine wp_mono (kvmalloc_spec hs1 h1) ?_ ?_
  · intro _ s2 h2
    rw [wp_bind]
    refine wp_mono (startOthers_spec h2) ?_ ?_
    · intro _ s3 h3
      refine wp_seq (kinit2_spec h3) ?_
      rintro _ s4 ⟨h4, hproc, hfree⟩
      refine wp_mono (userinit_spec h4 hproc (by omega)) ?_ ?_
      · rintro _ s5 ⟨h5, hrun, hfree5⟩
        exact ⟨h5, hrun, by omega⟩
      · intro _ _ hlen hroom
        have := hroom.init
        omega
    · intro _ _ hlen hroom
      have := hroom.low
      have := hroom.cpus
      omega
  · intro _ _ hlen hroom
    have := hroom.low
    omega

theorem Booted.facts (hK : K.Ok) (h : Booted K initcode ncpu s) :
    Inv (pool hK) s ∧ (s.proc 0).state = .runnable ∧ 55000 ≤ s.mem.free.length := by
  obtain ⟨page, hmain⟩ := h
  have hspec : wp (main K initcode ncpu) _ _ (zeroed page) := main_spec hK page
  exact wp_ok (Q := fun _ s' => Inv (pool hK) s' ∧ (s'.proc 0).state = .runnable ∧
    55000 ≤ s'.mem.free.length) hspec hmain

theorem exists_booted (hK : K.Ok) (hroom : Room K initcode ncpu) :
    ∃ s, Booted K initcode ncpu s := by
  obtain ⟨_, s, hmain, _⟩ := exists_ok (main_spec hK fun _ _ => 0) fun _ _ hc => hc hroom
  exact ⟨s, _, hmain⟩

theorem Inv.reachable (hK : K.Ok) (hboot : Booted K initcode ncpu s0)
    (hs : Reachable (Kernel.step K) s0 s) : Inv (pool hK) s := by
  obtain ⟨hinv, _⟩ := hboot.facts hK
  exact Reachable.invariant (Inv (pool hK)) hs hinv fun _ _ _ h hstep => h.step hstep

end Xv6.Kernel
