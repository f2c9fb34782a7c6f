import Xv6.Console.Console

/-!
# Locks and page faults of the console

What the functions do to the spinlocks that the processor holds.  A page fault in the kernel is
served like any other while the console is not locked; while it is, the message that
`handle_lazy_allocation` prints in every case is the panic of `acquire`.
-/

namespace Xv6.Console

open Lib Lib.Prog Ptable Vm Function

variable {s : State} {l : Lock} {E : Halt → State → Prop} {K : Symbols} {A : Pool K} {p : Slot}
variable {D a : Nat} {write : Bool} {k : Kernel.State} {Q : Unit → State → Prop}

theorem wp_acquire (h : s.held l = false) :
    wp (acquire l) Q E s ↔ Q () { s with held := update s.held l true } := by
  unfold acquire
  rw [wp_bind, wp_get, wp_ite, if_neg (by rw [h]; decide)]
  rfl

theorem wp_acquire_held (h : s.held l = true) : wp (acquire l) Q E s ↔ E (.acquire l) s := by
  unfold acquire
  rw [wp_bind, wp_get, wp_ite, if_pos h]
  rfl

theorem wp_release (h : s.held l = true) :
    wp (release l) Q E s ↔ Q () { s with held := update s.held l false } := by
  unfold release
  rw [wp_bind, wp_get, wp_ite, if_pos h]
  rfl

theorem update_back {held : Lock → Bool} (h : held l = false) :
    update (update held l true) l false = held := by
  rw [update_idem, ← h, update_eq_self]

theorem wp_onKernel {α : Type} {x : Kernel.KM α} {Q : α → State → Prop} :
    wp (onKernel x) Q E s ↔
      wp x (fun a k => Q a { s with kernel := k }) (fun e k => E (.kernel e) { s with kernel := k })
        s.kernel := by
  unfold wp onKernel
  rcases x s.kernel with ⟨e | a, k⟩
  · rfl
  · rfl

theorem wp_wakeup (h : s.held .ptable = false) : wp wakeup Q E s ↔ Q () s := by
  unfold wakeup
  rw [wp_bind, wp_acquire h, wp_release (by simp)]
  simp only [update_back h]

theorem wp_ilock (h : s.held .inode = false) :
    wp ilock Q E s ↔ Q () { s with ipLocked := true } := by
  unfold ilock
  rw [wp_bind, wp_acquire h, wp_bind, wp_modify, wp_release (by simp)]
  simp only [update_back h]

theorem wp_iunlock (h : s.held .inode = false)
    (hptable : s.held .ptable = false) (hlocked : s.ipLocked = true) :
    wp iunlock Q E s ↔ Q () { s with ipLocked := false } := by
  unfold iunlock
  rw [wp_bind, wp_acquire h, wp_bind, wp_release (by simp)]
  simp only [update_back h]
  rw [wp_bind, wp_get, wp_ite, if_pos hlocked, wp_bind, wp_acquire h, wp_bind, wp_modify, wp_bind,
    wp_wakeup (by simpa using hptable), wp_release (by simp)]
  simp only [update_back h]

theorem wp_beginOp (h : s.held .log = false) :
    wp beginOp Q E s ↔ Q () { s with outstanding := s.outstanding + 1 } := by
  unfold beginOp
  rw [wp_bind, wp_acquire h, wp_bind, wp_modify, wp_release (by simp)]
  simp only [update_back h]

theorem wp_endOp (h : s.held .log = false) (hptable : s.held .ptable = false) :
    wp endOp Q E s ↔ Q () { s with outstanding := s.outstanding - 1 } := by
  have hother : update s.held .log true .ptable = false := by simpa using hptable
  unfold endOp
  rw [wp_bind, wp_acquire h, wp_bind, wp_modify, wp_bind, wp_get, wp_ite]
  simp only
  split
  · rw [wp_bind, wp_release (by simp)]
    simp only [update_back h]
    rw [wp_bind, wp_acquire (by exact h), wp_bind, wp_wakeup (by exact hother),
      wp_release (by simp)]
    simp only [update_back h]
  · rw [wp_bind, wp_wakeup (by exact hother), wp_release (by simp)]
    simp only [update_back h]

theorem wp_cprintf_held {fmt : String} {args : List Arg}
    (hlocking : s.locking = true) (h : s.held .cons = true) :
    wp (cprintf fmt args) Q E s ↔ E (.acquire .cons) s := by
  unfold cprintf
  rw [wp_bind, wp_get, wp_ite, if_pos hlocking, wp_bind, wp_acquire_held h]

theorem wp_kalloc {Q : Option Frame → State → Prop} (h : s.held .kmem = false) :
    wp kalloc Q E s ↔ wp (Kernel.onMem Vm.kalloc) (fun r k => Q r { s with kernel := k })
        (fun e k => E (.kernel e)
          { s with held := update s.held .kmem true, kernel := k }) s.kernel := by
  unfold kalloc
  rw [wp_bind, wp_acquire h, wp_bind, wp_onKernel]
  apply iff_of_eq
  congr 1
  funext r k
  rw [wp_bind, wp_release (by simp), wp_pure]
  simp only [update_back h]

theorem wp_walkLock (h : s.held .kmem = false) : wp (walkLock D a) Q E s ↔ Q () s := by
  unfold walkLock
  rw [wp_bind, wp_get, wp_ite]
  split
  · rfl
  · rw [wp_bind, wp_acquire h, wp_release (by simp)]
    simp only [update_back h]

/-- The page of an address is there. -/
def Present (k : Kernel.State) (D a : Nat) : Prop :=
  flag (k.mem.pte D (a / 4096)) PTE_P = true

structure Caller (A : Pool K) (k : Kernel.State) (p : Slot) (D : Frame) : Prop where
  inv : Kernel.Inv A k
  state : (k.proc p).state = .runnable
  pgdir : (k.proc p).pgdir = some D

theorem Caller.space (h : Caller A k p D) :
    Space A k.mem D (k.proc p).sz (Kernel.stackOf (k.proc p) + k.rest p) := by
  obtain ⟨D', hD', hspace⟩ := h.inv.toSpace (Kernel.alive_of_runnable h.state)
  obtain rfl : D' = D := Option.some.inj (hD'.symm.trans h.pgdir)
  exact hspace

theorem Caller.translate (h : Caller A k p D) (ha : a < (k.proc p).sz) (hP : Present k D a) :
    k.mem.translate D false write a = some (pteFrame (k.mem.pte D (a / 4096))) := by
  have hspace := h.space
  have hsize := hspace.size
  unfold KERNBASE at hsize
  apply hspace.translate_of_allowed
  · omega
  · rcases hspace.rights (a / 4096) (by unfold userPages; omega) hP with h7 | h3
    · exact allowed_seven h7
    · exact allowed_three h3

theorem Caller.not_translated (h : Caller A k p D) (ha : a < (k.proc p).sz)
    (hP : ¬Present k D a) : k.mem.translate D false write a = none := by
  have hsize := h.space.size
  unfold KERNBASE at hsize
  cases htr : k.mem.translate D false write a with
  | none => rfl
  | some f =>
    have hframe := (translate_some (by omega) htr).1
    have hmissing : flag (k.mem.pte D (a / 4096)) PTE_P = false := by simpa [Present] using hP
    rw [frameAt_eq, entryFrame_of_flag hmissing] at hframe
    cases hframe

section
variable (h : Caller A s.kernel p D)
include h

theorem handleLazyAllocation_panics (hlocking : s.locking = true)
    (hcons : s.held .cons = true) (hkmem : s.held .kmem = false) (hP : ¬Present s.kernel D a) :
    wp (handleLazyAllocation K p D a) (fun _ _ => False) (fun e _ => e = .acquire .cons) s := by
  have hspace := h.space
  unfold handleLazyAllocation
  rw [wp_bind, wp_get, wp_ite]
  by_cases hhigh : (s.kernel.proc p).sz ≤ a
  · rw [if_pos hhigh, wp_bind, wp_cprintf_held hlocking hcons]
  rw [if_neg hhigh, wp_ite]
  by_cases hlow : a < PGSIZE
  · rw [if_pos hlow, wp_bind, wp_cprintf_held hlocking hcons]
  rw [if_neg hlow, wp_bind, wp_kalloc hkmem, Kernel.wp_onMem]
  have hv : a / 4096 < pages (s.kernel.proc p).sz := lt_pages.mpr (by omega)
  have hvu : a / 4096 < userPages := lt_of_lt_of_le hv (pages_le hspace.size)
  have hdown : PGROUNDDOWN a = 4096 * (a / 4096) := by
    unfold PGROUNDDOWN
    omega
  refine Vm.wp_kalloc ?_ ?_
  · intro _
    simp only [wp_bind]
    rw [wp_cprintf_held (by exact hlocking) (by exact hcons)]
  intro f l hfree
  obtain ⟨hspace', hkeeps⟩ := hspace.take (fun _ => 0) hfree
  have hown : Keeps (s.kernel.mem.own D) s.kernel.mem _ :=
    hkeeps.left
  simp only [wp_bind, wp_onKernel, Kernel.wp_onMem, memset, wp_modify]
  unfold mappages
  rw [wp_bind, wp_walkLock (by exact hkmem), wp_onKernel, Kernel.wp_onMem, hdown]
  refine mappages_user_table hspace'.dir hvu (by decide) ?_ ?_ ?_
  · intro _ hc
    rw [hown.view.2.1] at hc
    exact absurd hc hP
  · intro _ _
    rw [wp_ite, if_pos (by omega), wp_bind, wp_cprintf_held (by exact hlocking) (by exact hcons)]
  · intro m' _ _
    rw [wp_ite, if_neg (by omega), wp_bind, wp_cprintf_held (by exact hlocking) (by exact hcons)]

theorem wp_access {Q : Frame → State → Prop}
    (ha : a < (s.kernel.proc p).sz) (hP : Present s.kernel D a) :
    wp (access K p write a) Q E s ↔ Q (pteFrame (s.kernel.mem.pte D (a / 4096))) s := by
  unfold access
  rw [wp_bind, wp_onKernel, Kernel.wp_pgdirOf h.pgdir, wp_bind, wp_get]
  simp only [h.translate ha hP]
  rw [wp_pure]

theorem access_panics (ha : a < (s.kernel.proc p).sz)
    (hlocking : s.locking = true) (hcons : s.held .cons = true) (hkmem : s.held .kmem = false)
    (hP : ¬Present s.kernel D a) :
    wp (access K p write a) (fun _ _ => False) (fun e _ => e = .acquire .cons) s := by
  unfold access pageFault
  rw [wp_bind, wp_onKernel, Kernel.wp_pgdirOf h.pgdir, wp_bind, wp_get]
  simp only [h.not_translated ha hP, wp_bind, wp_get]
  refine wp_post (handleLazyAllocation_panics h hlocking hcons hkmem hP) ?_
  intro _ _ hc
  exact hc.elim

end

theorem Caller.setByteAt (h : Caller A k p D) (ha : a < (k.proc p).sz)
    (hP : Present k D a) (b : UInt8) :
    Caller A { k with mem := Kernel.setByteAt k.mem (pteFrame (k.mem.pte D (a / 4096))) a b } p D ∧
      (Kernel.setByteAt k.mem (pteFrame (k.mem.pte D (a / 4096))) a b).pte D = k.mem.pte D := by
  have hspace := h.space
  have hsize := hspace.size
  unfold KERNBASE at hsize
  obtain ⟨hspace', hkeeps, hpte, _⟩ := hspace.setUser _ (v := a / 4096)
    (by unfold userPages; omega) (frameAt_of_flag hP)
  exact ⟨⟨h.inv.setMem (Kernel.alive_of_runnable h.state) h.pgdir hkeeps hspace', h.state,
    h.pgdir⟩, hpte⟩

end Xv6.Console
