import Xv6.Console.Locks

/-!
# Writing to the console

`consolewrite` copies a buffer while it holds `cons.lock`, and `filewrite` gives it the bytes of
a long one in chunks.  It comes to the first byte whose page is missing, and no further.
-/

namespace Xv6.Console

open Lib Lib.Prog Ptable Vm

variable {K : Symbols} {A : Pool K} {s : State} {p : Slot} {D : Frame} {addr n j fuel i : Nat}
variable {α : Type} {Q : α → State → Prop} {E : Halt → State → Prop}

/-- The processor holds no spinlock; `b` says whether the process has the inode locked. -/
structure Quiet (b : Bool) (s : State) : Prop where
  held : s.held = fun _ => false
  locking : s.locking = true
  ipLocked : s.ipLocked = b

structure Busy (s : State) : Prop where
  held : s.held = Function.update (fun _ => false) .cons true
  locking : s.locking = true
  ipLocked : s.ipLocked = false

theorem Busy.held_cons (h : Busy s) : s.held .cons = true := by
  rw [h.held]
  rfl

theorem Busy.held_kmem (h : Busy s) : s.held .kmem = false := by
  rw [h.held]
  rfl

def Buffer (k : Kernel.State) (p : Slot) (D addr n : Nat) : Prop :=
  ∀ i < n, addr + i < (k.proc p).sz ∧ Present k D (addr + i)

structure Broken (k : Kernel.State) (p : Slot) (D addr n j : Nat) : Prop where
  lt : j < n
  inside : addr + j < (k.proc p).sz
  before : Buffer k p D addr j
  missing : ¬Present k D (addr + j)

theorem wp_enter {x : CM α} (h : Quiet true s)
    (hx : ∀ s', Busy s' → s'.kernel = s.kernel → s'.input = s.input → s'.events = s.events →
      wp x Q E s') :
    wp (do
      iunlock
      acquire .cons
      x) Q E s := by
  rw [wp_bind, wp_iunlock (by rw [h.held]) (by rw [h.held]) h.ipLocked, wp_bind,
    wp_acquire (by simp [h.held])]
  refine hx _ ⟨?_, h.locking, rfl⟩ rfl rfl rfl
  rw [h.held]

theorem wp_leave {x : CM α} (h : Busy s)
    (hx : ∀ s', Quiet true s' → s'.kernel = s.kernel → wp x Q E s') :
    wp (do
      release .cons
      ilock
      x) Q E s := by
  have hback : Function.update s.held .cons false = fun _ => false := by
    rw [h.held]
    exact update_back rfl
  rw [wp_bind, wp_release (by rw [h.held]; simp), wp_bind, wp_ilock (by simp [h.held])]
  exact hx _ ⟨hback, h.locking, rfl⟩ rfl

theorem Busy.write {a : Nat} (h : Busy s) (hcaller : Caller A s.kernel p D)
    (ha : a < (s.kernel.proc p).sz) (hP : Present s.kernel D a) :
    wp (do
      let c ← load K p a
      consputc c.toNat) (fun _ s' => Busy s' ∧ s'.kernel = s.kernel) (fun _ _ => False) s := by
  unfold load consputc
  rw [wp_bind, wp_bind, wp_access hcaller ha hP, wp_bind, wp_get, wp_pure, wp_modify]
  exact ⟨⟨h.held, h.locking, h.ipLocked⟩, rfl⟩

theorem consolewrite_safe (h : Quiet true s) (hcaller : Caller A s.kernel p D)
    (hbuf : Buffer s.kernel p D addr n) :
    wp (consolewrite K p addr n)
      (fun r s' => r = n ∧ Quiet true s' ∧ s'.kernel = s.kernel) (fun _ _ => False) s := by
  unfold consolewrite
  refine wp_enter h ?_
  intro s1 hbusy hk _ _
  rw [wp_bind]
  have hloop : wp (forEach (List.range n) fun i => do
      let c ← load K p (addr + i)
      consputc c.toNat) (fun _ s' => Busy s' ∧ s'.kernel = s.kernel) (fun _ _ => False) s1 := by
    refine wp_forEach ?_ ⟨hbusy, hk⟩
    rintro i hi t ⟨hbusy, hk⟩
    have hbyte := hbuf i (List.mem_range.mp hi)
    rw [← hk] at hbyte hcaller
    refine wp_post (hbusy.write hcaller hbyte.1 hbyte.2) ?_
    rintro _ t' ⟨hbusy', hk'⟩
    exact ⟨hbusy', hk'.trans hk⟩
  refine wp_post hloop ?_
  rintro _ s2 ⟨hbusy2, hk2⟩
  refine wp_leave hbusy2 ?_
  intro s3 hquiet hk3
  exact ⟨rfl, hquiet, hk3.trans hk2⟩

theorem consolewrite_panics (h : Quiet true s) (hcaller : Caller A s.kernel p D)
    (hbroken : Broken s.kernel p D addr n j) :
    wp (consolewrite K p addr n) (fun _ _ => False) (fun e _ => e = .acquire .cons) s := by
  unfold consolewrite
  refine wp_enter h ?_
  intro s1 hbusy hk _ _
  rw [wp_bind]
  have hloop : wp (forEach (List.range n) fun i => do
      let c ← load K p (addr + i)
      consputc c.toNat) (fun _ s' => n ≤ j ∧ Busy s' ∧ s'.kernel = s.kernel)
      (fun e _ => e = .acquire .cons) s1 := by
    refine wp_forEach_range (I := fun i s' => i ≤ j ∧ Busy s' ∧ s'.kernel = s.kernel) ?_
      ⟨Nat.zero_le j, hbusy, hk⟩
    rintro i hi t ⟨hij, hbusy, hk⟩
    rw [← hk] at hcaller hbroken
    rcases Nat.eq_or_lt_of_le hij with rfl | hlt
    · -- the page fault of this byte is the end
      unfold load
      rw [wp_bind]
      refine wp_seq (access_panics hcaller hbroken.inside hbusy.locking hbusy.held_cons
        hbusy.held_kmem hbroken.missing) ?_
      intro _ _ hc
      exact hc.elim
    · have hbyte := hbroken.before i hlt
      refine wp_mono (hbusy.write hcaller hbyte.1 hbyte.2) ?_ fun _ _ he => he.elim
      rintro _ t' ⟨hbusy', hk'⟩
      exact ⟨hlt, hbusy', hk'.trans hk⟩
  refine wp_post hloop ?_
  rintro _ s2 ⟨hc, _⟩
  exact absurd hbroken.lt (by omega)

theorem wp_chunk {x : CM Int} {y : Int → CM α} (h : Quiet false s)
    (hx : ∀ s', Quiet true s' → s'.kernel = s.kernel →
      wp x (fun r s'' => Quiet true s'' ∧ ∀ t, Quiet false t → t.kernel = s''.kernel →
        wp (y r) Q E t) E s') :
    wp (do
      beginOp
      ilock
      let r ← x
      iunlock
      endOp
      y r) Q E s := by
  rw [wp_bind, wp_beginOp (by rw [h.held]), wp_bind, wp_ilock (by simp [h.held])]
  refine wp_seq (hx _ ⟨h.held, h.locking, rfl⟩ rfl) ?_
  rintro r s'' ⟨hquiet, hy⟩
  rw [wp_bind, wp_iunlock (by rw [hquiet.held]) (by rw [hquiet.held]) hquiet.ipLocked, wp_bind,
    wp_endOp (by simp [hquiet.held]) (by simp [hquiet.held])]
  exact hy _ ⟨hquiet.held, hquiet.locking, rfl⟩ rfl

theorem writeLoop_safe (h : Quiet false s) (hcaller : Caller A s.kernel p D)
    (hbuf : Buffer s.kernel p D addr n) (hi : i ≤ n) (hfuel : n < i + fuel) :
    wp (writeLoop K p addr n fuel i) (fun _ _ => True) (fun _ _ => False) s := by
  induction fuel generalizing s i with
  | zero => omega
  | succ fuel ih =>
    unfold writeLoop
    rw [wp_ite]
    by_cases hlt : i < n
    · rw [if_pos hlt]
      have hchunk : 0 < min (n - i) maxChunk := by
        unfold maxChunk
        omega
      refine wp_chunk h ?_
      intro s1 hquiet hk
      rw [← hk] at hcaller hbuf
      refine wp_post (consolewrite_safe hquiet hcaller ?_) ?_
      · intro k hk'
        have hbyte := hbuf (i + k) (by omega)
        rwa [← Nat.add_assoc] at hbyte
      · rintro r s2 ⟨rfl, hquiet2, hk2⟩
        refine ⟨hquiet2, ?_⟩
        intro t ht hkt
        rw [← hk2, ← hkt] at hcaller hbuf
        rw [wp_ite, if_neg (by simp)]
        exact ih ht hcaller hbuf (by omega) (by omega)
    · rw [if_neg hlt]
      trivial

theorem writeLoop_panics (h : Quiet false s) (hcaller : Caller A s.kernel p D)
    (hbroken : Broken s.kernel p D addr n j) (hi : i ≤ j) (hfuel : n < i + fuel) :
    wp (writeLoop K p addr n fuel i) (fun _ _ => False) (fun e _ => e = .acquire .cons) s := by
  have hj := hbroken.lt
  induction fuel generalizing s i with
  | zero => omega
  | succ fuel ih =>
    unfold writeLoop
    rw [wp_ite, if_pos (by omega)]
    have hchunk : 0 < min (n - i) maxChunk := by
      unfold maxChunk
      omega
    refine wp_chunk h ?_
    intro s1 hquiet hk
    rw [← hk] at hcaller hbroken
    by_cases hin : j < i + min (n - i) maxChunk
    · -- the missing page is met in this chunk
      have hhere : Broken s1.kernel p D (addr + i) (min (n - i) maxChunk) (j - i) := by
        have hadd : addr + i + (j - i) = addr + j := by omega
        refine ⟨by omega, ?_, ?_, ?_⟩
        · rw [hadd]
          exact hbroken.inside
        · intro k hk'
          have hbyte := hbroken.before (i + k) (by omega)
          rwa [← Nat.add_assoc] at hbyte
        · rw [hadd]
          exact hbroken.missing
      refine wp_post (consolewrite_panics hquiet hcaller hhere) ?_
      intro _ _ hc
      exact hc.elim
    refine wp_mono (consolewrite_safe hquiet hcaller ?_) ?_ fun _ _ he => he.elim
    · intro k hk'
      have hbyte := hbroken.before (i + k) (by omega)
      rwa [← Nat.add_assoc] at hbyte
    · rintro r s2 ⟨rfl, hquiet2, hk2⟩
      refine ⟨hquiet2, ?_⟩
      intro t ht hkt
      rw [← hk2, ← hkt] at hcaller hbroken
      rw [wp_ite, if_neg (by simp)]
      exact ih ht hcaller hbroken (by omega) (by omega)

end Xv6.Console
