import Xv6.Kernel.Reach

/-!
# `sbrk`

What `sbrk` is to do: move the end of the process by `n` bytes, or return -1 and change
nothing.  It does so unless the process asks to give back all of its memory or more.  The
size 0 that `deallocuvm` then returns is what `growproc` takes for an error, after the pages
are gone; and an end below 0 wraps around to one above the old one, which `deallocuvm` lets
pass without doing anything.
-/

namespace Xv6.Kernel

open Lib Lib.Prog Ptable Vm

variable {K : Symbols} {A : Pool K} {initcode : List UInt8} {ncpu k : Nat} {s₀ s s' : State}
variable {p : Slot} {D : Frame} {n : Int} {R : Multiset Nat} {m : Mem}

def InRange (sz : Nat) (n : Int) : Prop :=
  0 < sz + n ∧ sz + n < KERNBASE ∨ n = 0 ∨ sz + n = 0

def Suffices (m : Mem) (D : Frame) (sz : Nat) (n : Int) : Prop :=
  0 < n → growFrames m D sz (sz + n).toNat ≤ m.free.length

/-- What `sbrk` is to do. -/
structure Exact (s : State) (p : Slot) (D : Frame) (n r : Int) (s' : State) : Prop where
  moved : InRange (s.proc p).sz n → Suffices s.mem D (s.proc p).sz n →
    r = (s.proc p).sz ∧ ((s'.proc p).sz : Int) = (s.proc p).sz + n ∧
      ∀ u < userPages, pages ((s.proc p).sz + n).toNat ≤ u → s'.mem.mapping D u = none
  refused : ¬(InRange (s.proc p).sz n ∧ Suffices s.mem D (s.proc p).sz n) → r = -1
  unchanged : r = -1 → (s'.proc p).sz = (s.proc p).sz ∧ s'.mem.mapping D = s.mem.mapping D
  pgdir : (s'.proc p).pgdir = some D

def resized (s : State) (p : Slot) (m : Mem) (sz : Nat) : State :=
  { s with mem := m, proc := set s.proc p { s.proc p with sz := sz } }

theorem wp_sbrk {Q : Int → State → Prop} {E : Stop → State → Prop} (hD : (s.proc p).pgdir = some D)
    (hn : n ≠ 0) :
    wp (sbrk K p n) Q E s ↔
      wp (if 0 < n then allocuvm K D (s.proc p).sz ((((s.proc p).sz : Int) + n) % 2 ^ 32).toNat
          else deallocuvm K D (s.proc p).sz ((((s.proc p).sz : Int) + n) % 2 ^ 32).toNat)
        (fun r m => if r = 0 then Q (-1) { s with mem := m }
          else Q (s.proc p).sz (resized s p m r))
        (fun e m => E e { s with mem := m }) s.mem := by
  unfold sbrk
  rw [wp_bind, wp_get, wp_bind, wp_pgdirOf hD, wp_ite, if_neg hn, wp_bind, wp_onMem]
  apply iff_of_eq
  congr 1
  funext r m
  rw [wp_ite]
  rfl

theorem resized_proc (m : Mem) (sz : Nat) :
    (resized s p m sz).proc p = { s.proc p with sz := sz } := by
  unfold resized
  simp only [set_self]

theorem mapping_above {sz : Nat} (h : Space A m D sz R) :
    ∀ u < userPages, pages sz ≤ u → m.mapping D u = none := by
  intro u hu hlo
  exact mapping_of_absent (h.absent hu hlo)

theorem Exact.of_space (hspace : Space A s'.mem D (s'.proc p).sz R)
    (hD : (s'.proc p).pgdir = some D) (hsz : ((s'.proc p).sz : Int) = (s.proc p).sz + n)
    (hsuffices : Suffices s.mem D (s.proc p).sz n) : Exact s p D n (s.proc p).sz s' := by
  have hsize := hspace.size
  have hrange : InRange (s.proc p).sz n := by
    unfold InRange
    omega
  constructor
  · intro _ _
    rw [← hsz, Int.toNat_natCast]
    exact ⟨rfl, rfl, mapping_above hspace⟩
  · intro hno
    exact absurd ⟨hrange, hsuffices⟩ hno
  · intro hneg
    omega
  · exact hD

theorem Exact.of_resized {sz : Nat} (hD : (s.proc p).pgdir = some D)
    (hspace : Space A m D sz R) (hsz : (sz : Int) = (s.proc p).sz + n)
    (hsuffices : Suffices s.mem D (s.proc p).sz n) :
    Exact s p D n (s.proc p).sz (resized s p m sz) := by
  apply Exact.of_space
  · rw [resized_proc]
    exact hspace
  · rw [resized_proc]
    exact hD
  · rw [resized_proc]
    exact hsz
  · exact hsuffices

theorem Exact.of_refused (hD : (s.proc p).pgdir = some D) (hmap : m.mapping D = s.mem.mapping D)
    (hno : ¬(InRange (s.proc p).sz n ∧ Suffices s.mem D (s.proc p).sz n)) :
    Exact s p D n (-1) { s with mem := m } := by
  constructor
  · intro hrange hsuffices
    exact absurd ⟨hrange, hsuffices⟩ hno
  · intro _
    rfl
  · intro _
    exact ⟨rfl, hmap⟩
  · exact hD

theorem sbrk_grow (hspace : Space A s.mem D (s.proc p).sz R) (hD : (s.proc p).pgdir = some D)
    (hpos : 0 < n) (hn : n < 2 ^ 31) : wp (sbrk K p n) (Exact s p D n) (fun _ _ => False) s := by
  have hsize := hspace.size
  obtain ⟨k, rfl⟩ := Int.eq_ofNat_of_zero_le hpos.le
  have hnew : ((((s.proc p).sz : Int) + k) % 2 ^ 32).toNat = (s.proc p).sz + k := by
    unfold KERNBASE at hsize
    omega
  rw [wp_sbrk hD (by omega), if_pos hpos, hnew]
  by_cases hbig : KERNBASE ≤ (s.proc p).sz + k
  · unfold allocuvm
    rw [wp_ite, if_pos hbig]
    refine Exact.of_refused hD rfl ?_
    rintro ⟨hrange, _⟩
    unfold InRange at hrange
    omega
  refine wp_post (allocuvm_grow hspace (by omega) (by omega)) ?_
  have hsum : ((s.proc p).sz + (k : Int)).toNat = (s.proc p).sz + k := by omega
  rintro r m (⟨rfl, hspace', hroom⟩ | ⟨rfl, hmap, hroom⟩)
  · rw [if_neg (by omega)]
    refine Exact.of_resized hD hspace' (by omega) ?_
    intro _
    rw [hsum]
    exact hroom
  · rw [if_pos rfl]
    refine Exact.of_refused hD hmap ?_
    rintro ⟨_, hsuffices⟩
    have := hsuffices hpos
    rw [hsum] at this
    omega

theorem sbrk_lazy (hD : (s.proc p).pgdir = some D) (hmany : 8192 < k)
    (hsize : (s.proc p).sz + k < KERNBASE) :
    sbrk K p k s = (.ok ((s.proc p).sz : Int), resized s p s.mem ((s.proc p).sz + k)) := by
  have hnew : ((((s.proc p).sz : Int) + k) % 2 ^ 32).toNat = (s.proc p).sz + k := by
    unfold KERNBASE at hsize
    omega
  have hspec : wp (sbrk K p k)
      (fun r s' => r = (s.proc p).sz ∧ s' = resized s p s.mem ((s.proc p).sz + k))
      (fun _ _ => False) s := by
    rw [wp_sbrk hD (by omega), if_pos (by omega), hnew]
    unfold allocuvm
    rw [wp_ite, if_neg (by omega), wp_ite, if_neg (by omega), wp_ite, if_neg (by omega), wp_pure,
      if_neg (by omega)]
    exact ⟨rfl, rfl⟩
  obtain ⟨r, s', hrun, rfl, rfl⟩ := exists_ok hspec fun _ _ hc => hc
  exact hrun

section
variable (hspace : Space A s.mem D (s.proc p).sz R) (hD : (s.proc p).pgdir = some D)
include hspace hD

theorem sbrk_shrink
    (hneg : n < 0) (hn : -2 ^ 31 ≤ n) (hleft : 0 < (s.proc p).sz + n ∨ (s.proc p).sz = 0) :
    wp (sbrk K p n) (Exact s p D n) (fun _ _ => False) s := by
  have hsize := hspace.size
  have hsuffices : Suffices s.mem D (s.proc p).sz n := fun hpos => by omega
  unfold KERNBASE at hsize
  rw [wp_sbrk hD (by omega), if_neg (by omega)]
  generalize hnew : ((((s.proc p).sz : Int) + n) % 2 ^ 32).toNat = newsz
  refine wp_post (deallocuvm_spec hspace.dir (le_of_lt hspace.size)) ?_
  rintro r m ⟨rfl, hd⟩
  by_cases hzero : (s.proc p).sz = 0
  · rw [hzero, Nat.zero_min, if_pos rfl]
    refine Exact.of_refused hD ?_ ?_
    · funext u
      refine mapping_congr ?_
      rw [hd.pte u, if_neg (by omega)]
    · rintro ⟨hrange, _⟩
      unfold InRange at hrange
      omega
  · have hsz : (newsz : Int) = (s.proc p).sz + n := by omega
    rw [Nat.min_eq_right (by omega), if_neg (by omega)]
    exact Exact.of_resized hD (hd.space hspace (by omega)) hsz hsuffices

theorem sbrk_all (hsz : 0 < (s.proc p).sz) (hall : (s.proc p).sz + n = 0) :
    wp (sbrk K p n)
      (fun r s' => r = -1 ∧ (s'.proc p).sz = (s.proc p).sz ∧
        ∀ u < userPages, s'.mem.mapping D u = none)
      (fun _ _ => False) s := by
  rw [wp_sbrk hD (by omega), if_neg (by omega), hall]
  refine wp_post (deallocuvm_spec hspace.dir (le_of_lt hspace.size)) ?_
  rintro r m ⟨rfl, hd⟩
  rw [if_pos (by simp)]
  refine ⟨rfl, rfl, ?_⟩
  intro u hu
  exact mapping_of_absent (hd.absent hspace hu (Nat.zero_le u))

theorem sbrk_below (hn : -2 ^ 31 ≤ n) (hsz : 0 < (s.proc p).sz) (hbelow : (s.proc p).sz + n < 0) :
    wp (sbrk K p n) (fun r _ => r = (s.proc p).sz) (fun _ _ => False) s := by
  have hsize := hspace.size
  unfold KERNBASE at hsize
  rw [wp_sbrk hD (by omega), if_neg (by omega)]
  refine wp_post (deallocuvm_spec hspace.dir (le_of_lt hspace.size)) ?_
  rintro r m ⟨rfl, _⟩
  -- the end below 0 has wrapped around
  rw [Nat.min_eq_left (by omega), if_neg (by omega)]

end

/--
In every state that the machine reaches and for every `n`, `sbrk` moves the end of the
process by `n` or changes nothing, if and only if the process does not ask for the end 0 or
below, except where it is empty already.
-/
theorem sbrk_exact_iff (hK : K.Ok) (hboot : Booted K initcode ncpu s₀)
    (hs : Reachable (Kernel.step K) s₀ s) (hp : (s.proc p).state = .runnable)
    (hD : (s.proc p).pgdir = some D) (hn : -2 ^ 31 ≤ n ∧ n < 2 ^ 31) :
    ∃ r s', sbrk K p n s = (.ok r, s') ∧
      (Exact s p D n r s' ↔ 0 ≤ n ∨ 0 < (s.proc p).sz + n ∨ (s.proc p).sz = 0) := by
  have hspace := (Inv.reachable hK hboot hs).spaceAt (alive_of_runnable hp) hD
  by_cases hgood : 0 ≤ n ∨ 0 < (s.proc p).sz + n ∨ (s.proc p).sz = 0
  · have hspec : wp (sbrk K p n) (Exact s p D n) (fun _ _ => False) s := by
      rcases lt_trichotomy n 0 with hneg | rfl | hpos
      · exact sbrk_shrink hspace hD hneg hn.1 (by omega)
      · unfold sbrk
        rw [wp_bind, wp_get, wp_bind, wp_pgdirOf hD, wp_ite, if_pos rfl]
        exact Exact.of_space hspace hD (by omega) fun hpos => absurd hpos (lt_irrefl 0)
      · exact sbrk_grow hspace hD hpos hn.2
    obtain ⟨r, s', hrun, hexact⟩ := exists_ok hspec fun _ _ hc => hc
    exact ⟨r, s', hrun, iff_of_true hexact hgood⟩
  by_cases hall : (s.proc p).sz + n = 0
  · obtain ⟨r, s', hrun, hr, _⟩ :=
      exists_ok (sbrk_all hspace hD (by omega) hall) fun _ _ hc => hc
    refine ⟨r, s', hrun, iff_of_false ?_ hgood⟩
    intro hexact
    have hmoved := hexact.moved (.inr (.inr hall)) fun hpos => absurd hpos (by omega)
    omega
  obtain ⟨r, s', hrun, hr⟩ :=
    exists_ok (sbrk_below hspace hD hn.1 (by omega) (by omega)) fun _ _ hc => hc
  refine ⟨r, s', hrun, iff_of_false ?_ hgood⟩
  intro hexact
  have hrange : ¬InRange (s.proc p).sz n := by
    unfold InRange
    omega
  have hrefused := hexact.refused fun hc => hrange hc.1
  omega

/-- The first process after boot asks for one more page. -/
theorem sbrk_one_page :
    ∃ s D r s', Booted sampleSymbols [] 1 s ∧ (s.proc 0).pgdir = some D ∧
      sbrk sampleSymbols 0 4096 s = (.ok r, s') ∧ Exact s 0 D 4096 r s' := by
  obtain ⟨s, hboot⟩ := exists_booted sampleSymbols_ok sampleSymbols_room
  obtain ⟨hinv, hrun, _⟩ := hboot.facts sampleSymbols_ok
  obtain ⟨D, hD, _⟩ := hinv.toSpace (alive_of_runnable hrun)
  obtain ⟨r, s', hsbrk, hiff⟩ :=
    sbrk_exact_iff sampleSymbols_ok hboot (Reachable.init s) hrun hD
      (show -2 ^ 31 ≤ (4096 : Int) ∧ (4096 : Int) < 2 ^ 31 by decide)
  exact ⟨s, D, r, s', hboot, hD, hsbrk, hiff.mpr (.inl (by decide))⟩

/--
A process of three pages gives back all of them.  The new end 0 is allowed, but `sbrk`
returns -1, with the size as before and the pages gone; so its guard page is not mapped any
more.
-/
theorem sbrk_everything_fails :
    ∃ s₀ s D s', Booted sampleSymbols [] 1 s₀ ∧ Reachable (Kernel.step sampleSymbols) s₀ s ∧
      (s.proc 0).state = .runnable ∧ (s.proc 0).pgdir = some D ∧ (s.proc 0).sz = 12288 ∧
      sbrk sampleSymbols 0 (-12288) s = (.ok (-1), s') ∧ (s'.proc 0).sz = 12288 ∧
      (s.mem.mapping D 1).isSome ∧ s'.mem.mapping D 1 = none := by
  obtain ⟨s₀, s, D, hboot, hs, hstate, hD, hsz, hguard, _⟩ := exists_guard_page
  have hspace := (Inv.reachable sampleSymbols_ok hboot hs).spaceAt (alive_of_runnable hstate) hD
  have hP := present_of_guarded hguard
  obtain ⟨r, s', hsbrk, rfl, hsz', hgone⟩ :=
    exists_ok (sbrk_all (n := -12288) hspace hD (by omega) (by omega)) fun _ _ hc => hc
  refine ⟨s₀, s, D, s', hboot, hs, hstate, hD, hsz, hsbrk, hsz'.trans hsz, ?_, ?_⟩
  · unfold Mem.mapping
    rw [if_pos hP]
    rfl
  · exact hgone 1 (by decide)

end Xv6.Kernel
