import Xv6.Kernel.Reach
import Xv6.Vm.Valid

/-!
# When `exec` returns

`exec` as a system call, in any state in which every page has one owner: it returns 0,
returns -1 or stops the kernel as its plan says.  From the plan follows which files and
arguments make it return, and which valid programs it starts.
-/

namespace Xv6.Kernel

open Lib Lib.Prog Ptable Vm

variable {K : Symbols} {A : Pool K} {s : State} {p : Slot} {ip : Vm.File} {argv : List (List UInt8)}

theorem execFile_ok_iff (h : Inv A s) (hp : (s.proc p).state = .runnable) :
    (∃ r s', execFile K p (some ip) argv s = (.ok r, s') ∧ (r = 0 ∨ r = -1)) ↔
      planExec ip argv s.mem.free.length ≠ .stop := by
  have hspec : wp (execFile K p (some ip) argv) _ _ s := execFile_plan h hp
  unfold wp at hspec
  cases hrun : execFile K p (some ip) argv s with
  | mk r s' =>
    rw [hrun] at hspec
    cases r with
    | error e =>
      constructor
      · rintro ⟨r, t, heq, _⟩
        cases heq
      · intro hne
        exact absurd hspec.plan hne
    | ok r =>
      constructor
      · intro _ hstop
        rcases hspec.2 with ⟨_, hplan⟩ | ⟨_, hplan, _⟩
        · cases hplan.symm.trans hstop
        · cases hplan.symm.trans hstop
      · intro _
        exact ⟨r, s', rfl, (hspec.2.imp And.left And.left).symm⟩

theorem execFile_zero_iff (h : Inv A s) (hp : (s.proc p).state = .runnable) :
    (∃ s', execFile K p (some ip) argv s = (.ok 0, s')) ↔
      planExec ip argv s.mem.free.length = .more () := by
  constructor
  · rintro ⟨s', hrun⟩
    rcases (wp_ok (execFile_plan h hp) hrun).2 with ⟨hr, _⟩ | ⟨_, hplan, _⟩
    · cases hr
    · exact hplan
  · intro hplan
    obtain ⟨s', hrun, _⟩ := execFile_starts (K := K) h hp hplan
    exact ⟨s', hrun⟩

theorem execFile_no_pages (sz : Nat) (h : Inv A s) (hp : (s.proc p).state = .runnable)
    (hip : ip.IsElf) (hfree : kernelFrames ≤ s.mem.free.length)
    (himage : ∀ room, planImage room ip = .more (sz, ∅))
    (halloc : ∀ room, planAlloc room ∅ (4096 * pages sz) (4096 * pages sz + 8192) =
      .more (4096 * pages sz + 8192, ∅)) :
    ∃ s', execFile K p (some ip) argv s = (.error .clearpteu, s') := by
  obtain ⟨D, hD, hspace⟩ := h.toSpace (alive_of_runnable hp)
  have hspec : wp (execFile K p (some ip) argv) (fun _ _ => False) (fun e _ => e = .clearpteu)
      s := by
    unfold execFile
    rw [wp_bind, wp_get]
    simp only [wp_bind, wp_onMem]
    refine wp_post (exec_no_pages hspace.dir.uses hip hfree himage halloc) ?_
    intro _ _ hfalse
    exact hfalse.elim
  unfold wp at hspec
  cases hrun : execFile K p (some ip) argv s with
  | mk r s' =>
    rw [hrun] at hspec
    cases r with
    | ok r => exact hspec.elim
    | error e => exact ⟨s', by rw [show e = .clearpteu from hspec]⟩

/--
A valid program is started if and only if its image has at most nine pages and its
arguments, padded as `exec` pads them, fit in the stack page.
-/
theorem exec_starts_iff (h : Inv A s) (hp : (s.proc p).state = .runnable) (hip : ip.Valid)
    (hargc : argv.length < MAXARG) (hfit : stringBytes argv + ustackBytes argv.length ≤ 4096)
    (hfree : ip.demand ≤ s.mem.free.length) :
    (∃ s', execFile K p (some ip) argv s = (.ok 0, s')) ↔
      pages ip.top < 10 ∧ stackBytes argv ≤ 4096 := by
  rw [execFile_zero_iff h hp]
  exact planExec_iff hip hargc hfit hfree

/-- A program of one page without arguments is started after boot. -/
theorem exec_starts_one_page :
    ∃ s s', Booted sampleSymbols [] 1 s ∧
      execFile sampleSymbols 0 (some bssFile) [] s = (.ok 0, s') := by
  obtain ⟨s, hboot⟩ := exists_booted sampleSymbols_ok sampleSymbols_room
  obtain ⟨hinv, hrun, hfree⟩ := hboot.facts sampleSymbols_ok
  have hdemand := bssFile_demand
  have hiff : (∃ s', execFile sampleSymbols 0 (some bssFile) [] s = (.ok 0, s')) ↔ _ :=
    exec_starts_iff hinv hrun bssFile_valid (by decide) (by decide) (by omega)
  obtain ⟨s', hs'⟩ := hiff.mpr ⟨by decide, by decide⟩
  exact ⟨s, s', hboot, hs'⟩

def tenPageBytes : List UInt8 :=
  [0x7f, 0x45, 0x4c, 0x46] ++ List.replicate 24 0 ++ [52, 0, 0, 0] ++ List.replicate 12 0 ++
    [1, 0] ++ List.replicate 6 0 ++ [1, 0, 0, 0] ++ List.replicate 17 0 ++ [160, 0, 0] ++
    List.replicate 8 0

def tenPageFile : Vm.File where
  size := tenPageBytes.length
  data := fun i => tenPageBytes.getD i 0

theorem tenPageFile_segments :
    tenPageFile.segments tenPageFile.elfhdr.phoff tenPageFile.elfhdr.phnum = [bssSegment 40960] :=
  rfl

theorem tenPageFile_valid : tenPageFile.Valid := by
  refine ⟨by decide, by decide, by decide, ?_, ?_⟩
  · rw [tenPageFile_segments]
    intro ph hph
    rw [List.mem_singleton.mp hph]
    exact bssSegment_valid (by decide) (by decide) _
  · rw [tenPageFile_segments]
    simp

/-- A valid program of ten pages: `clearpteu` panics. -/
theorem exec_panics_on_ten_pages :
    ∃ s s', Booted sampleSymbols [] 1 s ∧ tenPageFile.Valid ∧
      tenPageFile.demand ≤ s.mem.free.length ∧
      execFile sampleSymbols 0 (some tenPageFile) [] s = (.error .clearpteu, s') := by
  obtain ⟨s, hboot⟩ := exists_booted sampleSymbols_ok sampleSymbols_room
  obtain ⟨hinv, hrun, hfree⟩ := hboot.facts sampleSymbols_ok
  have hdemand : tenPageFile.demand ≤ 78 := by
    unfold Vm.File.demand Vm.File.imagePages
    rw [tenPageFile_segments]
    decide
  obtain ⟨s', hs'⟩ : ∃ s', execFile sampleSymbols 0 (some tenPageFile) [] s =
      (.error .clearpteu, s') :=
    execFile_no_pages 40960 hinv hrun (by decide) (by unfold kernelFrames; omega)
      (fun _ => rfl) (fun _ => rfl)
  exact ⟨s, s', hboot, tenPageFile_valid, by omega, hs'⟩

/--
`exec` of any file returns 0 or -1 if and only if it is no ELF file, the kernel part of the
new address space cannot be made, or the headers, the lengths of the arguments and the number
of free pages are such that nothing stops the kernel.
-/
theorem exec_returns_iff (h : Inv A s) (hp : (s.proc p).state = .runnable) :
    (∃ r s', execFile K p (some ip) argv s = (.ok r, s') ∧ (r = 0 ∨ r = -1)) ↔
      (ip.IsElf → kernelFrames ≤ s.mem.free.length →
        Robust (s.mem.free.length - kernelFrames) ip argv) := by
  rw [execFile_ok_iff h hp]
  unfold planExec
  by_cases hc : ip.IsElf ∧ kernelFrames ≤ s.mem.free.length
  · rw [if_pos hc, ← robust_iff]
    exact ⟨fun hrobust _ _ => hrobust, fun hrobust => hrobust hc.1 hc.2⟩
  · rw [if_neg hc]
    constructor
    · intro _ helf hfree
      exact absurd ⟨helf, hfree⟩ hc
    · intro _ hstop
      cases hstop

theorem bssFile_robust {free : Nat} (hfree : bssFile.demand ≤ free) :
    Robust (free - kernelFrames) bssFile [] := by
  have hplan : planExec bssFile [] free = .more () :=
    (planExec_iff bssFile_valid (by decide) (by decide) hfree).mpr ⟨by decide, by decide⟩
  unfold planExec at hplan
  rw [robust_iff]
  split at hplan
  · rw [hplan]
    simp
  · cases hplan

/-- After boot `exec` of a small program returns. -/
theorem exec_returns_one_page :
    ∃ s r s', Booted sampleSymbols [] 1 s ∧
      execFile sampleSymbols 0 (some bssFile) [] s = (.ok r, s') ∧ (r = 0 ∨ r = -1) := by
  obtain ⟨s, hboot⟩ := exists_booted sampleSymbols_ok sampleSymbols_room
  obtain ⟨hinv, hrun, hfree⟩ := hboot.facts sampleSymbols_ok
  have hdemand := bssFile_demand
  have hiff : (∃ r s', execFile sampleSymbols 0 (some bssFile) [] s = (.ok r, s') ∧
      (r = 0 ∨ r = -1)) ↔ _ := exec_returns_iff hinv hrun
  obtain ⟨r, s', hs'⟩ := hiff.mpr fun _ _ => bssFile_robust (by omega)
  exact ⟨s, r, s', hboot, hs'⟩

def headerBytes : List UInt8 :=
  [0x7f, 0x45, 0x4c, 0x46] ++ List.replicate 48 0

def headerFile : Vm.File where
  size := headerBytes.length
  data := fun i => headerBytes.getD i 0

/-- A file that is only an ELF header, with no segment: `clearpteu` panics. -/
theorem exec_panics_on_header :
    ∃ s s', Booted sampleSymbols [] 1 s ∧
      execFile sampleSymbols 0 (some headerFile) [] s = (.error .clearpteu, s') := by
  obtain ⟨s, hboot⟩ := exists_booted sampleSymbols_ok sampleSymbols_room
  obtain ⟨hinv, hrun, hfree⟩ := hboot.facts sampleSymbols_ok
  obtain ⟨s', hs'⟩ : ∃ s', execFile sampleSymbols 0 (some headerFile) [] s =
      (.error .clearpteu, s') :=
    execFile_no_pages 0 hinv hrun (by decide) (by unfold kernelFrames; omega)
      (fun _ => rfl) (fun _ => rfl)
  exact ⟨s, s', hboot, hs'⟩

end Xv6.Kernel
