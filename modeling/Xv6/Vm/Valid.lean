import Xv6.Vm.Robust

/-!
# Valid programs

The plan of `exec` for a valid ELF file.  Loading succeeds whenever there are frames
for the pages of the file, for the twelve lowest pages and for their page tables, and
the size of the image is the highest end of a segment.
-/

namespace Xv6.Vm

open Finset

variable {room g va len sp argc free : Nat} {S T : Finset Nat} {ip : File}
variable {argv : List (List UInt8)}

def Proghdr.filePages (ph : Proghdr) : Finset Nat :=
  Finset.Ico (ph.vaddr / 4096) (ph.vaddr / 4096 + pages ph.filesz)

def filePagesOf : List Proghdr → Finset Nat
  | [] => ∅
  | ph :: segs => ph.filePages ∪ filePagesOf segs

/-- A segment that lies in the file and, with a stack of two pages above it, below `KERNBASE`. -/
structure Proghdr.Valid (ip : File) (ph : Proghdr) : Prop where
  aligned : ph.vaddr % 4096 = 0
  filesz : ph.filesz ≤ ph.memsz
  pos : 0 < ph.vaddr + ph.memsz
  below : 4096 * pages (ph.vaddr + ph.memsz) + 8192 < KERNBASE
  inside : ph.off + ph.filesz ≤ ip.size

/-- An ELF file with its headers in the file, valid LOAD segments, and at least one of them. -/
structure File.Valid (ip : File) : Prop where
  elf : ip.IsElf
  size : ip.size < 2 ^ 32
  headers : ip.elfhdr.phoff + proghdrSize * ip.elfhdr.phnum ≤ ip.size
  segments : ∀ ph ∈ ip.segments ip.elfhdr.phoff ip.elfhdr.phnum, ph.Valid ip
  some_segment : ip.segments ip.elfhdr.phoff ip.elfhdr.phnum ≠ []

/-- The highest end of a segment of the file. -/
def File.top (ip : File) : Nat :=
  topOf (ip.segments ip.elfhdr.phoff ip.elfhdr.phnum)

def File.imagePages (ip : File) : Finset Nat :=
  filePagesOf (ip.segments ip.elfhdr.phoff ip.elfhdr.phnum) ∪ Finset.range 12

/-- Free pages that are enough to load the file. -/
def File.demand (ip : File) : Nat :=
  kernelFrames + framesOf ip.imagePages

section
variable (hroom : framesOf T ≤ room) (hS : S ⊆ T)
include hroom hS

theorem planSegment_valid {off sz : Nat} (hlow : Finset.range 12 ⊆ T)
    (hpages : ∀ u ∈ S, u < pages sz) (hsize : ip.size < 2 ^ 32)
    (hheader : off + proghdrSize ≤ ip.size) (hload : ip.Loads off)
    (hvalid : (ip.proghdr off).Valid ip) (hT : (ip.proghdr off).filePages ⊆ T) :
    ∃ S', planSegment room ip off (sz, S) =
        .more (max sz ((ip.proghdr off).vaddr + (ip.proghdr off).memsz), S') ∧ S' ⊆ T ∧
      ∀ u ∈ S', u < pages (max sz ((ip.proghdr off).vaddr + (ip.proghdr off).memsz)) := by
  obtain ⟨haligned, hfilesz, hpos, hbelow, hinside⟩ := hvalid
  have hend : (ip.proghdr off).vaddr + (ip.proghdr off).memsz < KERNBASE := by
    unfold pages at hbelow
    omega
  have hread : readi ip off proghdrSize = some proghdrSize := by
    unfold readi
    rw [if_neg (by omega), if_neg (by omega)]
  have hsound : ip.Sound sz off := by
    refine ⟨⟨hread, fun _ => ⟨hfilesz, hend, by omega, haligned⟩⟩, fun _ k hk => ?_⟩
    unfold pages at hk
    unfold File.HasPage ReadsPage readi pageBytes
    rw [Nat.mod_eq_of_lt (by omega), if_neg (by omega), if_neg (by omega)]
  have hextend : ip.extend (sz, S) off =
      (max sz ((ip.proghdr off).vaddr + (ip.proghdr off).memsz),
        ip.segmentPages (sz, S) off (pages (ip.proghdr off).filesz)) := if_pos hload
  have hsub : ip.segmentPages (sz, S) off (pages (ip.proghdr off).filesz) ⊆ T := by
    refine union_subset (union_subset hS fun u hu => hlow ?_) hT
    unfold grownPages at hu
    split at hu
    · rename_i heager
      have hu' := (mem_Ico.mp hu).2
      obtain ⟨_, _, hlt⟩ := heager
      rw [mem_range]
      unfold pages at hu'
      omega
    · cases hu
  have hplan := (planSegment_eq_more ((framesOf_le hS).trans hroom)).mpr
    ⟨hsound, hextend.symm, (framesOf_le hsub).trans hroom⟩
  refine ⟨_, hplan, hsub, ?_⟩
  intro u hu
  have hmono := pages_mono (le_max_right sz ((ip.proghdr off).vaddr + (ip.proghdr off).memsz))
  simp only [File.segmentPages, mem_union, mem_Ico] at hu
  rcases hu with (hu | hu) | hu
  · exact lt_of_lt_of_le (hpages u hu) (pages_mono (le_max_left _ _))
  · unfold grownPages at hu
    split at hu
    · exact lt_of_lt_of_le (mem_Ico.mp hu).2 hmono
    · cases hu
  · refine lt_of_lt_of_le ?_ hmono
    unfold pages at hu ⊢
    omega

section
variable (hlow : Finset.range 12 ⊆ T)
include hlow

theorem planSegments_valid {n off sz : Nat}
    (hpages : ∀ u ∈ S, u < pages sz) (hsize : ip.size < 2 ^ 32)
    (hheaders : off + proghdrSize * n ≤ ip.size) (hvalid : ∀ ph ∈ ip.segments off n, ph.Valid ip)
    (hT : filePagesOf (ip.segments off n) ⊆ T) :
    ∃ S', planSegments room ip n off (sz, S) = .more (max sz (topOf (ip.segments off n)), S') ∧
      S' ⊆ T ∧ ∀ u ∈ S', u < pages (max sz (topOf (ip.segments off n))) := by
  induction n generalizing off sz S with
  | zero =>
    refine ⟨S, ?_, hS, ?_⟩
    · rw [planSegments]
      simp [File.segments, topOf]
    · simpa [File.segments, topOf] using hpages
  | succ n ih =>
    have hstep : (off + proghdrSize) % 2 ^ 32 = off + proghdrSize := by
      unfold proghdrSize at hheaders ⊢
      omega
    have hheader : off + proghdrSize ≤ ip.size := by
      unfold proghdrSize at hheaders ⊢
      omega
    have hrest : off + proghdrSize + proghdrSize * n ≤ ip.size := by
      rw [Nat.mul_succ] at hheaders
      omega
    rw [planSegments, hstep]
    by_cases hload : (ip.proghdr off).type = ELF_PROG_LOAD
    · have hsegs : ip.segments off (n + 1) =
          ip.proghdr off :: ip.segments (off + proghdrSize) n := by
        simp [File.segments, List.range'_succ, hload]
      rw [hsegs] at hvalid hT ⊢
      obtain ⟨S1, hplan, hS1, hpages1⟩ := planSegment_valid hroom hS hlow hpages hsize hheader
        hload (hvalid _ (List.mem_cons_self ..)) (union_subset_left hT)
      obtain ⟨S2, hplan2, hS2, hpages2⟩ := ih hS1 hpages1 hrest
        (fun ph hph => hvalid ph (List.mem_cons_of_mem _ hph)) (union_subset_right hT)
      rw [hplan, Fate.more_bind, hplan2, topOf, max_assoc] at *
      exact ⟨S2, rfl, hS2, hpages2⟩
    have hsegs : ip.segments off (n + 1) = ip.segments (off + proghdrSize) n := by
      simp [File.segments, List.range'_succ, hload]
    have hread : readi ip off proghdrSize = some proghdrSize := by
      unfold readi
      rw [if_neg (by omega), if_neg (by omega)]
    have hskip : planSegment room ip off (sz, S) = .more (sz, S) := by
      unfold planSegment
      simp only
      rw [if_neg (not_not_intro hread), if_pos hload]
    rw [hsegs] at hvalid hT ⊢
    rw [hskip, Fate.more_bind]
    exact ih hS hpages hrest hvalid hT

end

end

def argBytes (arg : List UInt8) : Nat :=
  (arg.length + 1 + 3) / 4 * 4

/-- The bytes of the strings, without padding. -/
def stringBytes (argv : List (List UInt8)) : Nat :=
  (argv.map fun arg => arg.length + 1).sum

def argsBytes (argv : List (List UInt8)) : Nat :=
  (argv.map argBytes).sum

/-- The bytes of `ustack`: the header, the pointers and the null pointer at the end. -/
def ustackBytes (argc : Nat) : Nat :=
  (3 + argc + 1) * 4

/-- All that `exec` writes to the stack. -/
def stackBytes (argv : List (List UInt8)) : Nat :=
  argsBytes argv + ustackBytes argv.length

theorem planCopy_ne_more (hlen : 0 < len) (h : va / 4096 ∉ S.erase g) :
    planCopy S g va len ≠ .more () := by
  have hsucc : pages (va % 4096 + len) = pages (va % 4096 + len) - 1 + 1 := by
    unfold pages
    omega
  unfold planCopy
  rw [hsucc, List.range'_succ, planWrite, if_neg h]
  split
  · simp
  · simp

theorem planCopy_in_page (hmem : g + 1 ∈ S.erase g) (hlo : 4096 * (g + 1) ≤ va) (hpos : 0 < len)
    (hhi : va + len ≤ 4096 * (g + 2)) : planCopy S g va len = .more () := by
  have hpage : va / 4096 = g + 1 := by omega
  have hone : pages (va % 4096 + len) = 1 := by
    unfold pages
    omega
  unfold planCopy
  rw [hpage, hone, List.range'_one, planWrite, if_pos hmem, planWrite]

theorem pushSp_eq {arg : List UInt8} (haligned : sp % 4 = 0) (hle : argBytes arg ≤ sp)
    (hsp : sp < 2 ^ 32) : pushSp sp arg.length = sp - argBytes arg := by
  unfold argBytes at hle ⊢
  unfold pushSp
  omega

theorem argBytes_mod (arg : List UInt8) : argBytes arg % 4 = 0 ∧ arg.length + 1 ≤ argBytes arg := by
  unfold argBytes
  omega

theorem planPush_iff {x : Nat × Nat} (hmem : g + 1 ∈ S.erase g) (hg : g + 2 ≤ userPages)
    (haligned : sp % 4 = 0) (hlo : 4096 * (g + 1) ≤ sp) (hhi : sp ≤ 4096 * (g + 2))
    (hargc : argc + argv.length ≤ MAXARG) (hsmall : ∀ arg ∈ argv, argBytes arg ≤ 4096) :
    planPush S g argv sp argc = .more x ↔
      4096 * (g + 1) + argsBytes argv ≤ sp ∧ x = (sp - argsBytes argv, argc + argv.length) := by
  induction argv generalizing sp argc with
  | nil =>
    simp only [planPush, argsBytes, List.map_nil, List.sum_nil, List.length_nil, Nat.sub_zero,
      Nat.add_zero, Fate.more.injEq]
    exact ⟨fun hx => ⟨hlo, hx.symm⟩, fun hx => hx.2.symm⟩
  | cons arg argv ih =>
    have hbytes := hsmall arg (List.mem_cons_self ..)
    have hmod := argBytes_mod arg
    have hg' : g + 2 ≤ 524288 := hg
    have hsum : argsBytes (arg :: argv) = argBytes arg + argsBytes argv := by simp [argsBytes]
    rw [List.length_cons] at hargc ⊢
    rw [planPush, if_neg (by omega), pushSp_eq haligned (by omega) (by omega), hsum]
    by_cases hfits : 4096 * (g + 1) + argBytes arg ≤ sp
    · have hcopy : planCopy S g (sp - argBytes arg) (arg.length + 1) = .more () :=
        planCopy_in_page hmem (by omega) (by omega) (by omega)
      rw [hcopy, Fate.more_bind, ih (by omega) (by omega) (by omega) (by omega)
        fun b hb => hsmall b (List.mem_cons_of_mem _ hb)]
      constructor
      · rintro ⟨hle, rfl⟩
        exact ⟨by omega, Prod.ext (by simp only; omega) (by simp only; omega)⟩
      · rintro ⟨hle, rfl⟩
        exact ⟨by omega, Prod.ext (by simp only; omega) (by simp only; omega)⟩
    -- the string starts in the guard page
    have hpage : (sp - argBytes arg) / 4096 = g := by omega
    have hcopy : planCopy S g (sp - argBytes arg) (arg.length + 1) ≠ .more () :=
      planCopy_ne_more (by omega) (by rw [hpage]; exact notMem_erase g S)
    constructor
    · intro hx
      obtain ⟨_, hmore, _⟩ := Fate.bind_eq_more.mp hx
      exact absurd hmore hcopy
    · intro hx
      exact absurd hx.1 (by omega)

theorem planArgs_iff (hmem : g + 1 ∈ S.erase g) (hg : g + 2 ≤ userPages)
    (hargc : argv.length ≤ MAXARG) (hsmall : ∀ arg ∈ argv, argBytes arg ≤ 4096) :
    planArgs S g argv (4096 * (g + 2)) = .more () ↔ stackBytes argv ≤ 4096 := by
  have hg' : g + 2 ≤ 524288 := hg
  have hargc' : argv.length ≤ 32 := hargc
  have hpush : ∀ x, planPush S g argv (4096 * (g + 2)) 0 = .more x ↔ _ := fun x =>
    planPush_iff (x := x) hmem hg (by omega) (by omega) le_rfl (by omega) hsmall
  unfold planArgs
  rw [Fate.bind_eq_more]
  unfold stackBytes ustackBytes
  constructor
  · rintro ⟨x, hx, hcopy⟩
    obtain ⟨hle, rfl⟩ := (hpush x).mp hx
    by_contra hbig
    refine planCopy_ne_more ?_ ?_ hcopy
    · omega
    · have hpage : (4096 * (g + 2) - argsBytes argv + 2 ^ 32 -
          (3 + (0 + argv.length) + 1) * 4) % 2 ^ 32 / 4096 = g := by omega
      simp only [hpage]
      exact notMem_erase g S
  intro hle
  refine ⟨_, (hpush _).mpr ⟨by omega, rfl⟩, planCopy_in_page hmem ?_ ?_ ?_⟩
  · simp only
    omega
  · omega
  · simp only
    omega

theorem planArgs_ne_more (hguard : g ∉ S) (hstack : g + 1 ∉ S) (hg : g + 2 ≤ userPages)
    (hsmall : ∀ arg ∈ argv, argBytes arg ≤ 4096) :
    planArgs S g argv (4096 * (g + 2)) ≠ .more () := by
  have hg' : g + 2 ≤ 524288 := hg
  have hno : ∀ va, va / 4096 = g ∨ va / 4096 = g + 1 → va / 4096 ∉ S.erase g := by
    intro va hva hc
    have hmem := mem_of_mem_erase hc
    rcases hva with hva | hva
    · rw [hva] at hmem
      exact hguard hmem
    · rw [hva] at hmem
      exact hstack hmem
  intro hx
  obtain ⟨x, hpush, hcopy⟩ := Fate.bind_eq_more.mp hx
  cases argv with
  | nil =>
    cases hpush
    refine planCopy_ne_more (by omega) (hno _ ?_) hcopy
    simp only
    omega
  | cons arg argv =>
    have hbytes := hsmall arg (List.mem_cons_self ..)
    have hmod := argBytes_mod arg
    rw [planPush, if_neg (by decide), pushSp_eq (by omega) (by omega) (by omega)] at hpush
    obtain ⟨_, hmore, _⟩ := Fate.bind_eq_more.mp hpush
    refine planCopy_ne_more (by omega) (hno _ ?_) hmore
    omega

theorem topOf_spec {segs : List Proghdr} (hvalid : ∀ ph ∈ segs, ph.Valid ip) (hne : segs ≠ []) :
    0 < topOf segs ∧ 4096 * pages (topOf segs) + 8192 < KERNBASE := by
  induction segs with
  | nil => exact absurd rfl hne
  | cons ph segs ih =>
    have hph := hvalid ph (List.mem_cons_self ..)
    have hpos := hph.pos
    have hbelow := hph.below
    rw [topOf]
    by_cases hsegs : segs = []
    · subst hsegs
      rw [topOf, Nat.max_zero]
      exact ⟨hpos, hbelow⟩
    obtain ⟨_, hrest⟩ := ih (fun q hq => hvalid q (List.mem_cons_of_mem _ hq)) hsegs
    refine ⟨lt_of_lt_of_le hpos (le_max_left _ _), ?_⟩
    rcases max_choice (ph.vaddr + ph.memsz) (topOf segs) with hmax | hmax
    · rw [hmax]
      exact hbelow
    · rw [hmax]
      exact hrest

theorem argBytes_le (hfit : stringBytes argv + ustackBytes argv.length ≤ 4096) :
    ∀ arg ∈ argv, argBytes arg ≤ 4096 := by
  intro arg harg
  have hle : arg.length + 1 ≤ stringBytes argv :=
    List.single_le_sum (by simp) _ (List.mem_map_of_mem harg)
  unfold ustackBytes at hfit
  unfold argBytes
  omega

theorem planExec_iff (hip : ip.Valid) (hargc : argv.length < MAXARG)
    (hfit : stringBytes argv + ustackBytes argv.length ≤ 4096) (hfree : ip.demand ≤ free) :
    planExec ip argv free = .more () ↔ pages ip.top < 10 ∧ stackBytes argv ≤ 4096 := by
  have hsmall := argBytes_le hfit
  unfold File.demand at hfree
  generalize hroom : free - kernelFrames = room
  have hT : framesOf ip.imagePages ≤ room := by omega
  have hnone : ∀ u ∈ (∅ : Finset Nat), u < pages 0 := by simp
  obtain ⟨S, hplan, hS, hpages⟩ := planSegments_valid hT (empty_subset _)
    subset_union_right hnone hip.size hip.headers hip.segments subset_union_left
  obtain ⟨hpos, hbelow⟩ := topOf_spec hip.segments hip.some_segment
  rw [Nat.zero_max] at hplan hpages
  have himage : planImage room ip = .more (ip.top, S) := hplan
  change ∀ u ∈ S, u < pages ip.top at hpages
  change 0 < ip.top at hpos
  change 4096 * pages ip.top + 8192 < KERNBASE at hbelow
  unfold planExec
  rw [if_pos ⟨hip.elf, by omega⟩, hroom, himage, Fate.more_bind, planStack]
  simp only
  generalize ip.top = top at hpos hbelow hpages ⊢
  have hgpos : 0 < pages top := by
    unfold pages
    omega
  generalize pages top = g at hgpos hbelow hpages ⊢
  have hg : g + 2 ≤ userPages := by
    unfold KERNBASE at hbelow
    unfold userPages
    omega
  have hold : pages (4096 * g) = g := by
    unfold pages
    omega
  have hnew : pages (4096 * g + 8192) = g + 2 := by
    unfold pages
    omega
  have hsz : 4096 * g + 8192 = 4096 * (g + 2) := by omega
  unfold planAlloc
  rw [if_neg (by omega), if_neg (by omega), hold, hnew]
  by_cases hten : g < 10
  · have hsub : S ∪ Finset.Ico g (g + 2) ⊆ ip.imagePages := by
      refine union_subset hS fun u hu => mem_union_right _ ?_
      have hu' := (mem_Ico.mp hu).2
      rw [mem_range]
      omega
    have hle := framesOf_le hsub
    have hmem : g ∈ S ∪ Finset.Ico g (g + 2) := by simp
    have hstack : g + 1 ∈ (S ∪ Finset.Ico g (g + 2)).erase g := by simp
    rw [if_pos ⟨by omega, by omega, by omega⟩, if_neg (by omega), Fate.more_bind,
      if_pos (hasTable_of_mem hmem), hsz, planArgs_iff hstack hg (le_of_lt hargc) hsmall]
    exact ⟨fun h => ⟨hten, h⟩, fun h => h.2⟩
  have hno : ¬Eager (4096 * g) (4096 * g + 8192) := by
    rintro ⟨_, _, hlt⟩
    omega
  have hguard : g ∉ S := fun hc => absurd (hpages g hc) (by omega)
  have hstack : g + 1 ∉ S := fun hc => absurd (hpages (g + 1) hc) (by omega)
  rw [if_neg hno, if_neg (by omega), Fate.more_bind, hsz]
  constructor
  · intro h
    split at h
    · exact absurd h (planArgs_ne_more hguard hstack hg hsmall)
    · cases h
  · intro h
    exact absurd h.1 hten

end Xv6.Vm
