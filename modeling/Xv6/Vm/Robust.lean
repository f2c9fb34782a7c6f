import Xv6.Vm.Plan
import Xv6.Vm.Program

/-!
# What stops `exec`

The plan of `exec` as a condition on the program headers, the lengths of the arguments
and the number of free frames.  As long as no frame is missing, the size of the image
and the set of its pages follow from the headers alone.  The kernel then stops in one
of three cases:

* a page that a segment has in the file needs a page table when exactly all frames are
  taken (`loaduvm`);
* the image is not small and no page of it lies in the 4 MiB of the guard page
  (`clearpteu`);
* the first page that `copyout` may not write has no page table.
-/

namespace Xv6.Vm

open Finset

def ReadsPage (ip : File) (offset filesz k : Nat) : Prop :=
  readi ip ((offset + 4096 * k) % 2 ^ 32) (pageBytes filesz k) = some (pageBytes filesz k)

def headerOffsets : Nat → Nat → List Nat
  | 0, _ => []
  | n + 1, off => off :: headerOffsets n ((off + proghdrSize) % 2 ^ 32)

namespace File

variable (ip : File)

def offsets : List Nat :=
  headerOffsets ip.elfhdr.phnum ip.elfhdr.phoff

def Loads (off : Nat) : Prop :=
  (ip.proghdr off).type = ELF_PROG_LOAD

instance (off : Nat) : Decidable (ip.Loads off) :=
  inferInstanceAs (Decidable (_ = _))

/-- The first `k` pages of a segment, and those that `allocuvm` adds to pages `S` of an image of
size `sz` at once. -/
def segmentPages (x : Nat × Finset Nat) (off k : Nat) : Finset Nat :=
  let ph := ip.proghdr off
  x.2 ∪ grownPages x.1 (ph.vaddr + ph.memsz) ∪ Ico (ph.vaddr / 4096) (ph.vaddr / 4096 + k)

def extend (x : Nat × Finset Nat) (off : Nat) : Nat × Finset Nat :=
  let ph := ip.proghdr off
  if ip.Loads off then (max x.1 (ph.vaddr + ph.memsz), ip.segmentPages x off (pages ph.filesz))
  else x

/-- The size and the pages of the image after these headers, when no frame is missing. -/
def laid (offs : List Nat) : Nat × Finset Nat :=
  offs.foldl ip.extend (0, ∅)

def Accepts (sz off : Nat) : Prop :=
  let ph := ip.proghdr off
  readi ip off proghdrSize = some proghdrSize ∧
    (ip.Loads off → ph.filesz ≤ ph.memsz ∧ ph.vaddr + ph.memsz < KERNBASE ∧
      0 < max sz (ph.vaddr + ph.memsz) ∧ ph.vaddr % 4096 = 0)

def HasPage (off k : Nat) : Prop :=
  ReadsPage ip (ip.proghdr off).off (ip.proghdr off).filesz k

/-- Nothing is wrong with the header and its segment. -/
def Sound (sz off : Nat) : Prop :=
  ip.Accepts sz off ∧
    (ip.Loads off → ∀ k < pages (ip.proghdr off).filesz, ip.HasPage off k)

def AllSound (x : Nat × Finset Nat) (offs : List Nat) : Prop :=
  ∀ before off after, offs = before ++ off :: after →
    ip.Sound (before.foldl ip.extend x).1 off

/-- Page `k` of the segment needs a page table when all frames are taken. -/
def Starves (room : Nat) (x : Nat × Finset Nat) (off k : Nat) : Prop :=
  ip.Accepts x.1 off ∧ ip.Loads off ∧ k < pages (ip.proghdr off).filesz ∧
    (∀ i < k, ip.HasPage off i) ∧ framesOf (ip.segmentPages x off k) = room ∧
    ¬HasTable (ip.segmentPages x off k) ((ip.proghdr off).vaddr / 4096 + k)

def guardPage : Nat :=
  pages (ip.laid ip.offsets).1

/-- The pages of the image with those that `allocuvm` allocates at once for the stack. -/
def mapped : Finset Nat :=
  (ip.laid ip.offsets).2 ∪ grownPages (4096 * ip.guardPage) (4096 * ip.guardPage + 8192)

end File

def copyPages (va len : Nat) : List Nat :=
  List.range' (va / 4096) (pages (va % 4096 + len))

/-- The pages of the addresses to which `exec` copies the arguments and then `ustack`. -/
def argPages : List (List UInt8) → Nat → Nat → List Nat
  | [], sp, argc => copyPages ((sp + 2 ^ 32 - (3 + argc + 1) * 4) % 2 ^ 32) ((3 + argc + 1) * 4)
  | arg :: argv, sp, argc =>
    if MAXARG ≤ argc then []
    else
      copyPages (pushSp sp arg.length) (arg.length + 1) ++
        argPages argv (pushSp sp arg.length) (argc + 1)

/-- The headers are sound, there are frames for the image with its stack, and it ends below
`KERNBASE`. -/
def Complete (room : Nat) (ip : File) : Prop :=
  ip.AllSound (0, ∅) ip.offsets ∧ framesOf ip.mapped ≤ room ∧
    4096 * ip.guardPage + 8192 < KERNBASE

/-- Nothing stops the kernel with `room` frames left by `setupkvm`. -/
structure Robust (room : Nat) (ip : File) (argv : List (List UInt8)) : Prop where
  load : ∀ before off after k, ip.offsets = before ++ off :: after → ip.AllSound (0, ∅) before →
    ¬ip.Starves room (ip.laid before) off k
  guard : Complete room ip → HasTable ip.mapped ip.guardPage
  args : Complete room ip → ∀ us u vs, 
    argPages argv (4096 * ip.guardPage + 8192) 0 = us ++ u :: vs →
    (∀ w ∈ us, w ∈ ip.mapped.erase ip.guardPage) → u ∉ ip.mapped.erase ip.guardPage →
    HasTable ip.mapped u

variable {room v k off : Nat} {S S' : Finset Nat} {ip : File} {x y : Nat × Finset Nat}

theorem insert_union_Ico {a b : Nat} (S : Finset Nat) (h : a < b) :
    insert a S ∪ Ico (a + 1) b = S ∪ Ico a b := by
  grind

section
variable (hS : framesOf S ≤ room)
include hS

theorem planPage_eq_more : planPage room S v = .more S' ↔
    S' = insert v S ∧ framesOf (insert v S) ≤ room := by
  unfold planPage
  split
  · rename_i hv
    rw [insert_eq_of_mem hv]
    simp [hS, eq_comm]
  · rename_i hv
    have hlt := framesOf_lt_insert hv
    split
    · simp
      omega
    · split
      · simp
        omega
      · simp [eq_comm]
        omega

theorem planPage_eq_stop : planPage room S v = .stop ↔ framesOf S = room ∧ ¬HasTable S v := by
  unfold planPage
  split
  · rename_i hv
    simp [hasTable_of_mem hv]
  · split
    · rename_i hstop
      simp only [true_iff]
      exact ⟨by omega, hstop.2⟩
    · rename_i hgo
      have : ¬(framesOf S = room ∧ ¬HasTable S v) := fun h => hgo ⟨h.1.ge, h.2⟩
      split <;> simp [this]

variable {a offset filesz left : Nat}

theorem planLoad_eq_more : planLoad room a ip offset filesz left k S = .more S' ↔
    (∀ i, k ≤ i → i < k + left → ReadsPage ip offset filesz i) ∧
      S' = S ∪ Ico (a + k) (a + (k + left)) ∧ framesOf S' ≤ room := by
  induction left generalizing k S with
  | zero =>
    rw [planLoad, Fate.more.injEq, Nat.add_zero, Ico_self, union_empty]
    constructor
    · rintro rfl
      exact ⟨fun i hle hlt => absurd hlt (by omega), rfl, hS⟩
    · rintro ⟨_, rfl, _⟩
      rfl
  | succ left ih =>
    have hpages : insert (a + k) S ∪ Ico (a + (k + 1)) (a + (k + 1 + left)) =
        S ∪ Ico (a + k) (a + (k + (left + 1))) := by
      rw [← Nat.add_assoc k, Nat.add_right_comm k left]
      exact insert_union_Ico S (by omega)
    rw [planLoad, Fate.bind_eq_more, ← hpages]
    constructor
    · rintro ⟨_, hpage, hrest⟩
      obtain ⟨rfl, hroom⟩ := (planPage_eq_more hS).mp hpage
      split at hrest
      · rename_i hread
        obtain ⟨hreads, hS', hle⟩ := (ih hroom).mp hrest
        refine ⟨fun i hki hi => ?_, hS', hle⟩
        rcases hki.eq_or_lt with rfl | hlt
        · exact hread
        · exact hreads i hlt (by omega)
      · cases hrest
    · rintro ⟨hreads, rfl, hle⟩
      have hroom := (framesOf_le subset_union_left).trans hle
      refine ⟨_, (planPage_eq_more hS).mpr ⟨rfl, hroom⟩, ?_⟩
      refine (if_pos (hreads k le_rfl (by omega))).trans ?_
      exact (ih hroom).mpr ⟨fun i hki hi => hreads i (by omega) (by omega), rfl, hle⟩

theorem planLoad_eq_stop : planLoad room a ip offset filesz left k S = .stop ↔
    ∃ j, k ≤ j ∧ j < k + left ∧ (∀ i, k ≤ i → i < j → ReadsPage ip offset filesz i) ∧
      framesOf (S ∪ Ico (a + k) (a + j)) = room ∧ ¬HasTable (S ∪ Ico (a + k) (a + j)) (a + j) := by
  induction left generalizing k S with
  | zero =>
    simp only [planLoad, reduceCtorEq, false_iff, not_exists]
    omega
  | succ left ih =>
    rw [planLoad, Fate.bind_eq_stop, planPage_eq_stop hS]
    constructor
    · rintro (⟨hroom, hno⟩ | ⟨_, hpage, hrest⟩)
      · refine ⟨k, le_rfl, by omega, fun i hle hlt => absurd hlt (by omega), ?_⟩
        rw [Ico_self, union_empty]
        exact ⟨hroom, hno⟩
      obtain ⟨rfl, hroom⟩ := (planPage_eq_more hS).mp hpage
      split at hrest
      · rename_i hread
        obtain ⟨j, hkj, hj, hreads, hall⟩ := (ih hroom).mp hrest
        rw [← Nat.add_assoc, insert_union_Ico S (by omega)] at hall
        refine ⟨j, by omega, by omega, fun i hki hi => ?_, hall⟩
        rcases hki.eq_or_lt with rfl | hlt
        · exact hread
        · exact hreads i hlt hi
      · cases hrest
    · rintro ⟨j, hkj, hj, hreads, hall⟩
      rcases hkj.eq_or_lt with rfl | hlt
      · rw [Ico_self, union_empty] at hall
        exact .inl hall
      · rw [← insert_union_Ico S (by omega)] at hall
        have hroom := (framesOf_le subset_union_left).trans hall.1.le
        refine .inr ⟨_, (planPage_eq_more hS).mpr ⟨rfl, hroom⟩, ?_⟩
        refine (if_pos (hreads k le_rfl hlt)).trans ?_
        exact (ih hroom).mpr ⟨j, hlt, by omega, fun i hki hi => hreads i (by omega) hi, hall⟩

theorem planAlloc_eq (oldsz newsz : Nat) : planAlloc room S oldsz newsz =
    if KERNBASE ≤ newsz ∨ max oldsz newsz = 0 ∨
      room < framesOf (S ∪ grownPages oldsz newsz) then .bad
    else .more (max oldsz newsz, S ∪ grownPages oldsz newsz) := by
  unfold planAlloc grownPages
  by_cases hbig : KERNBASE ≤ newsz
  · rw [if_pos hbig, if_pos (Or.inl hbig)]
  rw [if_neg hbig]
  by_cases hlt : newsz < oldsz
  · have hempty : Ico (pages oldsz) (pages newsz) = ∅ := by
      refine Ico_eq_empty_of_le ?_
      unfold pages
      omega
    rw [if_pos hlt, hempty, ite_self, union_empty, max_eq_left hlt.le, if_neg (by omega)]
  rw [if_neg hlt, max_eq_right (not_lt.mp hlt)]
  by_cases heager : Eager oldsz newsz
  · have hpos := heager.1
    simp only [if_pos heager]
    split
    · rename_i hshort
      rw [if_pos (Or.inr (Or.inr hshort))]
    · rename_i hroom
      rw [if_neg (by omega)]
  · simp only [if_neg heager, union_empty]
    split
    · rename_i hzero
      rw [if_pos (Or.inr (Or.inl hzero))]
    · rename_i hpos
      rw [if_neg (by omega)]

end

section Segments

variable (hx : framesOf x.2 ≤ room)
include hx

theorem planSegment_of_not_accepts (h : ¬ip.Accepts x.1 off) :
    planSegment room ip off x = .bad := by
  have hvaddr : (ip.proghdr off).vaddr < 2 ^ 32 := ip.u32_lt _
  have hmemsz : (ip.proghdr off).memsz < 2 ^ 32 := ip.u32_lt _
  unfold planSegment
  dsimp only
  split
  · rfl
  rename_i hread
  have hload : ip.Loads off := by
    by_contra hno
    exact h ⟨not_not.mp hread, fun hl => absurd hl hno⟩
  rw [if_neg (show ¬(ip.proghdr off).type ≠ ELF_PROG_LOAD from not_not.mpr hload)]
  split
  · rfl
  split
  · rfl
  rename_i hle hwrap
  rw [planAlloc_eq hx]
  split
  · rfl
  rename_i hfit
  rw [Fate.more_bind]
  split
  · rfl
  rename_i haligned
  unfold KERNBASE at hfit
  refine absurd ⟨not_not.mp hread, fun _ => ⟨not_lt.mp hle, ?_, ?_, not_not.mp haligned⟩⟩ h
  · unfold KERNBASE
    omega
  · omega

theorem planSegment_of_accepts (h : ip.Accepts x.1 off) (hload : ip.Loads off) :
    planSegment room ip off x =
      if room < framesOf (ip.segmentPages x off 0) then .bad
      else (planLoad room ((ip.proghdr off).vaddr / 4096) ip (ip.proghdr off).off
        (ip.proghdr off).filesz (pages (ip.proghdr off).filesz) 0 (ip.segmentPages x off 0)).bind
          fun S => .more (max x.1 ((ip.proghdr off).vaddr + (ip.proghdr off).memsz), S) := by
  obtain ⟨hread, hfields⟩ := h
  obtain ⟨hle, hbelow, hpos, haligned⟩ := hfields hload
  have hsum : ((ip.proghdr off).vaddr + (ip.proghdr off).memsz) % 2 ^ 32 =
      (ip.proghdr off).vaddr + (ip.proghdr off).memsz := by
    unfold KERNBASE at hbelow
    exact Nat.mod_eq_of_lt (by omega)
  have hpages : ip.segmentPages x off 0 =
      x.2 ∪ grownPages x.1 ((ip.proghdr off).vaddr + (ip.proghdr off).memsz) := by
    simp [File.segmentPages]
  unfold planSegment
  dsimp only
  rw [if_neg (not_not.mpr hread),
    if_neg (show ¬(ip.proghdr off).type ≠ ELF_PROG_LOAD from not_not.mpr hload),
    if_neg (by omega), hsum, if_neg (by omega), planAlloc_eq hx, hpages]
  by_cases hshort : room < framesOf (x.2 ∪ grownPages x.1
      ((ip.proghdr off).vaddr + (ip.proghdr off).memsz))
  · rw [if_pos hshort, if_pos (Or.inr (Or.inr hshort))]
    rfl
  · rw [if_neg hshort, if_neg (by omega), Fate.more_bind, if_neg (not_not.mpr haligned)]

omit hx in
theorem planSegment_of_not_loads (h : ip.Accepts x.1 off) (hload : ¬ip.Loads off) :
    planSegment room ip off x = .more x := by
  unfold planSegment
  rw [if_neg (not_not.mpr h.1), if_pos (show (ip.proghdr off).type ≠ ELF_PROG_LOAD from hload)]

omit hx in
theorem segmentPages_zero_union : ip.segmentPages x off 0 ∪
    Ico ((ip.proghdr off).vaddr / 4096) ((ip.proghdr off).vaddr / 4096 + k) =
      ip.segmentPages x off k := by
  simp [File.segmentPages]

theorem planSegment_eq_more : planSegment room ip off x = .more y ↔
    ip.Sound x.1 off ∧ y = ip.extend x off ∧ framesOf y.2 ≤ room := by
  by_cases hacc : ip.Accepts x.1 off
  case neg =>
    rw [planSegment_of_not_accepts hx hacc]
    simp [File.Sound, hacc]
  by_cases hload : ip.Loads off
  case neg =>
    rw [planSegment_of_not_loads hacc hload, Fate.more.injEq]
    simp only [File.Sound, File.extend, hacc, hload, if_false, false_imp_iff, true_and]
    constructor
    · rintro rfl
      exact ⟨rfl, hx⟩
    · rintro ⟨rfl, _⟩
      rfl
  rw [planSegment_of_accepts hx hacc hload]
  simp only [File.Sound, File.extend, hacc, hload, if_true, true_imp_iff, true_and]
  constructor
  · intro h
    split at h
    · cases h
    rename_i hroom
    obtain ⟨S, hS, hy⟩ := Fate.bind_eq_more.mp h
    obtain ⟨hreads, rfl, hle⟩ := (planLoad_eq_more (not_lt.mp hroom)).mp hS
    rw [Nat.add_zero, Nat.zero_add, segmentPages_zero_union] at hy hle
    cases hy
    exact ⟨fun k hk => hreads k (Nat.zero_le k) (by omega), rfl, hle⟩
  · rintro ⟨hreads, rfl, hle⟩
    rw [← segmentPages_zero_union] at hle
    have hroom := (framesOf_le subset_union_left).trans hle
    rw [if_neg (not_lt.mpr hroom)]
    refine Fate.bind_eq_more.mpr ⟨_, (planLoad_eq_more hroom).mpr
      ⟨fun k _ hk => hreads k (by omega), rfl, ?_⟩, ?_⟩
    · rwa [Nat.add_zero, Nat.zero_add]
    · rw [Nat.add_zero, Nat.zero_add, segmentPages_zero_union]

theorem planSegment_eq_stop :
    planSegment room ip off x = .stop ↔ ∃ k, ip.Starves room x off k := by
  by_cases hacc : ip.Accepts x.1 off
  case neg =>
    rw [planSegment_of_not_accepts hx hacc]
    simp [File.Starves, hacc]
  by_cases hload : ip.Loads off
  case neg =>
    rw [planSegment_of_not_loads hacc hload]
    simp [File.Starves, hload]
  rw [planSegment_of_accepts hx hacc hload]
  constructor
  · intro h
    split at h
    · cases h
    rename_i hroom
    rcases Fate.bind_eq_stop.mp h with hstop | ⟨_, _, hmore⟩
    · obtain ⟨k, _, hk, hreads, hall⟩ := (planLoad_eq_stop (not_lt.mp hroom)).mp hstop
      rw [Nat.add_zero, segmentPages_zero_union] at hall
      exact ⟨k, hacc, hload, by omega, fun i hi => hreads i (Nat.zero_le i) hi, hall⟩
    · cases hmore
  · rintro ⟨k, _, _, hk, hreads, hall⟩
    rw [← segmentPages_zero_union] at hall
    have hroom := (framesOf_le subset_union_left).trans hall.1.le
    rw [if_neg (not_lt.mpr hroom)]
    exact Fate.bind_eq_stop.mpr (.inl ((planLoad_eq_stop hroom).mpr
      ⟨k, Nat.zero_le k, by omega, fun i _ hi => hreads i hi, hall⟩))

end Segments

theorem subset_extend : x.2 ⊆ (ip.extend x off).2 := by
  unfold File.extend File.segmentPages
  split
  · exact subset_union_left.trans subset_union_left
  · exact Subset.rfl

theorem subset_laid (offs : List Nat) : x.2 ⊆ (offs.foldl ip.extend x).2 := by
  induction offs generalizing x with
  | nil => exact Subset.rfl
  | cons off offs ih => exact subset_extend.trans ih

theorem allSound_cons {offs : List Nat} :
    ip.AllSound x (off :: offs) ↔ ip.Sound x.1 off ∧ ip.AllSound (ip.extend x off) offs := by
  constructor
  · intro h
    refine ⟨h [] off offs rfl, fun before o after heq => ?_⟩
    exact h (off :: before) o after (by rw [heq]; rfl)
  · rintro ⟨hfirst, hrest⟩ before o after heq
    cases before with
    | nil =>
      cases heq
      exact hfirst
    | cons b before =>
      cases heq
      exact hrest before o after rfl

theorem planSegments_eq_more {n : Nat} (hx : framesOf x.2 ≤ room) :
    planSegments room ip n off x = .more y ↔ ip.AllSound x (headerOffsets n off) ∧
      y = (headerOffsets n off).foldl ip.extend x ∧ framesOf y.2 ≤ room := by
  induction n generalizing off x with
  | zero =>
    simp only [planSegments, headerOffsets, List.foldl_nil, Fate.more.injEq]
    constructor
    · rintro rfl
      exact ⟨fun _ _ _ h => by simp at h, rfl, hx⟩
    · rintro ⟨_, rfl, _⟩
      rfl
  | succ n ih =>
    rw [planSegments, Fate.bind_eq_more, headerOffsets, allSound_cons, List.foldl_cons]
    constructor
    · rintro ⟨z, hz, hy⟩
      obtain ⟨hsound, rfl, hle⟩ := (planSegment_eq_more hx).mp hz
      obtain ⟨hall, rfl, hle'⟩ := (ih hle).mp hy
      exact ⟨⟨hsound, hall⟩, rfl, hle'⟩
    · rintro ⟨⟨hsound, hall⟩, rfl, hle⟩
      have hroom := (framesOf_le (subset_laid _)).trans hle
      exact ⟨_, (planSegment_eq_more hx).mpr ⟨hsound, rfl, hroom⟩, (ih hroom).mpr ⟨hall, rfl, hle⟩⟩

theorem planSegments_eq_stop {n : Nat} (hx : framesOf x.2 ≤ room) :
    planSegments room ip n off x = .stop ↔ ∃ before o after k,
      headerOffsets n off = before ++ o :: after ∧ ip.AllSound x before ∧
        ip.Starves room (before.foldl ip.extend x) o k := by
  induction n generalizing off x with
  | zero => simp [planSegments, headerOffsets]
  | succ n ih =>
    rw [planSegments, Fate.bind_eq_stop, planSegment_eq_stop hx, headerOffsets]
    constructor
    · rintro (⟨k, hk⟩ | ⟨z, hz, hstop⟩)
      · exact ⟨[], off, _, k, rfl, fun _ _ _ h => by simp at h, hk⟩
      · obtain ⟨hsound, rfl, hle⟩ := (planSegment_eq_more hx).mp hz
        obtain ⟨before, o, after, k, heq, hall, hk⟩ := (ih hle).mp hstop
        exact ⟨off :: before, o, after, k, by rw [heq]; rfl, allSound_cons.mpr ⟨hsound, hall⟩, hk⟩
    · rintro ⟨before, o, after, k, heq, hall, hk⟩
      cases before with
      | nil =>
        cases heq
        exact .inl ⟨k, hk⟩
      | cons b before =>
        obtain ⟨rfl, hoffs⟩ := List.cons.inj heq
        obtain ⟨hsound, hall⟩ := allSound_cons.mp hall
        have hsub : (ip.extend x off).2 ⊆
            ip.segmentPages ((off :: before).foldl ip.extend x) o k :=
          (subset_laid before).trans (subset_union_left.trans subset_union_left)
        have hroom := (framesOf_le hsub).trans hk.2.2.2.2.1.le
        exact .inr ⟨_, (planSegment_eq_more hx).mpr ⟨hsound, rfl, hroom⟩,
          (ih hroom).mpr ⟨before, o, after, k, hoffs, hall, hk⟩⟩

section Arguments

variable {g : Nat} {us vs : List Nat} {argv : List (List UInt8)}

theorem planWrite_append :
    planWrite S g (us ++ vs) = (planWrite S g us).bind fun _ => planWrite S g vs := by
  induction us with
  | nil => rfl
  | cons u us ih =>
    simp only [List.cons_append, planWrite]
    split
    · exact ih
    · split <;> rfl

theorem planWrite_eq_stop : planWrite S g us = .stop ↔ ∃ before u after, us = before ++ u :: after ∧
    (∀ w ∈ before, w ∈ S.erase g) ∧ u ∉ S.erase g ∧ ¬HasTable S u := by
  induction us with
  | nil => simp [planWrite]
  | cons u us ih =>
    rw [planWrite]
    constructor
    · intro h
      split at h
      · rename_i hu
        obtain ⟨before, w, after, rfl, hall, hw⟩ := ih.mp h
        exact ⟨u :: before, w, after, rfl, List.forall_mem_cons.mpr ⟨hu, hall⟩, hw⟩
      · rename_i hu
        split at h
        · cases h
        · rename_i hno
          exact ⟨[], u, us, rfl, fun _ h => (by cases h), hu, hno⟩
    · rintro ⟨before, w, after, heq, hall, hw, hno⟩
      cases before with
      | nil =>
        cases heq
        rw [if_neg hw, if_neg hno]
      | cons b before =>
        obtain ⟨rfl, rfl⟩ := List.cons.inj heq
        obtain ⟨hu, hall⟩ := List.forall_mem_cons.mp hall
        rw [if_pos hu]
        exact ih.mpr ⟨before, w, after, rfl, hall, hw, hno⟩

theorem planCopy_eq (S : Finset Nat) (g va len : Nat) :
    planCopy S g va len = planWrite S g (copyPages va len) :=
  rfl

theorem planArgs_eq_stop {sp argc : Nat} :
    ((planPush S g argv sp argc).bind fun x =>
      planCopy S g ((x.1 + 2 ^ 32 - (3 + x.2 + 1) * 4) % 2 ^ 32) ((3 + x.2 + 1) * 4)) = .stop ↔
        planWrite S g (argPages argv sp argc) = .stop := by
  induction argv generalizing sp argc with
  | nil => rw [planPush, argPages, Fate.more_bind, planCopy_eq]
  | cons arg argv ih =>
    rw [planPush, argPages]
    by_cases hmany : MAXARG ≤ argc
    · simp [hmany, planWrite]
    · rw [if_neg hmany, if_neg hmany, planWrite_append, ← planCopy_eq]
      cases planCopy S g (pushSp sp arg.length) (arg.length + 1) with
      | more _ =>
        rw [Fate.more_bind, Fate.more_bind]
        exact ih
      | bad => rw [Fate.bad_bind, Fate.bad_bind, Fate.bad_bind]
      | stop => rw [Fate.stop_bind, Fate.stop_bind, Fate.stop_bind]

end Arguments

theorem planImage_eq_more : planImage room ip = .more y ↔
    ip.AllSound (0, ∅) ip.offsets ∧ y = ip.laid ip.offsets ∧ framesOf y.2 ≤ room :=
  planSegments_eq_more (Nat.zero_le room)

theorem planStack_eq_stop {argv : List (List UInt8)} (h : framesOf (ip.laid ip.offsets).2 ≤ room) :
    planStack room argv (ip.laid ip.offsets) = .stop ↔
      (framesOf ip.mapped ≤ room ∧ 4096 * ip.guardPage + 8192 < KERNBASE) ∧
        (HasTable ip.mapped ip.guardPage → planWrite ip.mapped ip.guardPage
          (argPages argv (4096 * ip.guardPage + 8192) 0) = .stop) := by
  have hg : pages (ip.laid ip.offsets).1 = ip.guardPage := rfl
  have hm : (ip.laid ip.offsets).2 ∪
      grownPages (4096 * ip.guardPage) (4096 * ip.guardPage + 8192) = ip.mapped := rfl
  have hmax : max (4096 * ip.guardPage) (4096 * ip.guardPage + 8192) =
      4096 * ip.guardPage + 8192 := max_eq_right (Nat.le_add_right _ _)
  rw [planStack, hg, planAlloc_eq h, hm, hmax]
  by_cases hfit : framesOf ip.mapped ≤ room ∧ 4096 * ip.guardPage + 8192 < KERNBASE
  · rw [if_neg (by omega), Fate.more_bind]
    by_cases htable : HasTable ip.mapped ip.guardPage
    · simp only [hfit, htable, if_true, true_imp_iff, and_self, true_and]
      exact planArgs_eq_stop
    · simp only [hfit, htable, if_false, false_imp_iff, and_self]
  · rw [if_pos (by omega), Fate.bad_bind]
    simp [hfit]

theorem robust_iff {argv : List (List UInt8)} :
    Robust room ip argv ↔ (planImage room ip).bind (planStack room argv) ≠ .stop := by
  have hload : planImage room ip = .stop ↔ ∃ before o after k, ip.offsets = before ++ o :: after ∧
      ip.AllSound (0, ∅) before ∧ ip.Starves room (ip.laid before) o k :=
    planSegments_eq_stop (Nat.zero_le room)
  have hstack : (∃ y, planImage room ip = .more y ∧ planStack room argv y = .stop) ↔
      Complete room ip ∧ (HasTable ip.mapped ip.guardPage → planWrite ip.mapped ip.guardPage
        (argPages argv (4096 * ip.guardPage + 8192) 0) = .stop) := by
    constructor
    · rintro ⟨y, hy, hstop⟩
      obtain ⟨hall, rfl, hle⟩ := planImage_eq_more.mp hy
      obtain ⟨hfit, hwrite⟩ := (planStack_eq_stop hle).mp hstop
      exact ⟨⟨hall, hfit⟩, hwrite⟩
    · rintro ⟨⟨hall, hfit⟩, hwrite⟩
      have hroom := (framesOf_le subset_union_left).trans hfit.1
      exact ⟨_, planImage_eq_more.mpr ⟨hall, rfl, hroom⟩,
        (planStack_eq_stop hroom).mpr ⟨hfit, hwrite⟩⟩
  rw [Ne, Fate.bind_eq_stop, hload, hstack]
  constructor
  · rintro ⟨hl, hg, ha⟩ (⟨before, o, after, k, heq, hall, hk⟩ | ⟨hc, hw⟩)
    · exact hl before o after k heq hall hk
    · obtain ⟨us, u, vs, heq, hall, hu, hno⟩ := planWrite_eq_stop.mp (hw (hg hc))
      exact hno (ha hc us u vs heq hall hu)
  · intro h
    refine ⟨fun before o after k heq hall hk => h (.inl ⟨before, o, after, k, heq, hall, hk⟩),
      ?_, ?_⟩
    · intro hc
      by_contra hno
      exact h (.inr ⟨hc, fun htable => absurd htable hno⟩)
    · intro hc us u vs heq hall hu
      by_contra hno
      exact h (.inr ⟨hc, fun _ => planWrite_eq_stop.mpr ⟨us, u, vs, heq, hall, hu, hno⟩⟩)

end Xv6.Vm
