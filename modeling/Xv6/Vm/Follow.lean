import Xv6.Vm.Fault
import Xv6.Vm.Kvm
import Xv6.Vm.Program

/-!
# `exec` follows its plan

Each function that builds the new image does what the plan says for its layout: it
succeeds, fails and stops the kernel in exactly the same cases.  The frames left are
those that the layout leaves, so the plan needs no other count.
-/

namespace Xv6.Vm

open Lib Lib.Prog Function Finset

variable {K : Symbols} {A : Pool K} {S P : Finset Nat} {R S' : Multiset Nat} {m m' m1 : Mem}
variable {D sz v f T oldsz newsz g fuel offset filesz off va len a k vaddr n sp p r : Nat}
variable {ip : File} {argv : List (List UInt8)} {e : Stop}

def Pool.room {K : Symbols} (A : Pool K) (R : Multiset Nat) : Nat :=
  A.frames.card - (kernelFrames + R.card)

structure Laid {K : Symbols} (A : Pool K) (m : Mem) (D sz : Nat) (S : Finset Nat)
    (R : Multiset Nat) : Prop where
  space : Space A m D sz R
  shows : Shows m D (kernelTables ∪ tablesOf S) S
  user : ∀ u ∈ S, PTE_FLAGS (m.pte D u) = 7

theorem tablesOf_lt (h : ∀ u ∈ S, u < userPages) : ∀ i ∈ tablesOf S, i < 512 := by
  intro i hi
  obtain ⟨u, hu, rfl⟩ := mem_image.mp hi
  have hlt := h u hu
  unfold userPages at hlt
  omega

theorem card_tables (h : ∀ u ∈ S, u < userPages) :
    (kernelTables ∪ tablesOf S).card = 64 + (tablesOf S).card := by
  rw [card_union_of_disjoint, card_kernelTables]
  rw [disjoint_left]
  intro i hk hi
  have h1 := mem_kernelTables.mp hk
  have h2 := tablesOf_lt h i hi
  omega

section
variable (h : Laid A m D sz S R)
include h

theorem Laid.free_length : m.free.length + framesOf S = A.room R := by
  have hfree := h.shows.free_length h.space.dir
  rw [card_tables h.shows.pages_lt] at hfree
  unfold Pool.room framesOf kernelFrames
  omega

theorem Laid.mem_iff (hv : v < pages sz) : flag (m.pte D v) PTE_P = true ↔ v ∈ S :=
  h.shows.pages v (lt_of_lt_of_le hv (pages_le h.space.size))

theorem Laid.table_iff (hv : v < 1048576) : m.table D (v / 1024) = none ↔ ¬HasTable S v := by
  have hiff := h.shows.tables (v / 1024) (by omega)
  unfold HasTable
  rw [← hiff]
  cases m.table D (v / 1024) with
  | none => simp
  | some T => simp

theorem Laid.grow (hle : sz ≤ newsz) (hsize : newsz < KERNBASE) : Laid A m D newsz S R :=
  ⟨h.space.grow hle hsize, h.shows, h.user⟩

end

theorem Laid.map {T : Finset Nat} (hspace : Space A m' D sz R) (hshows : Shows m D T S)
    (hT : T = kernelTables ∪ tablesOf S ∨ T = insert (v / 1024) (kernelTables ∪ tablesOf S))
    (huser : ∀ u ∈ S, PTE_FLAGS (m.pte D u) = 7) (hv : v < userPages)
    (hm : Mapped A m D v (mkPte f 7) S' R m') : Laid A m' D sz (insert v S) R := by
  have htables : insert (v / 1024) T = kernelTables ∪ tablesOf (insert v S) := by
    rw [tablesOf_insert, union_insert]
    rcases hT with rfl | rfl
    · rfl
    · rw [insert_idem]
  refine ⟨hspace, ?_, ?_⟩
  · rw [← htables]
    exact hshows.map hv hm
  · intro u hu
    by_cases huv : u = v
    · rw [huv, hm.pte, update_self]
      exact PTE_FLAGS_mkPte (by decide)
    · rw [hm.pte, update_of_ne huv]
      exact huser u (mem_of_mem_insert_of_ne hu huv)

theorem Laid.grown (h : Laid A m D oldsz S R) (hm : Grown A m D newsz P R m') :
    Laid A m' D newsz (S ∪ P) R := by
  have hshows := hm.shows _ _ h.shows
  rw [union_assoc, show tablesOf S ∪ tablesOf P = tablesOf (S ∪ P) from
    (image_union S P).symm] at hshows
  refine ⟨hm.space, hshows, ?_⟩
  intro u hu
  by_cases hmem : u ∈ P
  · exact hm.user u hmem
  · rw [hm.outside u hmem]
    exact h.user u ((mem_union.mp hu).resolve_right hmem)

theorem allocuvm_plan (h : Laid A m D oldsz S R) :
    wp (allocuvm K D oldsz newsz)
      (fun r m' => Keeps R m m' ∧
        (r = 0 ∧ planAlloc (A.room R) S oldsz newsz = .bad ∧ Space A m' D oldsz R ∨
          r ≠ 0 ∧ r = max oldsz newsz ∧ Same m m' D ∧
            ∃ S', planAlloc (A.room R) S oldsz newsz = .more (r, S') ∧ Laid A m' D r S' R))
      (fun _ _ => False) m := by
  by_cases hbig : KERNBASE ≤ newsz
  · unfold allocuvm planAlloc
    rw [wp_ite, if_pos hbig, if_pos hbig]
    exact ⟨Keeps.refl _ m, .inl ⟨rfl, rfl, h.space⟩⟩
  by_cases hlt : newsz < oldsz
  · unfold allocuvm planAlloc
    rw [wp_ite, if_neg hbig, if_neg hbig, wp_ite, if_pos hlt, if_pos hlt]
    exact ⟨Keeps.refl _ m, .inr ⟨by omega, by omega, Same.refl m D, S, rfl, h⟩⟩
  refine wp_post (allocuvm_spec h.space (by omega) (by omega)) ?_
  have hplan : planAlloc (A.room R) S oldsz newsz =
      if newsz = 0 ∨ A.room R < framesOf (S ∪ grownPages oldsz newsz) then .bad
      else .more (newsz, S ∪ grownPages oldsz newsz) := by
    unfold planAlloc grownPages
    rw [if_neg hbig, if_neg hlt]
    by_cases heager : Eager oldsz newsz
    · have hpos : newsz ≠ 0 := by
        have := heager.1
        omega
      simp [heager, hpos]
    · have hcount := h.free_length
      simp [heager, show ¬A.room R < framesOf S by omega]
  rintro r m' (⟨rfl, hm'⟩ | ⟨rfl, hm'⟩)
  · have hlaid := h.grown hm'
    have hcount := hlaid.free_length
    refine ⟨hm'.keeps, ?_⟩
    by_cases hzero : r = 0
    · refine .inl ⟨hzero, by rw [hplan, if_pos (Or.inl hzero)], ?_⟩
      rw [show oldsz = r by omega]
      exact hm'.space
    · refine .inr ⟨hzero, by omega, hm'.same, _, ?_, hlaid⟩
      rw [hplan, if_neg (by omega)]
  have hfew := hm'.few _ _ h.shows
  refine ⟨hm'.keeps, .inl ⟨rfl, ?_, hm'.space⟩⟩
  rw [hplan, if_pos (Or.inr ?_)]
  have hlt' : ∀ u ∈ S ∪ grownPages oldsz newsz, u < userPages := by
    intro u hu
    rcases mem_union.mp hu with hu | hu
    · exact h.shows.pages_lt u hu
    · unfold grownPages at hu
      split at hu
      · exact lt_of_lt_of_le (mem_Ico.mp hu).2 (pages_le (by omega))
      · simp at hu
  rw [union_assoc, show tablesOf S ∪ tablesOf (grownPages oldsz newsz) =
    tablesOf (S ∪ grownPages oldsz newsz) from (image_union S _).symm,
    card_tables hlt'] at hfew
  have hall := h.shows.free_length h.space.dir
  rw [card_tables h.shows.pages_lt] at hall
  unfold Pool.room framesOf kernelFrames
  omega

theorem allocuvm_rounded (h : Laid A m D sz S R) (hle : sz ≤ oldsz) (hle' : oldsz ≤ newsz) :
    wp (allocuvm K D oldsz newsz)
      (fun r m' => Keeps R m m' ∧
        (r = 0 ∧ planAlloc (A.room R) S oldsz newsz = .bad ∧ (∃ s, Space A m' D s R) ∨
          r ≠ 0 ∧ r = newsz ∧ r < KERNBASE ∧ Same m m' D ∧
            ∃ S', planAlloc (A.room R) S oldsz newsz = .more (r, S') ∧ Laid A m' D r S' R))
      (fun _ _ => False) m := by
  by_cases hbig : KERNBASE ≤ newsz
  · unfold allocuvm planAlloc
    rw [wp_ite, if_pos hbig, if_pos hbig]
    exact ⟨Keeps.refl _ m, .inl ⟨rfl, rfl, sz, h.space⟩⟩
  · refine wp_post (allocuvm_plan (h.grow hle (by omega))) ?_
    rintro r m' ⟨hkeeps, ⟨hr, hbad, hspace⟩ | ⟨hpos, hr, hsame, hmore⟩⟩
    · exact ⟨hkeeps, .inl ⟨hr, hbad, _, hspace⟩⟩
    · exact ⟨hkeeps, .inr ⟨hpos, by omega, by omega, hsame, hmore⟩⟩

/-- What the loop of `loaduvm` leaves, by the plan; `wrote` tells the bytes. -/
def Loaded (A : Pool K) (m : Mem) (D sz : Nat) (R : Multiset Nat) (plan : Fate (Finset Nat))
    (wrote : Mem → Prop) (r : Int) (m' : Mem) : Prop :=
  Space A m' D sz R ∧ Keeps R m m' ∧
    (r < 0 ∧ plan = .bad ∨ 0 ≤ r ∧ wrote m' ∧ ∃ S', plan = .more S' ∧ Laid A m' D sz S' R)

theorem Laid.setUser (p : Page) (h : Laid A m D sz S R) (hv : v < userPages)
    (hf : m.frameAt D v = some f) :
    Laid A (m.setPage f p) D sz S R ∧ Keeps R m (m.setPage f p) := by
  obtain ⟨hspace, hkeeps, hpte, _⟩ := h.space.setUser p hv hf
  have hD : (m.setPage f p).page D = m.page D :=
    setPage_page_of_ne _ (h.space.dir.user_ne_dir (mem_users hv hf)).symm
  refine ⟨⟨hspace, ⟨?_, h.shows.tables_lt, ?_, h.shows.pages_lt⟩, ?_⟩, hkeeps⟩
  · rw [table_congr hD]
    exact h.shows.tables
  · rw [hpte]
    exact h.shows.pages
  · rw [hpte]
    exact h.user

theorem Shows.free_after_walk
    (h : Shows m1 D (insert (v / 1024) (kernelTables ∪ tablesOf S)) S) (hdir : Dir A m1 D R)
    (hv : v < userPages) (hS : ∀ u ∈ S, u < userPages) (hvS : v ∉ S)
    (hroom : framesOf S ≤ A.room R) : m1.free.length + framesOf (insert v S) = A.room R + 1 := by
  have hcount := h.free_length hdir
  have hinsert : ∀ u ∈ insert v S, u < userPages := by
    intro u hu
    rcases mem_insert.mp hu with rfl | hu
    · exact hv
    · exact hS u hu
  have hcard := card_tables hinsert
  rw [tablesOf_insert, union_insert] at hcard
  unfold Pool.room framesOf kernelFrames at *
  rw [tablesOf_insert, card_insert_of_notMem hvS]
  omega

theorem Laid.load_tail {next : M Int} {plan : Fate (Finset Nat)} (h : Laid A m1 D sz S R)
    (hkeeps : Keeps R m m1) (hsame : Same m m1 D) (hv : a + k < userPages)
    (hf : m1.frameAt D (a + k) = some f) (hn : min (filesz - 4096 * k) 4096 = n)
    (hlt : 4096 * k < filesz) (hnext : offset + 4096 * k + n < 2 ^ 32 → ∀ m2, Laid A m2 D sz S R →
      wp next (Loaded A m2 D sz R plan (Loads m2 D a (k + 1) offset filesz ip))
        (fun e _ => e = .loaduvm ∧ plan = .stop) m2) :
    wp (match readi ip (offset + 4096 * k) n with
      | none => pure (-1)
      | some cnt => do
        modify fun m => m.readInto f ip (offset + 4096 * k) cnt
        if cnt ≠ n then pure (-1) else next)
      (Loaded A m D sz R (if readi ip (offset + 4096 * k) n = some n then plan else .bad)
        (Loads m D a k offset filesz ip))
      (fun e _ => e = .loaduvm ∧
        (if readi ip (offset + 4096 * k) n = some n then plan else .bad) = .stop) m1 := by
  cases hread : readi ip (offset + 4096 * k) n with
  | none => exact ⟨h.space, hkeeps, .inl ⟨by decide, by simp⟩⟩
  | some cnt =>
    have hfit := readi_eq_some hread
    obtain ⟨h1, h2⟩ := h.setUser (fun j => if j.val < cnt then
      ip.data (offset + 4096 * k + j.val) else m1.page f j) hv hf
    simp only [wp_bind, wp_modify, wp_ite, wp_pure, Option.some.injEq]
    by_cases hcnt : cnt = n
    · rw [if_neg (not_not_intro hcnt), if_pos hcnt]
      refine wp_post (hnext hfit.1 _ h1) ?_
      rintro r m' ⟨hspace', hkeeps', hr⟩
      refine ⟨hspace', (hkeeps.trans h2).trans hkeeps', hr.imp_right ?_⟩
      rintro ⟨hpos, hloads, hmore⟩
      refine ⟨hpos, Patched.of_same hsame ?_, hmore⟩
      exact h.space.readInto hv hf (by omega) hloads (by omega)
    · rw [if_pos hcnt, if_neg hcnt]
      exact ⟨h1.space, hkeeps.trans h2, .inl ⟨by decide, rfl⟩⟩

theorem loadLoop_spec {left : Nat} (h : Laid A m D sz S R)
    (hend : 4096 * a + filesz ≤ sz) (hk : k + left = pages filesz)
    (hoff : 4096 * k < filesz → offset + 4096 * k < 2 ^ 32) (hfuel : left < fuel) :
    wp (loadLoop D (4096 * a) ip offset filesz fuel (4096 * k))
      (Loaded A m D sz R (planLoad (A.room R) a ip offset filesz left k S)
        (Loads m D a k offset filesz ip))
      (fun e _ => e = .loaduvm ∧ planLoad (A.room R) a ip offset filesz left k S = .stop) m := by
  have hsize := h.space.size
  unfold KERNBASE at hsize
  induction left generalizing m k fuel S with
  | zero =>
    obtain ⟨fuel, rfl⟩ : ∃ n, fuel = n + 1 := ⟨fuel - 1, by omega⟩
    have hlt : ¬4096 * k < filesz := by
      rw [← lt_pages]
      omega
    unfold loadLoop
    rw [wp_ite, if_neg hlt]
    refine ⟨h.space, Keeps.refl _ m, .inr ⟨le_rfl, ?_, S, rfl, h⟩⟩
    exact patched_of_same (Same.refl m D) (by omega)
  | succ left ih =>
    obtain ⟨fuel, rfl⟩ : ∃ n, fuel = n + 1 := ⟨fuel - 1, by omega⟩
    have hlt : 4096 * k < filesz := lt_pages.mp (by omega)
    have hv : a + k < pages sz := lt_pages.mpr (by omega)
    have hvu : a + k < userPages := lt_of_lt_of_le hv (pages_le h.space.size)
    have hvu' : a + k < 524288 := hvu
    have haddr : (4096 * a + 4096 * k) % 2 ^ 32 = 4096 * (a + k) := by omega
    have hnext : (4096 * k + 4096) % 2 ^ 32 = 4096 * (k + 1) := by omega
    have hfile : (offset + 4096 * k) % 2 ^ 32 = offset + 4096 * k := Nat.mod_eq_of_lt (hoff hlt)
    have hbytes : (if filesz - 4096 * k < 4096 then filesz - 4096 * k else 4096) =
        pageBytes filesz k := by
      unfold pageBytes
      split
      · omega
      · omega
    have hcount := h.free_length
    unfold loadLoop planLoad
    rw [wp_ite, if_pos hlt, haddr, hnext, wp_bind]
    simp only [hbytes, hfile]
    generalize hn : pageBytes filesz k = n
    have hmin : min (filesz - 4096 * k) 4096 = n := hn
    refine walkpgdir_true_spec h.space.dir ?_ ?_
    · -- no frame for the page table
      intro hfree hnone
      rw [PDX_eq (by omega), show 4096 * (a + k) / 4096 = a + k by omega,
        h.table_iff (by omega)] at hnone
      rw [hfree, List.length_nil] at hcount
      have hvS : a + k ∉ S := fun hmem => hnone (hasTable_of_mem hmem)
      refine ⟨rfl, ?_⟩
      unfold planPage
      rw [if_neg hvS, if_pos ⟨by omega, hnone⟩]
      rfl
    intro T m1 hw
    simp only [wp_bind, wp_readPte, wp_ite, wp_pure]
    rw [word_eq_pte hw.table hw.pte (by omega)]
    have hshows := h.shows.walked hvu hw
    unfold planPage
    by_cases hP : flag (m.pte D (a + k)) PTE_P = true
    · have hvS := (h.mem_iff hv).mp hP
      rw [if_pos hP, if_pos hvS]
      refine Laid.load_tail ⟨hw.space h.space, ?_, ?_⟩ hw.keeps.right hw.same hvu ?_ hn hlt
        fun _ _ h2 => ih h2 (by omega) (by omega) (by omega)
      · have hmem : (a + k) / 1024 ∈ kernelTables ∪ tablesOf S := hasTable_of_mem hvS
        rw [insert_eq_of_mem hmem] at hshows
        exact hshows
      · rw [hw.pte]
        exact h.user
      · rw [frameAt_congr (congrFun hw.pte (a + k))]
        exact frameAt_of_flag hP
    have hvS : a + k ∉ S := fun hmem => hP ((h.mem_iff hv).mpr hmem)
    have habsent : flag (m.pte D (a + k)) PTE_P = false := by simpa using hP
    have hcost := framesOf_lt_insert hvS
    rw [if_neg hP, if_neg hvS]
    refine wp_kalloc ?_ ?_
    · intro hfree
      have hcount1 := hshows.free_after_walk hw.dir hvu h.shows.pages_lt hvS (by omega)
      rw [hfree, List.length_nil] at hcount1
      refine ⟨(hw.space h.space).setOom _, hw.keeps.right, .inl ⟨by decide, ?_⟩⟩
      rw [if_neg ?_, if_pos (by omega)]
      · rfl
      rintro ⟨hfull, hnone⟩
      rw [hasTable_iff hvu] at hnone
      rw [framesOf_insert hvS, if_neg hnone] at hcount1
      omega
    intro f l hfree
    obtain ⟨hspace2, hkeeps2, hsame2, hf⟩ := hw.alloc h.space hv habsent hfree
    have hmap := hw.take h.space hv habsent hfree
    obtain ⟨hspace1, hkeeps1⟩ := (hw.space h.space).take (fun _ => 0) hfree
    have hown : Keeps (m1.own D) m1 _ := hkeeps1.left
    have hlaid := Laid.map hspace2 (hshows.congr hown) (.inr rfl)
      (by rw [hown.view.2.1, hw.pte]; exact h.user) hvu hmap
    have hcount2 := hlaid.free_length
    rw [if_neg fun hc => absurd hc.1 (by omega), if_neg (by omega)]
    exact hlaid.load_tail hkeeps2 hsame2 hvu hf hn hlt
      fun _ _ h2 => ih h2 (by omega) (by omega) (by omega)

theorem loaduvm_spec (h : Laid A m D sz S R)
    (haligned : vaddr % 4096 = 0) (hend : vaddr + filesz ≤ sz) (hoff : offset < 2 ^ 32) :
    wp (loaduvm D vaddr ip offset filesz)
      (Loaded A m D sz R (planLoad (A.room R) (vaddr / 4096) ip offset filesz (pages filesz) 0 S)
        fun m' => Patched m m' D vaddr (vaddr + filesz) fun b => ip.data (offset + (b - vaddr)))
      (fun e _ => e = .loaduvm ∧
        planLoad (A.room R) (vaddr / 4096) ip offset filesz (pages filesz) 0 S = .stop) m := by
  have hsize := h.space.size
  unfold KERNBASE at hsize
  obtain ⟨a, rfl⟩ : ∃ a, vaddr = 4096 * a := ⟨vaddr / 4096, by omega⟩
  rw [Nat.mul_div_cancel_left a (by decide)]
  unfold loaduvm
  rw [wp_ite, if_neg (by omega)]
  refine loadLoop_spec (k := 0) h hend (by omega) (by omega) ?_
  unfold pages maxPages
  omega

def Segmented (A : Pool K) (D : Nat) (R : Multiset Nat) (plan : Fate (Nat × Finset Nat))
    (r : Option Nat) (m' : Mem) : Prop :=
  r = none ∧ plan = .bad ∨ ∃ sz S, r = some sz ∧ plan = .more (sz, S) ∧ Laid A m' D sz S R

theorem loadSegment_spec (h : Laid A m D sz S R) :
    wp (loadSegment K D ip off sz)
      (fun r m' => Loading A m D R ip (ip.segments off 1) sz r m' ∧
        Segmented A D R (planSegment (A.room R) ip off (sz, S)) r m' ∧
        (r = none ∨ off + proghdrSize < 2 ^ 32))
      (fun e _ => e = .loaduvm ∧ planSegment (A.room R) ip off (sz, S) = .stop) m := by
  have hvaddr : (ip.proghdr off).vaddr < 2 ^ 32 := ip.u32_lt _
  have hmemsz : (ip.proghdr off).memsz < 2 ^ 32 := ip.u32_lt _
  have hoffset : (ip.proghdr off).off < 2 ^ 32 := ip.u32_lt _
  unfold loadSegment planSegment
  rw [segments_one]
  generalize ip.proghdr off = ph at hvaddr hmemsz hoffset
  have hrefl := Keeps.refl R m
  simp only [wp_ite, wp_pure, wp_bind]
  by_cases h1 : readi ip off proghdrSize ≠ some proghdrSize
  · rw [if_pos h1, if_pos h1]
    exact ⟨.bad h.space hrefl, .inl ⟨rfl, rfl⟩, .inl trivial⟩
  rw [if_neg h1, if_neg h1]
  have hnext : off + proghdrSize < 2 ^ 32 := (readi_eq_some (not_not.mp h1)).1
  by_cases h2 : ph.type ≠ ELF_PROG_LOAD
  · rw [if_pos h2, if_pos h2, if_neg h2]
    exact ⟨.none ip h.space, .inr ⟨sz, S, rfl, rfl, h⟩, .inr hnext⟩
  rw [if_neg h2, if_neg h2, if_pos (not_not.mp h2)]
  by_cases h3 : ph.memsz < ph.filesz
  · rw [if_pos h3, if_pos h3]
    exact ⟨.bad h.space hrefl, .inl ⟨rfl, rfl⟩, .inl trivial⟩
  rw [if_neg h3, if_neg h3]
  by_cases h4 : (ph.vaddr + ph.memsz) % 2 ^ 32 < ph.vaddr
  · rw [if_pos h4, if_pos h4]
    exact ⟨.bad h.space hrefl, .inl ⟨rfl, rfl⟩, .inl trivial⟩
  rw [if_neg h4, if_neg h4, show (ph.vaddr + ph.memsz) % 2 ^ 32 = ph.vaddr + ph.memsz by omega]
  refine wp_mono (allocuvm_plan h) ?_ fun _ _ he => he.elim
  rintro sz' m1 ⟨hkeeps, ⟨rfl, hbad, hspace⟩ | ⟨hpos, hmax, hsame, S', hmore, hlaid⟩⟩
  · rw [if_pos rfl, hbad]
    exact ⟨.bad hspace hkeeps, .inl ⟨rfl, rfl⟩, .inl trivial⟩
  rw [if_neg hpos, hmore, Fate.more_bind]
  by_cases h5 : ph.vaddr % 4096 ≠ 0
  · rw [if_pos h5, if_pos h5]
    exact ⟨.bad hlaid.space hkeeps, .inl ⟨rfl, rfl⟩, .inl trivial⟩
  rw [if_neg h5, if_neg h5]
  refine wp_mono (loaduvm_spec hlaid (by omega) (by omega) hoffset) ?_ ?_
  · rintro r m2 ⟨hspace2, hkeeps2, ⟨hr, hbad⟩ | ⟨hr, hbytes, S'', hmore', hlaid'⟩⟩
    · rw [if_pos hr, hbad]
      exact ⟨.bad hspace2 (hkeeps.trans hkeeps2), .inl ⟨rfl, rfl⟩, .inl trivial⟩
    rw [if_neg (by omega), hmore']
    refine ⟨⟨⟨sz', hspace2, .inr rfl⟩, hkeeps.trans hkeeps2, ?_⟩,
      .inr ⟨sz', S'', rfl, rfl, hlaid'⟩, .inr hnext⟩
    rintro _ ⟨⟩
    refine ⟨?_, ?_⟩
    · rw [hmax]
      simp [topOf]
    · intro a ha
      rw [hbytes a ha, hsame.byte ha, prescribed_one]
  · rintro _ _ ⟨he, hstop⟩
    rw [hstop]
    exact ⟨he, rfl⟩

theorem loadSegments_spec (h : Laid A m D sz S R) :
    wp (loadSegments K D ip n off sz)
      (fun r m' => Loading A m D R ip (ip.segments off n) sz r m' ∧
        Segmented A D R (planSegments (A.room R) ip n off (sz, S)) r m')
      (fun e _ => e = .loaduvm ∧ planSegments (A.room R) ip n off (sz, S) = .stop) m := by
  induction n generalizing m off sz S with
  | zero => exact ⟨.none ip h.space, .inr ⟨sz, S, rfl, rfl, h⟩⟩
  | succ n ih =>
    unfold loadSegments planSegments
    rw [wp_bind, segments_succ]
    refine wp_mono (loadSegment_spec h) ?_ ?_
    · rintro r m1 ⟨hloading, ⟨rfl, hbad⟩ | ⟨sz', S', rfl, hmore, hlaid⟩, hnext⟩
      · obtain ⟨_, hspace, _⟩ := hloading.space
        rw [hbad]
        exact ⟨.bad hspace hloading.keeps, .inl ⟨rfl, rfl⟩⟩
      · have hoff : (off + proghdrSize) % 2 ^ 32 = off + proghdrSize :=
          Nat.mod_eq_of_lt (hnext.resolve_left nofun)
        rw [hmore, Fate.more_bind]
        simp only [hoff]
        exact wp_post (ih hlaid) fun _ _ h' => ⟨hloading.append h'.1, h'.2⟩
    · rintro _ _ ⟨he, hstop⟩
      rw [hstop]
      exact ⟨he, rfl⟩

/-- An address space with the guard page `g`: the user may write the other pages of `S`. -/
structure Guarded {K : Symbols} (A : Pool K) (m : Mem) (D sz : Nat) (S : Finset Nat) (g : Nat)
    (R : Multiset Nat) : Prop where
  space : Space A m D sz R
  tables : ∀ v < 1048576, m.table D (v / 1024) = none ↔ ¬HasTable S v
  writable : ∀ u < 1048576, (flag (m.pte D u) PTE_P = true ∧ flag (m.pte D u) PTE_U = true) ↔
    u ∈ S.erase g
  guard : flag (m.pte D g) PTE_U = false
  present : g ∈ S → flag (m.pte D g) PTE_P = true

theorem clearpteu_plan (h : Laid A m D sz S R) (hg : g < userPages) :
    wp (clearpteu D (4096 * g))
      (fun _ m' => HasTable S g ∧ Guarded A m' D sz S g R ∧ Keeps R m m' ∧
        ∀ a < KERNBASE, m'.byte D a = m.byte D a)
      (fun e _ => e = .clearpteu ∧ ¬HasTable S g) m := by
  have hg' : g < 524288 := hg
  have htable := h.table_iff (show g < 1048576 by omega)
  refine wp_mono (clearpteu_spec h.space hg) ?_ fun _ _ he => ⟨he.1, htable.mp he.2⟩
  rintro _ m' ⟨hspace, hkeeps, hpte, _, hsome, htables, hcontent⟩
  refine ⟨by_contra fun hc => hsome (htable.mpr hc), ⟨hspace, ?_, ?_, ?_, ?_⟩, hkeeps,
    fun a ha => byte_congr (hcontent _ (div_lt_userPages ha))⟩
  · intro v hv
    rw [htables]
    exact h.table_iff hv
  · intro u hu
    rw [hpte, mem_erase]
    by_cases hug : u = g
    · rw [hug, update_self, flag_U_clearU]
      simp
    rw [update_of_ne hug]
    by_cases huu : u < userPages
    · rw [h.shows.pages u huu]
      constructor
      · intro hmem
        exact ⟨hug, hmem.1⟩
      · intro hmem
        exact ⟨hmem.2, flag_U_of_seven (h.user u hmem.2)⟩
    · rw [h.space.kernel u (by omega)]
      constructor
      · intro hc
        exact absurd hc.2 (by simp)
      · intro hmem
        exact absurd (h.shows.pages_lt u hmem.2) huu
  · rw [hpte, update_self, flag_U_clearU]
  · intro hmem
    rw [hpte, update_self, flag_P_clearU]
    exact (h.shows.pages g hg).mpr hmem

theorem Guarded.setUser (p : Page) (h : Guarded A m D sz S g R) (hv : v < userPages)
    (hf : m.frameAt D v = some f) :
    Guarded A (m.setPage f p) D sz S g R ∧ Keeps R m (m.setPage f p) ∧
      (m.setPage f p).pte D = m.pte D := by
  obtain ⟨hspace, hkeeps, hpte, _⟩ := h.space.setUser p hv hf
  have hD : (m.setPage f p).page D = m.page D :=
    setPage_page_of_ne _ (h.space.dir.user_ne_dir (mem_users hv hf)).symm
  refine ⟨⟨hspace, ?_, ?_, ?_, ?_⟩, hkeeps, hpte⟩
  · rw [table_congr hD]
    exact h.tables
  · rw [hpte]
    exact h.writable
  · rw [hpte]
    exact h.guard
  · rw [hpte]
    exact h.present

theorem planCopy_of_mem (hlen : 0 < len) (hmem : va / 4096 ∈ S.erase g) :
    planCopy S g va len = if va % 4096 + len ≤ 4096 then .more ()
      else planCopy S g (4096 * (va / 4096 + 1)) (len - (4096 - va % 4096)) := by
  unfold planCopy
  by_cases hle : va % 4096 + len ≤ 4096
  · have hone : pages (va % 4096 + len) = 1 := by
      unfold pages
      omega
    rw [if_pos hle, hone, List.range'_one, planWrite, if_pos hmem, planWrite]
  have hsucc : pages (va % 4096 + len) = pages (len - (4096 - va % 4096)) + 1 := by
    unfold pages
    omega
  have hpage : 4096 * (va / 4096 + 1) / 4096 = va / 4096 + 1 := by omega
  have hstart : 4096 * (va / 4096 + 1) % 4096 + (len - (4096 - va % 4096)) =
      len - (4096 - va % 4096) := by omega
  rw [if_neg hle, hsucc, hpage, hstart, List.range'_succ, planWrite, if_pos hmem]

theorem planCopy_of_notMem (hlen : 0 < len) (hmem : va / 4096 ∉ S.erase g) :
    planCopy S g va len = if HasTable S (va / 4096) then .bad else .stop := by
  have hsucc : pages (va % 4096 + len) = pages (va % 4096 + len) - 1 + 1 := by
    unfold pages
    omega
  unfold planCopy
  rw [hsucc, List.range'_succ, planWrite, if_neg hmem]

theorem copyout_nil {Q : Int → Mem → Prop} {E : Stop → Mem → Prop} (h : Q 0 m) :
    wp (copyout D fuel va []) Q E m := by
  cases fuel with
  | zero => exact h
  | succ fuel => exact h

/-- `copyout`, by the plan; `wrote` tells the bytes. -/
def Wrote (A : Pool K) (m : Mem) (D sz : Nat) (S : Finset Nat) (g : Nat) (R : Multiset Nat)
    (plan : Fate Unit) (wrote : Mem → Prop) (r : Int) (m' : Mem) : Prop :=
  Guarded A m' D sz S g R ∧ Keeps R m m' ∧ m'.pte D = m.pte D ∧
    (r < 0 ∧ plan = .bad ∨ 0 ≤ r ∧ plan = .more () ∧ wrote m')

theorem copyout_spec {buf : List UInt8} (h : Guarded A m D sz S g R)
    (hva : va < 2 ^ 32) (hpos : 0 < buf.length) (hfuel : buf.length ≤ fuel) :
    wp (copyout D fuel va buf)
      (Wrote A m D sz S g R (planCopy S g va buf.length) (CopiedOut m D va buf))
      (fun e _ => e = .nullPte ∧ planCopy S g va buf.length = .stop) m := by
  induction fuel generalizing m va buf with
  | zero => omega
  | succ fuel ih =>
    have hbuf : buf ≠ [] := List.length_pos_iff.mp hpos
    have hdown : PGROUNDDOWN va = 4096 * (va / 4096) := by
      unfold PGROUNDDOWN
      omega
    have hdiv : 4096 * (va / 4096) / 4096 = va / 4096 := by omega
    have hoff : va - 4096 * (va / 4096) = va % 4096 := by omega
    have hiff := h.writable (va / 4096) (by omega)
    unfold copyout
    rw [wp_ite, if_neg hbuf]
    simp only [wp_bind, hdown, hoff]
    refine uva2ka_cases (by omega) ?_ ?_ ?_
    · intro hnone
      rw [hdiv] at hnone
      have hno := (h.tables _ (by omega)).mp hnone
      have hmem : va / 4096 ∉ S.erase g := fun hc => hno (hasTable_of_mem (mem_of_mem_erase hc))
      rw [planCopy_of_notMem hpos hmem, if_neg hno]
      exact ⟨rfl, rfl⟩
    · intro hsome hflags
      rw [hdiv] at hsome hflags
      have hyes : HasTable S (va / 4096) :=
        by_contra fun hc => hsome ((h.tables _ (by omega)).mpr hc)
      have hmem : va / 4096 ∉ S.erase g := by
        rw [← hiff]
        rintro ⟨hP, hU⟩
        rw [hP, hU] at hflags
        simp at hflags
      refine ⟨h, Keeps.refl _ m, rfl, .inl ⟨by decide, ?_⟩⟩
      rw [planCopy_of_notMem hpos hmem, if_pos hyes]
    intro hP hU
    rw [hdiv] at hP hU ⊢
    have hmem := hiff.mp ⟨hP, hU⟩
    have hv : va / 4096 < userPages := by
      by_contra hge
      rw [h.space.kernel _ (by omega)] at hU
      cases hU
    have hv' : va / 4096 < 524288 := hv
    have hf := frameAt_of_flag hP
    generalize hn : min (4096 - va % 4096) buf.length = n
    have hcopy := h.space.copyIn hv hf hn.symm
    obtain ⟨hguarded, hkeeps, hpte⟩ := h.setUser (fun j => if va % 4096 ≤ j.val then
      (buf.take n).getD (j.val - va % 4096) (m.page (pteFrame (m.pte D (va / 4096))) j)
      else m.page (pteFrame (m.pte D (va / 4096))) j) hv hf
    simp only [wp_bind, wp_modify]
    rw [planCopy_of_mem hpos hmem]
    by_cases hle : va % 4096 + buf.length ≤ 4096
    · have hall : buf.drop n = [] := by
        rw [List.drop_eq_nil_iff]
        omega
      have hcopied : CopiedOut m D va buf (m.copyIn (pteFrame (m.pte D (va / 4096)))
          (va % 4096) (buf.take n)) :=
        CopiedOut.next hv hU hn.symm hpte hcopy (hall ▸ copiedOut_nil _ D _)
      rw [if_pos hle, hall]
      exact copyout_nil ⟨hguarded, hkeeps, hpte, .inr ⟨le_rfl, rfl, hcopied⟩⟩
    have hnext : (4096 * (va / 4096) + 4096) % 2 ^ 32 = 4096 * (va / 4096 + 1) := by omega
    have hdrop : (buf.drop n).length = buf.length - (4096 - va % 4096) := by
      rw [List.length_drop]
      omega
    rw [if_neg hle, ← hdrop, ← hnext]
    refine wp_post (ih hguarded (by omega) (by omega) (by omega)) ?_
    rintro r m' ⟨hguarded', hkeeps', hpte', hr⟩
    refine ⟨hguarded', hkeeps.trans hkeeps', hpte'.trans hpte, hr.imp_right ?_⟩
    rintro ⟨hr, hplan, hcopied⟩
    exact ⟨hr, hplan, CopiedOut.next hv hU hn.symm hpte hcopy hcopied⟩

theorem pushArgs_spec {ptrs : List Nat}
    (h : Guarded A m D sz S g R) (hlo : 4096 * (g + 1) ≤ sp) (hhi : sp ≤ KERNBASE)
    (haligned : sp % 4 = 0) :
    wp (pushArgs D argv sp ptrs)
      (fun r m' => Guarded A m' D sz S g R ∧ Keeps R m m' ∧
        (r = none ∧ planPush S g argv sp ptrs.length = .bad ∨ ∃ sp' qs, r = some (sp', ptrs ++ qs) ∧
            planPush S g argv sp ptrs.length = .more (sp', (ptrs ++ qs).length) ∧
            Pushed m D (4096 * (g + 1)) sp argv qs sp' m'))
      (fun e _ => e = .nullPte ∧ planPush S g argv sp ptrs.length = .stop) m := by
  induction argv generalizing m sp ptrs with
  | nil =>
    refine ⟨h, Keeps.refl _ m, .inr ⟨sp, [], ?_⟩⟩
    rw [List.append_nil]
    exact ⟨rfl, rfl, hlo, le_rfl, haligned, .nil, fun _ _ _ => rfl⟩
  | cons arg argv ih =>
    unfold pushArgs planPush
    rw [wp_ite]
    by_cases hmax : MAXARG ≤ ptrs.length
    · rw [if_pos hmax, if_pos hmax]
      exact ⟨h, Keeps.refl _ m, .inl ⟨rfl, rfl⟩⟩
    rw [if_neg hmax, if_neg hmax]
    have hlen : (arg ++ [0]).length = arg.length + 1 := by simp
    have hcopy : wp (copyout D (arg.length + 1) (pushSp sp arg.length) (arg ++ [0])) _ _ m :=
      copyout_spec h (by unfold pushSp; omega) (by omega) (le_of_eq hlen)
    rw [hlen] at hcopy
    simp only [wp_bind, wp_ite, wp_pure]
    refine wp_mono hcopy ?_ ?_
    · rintro r m1 ⟨hguarded, hkeeps, hpte, ⟨hr, hbad⟩ | ⟨hr, hmore, hcopied⟩⟩
      · rw [if_pos hr, hbad]
        exact ⟨hguarded, hkeeps, .inl ⟨trivial, rfl⟩⟩
      obtain ⟨hlo1, hhi1, _⟩ := hcopied.pushed hlen (by omega) h.guard hlo hhi
      rw [if_neg (by omega), hmore, Fate.more_bind]
      have hrest : wp (pushArgs D argv (pushSp sp arg.length)
          (ptrs ++ [pushSp sp arg.length])) _ _ m1 :=
        ih hguarded hlo1 (by unfold pushSp; omega) (by unfold pushSp; omega)
      rw [List.length_append, List.length_singleton] at hrest
      refine wp_post hrest ?_
      rintro r' m' ⟨hguarded', hkeeps', hr'⟩
      refine ⟨hguarded', hkeeps.trans hkeeps', hr'.imp_right ?_⟩
      rintro ⟨sp', qs, hr', hplan, hpushed⟩
      refine ⟨sp', _ :: qs, ?_, ?_, .cons hcopied hhi1 hhi hpushed⟩
      · rw [hr', List.append_assoc]
        rfl
      · rw [hplan, List.append_assoc]
        rfl
    · rintro _ _ ⟨he, hstop⟩
      rw [hstop]
      exact ⟨he, rfl⟩

def StackStops (room : Nat) (argv : List (List UInt8)) (x : Nat × Finset Nat) (e : Stop) : Prop :=
  ∃ y, planAlloc room x.2 (4096 * pages x.1) (4096 * pages x.1 + 8192) = .more y ∧
    (e = .clearpteu ∧ ¬HasTable y.2 (pages x.1) ∨
      e = .nullPte ∧ HasTable y.2 (pages x.1) ∧ planArgs y.2 (pages x.1) argv y.1 = .stop)

theorem StackStops.plan {room : Nat} {x : Nat × Finset Nat}
    (h : StackStops room argv x e) : planStack room argv x = .stop := by
  obtain ⟨y, hmore, ⟨_, hno⟩ | ⟨_, hyes, hstop⟩⟩ := h
  · unfold planStack
    rw [hmore, Fate.more_bind, if_neg hno]
  · unfold planStack
    rw [hmore, Fate.more_bind, if_pos hyes, hstop]

theorem mem_of_planAlloc {room : Nat} {S' : Finset Nat}
    (h : planAlloc room S (4096 * p) (4096 * p + 8192) = .more (r, S'))
    (heager : Eager (4096 * p) (4096 * p + 8192)) : p ∈ S' := by
  unfold planAlloc at h
  rw [if_pos heager] at h
  have hmem : p ∈ Finset.Ico (pages (4096 * p)) (pages (4096 * p + 8192)) := by
    rw [mem_Ico]
    unfold pages
    omega
  split at h
  · cases h
  · split at h
    · omega
    · split at h
      · cases h
      · cases h
        exact mem_union_right _ hmem

theorem buildStack_spec {entry : Nat} (h : Laid A m D sz S R) :
    wp (buildStack K D entry argv (PGROUNDUP sz))
      (fun r m' => Building A m D R r m' ∧
        (planStack (A.room R) argv (sz, S) = if r.isSome then .more () else .bad) ∧
        ∀ img, r = some img → Stacked m D (PGROUNDUP sz) entry argv img m')
      (fun e _ => StackStops (A.room R) argv (sz, S) e) m := by
  have hsize := h.space.size
  unfold KERNBASE at hsize
  have hpages : pages sz ≤ 524288 := pages_le h.space.size
  have hle : sz ≤ 4096 * pages sz := by
    unfold pages
    omega
  have hnew : (4096 * pages sz + 2 * 4096) % 2 ^ 32 = 4096 * pages sz + 8192 := by omega
  unfold buildStack planStack
  rw [PGROUNDUP_eq (le_of_lt h.space.size), hnew, wp_bind]
  generalize hold : 4096 * pages sz = oldsz at hle ⊢
  generalize hsum : oldsz + 8192 = newsz
  refine wp_mono (allocuvm_rounded h hle (by omega)) ?_ fun _ _ he => he.elim
  rintro r m1 ⟨hkeeps1, ⟨rfl, hbad, s, hspace1⟩ | ⟨hne, hr, hlt, hsame1, S', hmore, hlaid⟩⟩
  · rw [wp_ite, if_pos rfl, hbad]
    exact ⟨⟨⟨s, hspace1, by simp⟩, hkeeps1⟩, rfl, by simp⟩
  have hlt' := hlt
  unfold KERNBASE at hlt'
  have hg : pages sz < userPages := by
    unfold userPages
    omega
  have hstop : ∀ {e}, (e = .clearpteu ∧ ¬HasTable S' (pages sz) ∨ e = .nullPte ∧
      HasTable S' (pages sz) ∧ planArgs S' (pages sz) argv r = .stop) →
      StackStops (A.room R) argv (sz, S) e := by
    intro e he
    refine ⟨(r, S'), ?_, he⟩
    simp only
    rw [hold, hsum]
    exact hmore
  rw [wp_ite, if_neg hne, wp_bind, show r - 2 * 4096 = 4096 * pages sz by omega]
  simp only [hmore, Fate.more_bind]
  refine wp_mono (clearpteu_plan hlaid hg) ?_ fun _ _ he => hstop (.inl he)
  rintro _ m2 ⟨htable, hguarded, hkeeps2, hbytes2⟩
  rw [if_pos htable, wp_bind]
  have hargs : planArgs S' (pages sz) argv r = (planPush S' (pages sz) argv r 0).bind fun x =>
      planCopy S' (pages sz) ((x.1 + 2 ^ 32 - (3 + x.2 + 1) * 4) % 2 ^ 32) ((3 + x.2 + 1) * 4) :=
    rfl
  refine wp_mono (pushArgs_spec hguarded (by omega) (le_of_lt hlt) (by omega)) ?_ ?_
  · rintro res m3 ⟨hguarded3, hkeeps3, hres⟩
    have hkeeps := hkeeps1.trans (hkeeps2.trans hkeeps3)
    rcases hres with ⟨rfl, hbad⟩ | ⟨sp, ptrs, rfl, hpush, hpushed⟩
    · rw [List.length_nil] at hbad
      rw [hargs, hbad]
      exact ⟨⟨⟨_, hguarded3.space, by simp⟩, hkeeps⟩, rfl, by simp⟩
    rw [List.length_nil, List.nil_append] at hpush
    rw [hpush, Fate.more_bind] at hargs
    have hlen := length_ustack sp ptrs
    have hcopy : wp (copyout D ((3 + ptrs.length + 1) * 4)
        ((sp + 2 ^ 32 - (3 + ptrs.length + 1) * 4) % 2 ^ 32)
        ((ustack sp ptrs).flatMap wordBytes)) _ _ m3 :=
      copyout_spec hguarded3 (Nat.mod_lt _ (by decide)) (by omega) (le_of_eq hlen)
    rw [hlen, ← hargs] at hcopy
    simp only [List.nil_append]
    rw [wp_bind]
    refine wp_mono hcopy ?_ fun _ _ he => hstop (.inr ⟨he.1, htable, he.2⟩)
    rintro r' m4 ⟨hguarded4, hkeeps4, hpte4, ⟨hneg, hbad⟩ | ⟨hpos, hmore', hcopied⟩⟩
    · rw [wp_ite, if_pos hneg, hbad]
      exact ⟨⟨⟨_, hguarded4.space, by simp⟩, hkeeps.trans hkeeps4⟩, rfl, by simp⟩
    rw [wp_ite, if_neg (by omega), hmore']
    refine ⟨⟨⟨_, hguarded4.space, ?_⟩, hkeeps.trans hkeeps4⟩, rfl, ?_⟩
    · rintro img ⟨⟩
      exact ⟨rfl, rfl⟩
    rintro img ⟨⟩
    refine hpushed.stacked hold.symm (by omega) (le_of_lt hlt) rfl ?_ hguarded3.guard ?_ hpte4
      hcopied
    · intro a ha
      have hKB : a < KERNBASE := by omega
      rw [hbytes2 a hKB, hsame1.byte hKB]
    · intro heager
      rw [← hsum, ← hold] at hmore
      rw [← hold] at heager
      exact hguarded3.present (mem_of_planAlloc hmore heager)
  · rintro _ _ ⟨he, hpush⟩
    rw [List.length_nil] at hpush
    rw [hpush] at hargs
    exact hstop (.inr ⟨he, htable, hargs⟩)

theorem setupkvm_laid (h : Uses A m R) :
    wp (setupkvm K)
      (fun r m' => Keeps R m m' ∧
        ((∃ D, r = some D ∧ Laid A m' D 0 ∅ R ∧ kernelFrames ≤ m.free.length) ∨
          r = none ∧ Uses A m' R ∧ m.free.length < kernelFrames))
      (fun _ _ => False) m := by
  refine wp_post (setupkvm_shows h) ?_
  rintro r m' (⟨D, rfl, hfresh, hkeeps, hshows⟩ | ⟨rfl, huses, hkeeps, hbound⟩)
  · have hfree := hshows.free_length hfresh.dir
    have hcard := congrArg Multiset.card (show _ = A.frames from h)
    rw [Multiset.card_add, Multiset.coe_card] at hcard
    rw [card_kernelTables, card_empty] at hfree
    refine ⟨hkeeps, .inl ⟨D, rfl, ⟨hfresh.space (by decide), ?_, by simp⟩, ?_⟩⟩
    · simpa [tablesOf] using hshows
    · unfold kernelFrames
      omega
  · exact ⟨hkeeps, .inr ⟨rfl, huses, hbound⟩⟩

theorem Uses.room (h : Uses A m R) : A.room R = m.free.length - kernelFrames := by
  have hcard := congrArg Multiset.card (show _ = A.frames from h)
  rw [Multiset.card_add, Multiset.coe_card] at hcard
  unfold Pool.room
  omega

structure ExecStops (ip : File) (argv : List (List UInt8)) (free : Nat) (e : Stop) : Prop where
  elf : ip.IsElf
  room : kernelFrames ≤ free
  stops : e = .loaduvm ∧ planImage (free - kernelFrames) ip = .stop ∨
    ∃ x, planImage (free - kernelFrames) ip = .more x ∧ StackStops (free - kernelFrames) argv x e

theorem ExecStops.plan {free : Nat} (h : ExecStops ip argv free e) :
    planExec ip argv free = .stop := by
  unfold planExec
  rw [if_pos ⟨h.elf, h.room⟩]
  rcases h.stops with ⟨_, hstop⟩ | ⟨x, hmore, hstop⟩
  · rw [hstop]
    rfl
  · rw [hmore, Fate.more_bind, hstop.plan]

theorem buildImage_spec (h : Laid A m D 0 ∅ R) :
    wp (buildImage K D ip argv)
      (fun r m' => Building A m D R r m' ∧
        ((planImage (A.room R) ip).bind (planStack (A.room R) argv) =
          if r.isSome then .more () else .bad) ∧
        ∀ img, r = some img → Ready m' ip ip.elfhdr argv img ∧ (Eager (img.sz - 8192) img.sz →
            flag (m'.pte img.pgdir ((img.sz - 8192) / 4096)) PTE_P = true))
      (fun e _ => e = .loaduvm ∧ planImage (A.room R) ip = .stop ∨
        ∃ x, planImage (A.room R) ip = .more x ∧ StackStops (A.room R) argv x e) m := by
  unfold buildImage planImage
  rw [wp_bind]
  refine wp_mono (loadSegments_spec h) ?_ fun _ _ he => .inl he
  rintro r m1 ⟨hload, ⟨rfl, hbad⟩ | ⟨sz, S, rfl, hmore, hlaid⟩⟩
  · obtain ⟨sz, hspace, _⟩ := hload.space
    rw [hbad]
    exact ⟨⟨⟨sz, hspace, by simp⟩, hload.keeps⟩, rfl, by simp⟩
  rw [hmore, Fate.more_bind]
  refine wp_mono (buildStack_spec hlaid) ?_ fun _ _ he => .inr ⟨_, rfl, he⟩
  rintro r m' ⟨⟨⟨sz', hspace', hr⟩, hkeeps'⟩, hplan, hstack⟩
  refine ⟨⟨⟨sz', hspace', hr⟩, hload.keeps.trans hkeeps'⟩, hplan, ?_⟩
  intro img himg
  obtain ⟨hD, hsz'⟩ := hr img himg
  have hstacked := hstack img himg
  refine ⟨hload.ready h.space hstacked (hsz' ▸ hspace') hD, ?_⟩
  rw [hstacked.sz, Nat.add_sub_cancel, hD]
  exact hstacked.present

theorem Space.guarded {sz : Nat} (h : Space A m D sz R) (hv : v < userPages)
    (hP : flag (m.pte D v) PTE_P = true) (hU : flag (m.pte D v) PTE_U = false) :
    m.guarded D v = true := by
  have hthree := (h.rights v hv hP).resolve_left fun hseven => by
    rw [flag_U_of_seven hseven] at hU
    cases hU
  rw [guarded_of_present hP, hthree]
  rfl

theorem Space.card_own_le {sz : Nat} (h : Space A m D sz R) : (m.own D).card ≤ 1025 + pages sz := by
  obtain ⟨T, S, hshows⟩ := exists_shows m D
  have hT : T.card ≤ 1024 := by
    rw [← card_range 1024]
    exact card_le_card fun i hi => mem_range.mpr (hshows.tables_lt i hi)
  have hS : S.card ≤ pages sz := by
    rw [← card_range (pages sz)]
    refine card_le_card fun u hu => mem_range.mpr ?_
    have hlt := hshows.pages_lt u hu
    exact h.below u hlt ((hshows.pages u hlt).mpr hu)
  rw [hshows.card_own]
  omega

theorem exec_spec (h : Uses A m R) :
    wp (exec K ip argv)
      (fun r m' => Keeps R m m' ∧
        match r with
        | none => planExec ip argv m.free.length = .bad ∧ Uses A m' R
        | some img => planExec ip argv m.free.length = .more () ∧ Space A m' img.pgdir img.sz R ∧
            Ready m' ip ip.elfhdr argv img ∧ (Eager (img.sz - 8192) img.sz →
              m'.guarded img.pgdir ((img.sz - 8192) / 4096) = true))
      (fun e _ => ExecStops ip argv m.free.length e) m := by
  have hrefl := Keeps.refl R m
  unfold exec planExec
  rw [wp_ite]
  by_cases h1 : readi ip 0 elfhdrSize ≠ some elfhdrSize
  · rw [if_pos h1, if_neg fun hc => h1 hc.1.1]
    exact ⟨hrefl, rfl, h⟩
  rw [if_neg h1, wp_ite]
  by_cases h2 : ip.elfhdr.magic ≠ ELF_MAGIC
  · rw [if_pos h2, if_neg fun hc => h2 hc.1.2]
    exact ⟨hrefl, rfl, h⟩
  have hip : ip.IsElf := ⟨not_not.mp h1, not_not.mp h2⟩
  rw [if_neg h2, wp_bind]
  refine wp_mono (setupkvm_laid h) ?_ fun _ _ he => he.elim
  rintro r m1 ⟨hkeeps, ⟨D, rfl, hlaid, hfree⟩ | ⟨rfl, huses, hfew⟩⟩
  · simp only [wp_bind]
    rw [if_pos ⟨hip, hfree⟩, ← h.room]
    refine wp_mono (buildImage_spec hlaid) ?_ fun _ _ he => ⟨hip, hfree, h.room ▸ he⟩
    rintro r m2 ⟨⟨⟨sz, hspace, hr⟩, hkeeps2⟩, hplan, hready⟩
    cases r with
    | none =>
      rw [wp_bind]
      refine wp_mono (freevm_spec hspace.dir) ?_ fun _ _ he => he.elim
      rintro _ m' ⟨huses, hkeeps3, _⟩
      exact ⟨(hkeeps.trans hkeeps2).trans hkeeps3, hplan, huses⟩
    | some img =>
      obtain ⟨hD, rfl⟩ := hr img rfl
      rw [← hD] at hspace
      obtain ⟨himg, hpresent⟩ := hready img rfl
      refine ⟨hkeeps.trans hkeeps2, hplan, hspace, himg, fun heager => ?_⟩
      exact hspace.guarded (div_lt_userPages (lt_of_le_of_lt (Nat.sub_le _ _) hspace.size))
        (hpresent heager) himg.guard
  · rw [if_neg fun hc => absurd hc.2 (by omega)]
    exact ⟨hkeeps, rfl, huses⟩

theorem exec_no_pages {sz : Nat} (h : Uses A m R) (hip : ip.IsElf)
    (hfree : kernelFrames ≤ m.free.length) (himage : ∀ room, planImage room ip = .more (sz, ∅))
    (halloc : ∀ room, planAlloc room ∅ (4096 * pages sz) (4096 * pages sz + 8192) =
      .more (4096 * pages sz + 8192, ∅)) :
    wp (exec K ip argv) (fun _ _ => False) (fun e _ => e = .clearpteu) m := by
  have hno : ¬HasTable ∅ (pages sz) := by
    have hlt : ¬KERNBASE ≤ 4096 * pages sz + 8192 := by
      intro hge
      have hbad := halloc 0
      unfold planAlloc at hbad
      rw [if_pos hge] at hbad
      cases hbad
    unfold KERNBASE at hlt
    rw [hasTable_iff (by unfold userPages; omega)]
    simp [tablesOf]
  have hplan : planExec ip argv m.free.length = .stop := by
    unfold planExec planStack
    rw [if_pos ⟨hip, hfree⟩, himage, Fate.more_bind, halloc, Fate.more_bind, if_neg hno]
  refine wp_mono (exec_spec h) ?_ ?_
  · rintro r m' ⟨_, hr⟩
    cases r with
    | none => cases hplan.symm.trans hr.1
    | some img => cases hplan.symm.trans hr.1
  intro e _ he
  rcases he.stops with ⟨_, hstop⟩ | ⟨x, hmore, y, hgrown, hstop⟩
  · cases hstop.symm.trans (himage _)
  · cases hmore.symm.trans (himage _)
    cases hgrown.symm.trans (halloc _)
    rcases hstop with ⟨he, _⟩ | ⟨_, hyes, _⟩
    · exact he
    · exact absurd hyes hno

end Xv6.Vm
