import Xv6.Vm.Map

/-!
# Unmapping and freeing

Specifications of `deallocuvm` and `freevm`: the frames mapped in the range go
back to the free list, and with the last ones the page tables and the directory.
-/

namespace Xv6.Vm

open Lib Lib.Prog Function Multiset

variable {K : Symbols} {A : Pool K} {R U : Multiset Nat} {m m' m₁ t : Mem}
variable {D f v oldsz T i g v' fuel newsz : Nat}

/-- The memory after `kfree`. -/
def freed (m : Mem) (f : Nat) : Mem :=
  { m.setPage f (fun _ => 1) with free := f :: m.free }

theorem freed_page_of_ne (h : g ≠ f) : (freed m f).page g = m.page g :=
  setPage_page_of_ne _ h

theorem Uses.keeps_freed (h : Uses A m (f ::ₘ U)) : Keeps U m (freed m f) := by
  intro g hg
  refine freed_page_of_ne ?_
  rintro rfl
  exact (nodup_cons.mp h.nodup_right).1 hg

theorem Dir.freed (h : Dir A m D (f ::ₘ R)) :
    Dir A (freed m f) D R ∧ (freed m f).table D = m.table D ∧
      (freed m f).pte D = m.pte D ∧ Keeps (m.own D + R) m (freed m f) := by
  have huses : Uses A m (f ::ₘ (m.own D + R)) := by
    have := h.uses
    rwa [add_cons] at this
  have hkeeps := huses.keeps_freed
  obtain ⟨htable, hpte, hown⟩ :=
    (hkeeps.left : Keeps (m.own D) m _).view
  refine ⟨⟨?_, ?_⟩, htable, hpte, hkeeps⟩
  · rw [hown]
    exact huses.release rfl
  · intro i hi hP
    have hword : (Vm.freed m f).word D i = m.word D i := by
      unfold Mem.word
      rw [hkeeps D (by simp [Mem.own])]
    rw [hword] at hP ⊢
    exact h.flags i hi hP

theorem Tree.unmap (h : Tree m D) (hT : m.table D (v / 1024) = some T) (hf : f ∉ D ::ₘ m.tables D) :
    ((Vm.freed m f).setWord T (v % 1024) 0).page D = m.page D ∧
      ((Vm.freed m f).setWord T (v % 1024) 0).pte D = update (m.pte D) v 0 ∧
      ∀ g, g ≠ f → g ≠ T → ((Vm.freed m f).setWord T (v % 1024) 0).page g = m.page g := by
  have hpage : ∀ g ∈ D ::ₘ m.tables D, (Vm.freed m f).page g = m.page g := by
    intro g hg
    refine freed_page_of_ne ?_
    rintro rfl
    exact hf hg
  have hD := hpage D (mem_cons_self D _)
  have htable := table_congr hD
  have htree : Tree (Vm.freed m f) D := by
    unfold Tree
    rw [tables_congr htable]
    exact h
  refine ⟨?_, ?_, ?_⟩
  · rw [setWord_page_of_ne _ _ (h.ne_table (mem_tables hT)).symm, hD]
  · rw [pte_setWord htree (by rw [htable]; exact hT) (by decide),
      pte_congr hD fun U hU => hpage U (mem_cons_of_mem hU)]
  · intro g hgf hgT
    rw [setWord_page_of_ne _ _ hgT, freed_page_of_ne hgf]

def rangeFrames (m : Mem) (D lo oldsz : Nat) : Multiset Nat :=
  collect userPages fun u => if lo ≤ u ∧ 4096 * u < oldsz then m.frameAt D u else none

theorem mem_rangeFrames {lo : Nat} (hold : oldsz ≤ KERNBASE) :
    f ∈ rangeFrames m D lo oldsz ↔ ∃ u, lo ≤ u ∧ 4096 * u < oldsz ∧ m.frameAt D u = some f := by
  unfold KERNBASE at hold
  unfold rangeFrames
  rw [mem_collect]
  constructor
  · rintro ⟨u, _, hu⟩
    split at hu
    · rename_i hrange
      exact ⟨u, hrange.1, hrange.2, hu⟩
    · cases hu
  · rintro ⟨u, hlo, hhi, hu⟩
    exact ⟨u, by unfold userPages; omega, by rw [if_pos ⟨hlo, hhi⟩]; exact hu⟩

theorem rangeFrames_skip (hle : v ≤ v')
    (hskip : ∀ u, v ≤ u → u < v' → flag (m.pte D u) PTE_P = false) :
    rangeFrames m D v oldsz = rangeFrames m D v' oldsz := by
  refine collect_congr ?_
  intro u _
  by_cases hu : v ≤ u ∧ u < v'
  · rw [if_neg (show ¬(v' ≤ u ∧ _) by omega), frameAt_eq,
      entryFrame_of_flag (hskip u hu.1 hu.2), ite_self]
  · exact if_congr (by omega) rfl rfl

theorem rangeFrames_cons (hv : v < userPages) (hlt : 4096 * v < oldsz)
    (hf : m.frameAt D v = some f) (hpte : m'.pte D = update (m.pte D) v 0) :
    rangeFrames m D v oldsz = f ::ₘ rangeFrames m' D (v + 1) oldsz := by
  unfold rangeFrames
  rw [collect_take hv ((if_pos ⟨le_rfl, hlt⟩).trans hf)]
  refine congrArg (Multiset.cons f) (collect_congr ?_)
  intro u _
  by_cases huv : u = v
  · rw [huv, update_self, if_neg (by omega)]
  · rw [update_of_ne huv, frameAt_of_update hpte, update_of_ne huv]
    exact if_congr (by omega) rfl rfl

/-- The frames mapped in the range can be freed, each once. -/
structure Freeable (K : Symbols) (m : Mem) (D lo oldsz : Nat) : Prop where
  nodup : (D ::ₘ m.tables D + rangeFrames m D lo oldsz).Nodup
  valid : ∀ f ∈ rangeFrames m D lo oldsz, K.Valid f ∧ f ≠ 0

section
variable (h : Freeable K m D v oldsz)
include h

theorem Freeable.tree : Tree m D :=
  (nodup_add.mp h.nodup).1

theorem Freeable.skip (hle : v ≤ v')
    (hskip : ∀ u, v ≤ u → u < v' → flag (m.pte D u) PTE_P = false) : Freeable K m D v' oldsz := by
  obtain ⟨hnodup, hvalid⟩ := h
  rw [rangeFrames_skip hle hskip] at hnodup hvalid
  exact ⟨hnodup, hvalid⟩

theorem Freeable.cons (hv : v < userPages) (hlt : 4096 * v < oldsz)
    (hT : m.table D (v / 1024) = some T) (hf : m.frameAt D v = some f) :
    f ∉ D ::ₘ m.tables D ∧ (K.Valid f ∧ f ≠ 0) ∧
      Freeable K ((Vm.freed m f).setWord T (v % 1024) 0) D (v + 1) oldsz := by
  have hmem : f ∈ rangeFrames m D v oldsz :=
    mem_collect.mpr ⟨v, hv, (if_pos ⟨le_rfl, hlt⟩).trans hf⟩
  have hnot : f ∉ D ::ₘ m.tables D :=
    fun hf' => disjoint_left.mp (nodup_add.mp h.nodup).2.2 hf' hmem
  obtain ⟨hD, hpte, _⟩ := h.tree.unmap hT hnot
  obtain ⟨hnodup, hvalid⟩ := h
  rw [rangeFrames_cons hv hlt hf hpte] at hnodup hvalid
  refine ⟨hnot, hvalid f (mem_cons_self f _), ?_, fun g hg => hvalid g (mem_cons_of_mem hg)⟩
  rw [tables_congr (table_congr hD)]
  rw [add_cons] at hnodup
  exact (nodup_cons.mp hnodup).2

end

def unmapped (w : Nat) : Nat :=
  if flag w PTE_P = true then 0 else w

theorem flag_unmapped (w : Nat) : flag (unmapped w) PTE_P = false := by
  unfold unmapped
  split
  · exact flag_zero _
  · simpa using ‹¬flag w PTE_P = true›

/-- The pages from `lo` on and below `oldsz` are unmapped and their frames freed. -/
structure Unmapped (m : Mem) (D lo oldsz : Nat) (m' : Mem) : Prop where
  dir : m'.page D = m.page D
  pte : ∀ u, m'.pte D u =
    if lo ≤ u ∧ 4096 * u < oldsz then unmapped (m.pte D u) else m.pte D u
  free : ∃ l : List Nat, m'.free = l ++ m.free ∧ (l : Multiset Nat) = rangeFrames m D lo oldsz
  pages : ∀ f, f ∉ m.tables D → f ∉ rangeFrames m D lo oldsz → m'.page f = m.page f
  oom : m'.oom = m.oom

theorem Unmapped.refl (hend : oldsz ≤ 4096 * v) : Unmapped m D v oldsz m := by
  refine ⟨rfl, ?_, ⟨[], rfl, ?_⟩, fun _ _ _ => rfl, rfl⟩
  · intro u
    rw [if_neg (by omega)]
  · exact (collect_eq_zero fun u _ => if_neg (by omega)).symm

theorem Unmapped.skip (h : Unmapped m D v' oldsz m') (hle : v ≤ v')
    (hskip : ∀ u, v ≤ u → u < v' → flag (m.pte D u) PTE_P = false) : Unmapped m D v oldsz m' := by
  obtain ⟨hdir, hpte, hfree, hpages, hoom⟩ := h
  rw [← rangeFrames_skip hle hskip] at hfree hpages
  refine ⟨hdir, ?_, hfree, hpages, hoom⟩
  intro u
  rw [hpte u]
  by_cases hu : v ≤ u ∧ u < v'
  · rw [if_neg (by omega), unmapped, hskip u hu.1 hu.2, if_neg Bool.false_ne_true, ite_self]
  · exact if_congr (by omega) rfl rfl

theorem Unmapped.cons (hdir : Tree m D) (hv : v < userPages) (hlt : 4096 * v < oldsz)
    (hT : m.table D (v / 1024) = some T) (hf : m.frameAt D v = some f) (hmem : f ∉ D ::ₘ m.tables D)
    (h : Unmapped ((freed m f).setWord T (v % 1024) 0) D (v + 1) oldsz m') :
    Unmapped m D v oldsz m' := by
  obtain ⟨hD, hpte, hpage⟩ := hdir.unmap hT hmem
  have hrange := rangeFrames_cons hv hlt hf hpte
  have hP : flag (m.pte D v) PTE_P = true := by
    by_contra hP
    rw [frameAt_eq, entryFrame_of_flag (by simpa using hP)] at hf
    cases hf
  obtain ⟨l, hfree, hl⟩ := h.free
  refine ⟨h.dir.trans hD, ?_, ⟨l ++ [f], by simp [hfree, freed], ?_⟩, ?_, h.oom⟩
  · intro u
    rw [h.pte u, hpte]
    by_cases huv : u = v
    · rw [huv, update_self, if_neg (by omega), if_pos ⟨le_rfl, hlt⟩, unmapped, if_pos hP]
    · rw [update_of_ne huv]
      exact if_congr (by omega) rfl rfl
  · rw [hrange, ← hl, ← coe_add, coe_singleton, add_comm, singleton_add]
  · intro g hg hg'
    rw [hrange, mem_cons, not_or] at hg'
    rw [h.pages g (by rw [tables_congr (table_congr hD)]; exact hg) hg'.2]
    refine hpage g hg'.1 ?_
    rintro rfl
    exact hg (mem_tables hT)

theorem deallocLoop_spec (h : Freeable K m D v oldsz) (hold : oldsz ≤ KERNBASE)
    (hpos : 0 < fuel) (hfuel : userPages < v + fuel) :
    wp (deallocLoop K D oldsz fuel (4096 * v))
      (fun _ m' => Unmapped m D v oldsz m') (fun _ _ => False) m := by
  have hKB : KERNBASE = 2147483648 := rfl
  have hUP : userPages = 524288 := rfl
  induction fuel generalizing m v with
  | zero => omega
  | succ fuel ih =>
    unfold deallocLoop
    rw [wp_ite]
    by_cases hlt : 4096 * v < oldsz
    · rw [if_pos hlt, wp_bind, wp_walkpgdir_false]
      have hpdx := PDX_page (v := v) (by omega)
      have hptx := PTX_page v
      have hnext : (4096 * v + 4096) % 2 ^ 32 = 4096 * (v + 1) := by omega
      rw [hpdx, hptx, hnext]
      cases hT : m.table D (v / 1024) with
      | none =>
        -- the whole page table is missing
        have hskip : (v / 1024 + 1) * 4194304 % 2 ^ 32 = 4096 * (1024 * (v / 1024 + 1)) := by omega
        have habsent : ∀ u, v ≤ u → u < 1024 * (v / 1024 + 1) →
            flag (m.pte D u) PTE_P = false := by
          intro u hu hu'
          have hdiv : u / 1024 = v / 1024 := by omega
          rw [pte_of_table_none (by rw [hdiv]; exact hT), flag_zero]
        simp only [Option.map_none]
        rw [hskip]
        refine wp_post (ih (h.skip (by omega) habsent) (by omega) (by omega)) ?_
        intro _ m' hm'
        exact hm'.skip (by omega) habsent
      | some T =>
        simp only [Option.map_some, wp_bind, wp_readPte, wp_ite, wp_throw]
        have hword : m.word T (v % 1024) = m.pte D v := (pte_of_table hT).symm
        have hvu : v < userPages := by omega
        rw [hword]
        by_cases hP : flag (m.pte D v) PTE_P = true
        · have hf : m.frameAt D v = some (pteFrame (m.pte D v)) := if_pos hP
          obtain ⟨hmem, hvalid, hnext⟩ := h.cons hvu hlt hT hf
          rw [if_pos hP, if_neg hvalid.2]
          refine wp_kfree hvalid.1 ?_
          simp only [wp_writePte]
          refine wp_post (ih hnext (by omega) (by omega)) ?_
          intro _ m' hm'
          exact Unmapped.cons h.tree hvu hlt hT hf hmem hm'
        have hP' : ∀ u, v ≤ u → u < v + 1 → flag (m.pte D u) PTE_P = false := by
          intro u hu hu'
          obtain rfl : u = v := by omega
          simpa using hP
        rw [if_neg hP]
        refine wp_post (ih (h.skip (by omega) hP') (by omega) (by omega)) ?_
        intro _ m' hm'
        exact hm'.skip (by omega) hP'
    · rw [if_neg hlt]
      exact Unmapped.refl (by omega)

/-- What `deallocuvm` leaves when it has unmapped the pages from `lo` to `oldsz`. -/
structure Dealloced {K : Symbols} (A : Pool K) (m : Mem) (D lo oldsz : Nat)
    (R : Multiset Nat) (m' : Mem) : Prop where
  dir : Dir A m' D R
  table : m'.table D = m.table D
  pte : ∀ u, m'.pte D u =
    if lo ≤ u ∧ 4096 * u < oldsz ∧ flag (m.pte D u) PTE_P = true then 0 else m.pte D u
  keeps : Keeps R m m'
  stays : ∀ u < userPages, ¬(lo ≤ u ∧ 4096 * u < oldsz) → ∀ f, m.frameAt D u = some f →
    m'.page f = m.page f
  room : m.free.length ≤ m'.free.length
  oom : m'.oom = m.oom

theorem Unmapped.users_eq {lo : Nat} (h : Unmapped m D lo oldsz m') :
    m.users D = rangeFrames m D lo oldsz + m'.users D := by
  have hsplit := collect_split userPages (m.frameAt D) fun u => lo ≤ u ∧ 4096 * u < oldsz
  refine hsplit.trans (congrArg (rangeFrames m D lo oldsz + ·) (collect_congr ?_))
  intro u _
  rw [frameAt_eq m', h.pte u]
  by_cases hu : lo ≤ u ∧ 4096 * u < oldsz
  · rw [if_pos hu, if_pos hu, entryFrame_of_flag (flag_unmapped _)]
  · rw [if_neg hu, if_neg hu, frameAt_eq]

section
variable {lo : Nat} (h : Dir A m D R)
include h

theorem Dir.freeable (lo oldsz : Nat) : Freeable K m D lo oldsz := by
  have hsplit := collect_split userPages (m.frameAt D) fun u => lo ≤ u ∧ 4096 * u < oldsz
  have hle : rangeFrames m D lo oldsz ≤ m.users D := by
    unfold Mem.users
    rw [hsplit]
    exact le_add_right _ _
  refine ⟨?_, ?_⟩
  · rw [cons_add]
    exact nodup_of_le (cons_le_cons D (add_le_add_right hle _)) h.nodup_own
  · intro f hf
    have hvalid := h.mem_own_valid (show f ∈ m.own D by simp [Mem.own, mem_of_le hle hf])
    exact ⟨hvalid, (hvalid.pos A.ok).ne'⟩

theorem Unmapped.dealloced (hold : oldsz ≤ KERNBASE) (hm : Unmapped m D lo oldsz m') :
    Dealloced A m D lo oldsz R m' := by
  have htable := table_congr hm.dir
  have husers := hm.users_eq
  obtain ⟨l, hfree, hl⟩ := hm.free
  refine ⟨⟨h.uses.congr ?_, ?_⟩, htable, ?_, ?_, ?_, ?_, hm.oom⟩
  · rw [Dir.frames_eq, Dir.frames_eq, tables_congr htable, hfree, ← coe_add, hl, husers, cons_add,
      cons_add, add_comm (rangeFrames m D lo oldsz) m.free, ← add_assoc (m.tables D), add_assoc,
      add_assoc (rangeFrames m D lo oldsz)]
  · intro i hi hP
    have hword : m'.word D i = m.word D i := by
      unfold Mem.word
      rw [hm.dir]
    rw [hword] at hP ⊢
    exact h.flags i hi hP
  · intro u
    rw [hm.pte u, ite_and, ite_and, ite_and]
    rfl
  · intro f hf
    have hown := h.notMem_own hf
    refine hm.pages f ?_ ?_
    · intro hT
      exact hown (by simp [Mem.own, hT])
    · intro hr
      exact hown (by simp [Mem.own, husers, hr])
  · intro u hu hout f hf
    have hmem := mem_users hu hf
    refine hm.pages f (fun hT => h.user_ne_table hmem hT rfl) ?_
    intro hr
    obtain ⟨u', hlo, hhi, hf'⟩ := (mem_rangeFrames hold).mp hr
    have hu' : u' < userPages := by
      unfold KERNBASE at hold
      unfold userPages
      omega
    have hnodup := (nodup_add.mp (nodup_cons.mp h.nodup_own).2).2.1
    obtain rfl := eq_of_nodup_collect hnodup hu hu' hf hf'
    exact hout ⟨hlo, hhi⟩
  · rw [hfree, List.length_append]
    omega

end

/-- The number of pages that hold `sz` bytes. -/
def pages (sz : Nat) : Nat :=
  (sz + 4095) / 4096

theorem PGROUNDUP_eq {sz : Nat} (h : sz ≤ KERNBASE) : PGROUNDUP sz = 4096 * pages sz := by
  unfold KERNBASE at h
  unfold PGROUNDUP pages
  omega

theorem deallocuvm_unmaps (h : Freeable K m D (pages newsz) oldsz) (hold : oldsz ≤ KERNBASE) :
    wp (deallocuvm K D oldsz newsz)
      (fun r m' => r = min oldsz newsz ∧ Unmapped m D (pages newsz) oldsz m')
      (fun _ _ => False) m := by
  unfold deallocuvm
  rw [wp_ite]
  by_cases hle : oldsz ≤ newsz
  · rw [if_pos hle]
    refine ⟨(Nat.min_eq_left hle).symm, Unmapped.refl ?_⟩
    unfold pages
    omega
  · rw [if_neg hle, wp_bind, PGROUNDUP_eq (by omega)]
    refine wp_post (deallocLoop_spec h hold (by decide) ?_) ?_
    · unfold maxPages userPages
      omega
    · intro _ m' hm'
      exact ⟨(Nat.min_eq_right (by omega)).symm, hm'⟩

/-- For any page table whose frames in the range can be freed: `deallocuvm` returns, and then no
page from `PGROUNDUP(newsz)` on and below `oldsz` is present, every other entry is as before,
and the frames that `kfree` has got are those that were mapped there, each once. -/
theorem deallocuvm_frees (h : Freeable K m D (pages newsz) oldsz)
    (hlt : newsz < oldsz) (hold : oldsz ≤ KERNBASE) :
    ∃ m' l, deallocuvm K D oldsz newsz m = (.ok newsz, m') ∧
      (∀ u, PGROUNDUP newsz ≤ 4096 * u → 4096 * u < oldsz → flag (m'.pte D u) PTE_P = false) ∧
      (∀ u, ¬(PGROUNDUP newsz ≤ 4096 * u ∧ 4096 * u < oldsz) → m'.pte D u = m.pte D u) ∧
      m'.page D = m.page D ∧ m'.free = l ++ m.free ∧ l.Nodup ∧
      ∀ f, f ∈ l ↔ ∃ u, PGROUNDUP newsz ≤ 4096 * u ∧ 4096 * u < oldsz ∧ m.frameAt D u = some f := by
  have hpages : ∀ u, PGROUNDUP newsz ≤ 4096 * u ↔ pages newsz ≤ u := by
    intro u
    rw [PGROUNDUP_eq (by omega)]
    omega
  obtain ⟨r, m', hrun, hr, hm⟩ := exists_ok (deallocuvm_unmaps h hold) fun _ _ he => he
  obtain ⟨l, hfree, hl⟩ := hm.free
  rw [Nat.min_eq_right (by omega)] at hr
  refine ⟨m', l, by rw [hrun, hr], ?_, ?_, hm.dir, hfree, ?_, ?_⟩
  · intro u hlo hhi
    rw [hm.pte u, if_pos ⟨(hpages u).mp hlo, hhi⟩]
    exact flag_unmapped _
  · intro u hu
    rw [hpages] at hu
    rw [hm.pte u, if_neg hu]
  · rw [← coe_nodup, hl]
    exact (nodup_add.mp h.nodup).2.1
  · intro f
    rw [← mem_coe, hl, mem_rangeFrames hold]
    simp only [hpages]

theorem freeable_one : ∃ m : Mem, m.frameAt 1 0 = some 3 ∧ Freeable ⟨0, 0⟩ m 1 (pages 0) 4096 := by
  obtain ⟨z, hzero, hfree⟩ : ∃ z : Mem, z.page 1 = (fun _ => 0) ∧ z.free = [2] :=
    ⟨⟨fun _ _ => 0, [2], 0⟩, rfl, rfl⟩
  have hnone := table_of_zero hzero
  have hz := extensible_of_zero hzero (by rw [hfree]; decide) (by rw [hfree]; decide)
  obtain ⟨htable, hext, hpte⟩ := hz.withTable (by decide) hfree (hnone 0)
  have htree := (hz.extended hext).tree
  have hT : (withTable z 1 0 2 []).table 1 (0 / 1024) = some 2 := by
    rw [htable]
    exact update_self ..
  have hentry := pte_setWord htree hT (w := mkPte 3 7) (by decide)
  have hframe : ((withTable z 1 0 2 []).setWord 2 (0 % 1024) (mkPte 3 7)).frameAt 1 0 = some 3 := by
    rw [frameAt_eq, hentry, update_self]
    decide
  have hcleared : z.pte 1 = update (((withTable z 1 0 2 []).setWord 2 (0 % 1024)
      (mkPte 3 7)).pte 1) 0 0 := by
    rw [hentry, hpte, update_idem]
    exact (update_eq_self_iff.mpr (pte_of_table_none (hnone _)).symm).symm
  have hrange : _ = _ ::ₘ rangeFrames z 1 (0 + 1) 4096 :=
    rangeFrames_cons (by decide) (by decide) hframe hcleared
  have hrest : rangeFrames z 1 1 4096 = 0 := collect_eq_zero fun u _ => if_neg (by omega)
  have htables : (withTable z 1 0 2 []).tables 1 = {2} := by
    have hframes : _ + (([] : List Nat) : Multiset Nat) = z.tables 1 + z.free := hext.frames
    rw [hfree, show z.tables 1 = 0 from collect_eq_zero fun i _ => hnone i] at hframes
    simpa using hframes
  refine ⟨_, hframe, ?_, ?_⟩
  · rw [tables_congr (table_setWord htree hT), htables, show pages 0 = 0 from rfl, hrange, hrest]
    decide
  · intro f hf
    rw [show pages 0 = 0 from rfl, hrange, hrest] at hf
    rw [mem_singleton.mp hf]
    decide

/-- One page is unmapped, and its frame is free afterwards. -/
theorem deallocuvm_frees_one :
    ∃ m m' : Mem, m.frameAt 1 0 = some 3 ∧ deallocuvm ⟨0, 0⟩ 1 4096 0 m = (.ok 0, m') ∧
      flag (m'.pte 1 0) PTE_P = false ∧ 3 ∈ m'.free := by
  obtain ⟨m, hframe, hfreeable⟩ := freeable_one
  obtain ⟨m', l, hrun, hgone, _, _, hfree, _, hl⟩ :=
    deallocuvm_frees hfreeable (by decide) (by decide)
  refine ⟨m, m', hframe, hrun, hgone 0 (by decide) (by decide), ?_⟩
  rw [hfree, List.mem_append]
  exact .inl ((hl 3).mpr ⟨0, by decide, by decide, hframe⟩)

theorem deallocuvm_spec (h : Dir A m D R) (hold : oldsz ≤ KERNBASE) :
    wp (deallocuvm K D oldsz newsz)
      (fun r m' => r = min oldsz newsz ∧ Dealloced A m D (pages newsz) oldsz R m')
      (fun _ _ => False) m :=
  wp_post (deallocuvm_unmaps (h.freeable _ _) hold)
    fun _ _ hm => ⟨hm.1, hm.2.dealloced h hold⟩

theorem Dealloced.users_eq_zero (h : Dealloced A m D 0 KERNBASE R m₁) : m₁.users D = 0 := by
  refine collect_eq_zero ?_
  intro u hu
  have hu' : u < 524288 := hu
  rw [frameAt_eq]
  refine entryFrame_of_flag ?_
  rw [h.pte u]
  by_cases hP : flag (m.pte D u) PTE_P = true
  · rw [if_pos ⟨by omega, by unfold KERNBASE; omega, hP⟩, flag_zero]
  · rw [if_neg fun hc => hP hc.2.2]
    simpa using hP

def tablesFrom (m : Mem) (D i : Nat) : Multiset Nat :=
  collect NPDENTRIES fun j => if j < i then none else m.table D j

theorem tablesFrom_zero : tablesFrom m D 0 = m.tables D :=
  collect_congr fun j _ => if_neg (by omega)

theorem tablesFrom_end : tablesFrom m D 1024 = 0 :=
  collect_eq_zero fun _ hj => if_pos hj

theorem tablesFrom_some (h : m.table D i = some T) :
    tablesFrom m D i = T ::ₘ tablesFrom m D (i + 1) := by
  unfold tablesFrom
  rw [collect_take (lt_of_table h) (x := T) (by rw [if_neg (by omega)]; exact h)]
  refine congrArg (Multiset.cons T) (collect_congr ?_)
  intro j _
  by_cases hj : j = i
  · rw [hj, update_self, if_pos (by omega)]
  · rw [update_of_ne hj]
    exact if_congr (by omega) rfl rfl

theorem tablesFrom_none (h : m.table D i = none) : tablesFrom m D i = tablesFrom m D (i + 1) := by
  refine collect_congr ?_
  intro j _
  by_cases hj : j = i
  · rw [hj, if_neg (by omega), if_pos (by omega), h]
  · exact if_congr (by omega) rfl rfl

structure Freeing (A : Pool K) (m₁ : Mem) (D i : Nat) (R : Multiset Nat) (t : Mem) : Prop where
  uses : Uses A t (D ::ₘ (tablesFrom m₁ D i + R))
  dir : t.page D = m₁.page D
  keeps : Keeps R m₁ t
  oom : t.oom = m₁.oom

theorem Freeing.next (h : Freeing A m₁ D i R t) :
    wp (freeTable K D i) (fun _ => Freeing A m₁ D (i + 1) R) (fun _ _ => False) t := by
  unfold freeTable
  have hword : t.word D i = m₁.word D i := by
    unfold Mem.word
    rw [h.dir]
  rw [wp_bind, wp_readPte, wp_ite, hword]
  by_cases hP : flag (m₁.word D i) PTE_P = true
  · have hT : m₁.table D i = some (pteFrame (m₁.word D i)) := if_pos hP
    have huses := h.uses
    rw [tablesFrom_some hT, cons_add, cons_swap] at huses
    rw [if_pos hP]
    refine wp_kfree (huses.valid (mem_cons_self _ _)) ?_
    have hkeeps := huses.keeps_freed
    refine ⟨huses.release rfl, ?_, ?_, h.oom⟩
    · exact (hkeeps D (by simp)).trans h.dir
    · exact h.keeps.trans (hkeeps.mono fun f hf => by simp [hf])
  · have hT : m₁.table D i = none := if_neg hP
    have huses := h.uses
    rw [tablesFrom_none hT] at huses
    rw [if_neg hP]
    exact ⟨huses, h.dir, h.keeps, h.oom⟩

theorem Freeing.loop (h : Freeing A m₁ D 0 R m₁) (n : Nat) :
    wp (forEach (List.range n) (freeTable K D)) (fun _ => Freeing A m₁ D n R)
      (fun _ _ => False) m₁ :=
  wp_forEach_range (I := fun i => Freeing A m₁ D i R) (fun _ _ _ ht => ht.next) h

theorem freevm_spec (h : Dir A m D R) :
    wp (freevm K (some D)) (fun _ m' => Uses A m' R ∧ Keeps R m m' ∧ m'.oom = m.oom)
      (fun _ _ => False) m := by
  unfold freevm
  refine wp_seq (deallocuvm_spec h le_rfl) ?_
  intro _ m₁ hdealloc
  have hm1 : Dealloced A m D 0 KERNBASE R m₁ := hdealloc.2
  rw [wp_bind]
  have hstart : Freeing A m₁ D 0 R m₁ := by
    refine ⟨?_, rfl, Keeps.refl _ m₁, rfl⟩
    have huses := hm1.dir.uses
    unfold Mem.own at huses
    rwa [hm1.users_eq_zero, add_zero, cons_add, ← tablesFrom_zero] at huses
  -- a variable, so that the loop is not unrolled
  generalize hn : NPDENTRIES = n
  refine wp_post (hstart.loop n) ?_
  intro _ t ht
  have huses := ht.uses
  rw [← hn, tablesFrom_end, zero_add] at huses
  refine wp_kfree (huses.valid (mem_cons_self _ _)) ⟨huses.release rfl, ?_, ?_⟩
  · exact hm1.keeps.trans (ht.keeps.trans huses.keeps_freed)
  · exact ht.oom.trans hm1.oom

end Xv6.Vm
