import Xv6.Vm.Space

/-!
# Walking and mapping

Specifications of `walkpgdir` and `mappages`: a walk may add an empty page table
and changes no entry; mapping a page sets its entry and, below `KERNBASE`, hands
the frame over to the address space.
-/

namespace Xv6.Vm

open Lib Lib.Prog Function Multiset

variable {K : Symbols} {A : Pool K} {R S R' : Multiset Nat} {m m' m1 : Mem}
variable {D va T i v w f n perm fuel p a pa u : Nat} {l : List Nat} {E : Stop → Mem → Prop}
variable {Q : Option PtePtr → Mem → Prop}

theorem PDX_eq (hva : va < 2 ^ 32) : PDX va = va / 4096 / 1024 := by
  unfold PDX
  omega

theorem PTX_eq : PTX va = va / 4096 % 1024 := by
  rfl

theorem PDX_page (hv : v < 1048576) : PDX (4096 * v) = v / 1024 := by
  unfold PDX
  omega

theorem PTX_page (v : Nat) : PTX (4096 * v) = v % 1024 := by
  unfold PTX
  omega

theorem wp_readPte {Q : Nat → Mem → Prop} (p : PtePtr) :
    wp (readPte p) Q E m ↔ Q (m.word p.1 p.2) m := by
  rfl

theorem wp_writePte {Q : Unit → Mem → Prop} (p : PtePtr) (w : Nat) :
    wp (writePte p w) Q E m ↔ Q () (m.setWord p.1 p.2 w) := by
  rfl

theorem wp_walkpgdir_false :
    wp (walkpgdir D va false) Q E m ↔
      Q ((m.table D (PDX va)).map fun T => (T, PTX va)) m := by
  unfold walkpgdir Mem.table
  rw [wp_bind, wp_readPte, wp_ite]
  by_cases hP : flag (m.word D (PDX va)) PTE_P = true
  · rw [if_pos hP, if_pos hP]
    rfl
  · rw [if_neg hP, if_neg hP]
    rfl

/-- Free pages can become page tables. -/
structure Extensible (m : Mem) (D : Nat) : Prop where
  nodup : (D ::ₘ (m.tables D + m.free)).Nodup
  small : ∀ f ∈ m.free, f < 1048576

theorem table_of_zero (h : m.page D = fun _ => 0) (i : Nat) : m.table D i = none := by
  have hword : m.word D i = 0 := by
    unfold Mem.word readWord getByte
    rw [h]
    simp
  unfold Mem.table
  rw [hword, flag_zero]
  rfl

theorem extensible_of_zero (h : m.page D = fun _ => 0) (hnodup : (D :: m.free).Nodup)
    (hsmall : ∀ f ∈ m.free, f < 1048576) : Extensible m D := by
  refine ⟨?_, hsmall⟩
  unfold Mem.tables
  rw [collect_eq_zero fun i _ => table_of_zero h i, zero_add]
  exact hnodup

/-- Free pages have become page tables, and no other pages than these, the directory and its page
tables have been written to. -/
structure Extended (m : Mem) (D : Nat) (m' : Mem) : Prop where
  frames : m'.tables D + m'.free = m.tables D + m.free
  free : m'.free ⊆ m.free
  pages : ∀ f, f ∉ D ::ₘ (m.tables D + m.free) → m'.page f = m.page f
  flags : ∀ i, m'.word D i = m.word D i ∨ PTE_FLAGS (m'.word D i) = 7

theorem Extensible.tree (h : Extensible m D) : Tree m D :=
  nodup_of_le (cons_le_cons D (le_add_right _ _)) h.nodup

theorem Dir.frames_eq (m : Mem) (D : Nat) (R : Multiset Nat) :
    (m.free : Multiset Nat) + (m.own D + R) =
      D ::ₘ (m.tables D + m.free) + (m.users D + R) := by
  unfold Mem.own
  generalize m.tables D = T
  generalize m.users D = U
  rw [cons_add, add_cons, cons_add, add_assoc, add_left_comm, add_assoc]

section
variable (h : Dir A m D R)
include h

theorem Dir.extensible : Extensible m D := by
  refine ⟨?_, fun f hf => (h.uses.valid_of_free hf).lt⟩
  have hnodup := h.uses.nodup
  rw [Dir.frames_eq] at hnodup
  exact (nodup_add.mp hnodup).1

theorem Extended.dir (he : Extended m D m')
    (husers : m'.users D + R' = m.users D + R) : Dir A m' D R' := by
  refine ⟨h.uses.congr ?_, ?_⟩
  · rw [Dir.frames_eq, Dir.frames_eq, he.frames, husers]
  · intro i hi hP
    rcases he.flags i with hi' | hi'
    · rw [hi'] at hP ⊢
      exact h.flags i hi hP
    · exact hi'

theorem Extended.keeps (he : Extended m D m') : Keeps (m.users D + R) m m' := by
  intro f hf
  have hnodup := h.uses.nodup
  rw [Dir.frames_eq] at hnodup
  exact he.pages f fun hmem => disjoint_left.mp (nodup_add.mp hnodup).2.2 hmem hf

end

theorem Extended.refl (m : Mem) (D : Nat) : Extended m D m :=
  ⟨rfl, List.Subset.refl _, fun _ _ => rfl, fun _ => .inl rfl⟩

theorem Extended.trans (h : Extended m D m1) (h' : Extended m1 D m') : Extended m D m' := by
  refine ⟨h'.frames.trans h.frames, List.Subset.trans h'.free h.free, ?_, ?_⟩
  · intro f hf
    rw [h'.pages f (by rwa [h.frames]), h.pages f hf]
  · intro i
    rcases h'.flags i with hi | hi
    · rw [hi]
      exact h.flags i
    · exact .inr hi

theorem Extensible.extended (h : Extensible m D) (he : Extended m D m') : Extensible m' D :=
  ⟨by rw [he.frames]; exact h.nodup, fun f hf => h.small f (he.free hf)⟩

theorem Tree.extended_setWord (h : Tree m D) (hT : m.table D (v / 1024) = some T) :
    Extended m D (m.setWord T (v % 1024) w) := by
  have hne := h.ne_table (mem_tables hT)
  refine ⟨?_, List.Subset.refl _, ?_, ?_⟩
  · rw [tables_congr (table_setWord h hT), setWord_free]
  · intro f hf
    refine setWord_page_of_ne _ _ ?_
    rintro rfl
    exact hf (by simp [mem_tables hT])
  · intro i
    left
    unfold Mem.word
    rw [setWord_page_of_ne _ _ hne.symm]

def withTable (m : Mem) (D i T : Nat) (l : List Nat) : Mem :=
  ({ m with free := l }.setPage T fun _ => 0).setWord D i (mkPte T 7)

theorem word_withTable_dir (hi : i < 1024) (hT : T < 1048576) (hne : T ≠ D) (j : Nat) :
    (withTable m D i T l).word D j = if j = i then mkPte T 7 else m.word D j := by
  unfold withTable
  by_cases hj : j = i
  · subst hj
    rw [if_pos rfl]
    exact word_setWord_self hi (mkPte_lt (by omega) hT)
  · rw [if_neg hj, word_setWord_of_ne hi (Or.inr hj)]
    unfold Mem.word
    rw [setPage_page_of_ne _ hne.symm]

theorem table_withTable (hi : i < 1024) (hT : T < 1048576) (hne : T ≠ D) :
    (withTable m D i T l).table D = update (m.table D) i (some T) := by
  funext j
  unfold Mem.table
  rw [word_withTable_dir hi hT hne]
  by_cases hj : j = i
  · subst hj
    rw [if_pos rfl, update_self, flag_P, testBit_mkPte (by omega) (by omega),
      pteFrame_mkPte (by omega)]
    rfl
  · rw [if_neg hj, update_of_ne hj]

theorem page_withTable_of_ne (hD : f ≠ D) (hT : f ≠ T) :
    (withTable m D i T l).page f = m.page f := by
  unfold withTable
  rw [setWord_page_of_ne _ _ hD, setPage_page_of_ne _ hT]

theorem word_withTable_new (hne : T ≠ D) (j : Nat) : (withTable m D i T l).word T j = 0 := by
  unfold withTable Mem.word
  rw [setWord_page_of_ne _ _ hne, setPage_page_self]
  unfold readWord getByte
  simp

section
variable (h : Extensible m D) (hi : i < 1024) (hfree : m.free = T :: l) (hnone : m.table D i = none)
include h hi hfree hnone

theorem Extensible.withTable :
    (withTable m D i T l).table D = update (m.table D) i (some T) ∧
      Extended m D (Vm.withTable m D i T l) ∧ (Vm.withTable m D i T l).pte D = m.pte D := by
  have hnodup := h.nodup
  have hlt := h.small T (by simp [hfree])
  rw [hfree, ← cons_coe, add_cons, cons_swap, nodup_cons] at hnodup
  have hT : ∀ U ∈ D ::ₘ m.tables D, T ≠ U := by
    rintro U hU rfl
    exact hnodup.1 (mem_of_le (cons_le_cons D (le_add_right _ _)) hU)
  have hne : T ≠ D := hT D (mem_cons_self D _)
  have htable := table_withTable (m := m) (l := l) hi hlt hne
  refine ⟨htable, ⟨?_, ?_, ?_, ?_⟩, ?_⟩
  · have hput := collect_put hi hnone T
    unfold Mem.tables
    rw [htable, hput, hfree, ← cons_coe, add_cons, cons_add]
    rfl
  · rw [hfree]
    exact List.subset_cons_self T l
  · intro f hf
    rw [hfree] at hf
    refine page_withTable_of_ne ?_ ?_
    · rintro rfl
      exact hf (mem_cons_self _ _)
    · rintro rfl
      exact hf (by simp)
  · intro j
    rw [word_withTable_dir hi hlt hne]
    by_cases hj : j = i
    · rw [if_pos hj]
      exact .inr (PTE_FLAGS_mkPte (by omega))
    · rw [if_neg hj]
      exact .inl rfl
  -- the new page table is empty, so every entry is as before
  funext v
  by_cases hv : v / 1024 = i
  · rw [pte_of_table_none (m := m) (by rw [hv]; exact hnone),
      pte_of_table (T := T) (by rw [htable, hv, update_self])]
    exact word_withTable_new hne _
  have hsame : (Vm.withTable m D i T l).table D (v / 1024) = m.table D (v / 1024) := by
    rw [htable, update_of_ne hv]
  cases hU : m.table D (v / 1024) with
  | none => rw [pte_of_table_none hU, pte_of_table_none (hsame.trans hU)]
  | some U =>
    have hmem := mem_tables hU
    rw [pte_of_table hU, pte_of_table (hsame.trans hU)]
    unfold Mem.word
    rw [page_withTable_of_ne (h.tree.ne_table hmem) (hT U (mem_cons_of_mem hmem)).symm]

end

/-- What a walk with allocation leaves: the same entries, and a page table for `va`. -/
structure Walk (m : Mem) (D va T : Nat) (m' : Mem) : Prop where
  extended : Extended m D m'
  table : m'.table D (PDX va) = some T
  pte : m'.pte D = m.pte D
  others : ∀ i, i ≠ PDX va → m'.table D i = m.table D i
  room : m.free.length ≤ m'.free.length + 1
  oom : m'.oom = m.oom

structure Walked (A : Pool K) (m : Mem) (D va : Nat) (R : Multiset Nat) (T : Nat) (m' : Mem) :
    Prop where
  dir : Dir A m' D R
  table : m'.table D (PDX va) = some T
  pte : m'.pte D = m.pte D
  keeps : Keeps (m.users D + R) m m'
  others : ∀ i, i ≠ PDX va → m'.table D i = m.table D i
  room : m.free.length ≤ m'.free.length + 1
  oom : m'.oom = m.oom

theorem Walk.walked (h : Walk m D va T m') (hdir : Dir A m D R) : Walked A m D va R T m' := by
  have husers : m'.users D = m.users D := users_congr fun u _ => congrFun h.pte u
  exact ⟨h.extended.dir hdir (by rw [husers]), h.table, h.pte, h.extended.keeps hdir, h.others,
    h.room, h.oom⟩

theorem Walk.refl (hT : m.table D (PDX va) = some T) : Walk m D va T m :=
  ⟨Extended.refl m D, hT, rfl, fun _ _ => rfl, by omega, rfl⟩

theorem wp_walkpgdir_true (h : Extensible m D)
    (hnone : m.free = [] → m.table D (PDX va) = none → Q none { m with oom := m.oom + 1 })
    (hsome : ∀ T m', Walk m D va T m' → Q (some (T, PTX va)) m') :
    wp (walkpgdir D va true) Q E m := by
  have hPDX : PDX va < 1024 := Nat.mod_lt _ (by omega)
  unfold walkpgdir
  rw [wp_bind, wp_readPte, wp_ite]
  by_cases hP : flag (m.word D (PDX va)) PTE_P = true
  · rw [if_pos hP]
    exact hsome _ m (Walk.refl (if_pos hP))
  have htable : m.table D (PDX va) = none := if_neg hP
  rw [if_neg hP, wp_ite, if_neg (by simp), wp_bind]
  refine wp_kalloc ?_ ?_
  · intro hfree
    exact hnone hfree htable
  intro T l hfree
  obtain ⟨htable', hext, hpte⟩ := h.withTable hPDX hfree htable
  refine hsome T (withTable m D (PDX va) T l) ⟨hext, ?_, hpte, ?_, ?_, rfl⟩
  · rw [htable', update_self]
  · intro i hi
    rw [htable', update_of_ne hi]
  · rw [hfree]
    exact le_rfl

theorem walkpgdir_true_spec (h : Dir A m D R)
    (hnone : m.free = [] → m.table D (PDX va) = none → Q none { m with oom := m.oom + 1 })
    (hsome : ∀ T m', Walked A m D va R T m' → Q (some (T, PTX va)) m') :
    wp (walkpgdir D va true) Q E m :=
  wp_walkpgdir_true h.extensible hnone fun T m' hwalk => hsome T m' (hwalk.walked h)

theorem or_eq_mkPte (f perm : Nat) : f * 4096 ||| perm ||| PTE_P = mkPte f (perm ||| PTE_P) := by
  unfold mkPte
  rw [Nat.or_assoc]

theorem or_P_lt (hperm : perm < 4096) : perm ||| PTE_P < 4096 :=
  Nat.or_lt_two_pow (n := 12) hperm (by decide)

theorem flag_or_P (hperm : perm < 4096) : flag (mkPte f (perm ||| PTE_P)) PTE_P = true := by
  have hlt := or_P_lt hperm
  rw [flag_P, testBit_mkPte hlt (by omega), Nat.testBit_or]
  simp

theorem entryFrame_mkPte (hperm : perm < 4096) :
    entryFrame (mkPte f (perm ||| PTE_P)) = some f := by
  have hlt := or_P_lt hperm
  unfold entryFrame
  rw [flag_or_P hperm, pteFrame_mkPte hlt]
  rfl

theorem entryFrame_of_flag (h : flag w PTE_P = false) : entryFrame w = none := by
  unfold entryFrame
  rw [h]
  rfl

structure Mapped (A : Pool K) (m : Mem) (D v w : Nat) (S R : Multiset Nat) (m' : Mem) :
    Prop where
  dir : Dir A m' D R
  pte : m'.pte D = update (m.pte D) v w
  keeps : Keeps S m m'
  others : ∀ i, i ≠ v / 1024 → m'.table D i = m.table D i
  room : m.free.length ≤ m'.free.length + 1
  oom : m'.oom = m.oom

/-- What mapping the pages from `v` to `v + n` to the frames from `p` on may change. -/
structure Ranged (m : Mem) (D v n p perm : Nat) (m' : Mem) : Prop where
  extended : Extended m D m'
  entry : ∀ u, m'.pte D u = m.pte D u ∨
    v ≤ u ∧ u ≤ v + n ∧ m'.pte D u = mkPte ((p + (u - v)) % 1048576) (perm ||| PTE_P)
  tables : ∀ i, (m'.table D i).isSome = true →
    (m.table D i).isSome = true ∨ v / 1024 ≤ i ∧ i ≤ (v + n) / 1024

theorem Walk.map (h : Walk m D (4096 * v) T m1) (hm : Extensible m D) (hv : v < 1048576)
    (hp : p < 1048576) (hperm : perm < 4096) :
    Ranged m D v 0 p perm (m1.setWord T (PTX (4096 * v)) (mkPte p (perm ||| PTE_P))) ∧
      (m1.setWord T (PTX (4096 * v)) (mkPte p (perm ||| PTE_P))).pte D =
        update (m.pte D) v (mkPte p (perm ||| PTE_P)) := by
  have hlt := or_P_lt hperm
  have hpdx := PDX_page (v := v) (by omega)
  have hptx := PTX_page v
  have htree := (hm.extended h.extended).tree
  have hT : m1.table D (v / 1024) = some T := hpdx ▸ h.table
  have hpte := pte_setWord htree hT (mkPte_lt hlt hp)
  rw [hptx, ← h.pte]
  refine ⟨⟨h.extended.trans (htree.extended_setWord hT), ?_, ?_⟩, hpte⟩
  · intro u
    rw [hpte]
    by_cases huv : u = v
    · refine .inr ⟨by omega, by omega, ?_⟩
      rw [huv, update_self, Nat.sub_self, Nat.add_zero, Nat.mod_eq_of_lt hp]
    · left
      rw [update_of_ne huv, h.pte]
  · intro i hi
    rw [table_setWord htree hT] at hi
    by_cases hiv : i = v / 1024
    · exact .inr ⟨by omega, by omega⟩
    · rw [h.others i (by rw [hpdx]; exact hiv)] at hi
      exact .inl hi

theorem Walk.map_user (h : Walk m D (4096 * v) T m1) (hdir : Dir A m D (f ::ₘ R))
    (hv : v < userPages) (hperm : perm < 4096) (hf : K.Valid f) (hnone : m.frameAt D v = none) :
    Mapped A m D v (mkPte f (perm ||| PTE_P)) (m.users D + f ::ₘ R) R
      (m1.setWord T (PTX (4096 * v)) (mkPte f (perm ||| PTE_P))) := by
  have hv' : v < 1048576 := lt_trans hv (by decide)
  have hpdx := PDX_page hv'
  obtain ⟨hmap, hpte⟩ := h.map hdir.extensible hv' hf.lt hperm
  have husers := users_of_map hpte hv hnone (entryFrame_mkPte hperm)
  refine ⟨hmap.extended.dir hdir ?_, hpte, hmap.extended.keeps hdir, ?_, h.room, h.oom⟩
  · rw [husers, add_cons, cons_add]
  · intro i hi
    rw [PTX_page, table_setWord (hdir.extensible.extended h.extended).tree (hpdx ▸ h.table)]
    exact h.others i (by rw [hpdx]; exact hi)

theorem wp_mapLoop_succ {last : Nat} {Q : Int → Mem → Prop} (h : Extensible m D)
    (hfail : m.free = [] → m.table D (PDX a) = none → Q (-1) { m with oom := m.oom + 1 })
    (habsent : ∀ T m1, Walk m D a T m1 → flag (m1.word T (PTX a)) PTE_P = true → E .remap m1)
    (hmap : ∀ T m1, Walk m D a T m1 → flag (m1.word T (PTX a)) PTE_P = false →
      if a = last then Q 0 (m1.setWord T (PTX a) (pa ||| perm ||| PTE_P))
      else wp (mapLoop D last perm fuel ((a + 4096) % 2 ^ 32) ((pa + 4096) % 2 ^ 32)) Q E
        (m1.setWord T (PTX a) (pa ||| perm ||| PTE_P))) :
    wp (mapLoop D last perm (fuel + 1) a pa) Q E m := by
  unfold mapLoop
  rw [wp_bind]
  refine wp_walkpgdir_true h ?_ ?_
  · exact hfail
  intro T m1 hwalk
  simp only [wp_bind, wp_readPte, wp_ite, wp_throw, wp_writePte, wp_pure]
  by_cases hP : flag (m1.word T (PTX a)) PTE_P = true
  · rw [if_pos hP]
    exact habsent T m1 hwalk hP
  · rw [if_neg hP]
    exact hmap T m1 hwalk (by simpa using hP)

theorem word_eq_pte (hT : m1.table D (PDX (4096 * v)) = some T) (hpte : m1.pte D = m.pte D)
    (hv : v < 1048576) : m1.word T (PTX (4096 * v)) = m.pte D v := by
  have hpdx := PDX_page (v := v) (by omega)
  have hptx := PTX_page v
  rw [hptx, ← hpte, pte_of_table (hpdx ▸ hT)]

section
variable (h : Dir A m D (f ::ₘ R)) (hv : v < userPages) (hperm : perm < 4096)
include h hv hperm

theorem mappages_user_table {Q : Int → Mem → Prop}
    (hremap : ∀ m', flag (m.pte D v) PTE_P = true → E .remap m')
    (hfail : m.free = [] → m.table D (v / 1024) = none → Q (-1) { m with oom := m.oom + 1 })
    (hmap : ∀ m', Mapped A m D v (mkPte f (perm ||| PTE_P)) (m.users D + f ::ₘ R) R m' →
      flag (m.pte D v) PTE_P = false → Q 0 m') :
    wp (mappages D (4096 * v) PGSIZE (f * 4096) perm) Q E m := by
  have hv' : v < 524288 := hv
  have hvalid : K.Valid f := h.uses.valid (by simp)
  have hlast : PGROUNDDOWN ((4096 * v + PGSIZE + (2 ^ 32 - 1)) % 2 ^ 32) = 4096 * v := by
    unfold PGROUNDDOWN PGSIZE
    omega
  have hfirst : PGROUNDDOWN (4096 * v) = 4096 * v := by
    unfold PGROUNDDOWN
    omega
  unfold mappages
  rw [hlast, hfirst, show maxPages = 1048575 + 1 from rfl]
  refine wp_mapLoop_succ h.extensible ?_ ?_ ?_
  · intro hfree hnone
    have hpdx := PDX_page (v := v) (by omega)
    rw [hpdx] at hnone
    exact hfail hfree hnone
  · intro T m1 hwalk hP
    rw [word_eq_pte hwalk.table hwalk.pte (by omega)] at hP
    exact hremap m1 hP
  · intro T m1 hwalk hP
    rw [word_eq_pte hwalk.table hwalk.pte (by omega)] at hP
    rw [if_pos rfl, or_eq_mkPte]
    refine hmap _ (hwalk.map_user h hv hperm hvalid ?_) hP
    rw [frameAt_eq]
    exact entryFrame_of_flag hP

theorem mappages_user_spec {Q : Int → Mem → Prop}
    (hremap : ∀ m', flag (m.pte D v) PTE_P = true → E .remap m')
    (hfail : m.free = [] → flag (m.pte D v) PTE_P = false → Q (-1) { m with oom := m.oom + 1 })
    (hmap : ∀ m', Mapped A m D v (mkPte f (perm ||| PTE_P)) (m.users D + f ::ₘ R) R m' →
      flag (m.pte D v) PTE_P = false → Q 0 m') :
    wp (mappages D (4096 * v) PGSIZE (f * 4096) perm) Q E m := by
  refine mappages_user_table h hv hperm hremap ?_ hmap
  intro hfree hnone
  refine hfail hfree ?_
  rw [pte_of_table_none hnone, flag_zero]

end

/-- How `mappages` ends on the pages from `v` to `v + n`: they are mapped to the frames from
`p` on, or the page table of one of them is missing and no frame is left. -/
def RangeResult (m : Mem) (D v n p perm : Nat) (r : Int) (m' : Mem) : Prop :=
  r = 0 ∧ m'.oom = m.oom ∧ (∀ u, v ≤ u → u ≤ v + n →
      m'.pte D u = mkPte ((p + (u - v)) % 1048576) (perm ||| PTE_P)) ∨
    r = -1 ∧ m'.oom = m.oom + 1 ∧ m'.free = [] ∧
      ∃ i, v / 1024 ≤ i ∧ i ≤ (v + n) / 1024 ∧ m'.table D i = none

theorem Ranged.outside (h : Ranged m D v n p perm m') (hu : u < v ∨ v + n < u) :
    m'.pte D u = m.pte D u := by
  rcases h.entry u with hpte | ⟨hlo, hhi, _⟩
  · exact hpte
  · omega

theorem range_full (hn : v + n < 1048576) (hfree : m.free = [])
    (hT : m.table D (PDX (4096 * v)) = none) : Ranged m D v n p perm { m with oom := m.oom + 1 } ∧
      RangeResult m D v n p perm (-1) { m with oom := m.oom + 1 } := by
  have hpdx := PDX_page (v := v) (by omega)
  rw [hpdx] at hT
  constructor
  · exact ⟨⟨rfl, List.Subset.refl _, fun _ _ => rfl, fun _ => .inl rfl⟩, fun _ => .inl rfl,
      fun _ hi => .inl hi⟩
  · exact .inr ⟨rfl, rfl, hfree, v / 1024, le_rfl, Nat.div_le_div_right (by omega), hT⟩

theorem Ranged.cons (hfirst : Ranged m D v 0 p perm m1)
    (h : Ranged m1 D (v + 1) n ((p + 1) % 1048576) perm m') : Ranged m D v (n + 1) p perm m' := by
  refine ⟨hfirst.extended.trans h.extended, ?_, ?_⟩
  · intro u
    rcases h.entry u with hu | ⟨hlo, hhi, hu⟩
    · rw [hu]
      exact (hfirst.entry u).imp_right fun ⟨hlo, hhi, hpte⟩ => ⟨hlo, by omega, hpte⟩
    · rw [hu]
      refine .inr ⟨by omega, by omega, ?_⟩
      rw [show ((p + 1) % 1048576 + (u - (v + 1))) % 1048576 = (p + (u - v)) % 1048576 by omega]
  · intro i hi
    rcases h.tables i hi with hi | hi
    · exact (hfirst.tables i hi).imp_right fun _ => by omega
    · exact .inr (by omega)

theorem mapLoop_spec (h : Extensible m D) (hn : v + n < 1048576) (hp : p < 1048576)
    (hperm : perm < 4096) (hfuel : n < fuel)
    (habsent : ∀ u, v ≤ u → u ≤ v + n → flag (m.pte D u) PTE_P = false) :
    wp (mapLoop D (4096 * (v + n)) perm fuel (4096 * v) (p * 4096))
      (fun r m' => Ranged m D v n p perm m' ∧ RangeResult m D v n p perm r m')
      (fun _ _ => False) m := by
  induction n generalizing m v p fuel with
  | zero =>
    obtain ⟨fuel, rfl⟩ : ∃ k, fuel = k + 1 := ⟨fuel - 1, by omega⟩
    rw [Nat.add_zero]
    refine wp_mapLoop_succ h ?_ ?_ ?_
    · exact range_full hn
    · intro T m1 hwalk hP
      rw [word_eq_pte hwalk.table hwalk.pte (by omega), habsent v le_rfl (by omega)] at hP
      cases hP
    intro T m1 hwalk _
    rw [if_pos rfl, or_eq_mkPte]
    obtain ⟨hmap, hpte⟩ := hwalk.map h (by omega) hp hperm
    refine ⟨hmap, .inl ⟨rfl, hwalk.oom, ?_⟩⟩
    intro u hu hu'
    obtain rfl : u = v := by omega
    rw [hpte, update_self, Nat.sub_self, Nat.add_zero, Nat.mod_eq_of_lt hp]
  | succ n ih =>
    obtain ⟨fuel, rfl⟩ : ∃ k, fuel = k + 1 := ⟨fuel - 1, by omega⟩
    refine wp_mapLoop_succ h ?_ ?_ ?_
    · exact range_full hn
    · intro T m1 hwalk hP
      rw [word_eq_pte hwalk.table hwalk.pte (by omega), habsent v le_rfl (by omega)] at hP
      cases hP
    intro T m1 hwalk _
    rw [if_neg (by omega), or_eq_mkPte]
    obtain ⟨hmap, hpte⟩ := hwalk.map h (by omega) hp hperm
    have ha : (4096 * v + 4096) % 2 ^ 32 = 4096 * (v + 1) := by omega
    have hpa : (p * 4096 + 4096) % 2 ^ 32 = (p + 1) % 1048576 * 4096 := by omega
    have hlast : 4096 * (v + (n + 1)) = 4096 * (v + 1 + n) := by omega
    rw [ha, hpa, hlast]
    refine wp_post (ih (h.extended hmap.extended) (by omega) (by omega) (by omega) ?_) ?_
    · intro u hu hu'
      rw [hmap.outside (by omega)]
      exact habsent u (by omega) (by omega)
    rintro r m' ⟨hrest, hres⟩
    refine ⟨hmap.cons hrest, hres.imp ?_ ?_⟩
    · rintro ⟨hr, hoom, hrange⟩
      refine ⟨hr, hoom.trans hwalk.oom, ?_⟩
      intro u hu hu'
      by_cases huv : u = v
      · rw [huv, hrest.outside (by omega), hpte, update_self, Nat.sub_self, Nat.add_zero,
          Nat.mod_eq_of_lt hp]
      · rw [hrange u (by omega) (by omega), show
          ((p + 1) % 1048576 + (u - (v + 1))) % 1048576 = (p + (u - v)) % 1048576 by omega]
    · rintro ⟨hr, hoom, hfree, i, hlo, hhi, hnone⟩
      exact ⟨hr, hoom.trans (congrArg (· + 1) hwalk.oom), hfree, i, by omega, by omega, hnone⟩

theorem mappages_spec {size : Nat} (h : Extensible m D) (hsize : 0 < size)
    (hend : va + size ≤ 2 ^ 32) (hp : p < 1048576) (hperm : perm < 4096)
    (hn : va / 4096 + n = (va + size - 1) / 4096)
    (habsent : ∀ u, va / 4096 ≤ u → u ≤ va / 4096 + n → flag (m.pte D u) PTE_P = false) :
    wp (mappages D va size (p * 4096) perm)
      (fun r m' => Ranged m D (va / 4096) n p perm m' ∧
        RangeResult m D (va / 4096) n p perm r m') (fun _ _ => False) m := by
  have hlast : PGROUNDDOWN ((va + size + (2 ^ 32 - 1)) % 2 ^ 32) = 4096 * (va / 4096 + n) := by
    unfold PGROUNDDOWN
    omega
  have hfirst : PGROUNDDOWN va = 4096 * (va / 4096) := Nat.mul_comm _ _
  unfold mappages
  rw [hlast, hfirst]
  exact mapLoop_spec h (by omega) hp hperm (by unfold maxPages; omega) habsent

theorem flag_U_mkPte (hperm : perm < 4) : flag (mkPte p (perm ||| PTE_P)) PTE_U = false := by
  have hlt : perm ||| PTE_P < 2 ^ 2 := Nat.or_lt_two_pow hperm (by decide)
  rw [flag_U, testBit_mkPte (by omega) (by omega)]
  exact Nat.testBit_lt_two_pow hlt

theorem Ranged.noUser (h : Ranged m D v n p perm m') (hperm : perm < 4) (u : Nat)
    (hu : flag (m.pte D u) PTE_U = false) : flag (m'.pte D u) PTE_U = false := by
  rcases h.entry u with hpte | ⟨_, _, hpte⟩
  · rw [hpte]
    exact hu
  · rw [hpte]
    exact flag_U_mkPte hperm

end Xv6.Vm
