import Xv6.Vm.Vm

/-!
# Address spaces in physical memory

What a page directory in physical memory stands for: its page tables, the entry
for each virtual page, and the frames it owns, namely itself, its page tables and
the frames mapped below `KERNBASE`.
-/

namespace Xv6.Vm

open Lib Lib.Prog Function Multiset

def userPages : Nat :=
  524288

namespace Mem

/-- The page table at an index of a page directory. -/
def table (m : Mem) (D i : Nat) : Option Nat :=
  if flag (m.word D i) PTE_P then some (pteFrame (m.word D i)) else none

/-- The entry for a virtual page; 0 if there is no page table. -/
def pte (m : Mem) (D v : Nat) : Nat :=
  match m.table D (v / 1024) with
  | none => 0
  | some T => m.word T (v % 1024)

/-- The frame that a virtual page is mapped to. -/
def frameAt (m : Mem) (D v : Nat) : Option Nat :=
  if flag (m.pte D v) PTE_P then some (pteFrame (m.pte D v)) else none

def tables (m : Mem) (D : Nat) : Multiset Nat :=
  collect NPDENTRIES (m.table D)

def users (m : Mem) (D : Nat) : Multiset Nat :=
  collect userPages (m.frameAt D)

def own (m : Mem) (D : Nat) : Multiset Nat :=
  D ::ₘ (m.tables D + m.users D)

end Mem

structure Pool (K : Symbols) where
  ok : K.Ok
  frames : Multiset Nat
  nodup : frames.Nodup
  valid : ∀ f ∈ frames, K.Valid f

def Uses {K : Symbols} (A : Pool K) (m : Mem) (U : Multiset Nat) : Prop :=
  (m.free : Multiset Nat) + U = A.frames

/-- The pages of these frames are as before. -/
def Keeps (S : Multiset Nat) (m m' : Mem) : Prop :=
  ∀ f ∈ S, m'.page f = m.page f

def Tree (m : Mem) (D : Nat) : Prop :=
  (D ::ₘ m.tables D).Nodup

structure Dir {K : Symbols} (A : Pool K) (m : Mem) (D : Nat) (R : Multiset Nat) : Prop where
  uses : Uses A m (m.own D + R)
  flags : ∀ i < NPDENTRIES, flag (m.word D i) PTE_P = true → PTE_FLAGS (m.word D i) = 7

section Uses

variable {K : Symbols} {A : Pool K} {m m' : Mem} {U R : Multiset Nat} {f : Nat}

section
variable (h : Uses A m U)
include h

theorem Uses.nodup : ((m.free : Multiset Nat) + U).Nodup := by
  have := A.nodup
  rwa [← show (m.free : Multiset Nat) + U = A.frames from h] at this

theorem Uses.nodup_right : U.Nodup :=
  (nodup_add.mp h.nodup).2.1

theorem Uses.notMem_free (hf : f ∈ U) : f ∉ m.free := by
  intro hfree
  exact disjoint_left.mp (nodup_add.mp h.nodup).2.2 hfree hf

theorem Uses.valid (hf : f ∈ U) : K.Valid f := by
  refine A.valid f ?_
  rw [← show (m.free : Multiset Nat) + U = A.frames from h]
  exact mem_add.mpr (.inr hf)

theorem Uses.valid_of_free (hf : f ∈ m.free) : K.Valid f := by
  refine A.valid f ?_
  rw [← show (m.free : Multiset Nat) + U = A.frames from h]
  exact mem_add.mpr (.inl hf)

theorem Uses.congr {U' : Multiset Nat}
    (hU : (m'.free : Multiset Nat) + U' = (m.free : Multiset Nat) + U) : Uses A m' U' :=
  hU.trans h

theorem Uses.alloc {l : List Nat} (hfree : m.free = f :: l)
    (hfree' : m'.free = l) : Uses A m' (f ::ₘ U) := by
  refine h.congr ?_
  rw [hfree, hfree', ← cons_coe, add_cons, cons_add]

end

theorem Uses.release (h : Uses A m (f ::ₘ U)) (hfree' : m'.free = f :: m.free) : Uses A m' U := by
  refine h.congr ?_
  rw [hfree', ← cons_coe, add_cons, cons_add]

theorem Keeps.refl (S : Multiset Nat) (m : Mem) : Keeps S m m :=
  fun _ _ => rfl

theorem Keeps.trans {S : Multiset Nat} {m'' : Mem} (h1 : Keeps S m m') (h2 : Keeps S m' m'') :
    Keeps S m m'' :=
  fun f hf => (h2 f hf).trans (h1 f hf)

theorem Keeps.mono {S T : Multiset Nat} (h : Keeps T m m') (hST : ∀ f ∈ S, f ∈ T) : Keeps S m m' :=
  fun f hf => h f (hST f hf)

theorem Keeps.left {S T : Multiset Nat} (h : Keeps (S + T) m m') : Keeps S m m' :=
  h.mono fun _ hf => mem_add.mpr (.inl hf)

theorem Keeps.right {S T : Multiset Nat} (h : Keeps (S + T) m m') : Keeps T m m' :=
  h.mono fun _ hf => mem_add.mpr (.inr hf)

theorem Keeps.tail {f : Nat} {S : Multiset Nat} (h : Keeps (f ::ₘ S) m m') : Keeps S m m' :=
  h.mono fun _ hf => mem_cons_of_mem hf

end Uses

section View

variable {K : Symbols} {A : Pool K} {m m' : Mem} {D T i v w : Nat} {R : Multiset Nat}

theorem word_of_le (hi : 1024 ≤ i) : m.word D i = 0 := by
  have hbyte : ∀ k, getByte (m.page D) (4 * i + k) = 0 := by
    intro k
    unfold getByte
    rw [dif_neg (show ¬4 * i + k < 4096 by omega)]
  unfold Mem.word readWord
  rw [hbyte 1, hbyte 2, hbyte 3]
  have h0 := hbyte 0
  rw [Nat.add_zero] at h0
  rw [h0]
  rfl

theorem flag_zero (bit : Nat) : flag 0 bit = false := by
  simp [flag]

theorem table_of_le (hi : 1024 ≤ i) : m.table D i = none := by
  unfold Mem.table
  rw [word_of_le hi, flag_zero]
  rfl

theorem lt_of_table (h : m.table D i = some T) : i < 1024 := by
  by_contra hi
  rw [table_of_le (by omega)] at h
  cases h

theorem pte_of_table_none (h : m.table D (v / 1024) = none) : m.pte D v = 0 := by
  unfold Mem.pte
  rw [h]

theorem pte_of_table (h : m.table D (v / 1024) = some T) : m.pte D v = m.word T (v % 1024) := by
  unfold Mem.pte
  rw [h]

theorem pte_lt (m : Mem) (D v : Nat) : m.pte D v < 2 ^ 32 := by
  cases h : m.table D (v / 1024) with
  | none =>
    rw [pte_of_table_none h]
    decide
  | some T =>
    rw [pte_of_table h]
    exact word_lt _

theorem mem_tables (h : m.table D i = some T) : T ∈ m.tables D :=
  mem_collect.mpr ⟨i, lt_of_table h, h⟩

theorem mem_users {f : Nat} (hv : v < userPages) (h : m.frameAt D v = some f) : f ∈ m.users D :=
  mem_collect.mpr ⟨v, hv, h⟩

theorem table_congr (hD : m'.page D = m.page D) : m'.table D = m.table D := by
  funext i
  unfold Mem.table Mem.word
  rw [hD]

theorem pte_congr (hD : m'.page D = m.page D) (hT : ∀ T ∈ m.tables D, m'.page T = m.page T) :
    m'.pte D = m.pte D := by
  funext v
  unfold Mem.pte
  rw [table_congr hD]
  cases h : m.table D (v / 1024) with
  | none => rfl
  | some T =>
    simp only
    unfold Mem.word
    rw [hT T (mem_tables h)]

theorem frameAt_congr (h : m'.pte D v = m.pte D v) : m'.frameAt D v = m.frameAt D v := by
  unfold Mem.frameAt
  rw [h]

theorem tables_congr (h : m'.table D = m.table D) : m'.tables D = m.tables D := by
  unfold Mem.tables
  rw [h]

theorem users_congr (h : ∀ v < userPages, m'.pte D v = m.pte D v) : m'.users D = m.users D := by
  unfold Mem.users
  exact collect_congr fun v hv => frameAt_congr (h v hv)

theorem Keeps.view (h : Keeps (m.own D) m m') :
    m'.table D = m.table D ∧ m'.pte D = m.pte D ∧ m'.own D = m.own D := by
  have hD : m'.page D = m.page D := h D (by simp [Mem.own])
  have hT : ∀ T ∈ m.tables D, m'.page T = m.page T := by
    intro T hT
    exact h T (by simp [Mem.own, hT])
  have htable := table_congr hD
  have hpte := pte_congr hD hT
  refine ⟨htable, hpte, ?_⟩
  unfold Mem.own
  rw [tables_congr htable, users_congr fun v _ => congrFun hpte v]

theorem Tree.ne_table (h : Tree m D) (hT : T ∈ m.tables D) : T ≠ D := by
  rintro rfl
  exact (nodup_cons.mp h).1 hT

theorem Tree.table_inj {j : Nat} (h : Tree m D) (hi : m.table D i = some T)
    (hj : m.table D j = some T) : i = j :=
  eq_of_nodup_collect (nodup_cons.mp h).2 (lt_of_table hi) (lt_of_table hj) hi hj

section
variable (h : Dir A m D R)
include h

theorem Dir.nodup_own : (m.own D).Nodup :=
  (nodup_add.mp h.uses.nodup_right).1

theorem Dir.tree : Tree m D :=
  nodup_of_le (cons_le_cons D (le_add_right _ _)) h.nodup_own

theorem Dir.mem_own_valid {f : Nat} (hf : f ∈ m.own D) : K.Valid f :=
  h.uses.valid (mem_add.mpr (.inl hf))

theorem Dir.notMem_own {f : Nat} (hf : f ∈ R) : f ∉ m.own D := by
  intro hown
  exact disjoint_left.mp (nodup_add.mp h.uses.nodup_right).2.2 hown hf

theorem Dir.user_ne_table {f : Nat} (hf : f ∈ m.users D) (hT : T ∈ m.tables D) : f ≠ T := by
  rintro rfl
  have hnodup := (nodup_cons.mp h.nodup_own).2
  exact disjoint_left.mp (nodup_add.mp hnodup).2.2 hT hf

theorem Dir.user_ne_dir {f : Nat} (hf : f ∈ m.users D) : f ≠ D := by
  rintro rfl
  exact (nodup_cons.mp h.nodup_own).1 (mem_add.mpr (.inr hf))

end

section SetEntry

variable (htree : Tree m D) (hT : m.table D (v / 1024) = some T) (hw : w < 2 ^ 32)

include htree hT in
theorem table_setWord : (m.setWord T (v % 1024) w).table D = m.table D :=
  table_congr (setWord_page_of_ne _ _ (htree.ne_table (mem_tables hT)).symm)

include htree hT hw in
theorem pte_setWord : (m.setWord T (v % 1024) w).pte D = update (m.pte D) v w := by
  funext u
  have htable := table_setWord htree hT (w := w)
  by_cases huv : u = v
  · subst huv
    rw [update_self, pte_of_table (by rw [htable]; exact hT)]
    exact word_setWord_self (by omega) hw
  rw [update_of_ne huv]
  cases hU : m.table D (u / 1024) with
  | none =>
    rw [pte_of_table_none hU]
    exact pte_of_table_none (by rw [htable]; exact hU)
  | some U =>
    rw [pte_of_table hU, pte_of_table (by rw [htable]; exact hU)]
    refine word_setWord_of_ne (by omega) ?_
    by_cases hUT : U = T
    · right
      subst hUT
      have := htree.table_inj hU hT
      omega
    · exact .inl hUT

end SetEntry

def entryFrame (w : Nat) : Option Nat :=
  if flag w PTE_P then some (pteFrame w) else none

theorem frameAt_eq (m : Mem) (D v : Nat) : m.frameAt D v = entryFrame (m.pte D v) := by
  rfl

section
variable (h : m'.pte D = update (m.pte D) v w)
include h

theorem frameAt_of_update : m'.frameAt D = update (m.frameAt D) v (entryFrame w) := by
  funext u
  rw [frameAt_eq, h]
  by_cases hu : u = v
  · subst hu
    rw [update_self, update_self]
  · rw [update_of_ne hu, update_of_ne hu, frameAt_eq]

theorem users_of_map {f : Nat} (hv : v < userPages)
    (hnone : m.frameAt D v = none) (hw : entryFrame w = some f) : m'.users D = f ::ₘ m.users D := by
  unfold Mem.users
  rw [frameAt_of_update h, hw]
  exact collect_put hv hnone f

theorem users_of_same
    (hv : v < userPages → entryFrame w = m.frameAt D v) : m'.users D = m.users D := by
  unfold Mem.users
  refine collect_congr ?_
  intro u hu
  rw [frameAt_of_update h]
  by_cases huv : u = v
  · subst huv
    rw [update_self]
    exact hv hu
  · rw [update_of_ne huv]

end

end View

end Xv6.Vm
