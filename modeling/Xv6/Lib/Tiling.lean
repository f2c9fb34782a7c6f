import Mathlib.Tactic

/-!
# Intervals cut into blocks

A tiling of an interval is a list of blocks that follow each other without gaps.
Blocks are free or in use.  The lemmas say that the blocks are disjoint and cover
the interval, and how two neighbours become one and one becomes two.
-/

namespace Xv6.Lib

open List

variable {a b c : Nat} {ts xs ys : List Tile} {t r : Tile}

structure Tile where
  addr : Nat
  size : Nat
  free : Bool
deriving DecidableEq

/-- The blocks follow each other from `a` to `b`. -/
def Tiled : Nat → List Tile → Nat → Prop
  | a, [], b => a = b
  | a, t :: ts, b => t.addr = a ∧ 0 < t.size ∧ Tiled (a + t.size) ts b

/-- No two neighbours are free. -/
def Apart (ts : List Tile) : Prop :=
  ts.IsChain fun x y => ¬ (x.free = true ∧ y.free = true)

/-- The addresses of the free blocks. -/
def frees (ts : List Tile) : List Nat :=
  (ts.filter fun t => t.free).map Tile.addr

/-- The addresses of the blocks in use. -/
def used (ts : List Tile) : List Nat :=
  (ts.filter fun t => !t.free).map Tile.addr

theorem tiled_append : Tiled a (xs ++ ys) b ↔ ∃ c, Tiled a xs c ∧ Tiled c ys b := by
  induction xs generalizing a with
  | nil =>
    constructor
    · intro h
      exact ⟨a, rfl, h⟩
    · rintro ⟨c, rfl, h⟩
      exact h
  | cons x xs ih =>
    simp only [cons_append, Tiled]
    constructor
    · rintro ⟨haddr, hsize, htail⟩
      obtain ⟨c, hxs, hys⟩ := ih.mp htail
      exact ⟨c, ⟨haddr, hsize, hxs⟩, hys⟩
    · rintro ⟨c, ⟨haddr, hsize, hxs⟩, hys⟩
      exact ⟨haddr, hsize, ih.mpr ⟨c, hxs, hys⟩⟩

theorem tiled_middle :
    Tiled a (xs ++ t :: ys) b ↔
      Tiled a xs t.addr ∧ 0 < t.size ∧ Tiled (t.addr + t.size) ys b := by
  rw [tiled_append]
  constructor
  · rintro ⟨c, hxs, rfl, hsize, hys⟩
    exact ⟨hxs, hsize, hys⟩
  · rintro ⟨hxs, hsize, hys⟩
    exact ⟨t.addr, hxs, rfl, hsize, hys⟩

section
variable (h : Tiled a ts b)
include h

theorem Tiled.le : a ≤ b := by
  induction ts generalizing a with
  | nil => exact Nat.le_of_eq h
  | cons t ts ih => exact Nat.le_trans (Nat.le_add_right _ _) (ih h.2.2)

theorem Tiled.length_le : a + ts.length ≤ b := by
  induction ts generalizing a with
  | nil => exact Nat.le_of_eq h
  | cons t ts ih =>
    have htail := ih h.2.2
    have hsize := h.2.1
    rw [length_cons]
    omega

theorem Tiled.bounds (ht : t ∈ ts) : a ≤ t.addr ∧ t.addr + t.size ≤ b ∧ 0 < t.size := by
  induction ts generalizing a with
  | nil => cases ht
  | cons x ts ih =>
    obtain ⟨haddr, hsize, htail⟩ := h
    rcases mem_cons.mp ht with rfl | hmem
    · have hle := htail.le
      omega
    · have hbounds := ih htail hmem
      omega

theorem Tiled.cover (hac : a ≤ c) (hcb : c < b) : ∃ t ∈ ts, t.addr ≤ c ∧ c < t.addr + t.size := by
  induction ts generalizing a with
  | nil =>
    have hab : a = b := h
    omega
  | cons x ts ih =>
    obtain ⟨haddr, _, htail⟩ := h
    rcases Nat.lt_or_ge c (a + x.size) with hlt | hge
    · exact ⟨x, mem_cons_self, by omega, by omega⟩
    · obtain ⟨t, ht, hin⟩ := ih htail hge
      exact ⟨t, mem_cons_of_mem x ht, hin⟩

theorem Tiled.pairwise : ts.Pairwise fun x y => x.addr + x.size ≤ y.addr := by
  induction ts generalizing a with
  | nil => exact List.Pairwise.nil
  | cons x ts ih =>
    obtain ⟨haddr, _, htail⟩ := h
    refine List.Pairwise.cons ?_ (ih htail)
    intro y hy
    rw [haddr]
    exact (htail.bounds hy).1

theorem Tiled.sorted_frees (hc : c < a) : (c :: frees ts).Pairwise (· < ·) := by
  induction ts generalizing a c with
  | nil => exact pairwise_singleton _ _
  | cons x ts ih =>
    obtain ⟨haddr, hsize, htail⟩ := h
    have hrest := ih htail (c := c) (by omega)
    cases hfree : x.free with
    | false =>
      have heq : frees (x :: ts) = frees ts := by simp [frees, hfree]
      rw [heq]
      exact hrest
    | true =>
      have heq : frees (x :: ts) = x.addr :: frees ts := by simp [frees, hfree]
      have htail' := ih htail (c := x.addr) (by omega)
      rw [heq]
      refine List.Pairwise.cons ?_ htail'
      intro y hy
      rcases mem_cons.mp hy with rfl | hmem
      · omega
      · exact rel_of_pairwise_cons hrest hmem

theorem Tiled.pairwise_free (hapart : Apart ts) :
    ts.Pairwise fun x y => x.free = true → y.free = true → x.addr + x.size < y.addr := by
  induction ts generalizing a with
  | nil => exact List.Pairwise.nil
  | cons x ts ih =>
    obtain ⟨haddr, hsize, htail⟩ := h
    refine List.Pairwise.cons ?_ (ih htail (List.IsChain.tail hapart))
    intro y hy hx hyfree
    cases ts with
    | nil => cases hy
    | cons z ts =>
      have hz : ¬ (x.free = true ∧ z.free = true) := (isChain_cons_cons.mp hapart).1
      obtain ⟨hzaddr, hzsize, hztail⟩ := htail
      rcases mem_cons.mp hy with rfl | hmem
      · exact absurd ⟨hx, hyfree⟩ hz
      · have hbounds := hztail.bounds hmem
        omega

end

theorem frees_append : frees (xs ++ ys) = frees xs ++ frees ys := by
  simp [frees]

theorem used_append : used (xs ++ ys) = used xs ++ used ys := by
  simp [used]

theorem frees_cons_free (h : t.free = true) : frees (t :: ts) = t.addr :: frees ts := by
  simp [frees, h]

theorem frees_cons_used (h : t.free = false) : frees (t :: ts) = frees ts := by
  simp [frees, h]

theorem used_cons_free (h : t.free = true) : used (t :: ts) = used ts := by
  simp [used, h]

theorem used_cons_used (h : t.free = false) : used (t :: ts) = t.addr :: used ts := by
  simp [used, h]

theorem mem_frees {p : Nat} : p ∈ frees ts ↔ ∃ t ∈ ts, t.free = true ∧ t.addr = p := by
  simp only [frees, mem_map, mem_filter, and_assoc]

theorem mem_used {p : Nat} : p ∈ used ts ↔ ∃ t ∈ ts, t.free = false ∧ t.addr = p := by
  simp only [used, mem_map, mem_filter, and_assoc, Bool.not_eq_true']

theorem length_frees_le : (frees ts).length ≤ ts.length := by
  rw [frees, length_map]
  exact length_filter_le _ _

theorem Tiled.disjoint (h : Tiled a ts b) (ht : t ∈ ts) (hr : r ∈ ts) (hne : t ≠ r) :
    t.addr + t.size ≤ r.addr ∨ r.addr + r.size ≤ t.addr := by
  induction ts generalizing a with
  | nil => cases ht
  | cons x ts ih =>
    obtain ⟨hx, hsize, htail⟩ := h
    rcases mem_cons.mp ht with rfl | ht'
    · rcases mem_cons.mp hr with rfl | hr'
      · exact absurd rfl hne
      · have hbounds := htail.bounds hr'
        omega
    · rcases mem_cons.mp hr with rfl | hr'
      · have hbounds := htail.bounds ht'
        omega
      · exact ih htail ht' hr'

end Xv6.Lib
