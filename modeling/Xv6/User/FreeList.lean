import Xv6.User.Umalloc

/-!
# Freeing a block

The heap is a tiling of the memory obtained from `sbrk`; its free blocks, with
`base` before them, form the ring of `umalloc.c`.  This module shows that `free`
finds the place of a block wherever `freep` is, and that it keeps the heap well
formed in each of its four cases.
-/

namespace Xv6.User

open Lib List

variable {q base bp y start w v n w' : Nat} {fs us ws ws' : List Nat}
variable {lo hi hi' ts xs ys lo' : List Tile} {t z x l : Tile}

theorem forall_mem_middle {P : Tile → Prop} (hx : P x) (h : ∀ z ∈ lo ++ hi, P z) :
    ∀ z ∈ lo ++ x :: hi, P z := by
  rw [forall_mem_append] at h ⊢
  exact ⟨h.1, forall_mem_cons.mpr ⟨hx, h.2⟩⟩

theorem forall_mem_used {P : Nat → Prop} (h : ∀ z ∈ ts, z.free = false → P z.addr) :
    ∀ p ∈ used ts, P p := by
  intro p hp
  obtain ⟨z, hz, hfree, rfl⟩ := mem_used.mp hp
  exact h z hz hfree

section Set

variable (s : Heap) (p : Nat) (h : Header)

@[simp] theorem Heap.ptr_set_self : (s.set p h).ptr p = h.ptr := by
  simp [Heap.ptr, Heap.set]

@[simp] theorem Heap.size_set_self : (s.set p h).size p = h.size := by
  simp [Heap.size, Heap.set]

theorem Heap.ptr_set_of_ne (hq : q ≠ p) : (s.set p h).ptr q = s.ptr q := by
  simp [Heap.ptr, Heap.set, hq]

theorem Heap.size_set_of_ne (hq : q ≠ p) : (s.set p h).size q = s.size q := by
  simp [Heap.size, Heap.set, hq]

@[simp] theorem Heap.brk_set : (s.set p h).brk = s.brk := rfl

end Set

structure Good (base start : Nat) (s : Heap) (ts : List Tile) : Prop where
  base_lt : base < start
  tiled : Tiled start ts s.brk
  apart : Apart ts
  sizes : ∀ t ∈ ts, s.size t.addr = t.size
  linked : Linked s.ptr (base :: frees ts ++ [base])
  zero : s.size base = 0
  roving : ∃ q ∈ base :: frees ts, s.freep = some q

section Place

variable {s : Heap}

theorem stops_iff (hlinked : Linked s.ptr (base :: fs ++ [base]))
    (hsorted : (base :: fs).Pairwise (· < ·)) (hbase : base < bp) (hbp : bp ∉ base :: fs)
    (hy : y ∈ base :: fs) (hlt : y < bp) (hmax : ∀ v ∈ base :: fs, v < bp → v ≤ y)
    (hv : v ∈ base :: fs) : Stops s bp v ↔ v = y := by
  have hmin : ∀ u ∈ base :: fs, base ≤ u := by
    intro u hu
    rcases mem_cons.mp hu with rfl | hu
    · exact Nat.le_refl _
    · exact Nat.le_of_lt (rel_of_pairwise_cons hsorted hu)
  have hne : s.ptr v ≠ bp := by
    rintro rfl
    exact hbp (hlinked.next_mem hv)
  rcases hlinked.next_cases hv with ⟨us, ws, hsplit⟩ | ⟨hnext, us, hsplit⟩
  · -- The node after `v` is above it.
    rw [hsplit] at hsorted hmax hy
    obtain ⟨hus, hrest, hcross⟩ := pairwise_append.mp hsorted
    have hvnext : v < s.ptr v := rel_of_pairwise_cons hrest mem_cons_self
    have hnextmax := hmax (s.ptr v) (by simp)
    have hvmax := hmax v (by simp)
    constructor
    · rintro (⟨hbelow, habove⟩ | ⟨hle, _⟩)
      · have hvy := hvmax hbelow
        rcases mem_append.mp hy with hmem | hmem
        · have hyv := hcross y hmem v mem_cons_self
          omega
        rcases mem_cons.mp hmem with rfl | hmem
        · rfl
        · rcases mem_cons.mp hmem with rfl | hmem
          · omega
          · have hlast : s.ptr v < y :=
              rel_of_pairwise_cons (List.Pairwise.of_cons hrest) hmem
            omega
      · omega
    rintro rfl
    left
    refine ⟨hlt, ?_⟩
    rcases Nat.lt_or_ge (s.ptr v) bp with hcase | hcase
    · have hcontra := hnextmax hcase
      omega
    · omega
  -- `v` is the last node.
  have hvmin := hmin v hv
  rw [hsplit] at hsorted hy hmax
  obtain ⟨hus, hrest, hcross⟩ := pairwise_append.mp hsorted
  constructor
  · rintro (⟨hbelow, habove⟩ | ⟨_, hbelow | habove⟩)
    · omega
    · have hvy := hmax v (by simp) hbelow
      rcases mem_append.mp hy with hmem | hmem
      · have hyv := hcross y hmem v mem_cons_self
        omega
      · exact (mem_singleton.mp hmem).symm
    · omega
  · rintro rfl
    exact .inr ⟨by omega, .inl hlt⟩

end Place

section Joining

variable {s : Heap}

structure Around (base start : Nat) (s : Heap) (lo : List Tile) (t : Tile) (hi : List Tile)
    (us : List Nat) (y w : Nat) (ws : List Nat) : Prop where
  below : base :: frees lo = us ++ [y]
  above : frees hi ++ [base] = w :: ws
  low : Tiled start lo t.addr
  size : 0 < t.size
  high : Tiled (t.addr + t.size) hi s.brk
  front : Linked s.ptr (us ++ [y])
  next : s.ptr y = w
  back : Linked s.ptr (w :: ws)

theorem Good.around (h : Good base start s (lo ++ t :: hi)) (ht : t.free = false) :
    ∃ us y w ws, Around base start s lo t hi us y w ws := by
  obtain ⟨us, y, hbelow⟩ : ∃ us y, base :: frees lo = us ++ [y] := by
    rcases eq_nil_or_concat (base :: frees lo) with hnil | ⟨us, y, hcat⟩
    · cases hnil
    · exact ⟨us, y, by rw [hcat, concat_eq_append]⟩
  obtain ⟨w, ws, habove⟩ : ∃ w ws, frees hi ++ [base] = w :: ws := by
    cases hhi : frees hi with
    | nil => exact ⟨base, [], rfl⟩
    | cons w ws => exact ⟨w, ws ++ [base], rfl⟩
  have hlinked : Linked s.ptr (us ++ y :: w :: ws) := by
    have hlist : base :: frees (lo ++ t :: hi) ++ [base] = us ++ y :: w :: ws := by
      rw [frees_append, frees_cons_used ht, ← cons_append, hbelow, append_assoc,
        append_assoc, habove]
      rfl
    rw [← hlist]
    exact h.linked
  obtain ⟨hlow, hsize, hhigh⟩ := tiled_middle.mp h.tiled
  obtain ⟨hfront, hnext, hback⟩ := linked_split.mp hlinked
  exact ⟨us, y, w, ws, hbelow, habove, hlow, hsize, hhigh, hfront, hnext, hback⟩

section
variable (ha : Around base start s lo t hi us y w ws)
include ha

theorem Around.below_cases : (y = base ∧ frees lo = []) ∨ ∃ z ∈ lo, z.free = true ∧ z.addr = y := by
  have hbelow := ha.below
  have hmem : y ∈ base :: frees lo := by
    rw [hbelow]
    simp
  cases hlo : frees lo with
  | nil =>
    rw [hlo] at hmem
    exact .inl ⟨mem_singleton.mp hmem, rfl⟩
  | cons f fs =>
    right
    have hy : y ∈ frees lo := by
      rw [hlo] at hbelow ⊢
      cases us with
      | nil => cases hbelow
      | cons u us =>
        obtain ⟨_, htail⟩ := cons_eq_cons.mp hbelow
        rw [htail]
        simp
    exact mem_frees.mp hy

theorem Around.low_lt (hz : z ∈ lo) : start ≤ z.addr ∧ z.addr + z.size ≤ t.addr ∧ 0 < z.size :=
  ha.low.bounds hz

theorem Around.lt_high (hz : z ∈ hi) :
    t.addr + t.size ≤ z.addr ∧ z.addr + z.size ≤ s.brk ∧ 0 < z.size :=
  ha.high.bounds hz

theorem Around.below_lt (hbase : base < start) (hv : v ∈ us ++ [y]) : v < t.addr := by
  rw [← ha.below] at hv
  have hstart := ha.low.le
  rcases mem_cons.mp hv with rfl | hv
  · omega
  · obtain ⟨z, hz, _, rfl⟩ := mem_frees.mp hv
    have hbounds := ha.low_lt hz
    omega

theorem Around.seek (h : Good base start s (lo ++ t :: hi)) (ht : t.free = false)
    (hq : q ∈ base :: frees (lo ++ t :: hi)) :
    seek s.ptr (fun p => Stops s t.addr p) (2 * s.brk + 2) q = some y := by
  have hnodes : base :: frees (lo ++ t :: hi) = us ++ [y] ++ frees hi := by
    rw [frees_append, frees_cons_used ht, ← cons_append, ha.below]
  have hsorted := h.tiled.sorted_frees h.base_lt
  have hhigh : ∀ v ∈ frees hi, t.addr < v := by
    intro v hv
    obtain ⟨z, hz, _, rfl⟩ := mem_frees.mp hv
    have hbounds := ha.lt_high hz
    have hsize := ha.size
    omega
  have hy : y ∈ base :: frees (lo ++ t :: hi) := by
    rw [hnodes]
    simp
  have hbp : t.addr ∉ base :: frees (lo ++ t :: hi) := by
    rw [hnodes]
    intro hmem
    rcases mem_append.mp hmem with hmem | hmem
    · exact Nat.lt_irrefl _ (ha.below_lt h.base_lt hmem)
    · exact Nat.lt_irrefl _ (hhigh _ hmem)
  have hmax : ∀ v ∈ base :: frees (lo ++ t :: hi), v < t.addr → v ≤ y := by
    intro v hv hlt
    rw [hnodes] at hv hsorted
    rcases mem_append.mp hv with hmem | hmem
    · have hpair := (pairwise_append.mp hsorted).1
      rcases mem_append.mp hmem with hmem | hmem
      · exact Nat.le_of_lt ((pairwise_append.mp hpair).2.2 v hmem y mem_cons_self)
      · rw [mem_singleton.mp hmem]
    · exact absurd (hhigh v hmem) (by omega)
  have hbase : base < t.addr := Nat.lt_of_lt_of_le h.base_lt ha.low.le
  have hlt : y < t.addr := ha.below_lt h.base_lt (by simp)
  have hstop : ∀ v ∈ base :: frees (lo ++ t :: hi), (Stops s t.addr v ↔ v = y) :=
    fun v hv => stops_iff h.linked hsorted hbase hbp hy hlt hmax hv
  have hcount := h.tiled.length_le
  have hlen : (frees (lo ++ t :: hi)).length ≤ (lo ++ t :: hi).length := length_frees_le
  refine seek_ring h.linked hq hy (decide_eq_true ((hstop y hy).mpr rfl)) ?_ (by omega)
  intro v hv hv'
  exact (hstop v hv).mp (of_decide_eq_true hv')

end

structure JoinedUp (base : Nat) (s : Heap) (t : Tile) (hi : List Tile)
    (n : Nat) (hi' : List Tile) (w : Nat) (ws : List Nat) : Prop where
  le : t.size ≤ n
  above : frees hi' ++ [base] = w :: ws
  back : Linked s.ptr (w :: ws)
  tiled : Tiled (t.addr + n) hi' s.brk
  apart : Apart (⟨t.addr, n, true⟩ :: hi')
  inUse : used hi' = used hi
  sub : ∀ z ∈ hi', z ∈ hi

theorem Apart.cons (h : Apart ts)
    (hx : ∀ z zs, ts = z :: zs → ¬ (x.free = true ∧ z.free = true)) : Apart (x :: ts) := by
  cases ts with
  | nil => exact isChain_singleton x
  | cons z zs => exact isChain_cons_cons.mpr ⟨hx z zs rfl, h⟩

theorem Around.joinUp (ha : Around base start s lo t hi us y w ws)
    (h : Good base start s (lo ++ t :: hi)) :
    ∃ n hi' w' ws', JoinedUp base s t hi n hi' w' ws' ∧
      joinUp s t.addr y = s.set t.addr ⟨w', n⟩ := by
  have hsize : s.size t.addr = t.size := h.sizes t (by simp)
  have hapart : Apart (t :: hi) := List.IsChain.right_of_append h.apart
  have hhi : Apart hi := List.IsChain.tail hapart
  have hbase : base < t.addr := Nat.lt_of_lt_of_le h.base_lt ha.low.le
  unfold User.joinUp
  rw [ha.next, hsize]
  -- Either the first block above is free, and is the one the list goes on with, or there is a gap.
  by_cases hfirst : ∃ r rs, hi = r :: rs ∧ r.free = true
  · obtain ⟨r, rs, rfl, hr⟩ := hfirst
    obtain ⟨hraddr, hrsize, hrs⟩ := ha.high
    have habove := ha.above
    rw [frees_cons_free hr, cons_append] at habove
    obtain ⟨hw, hws⟩ := cons_eq_cons.mp habove
    obtain ⟨w', ws', habove'⟩ : ∃ w' ws', frees rs ++ [base] = w' :: ws' := by
      cases hf : frees rs with
      | nil => exact ⟨base, [], rfl⟩
      | cons f fs => exact ⟨f, fs ++ [base], rfl⟩
    have hlinked := ha.back
    rw [← hws, habove'] at hlinked
    obtain ⟨hptr, hback⟩ := linked_cons_cons.mp hlinked
    have hsizew : s.size w = r.size := by
      rw [← hw]
      exact h.sizes r (by simp)
    rw [if_pos (by omega), hptr, hsizew]
    refine ⟨t.size + r.size, rs, w', ws', ?_, rfl⟩
    constructor
    · exact Nat.le_add_right _ _
    · exact habove'
    · exact hback
    · rw [← Nat.add_assoc]
      exact hrs
    · refine Apart.cons (List.IsChain.tail hhi) ?_
      rintro z zs rfl ⟨_, hz⟩
      exact (isChain_cons_cons.mp hhi).1 ⟨hr, hz⟩
    · rw [used_cons_free hr]
    · exact fun z hz => mem_cons_of_mem r hz
  have hgap : ¬ t.addr + t.size = w := by
    intro heq
    cases hf : frees hi with
    | nil =>
      have habove := ha.above
      rw [hf] at habove
      obtain ⟨hw, _⟩ := cons_eq_cons.mp habove
      omega
    | cons f fs =>
      have habove := ha.above
      rw [hf] at habove
      obtain ⟨hw, _⟩ := cons_eq_cons.mp habove
      obtain ⟨z, hz, hzfree, hzaddr⟩ := mem_frees.mp (by rw [hf]; exact mem_cons_self)
      obtain ⟨r, rs, rfl⟩ := exists_cons_of_ne_nil (ne_nil_of_mem hz)
      obtain ⟨hraddr, hrsize, hrs⟩ := ha.high
      rcases mem_cons.mp hz with rfl | hz
      · exact hfirst ⟨z, rs, rfl, hzfree⟩
      · have hbounds := hrs.bounds hz
        omega
  rw [if_neg hgap]
  refine ⟨t.size, hi, w, ws, ?_, rfl⟩
  constructor
  · exact Nat.le_refl _
  · exact ha.above
  · exact ha.back
  · exact ha.high
  · refine Apart.cons hhi ?_
    rintro z zs rfl ⟨_, hz⟩
    exact hfirst ⟨z, zs, rfl, hz⟩
  · rfl
  · exact fun z hz => hz

structure Freed (base start : Nat) (s : Heap) (lo : List Tile) (t : Tile) (hi : List Tile)
    (s' : Heap) (ts : List Tile) : Prop where
  good : Good base start s' ts
  brk : s'.brk = s.brk
  inUse : used ts = used lo ++ used hi
  sizes : ∀ p ∈ used ts, s'.size p = s.size p
  room : ∃ r ∈ ts, r.free = true ∧ t.size ≤ r.size

theorem Apart.append (hxs : Apart xs) (hys : Apart ys)
    (hlast : ∀ z zs, xs = zs ++ [z] → z.free = false) : Apart (xs ++ ys) := by
  refine List.IsChain.append hxs hys ?_
  intro z hz _ _ hfree
  obtain ⟨zs, hzs⟩ := List.getLast?_eq_some_iff.mp hz
  rw [hlast z zs hzs] at hfree
  exact absurd hfree.1 (by decide)

section
variable (ha : Around base start s lo t hi us y w ws) (h : Good base start s (lo ++ t :: hi))
include ha h

theorem Around.relink {s' : Heap} (hup : JoinedUp base s t hi n hi' w' ws')
    (hptr : ∀ v, v ≠ t.addr → v ≠ y → s'.ptr v = s.ptr v) :
    Linked s'.ptr (us ++ [y]) ∧ Linked s'.ptr (w' :: ws') := by
  have hyt : y < t.addr := ha.below_lt h.base_lt (by simp)
  have hsorted : (us ++ [y]).Pairwise (· < ·) := by
    rw [← ha.below]
    exact ha.low.sorted_frees h.base_lt
  constructor
  · refine ha.front.congr ?_
    intro v hv
    have hvt := ha.below_lt h.base_lt (mem_append_left [y] hv)
    have hvy := (pairwise_append.mp hsorted).2.2 v hv y mem_cons_self
    exact hptr v (by omega) (by omega)
  have hback := hup.back
  rw [← hup.above] at hback ⊢
  refine hback.congr ?_
  intro v hv
  obtain ⟨z, hz, _, rfl⟩ := mem_frees.mp hv
  have hbounds := ha.lt_high (hup.sub z hz)
  have hsize := ha.size
  exact hptr z.addr (by omega) (by omega)

theorem Around.joinDown_merge
    (hlo : lo = lo' ++ [l]) (hl : l.free = true) (hup : JoinedUp base s t hi n hi' w' ws') :
    Freed base start s lo t hi
      { joinDown (s.set t.addr ⟨w', n⟩) t.addr y with freep := some y }
      (lo' ++ ⟨l.addr, l.size + n, true⟩ :: hi') := by
  have hbelow := ha.below
  rw [hlo, frees_append, frees_cons_free hl, ← cons_append] at hbelow
  obtain ⟨hus, hyl⟩ := append_inj' hbelow rfl
  have hy : l.addr = y := by simpa [frees] using hyl
  have hlow := ha.low
  rw [hlo] at hlow
  obtain ⟨hlow, hlsize, hladdr⟩ := tiled_middle.mp hlow
  have hend : l.addr + l.size = t.addr := hladdr
  have hstart := hlow.le
  have hbase := h.base_lt
  have htsize := ha.size
  have hsizey : s.size y = l.size := by
    rw [← hy]
    exact h.sizes l (by rw [hlo]; simp)
  have hjoin : joinDown (s.set t.addr ⟨w', n⟩) t.addr y =
      (s.set t.addr ⟨w', n⟩).set y ⟨w', l.size + n⟩ := by
    unfold User.joinDown
    rw [Heap.size_set_of_ne _ _ _ (by omega), hsizey, if_pos (by omega), Heap.ptr_set_self,
      Heap.size_set_self]
  have hsizes : ∀ v, v ≠ t.addr → v ≠ y →
      ((s.set t.addr ⟨w', n⟩).set y ⟨w', l.size + n⟩).size v = s.size v := by
    intro v hvt hvy
    rw [Heap.size_set_of_ne _ _ _ hvy, Heap.size_set_of_ne _ _ _ hvt]
  have hother : ∀ z ∈ lo' ++ hi', z.addr ≠ t.addr ∧ z.addr ≠ y ∧ z ∈ lo ++ t :: hi := by
    intro z hz
    rcases mem_append.mp hz with hz | hz
    · have hbounds := hlow.bounds hz
      exact ⟨by omega, by omega, by rw [hlo]; simp [hz]⟩
    · have hbounds := ha.lt_high (hup.sub z hz)
      exact ⟨by omega, by omega, by simp [hup.sub z hz]⟩
  have hptr : ∀ v, v ≠ t.addr → v ≠ y →
      ((s.set t.addr ⟨w', n⟩).set y ⟨w', l.size + n⟩).ptr v = s.ptr v := by
    intro v hvt hvy
    rw [Heap.ptr_set_of_ne _ _ _ hvy, Heap.ptr_set_of_ne _ _ _ hvt]
  obtain ⟨hfront, hback⟩ := ha.relink h hup hptr
  have hused : used (lo' ++ ⟨l.addr, l.size + n, true⟩ :: hi') = used lo ++ used hi := by
    rw [used_append, used_cons_free rfl, hlo, used_append, used_cons_free hl, hup.inUse]
    simp [used]
  rw [hjoin]
  refine ⟨⟨hbase, ?_, ?_, ?_, ?_, ?_, ?_⟩, rfl, hused, ?_, ?_⟩
  · refine tiled_middle.mpr ⟨hlow, by simp only; omega, ?_⟩
    have htiled := hup.tiled
    rw [← hend, Nat.add_assoc] at htiled
    exact htiled
  · have hlo' := h.apart
    rw [hlo, append_assoc] at hlo'
    refine Apart.append (List.IsChain.left_of_append hlo') ?_ ?_
    · refine Apart.cons (List.IsChain.tail hup.apart) ?_
      rintro z zs rfl ⟨_, hz⟩
      exact (isChain_cons_cons.mp hup.apart).1 ⟨rfl, hz⟩
    · rintro z zs rfl
      rw [append_assoc] at hlo'
      have hpair := (isChain_cons_cons.mp (List.IsChain.right_of_append hlo')).1
      exact Bool.eq_false_of_not_eq_true fun hz => hpair ⟨hz, hl⟩
  · refine forall_mem_middle ?_ ?_
    · simp only [hy]
      exact Heap.size_set_self _ _ _
    · intro z hz
      obtain ⟨hzt, hzy, hmem⟩ := hother z hz
      exact (hsizes z.addr hzt hzy).trans (h.sizes z hmem)
  · have hlist : base :: frees (lo' ++ ⟨l.addr, l.size + n, true⟩ :: hi') ++ [base] =
        us ++ y :: w' :: ws' := by
      rw [frees_append, frees_cons_free rfl, ← hup.above, ← hus, ← hy]
      simp
    rw [hlist]
    exact linked_split.mpr ⟨hfront, Heap.ptr_set_self _ _ _, hback⟩
  · exact (hsizes base (by omega) (by omega)).trans h.zero
  · refine ⟨y, ?_, rfl⟩
    rw [frees_append, frees_cons_free rfl, ← hy]
    simp
  · refine forall_mem_used (forall_mem_middle (by simp) ?_)
    intro z hz _
    obtain ⟨hzt, hzy, _⟩ := hother z hz
    exact hsizes z.addr hzt hzy
  · refine ⟨⟨l.addr, l.size + n, true⟩, by simp, rfl, ?_⟩
    have hle := hup.le
    simp only
    omega

theorem Around.joinDown_link (hlast : ∀ z zs, lo = zs ++ [z] → z.free = false)
    (hup : JoinedUp base s t hi n hi' w' ws') :
    Freed base start s lo t hi
      { joinDown (s.set t.addr ⟨w', n⟩) t.addr y with freep := some y }
      (lo ++ ⟨t.addr, n, true⟩ :: hi') := by
  have hbase := h.base_lt
  have hstart := ha.low.le
  have htsize := ha.size
  have hyt : y < t.addr := ha.below_lt h.base_lt (by simp)
  have hgap : ¬ y + s.size y = t.addr := by
    intro heq
    rcases ha.below_cases with ⟨rfl, _⟩ | ⟨z, hz, hzfree, rfl⟩
    · rw [h.zero] at heq
      omega
    rw [h.sizes z (mem_append_left _ hz)] at heq
    obtain ⟨xs, ys, hsplit⟩ := append_of_mem hz
    have hlow := ha.low
    rw [hsplit] at hlow
    obtain ⟨_, _, hrest⟩ := tiled_middle.mp hlow
    cases ys with
    | nil => exact absurd (hlast z xs hsplit) (by simp [hzfree])
    | cons v vs =>
      obtain ⟨hvaddr, hvsize, hvs⟩ := hrest
      have hle := hvs.le
      omega
  have hjoin : joinDown (s.set t.addr ⟨w', n⟩) t.addr y =
      (s.set t.addr ⟨w', n⟩).set y ⟨t.addr, s.size y⟩ := by
    unfold User.joinDown
    rw [Heap.size_set_of_ne _ _ _ (by omega), if_neg hgap]
  have hptr : ∀ v, v ≠ t.addr → v ≠ y →
      ((s.set t.addr ⟨w', n⟩).set y ⟨t.addr, s.size y⟩).ptr v = s.ptr v := by
    intro v hvt hvy
    rw [Heap.ptr_set_of_ne _ _ _ hvy, Heap.ptr_set_of_ne _ _ _ hvt]
  have hsizes : ∀ v, v ≠ t.addr →
      ((s.set t.addr ⟨w', n⟩).set y ⟨t.addr, s.size y⟩).size v = s.size v := by
    intro v hvt
    by_cases hvy : v = y
    · rw [hvy, Heap.size_set_self]
    · rw [Heap.size_set_of_ne _ _ _ hvy, Heap.size_set_of_ne _ _ _ hvt]
  have hother : ∀ z ∈ lo ++ hi', z.addr ≠ t.addr ∧ z ∈ lo ++ t :: hi := by
    intro z hz
    rcases mem_append.mp hz with hz | hz
    · have hbounds := ha.low_lt hz
      exact ⟨by omega, by simp [hz]⟩
    · have hbounds := ha.lt_high (hup.sub z hz)
      exact ⟨by omega, by simp [hup.sub z hz]⟩
  obtain ⟨hfront, hback⟩ := ha.relink h hup hptr
  have hused : used (lo ++ ⟨t.addr, n, true⟩ :: hi') = used lo ++ used hi := by
    rw [used_append, used_cons_free rfl, hup.inUse]
  rw [hjoin]
  refine ⟨⟨hbase, ?_, ?_, ?_, ?_, ?_, ?_⟩, rfl, hused, ?_, ?_⟩
  · have hle := hup.le
    exact tiled_middle.mpr ⟨ha.low, by simp only; omega, hup.tiled⟩
  · exact Apart.append (List.IsChain.left_of_append h.apart) hup.apart hlast
  · refine forall_mem_middle ?_ ?_
    · exact (Heap.size_set_of_ne _ _ _ (by simp only; omega)).trans (Heap.size_set_self _ _ _)
    · intro z hz
      obtain ⟨hzt, hmem⟩ := hother z hz
      exact (hsizes z.addr hzt).trans (h.sizes z hmem)
  · have hlist : base :: frees (lo ++ ⟨t.addr, n, true⟩ :: hi') ++ [base] =
        us ++ y :: t.addr :: w' :: ws' := by
      rw [frees_append, frees_cons_free rfl, ← hup.above, ← cons_append, ha.below]
      simp
    rw [hlist]
    refine linked_split.mpr ⟨hfront, Heap.ptr_set_self _ _ _, ?_⟩
    refine linked_cons_cons.mpr ⟨?_, hback⟩
    exact (Heap.ptr_set_of_ne _ _ _ (by omega)).trans (Heap.ptr_set_self _ _ _)
  · exact (hsizes base (by omega)).trans h.zero
  · refine ⟨y, ?_, rfl⟩
    rw [frees_append, ← cons_append, ha.below]
    simp
  · refine forall_mem_used (forall_mem_middle nofun ?_)
    exact fun z hz _ => hsizes z.addr (hother z hz).1
  · exact ⟨⟨t.addr, n, true⟩, by simp, rfl, hup.le⟩

end

theorem free_spec (h : Good base start s (lo ++ t :: hi)) (ht : t.free = false) :
    ∃ s' ts, free s (t.addr + 1) = some s' ∧ Freed base start s lo t hi s' ts := by
  obtain ⟨us, y, w, ws, ha⟩ := h.around ht
  obtain ⟨q, hq, hfreep⟩ := h.roving
  obtain ⟨n, hi', w', ws', hup, hjoin⟩ := ha.joinUp h
  have hfree : free s (t.addr + 1) =
      some { joinDown (s.set t.addr ⟨w', n⟩) t.addr y with freep := some y } := by
    unfold free
    rw [hfreep]
    simp only [Nat.add_sub_cancel]
    rw [ha.seek h ht hq, Option.map_some, hjoin]
  by_cases hlast : ∃ z zs, lo = zs ++ [z] ∧ z.free = true
  · obtain ⟨l, lo', hlo, hl⟩ := hlast
    exact ⟨_, _, hfree, ha.joinDown_merge h hlo hl hup⟩
  · refine ⟨_, _, hfree, ha.joinDown_link h ?_ hup⟩
    intro z zs hlo
    exact Bool.eq_false_of_not_eq_true fun hz => hlast ⟨z, zs, hlo, hz⟩

end Joining

end Xv6.User
