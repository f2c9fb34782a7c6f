import Xv6.User.FreeList

/-!
# Allocating a block

`malloc` goes round the free list once; if no block is large enough it calls
`morecore`, which frees a new block, and goes round once more.  Then the heap is
shown well formed along every sequence of calls.
-/

namespace Xv6.User

open Lib List

variable {base start n y f nbytes x nu ap a fuel p : Nat} {ts lo hi : List Tile} {t : Tile}
variable {us ys : List Nat} {grows : Bool} {h h' : Heap} {mem : Nat → Header} {ls : List Act}

variable {s : Heap}

structure Taken (base start : Nat) (s : Heap) (ts : List Tile) (n : Nat)
    (s' : Heap) (p : Nat) (ts' : List Tile) : Prop where
  good : Good base start s' ts'
  inUse : (used ts').Perm (p :: used ts)
  size : s'.size p = n
  sizes : ∀ q ∈ used ts, s'.size q = s.size q

/-- The block found, with the blocks below and above and the node before it in the list. -/
structure Found (base start : Nat) (s : Heap) (ts : List Tile) (lo : List Tile) (t : Tile)
    (hi : List Tile) (us : List Nat) (y : Nat) : Prop where
  split : ts = lo ++ t :: hi
  free : t.free = true
  below : base :: frees lo = us ++ [y]

theorem Good.found (h : Good base start s ts) (hy : y ∈ base :: frees ts)
    (hpos : 0 < s.size (s.ptr y)) :
    ∃ lo t hi us, Found base start s ts lo t hi us y ∧ t.addr = s.ptr y := by
  have hne : s.ptr y ≠ base := by
    intro heq
    rw [heq, h.zero] at hpos
    exact Nat.lt_irrefl _ hpos
  rcases h.linked.next_cases hy with ⟨us, ws, hsplit⟩ | ⟨heq, _⟩
  · have hmem : s.ptr y ∈ frees ts := mem_of_ne_of_mem hne (h.linked.next_mem hy)
    obtain ⟨t, ht, hfree, haddr⟩ := mem_frees.mp hmem
    obtain ⟨lo, hi, hts⟩ := append_of_mem ht
    refine ⟨lo, t, hi, us, ⟨hts, hfree, ?_⟩, haddr⟩
    -- The address occurs once in the list, so what comes before it is determined.
    have hsorted := h.tiled.sorted_frees h.base_lt
    have hlist : us ++ [y] ++ s.ptr y :: ws = base :: frees lo ++ s.ptr y :: frees hi := by
      rw [append_assoc, singleton_append, ← hsplit, hts, frees_append, frees_cons_free hfree, haddr]
      rfl
    have hnodup : (us ++ [y] ++ s.ptr y :: ws).Nodup := by
      rw [append_assoc, singleton_append, ← hsplit]
      exact hsorted.imp fun hlt => Nat.ne_of_lt hlt
    obtain ⟨_, hright, hcross⟩ := nodup_append.mp hnodup
    have hleft : s.ptr y ∉ us ++ [y] := by
      intro hin
      exact hcross _ hin _ mem_cons_self rfl
    have hws : s.ptr y ∉ ws := (nodup_cons.mp hright).1
    exact ((append_cons_inj_of_notMem hleft hws).mp hlist).1.symm
  · exact absurd heq hne

theorem Found.take_whole (hf : Found base start s ts lo t hi us y) (h : Good base start s ts) :
    Taken base start s ts t.size
      { s.set y ⟨s.ptr t.addr, s.size y⟩ with freep := some y } t.addr
      (lo ++ ⟨t.addr, t.size, false⟩ :: hi) := by
  have hts := hf.split
  have htiled := h.tiled
  rw [hts] at htiled
  obtain ⟨hlow, hsize, hhigh⟩ := tiled_middle.mp htiled
  have hapart := h.apart
  rw [hts] at hapart
  obtain ⟨w, ws, habove⟩ : ∃ w ws, frees hi ++ [base] = w :: ws := by
    cases hhi : frees hi with
    | nil => exact ⟨base, [], rfl⟩
    | cons f fs => exact ⟨f, fs ++ [base], rfl⟩
  have hlist : base :: frees ts ++ [base] = us ++ y :: t.addr :: w :: ws := by
    rw [hts, frees_append, frees_cons_free hf.free, ← habove, ← cons_append, hf.below]
    simp
  have hlinked := h.linked
  rw [hlist] at hlinked
  obtain ⟨hfront, hnext, hback⟩ := linked_split.mp hlinked
  obtain ⟨hptr, hback⟩ := linked_cons_cons.mp hback
  have hsorted := h.tiled.sorted_frees h.base_lt
  have hsizes : ∀ v, (s.set y ⟨s.ptr t.addr, s.size y⟩).size v = s.size v := by
    intro v
    by_cases hv : v = y
    · rw [hv, Heap.size_set_self]
    · exact Heap.size_set_of_ne _ _ _ hv
  have hnodes : (us ++ y :: t.addr :: frees hi).Pairwise (· < ·) := by
    have heq : us ++ y :: t.addr :: frees hi = base :: frees ts := by
      rw [hts, frees_append, frees_cons_free hf.free, ← cons_append, hf.below]
      simp
    rw [heq]
    exact hsorted
  obtain ⟨_, hyrest, hcross⟩ := pairwise_append.mp hnodes
  refine ⟨⟨h.base_lt, ?_, ?_, ?_, ?_, ?_, ?_⟩, ?_, ?_, ?_⟩
  · exact tiled_middle.mpr ⟨hlow, hsize, hhigh⟩
  · have hhi : Apart (t :: hi) := List.IsChain.right_of_append hapart
    have hcons : Apart (⟨t.addr, t.size, false⟩ :: hi) := by
      refine Apart.cons (List.IsChain.tail hhi) ?_
      rintro z zs _ ⟨hfalse, _⟩
      cases hfalse
    refine List.IsChain.append (List.IsChain.left_of_append hapart) hcons ?_
    rintro z _ x hx ⟨_, hxfree⟩
    obtain rfl : _ = x := Option.some.inj hx
    cases hxfree
  · intro z hz
    refine (hsizes z.addr).trans ?_
    rcases mem_append.mp hz with hz | hz
    · exact h.sizes z (by rw [hts]; simp [hz])
    · rcases mem_cons.mp hz with rfl | hz
      · exact h.sizes t (by rw [hts]; simp)
      · exact h.sizes z (by rw [hts]; simp [hz])
  · have hlist' : base :: frees (lo ++ ⟨t.addr, t.size, false⟩ :: hi) ++ [base] =
        us ++ y :: w :: ws := by
      rw [frees_append, frees_cons_used rfl, ← habove, ← cons_append, hf.below]
      simp
    rw [hlist']
    refine linked_split.mpr ⟨?_, ?_, ?_⟩
    · refine hfront.congr ?_
      intro v hv
      have hlt := hcross v hv y mem_cons_self
      exact Heap.ptr_set_of_ne _ _ _ (by omega)
    · exact (Heap.ptr_set_self _ _ _).trans hptr
    · rw [← habove] at hback ⊢
      refine hback.congr ?_
      intro v hv
      have hlt : y < v := rel_of_pairwise_cons hyrest (mem_cons_of_mem _ hv)
      exact Heap.ptr_set_of_ne _ _ _ (by omega)
  · exact (hsizes base).trans h.zero
  · refine ⟨y, ?_, rfl⟩
    rw [frees_append, ← cons_append, hf.below]
    simp
  · rw [hts, used_append, used_append, used_cons_used rfl, used_cons_free hf.free]
    exact perm_middle
  · exact (hsizes t.addr).trans (h.sizes t (by rw [hts]; simp))
  · intro q _
    exact hsizes q

theorem Found.take_part (hf : Found base start s ts lo t hi us y) (h : Good base start s ts)
    (hn : 0 < n) (hlt : n < t.size) (q : Header) (hq : q.size = n) :
    Taken base start s ts n
      { (s.set t.addr ⟨s.ptr t.addr, t.size - n⟩).set (t.addr + (t.size - n)) q with
        freep := some y }
      (t.addr + (t.size - n))
      (lo ++ ⟨t.addr, t.size - n, true⟩ :: ⟨t.addr + (t.size - n), n, false⟩ :: hi) := by
  have hts := hf.split
  have htiled := h.tiled
  rw [hts] at htiled
  obtain ⟨hlow, hsize, hhigh⟩ := tiled_middle.mp htiled
  have hapart := h.apart
  rw [hts] at hapart
  have hbase := h.base_lt
  have hstart := hlow.le
  have hfrees : frees (lo ++ ⟨t.addr, t.size - n, true⟩ ::
      ⟨t.addr + (t.size - n), n, false⟩ :: hi) = frees ts := by
    rw [hts, frees_append, frees_append, frees_cons_free rfl, frees_cons_free hf.free,
      frees_cons_used rfl]
  have hsizes : ∀ v, v ≠ t.addr → v ≠ t.addr + (t.size - n) →
      ((s.set t.addr ⟨s.ptr t.addr, t.size - n⟩).set (t.addr + (t.size - n)) q).size v =
        s.size v := by
    intro v hv hv'
    rw [Heap.size_set_of_ne _ _ _ hv', Heap.size_set_of_ne _ _ _ hv]
  have hptr : ∀ v, v ≠ t.addr + (t.size - n) →
      ((s.set t.addr ⟨s.ptr t.addr, t.size - n⟩).set (t.addr + (t.size - n)) q).ptr v =
        s.ptr v := by
    intro v hv
    rw [Heap.ptr_set_of_ne _ _ _ hv]
    by_cases hvt : v = t.addr
    · rw [hvt, Heap.ptr_set_self]
    · exact Heap.ptr_set_of_ne _ _ _ hvt
  -- No other block begins inside this one.
  have hother : ∀ z ∈ lo ++ hi, z.addr ≠ t.addr ∧ z.addr ≠ t.addr + (t.size - n) ∧ z ∈ ts := by
    intro z hz
    rcases mem_append.mp hz with hz | hz
    · have hbounds := hlow.bounds hz
      exact ⟨by omega, by omega, by rw [hts]; simp [hz]⟩
    · have hbounds := hhigh.bounds hz
      exact ⟨by omega, by omega, by rw [hts]; simp [hz]⟩
  have hself : ((s.set t.addr ⟨s.ptr t.addr, t.size - n⟩).set
      (t.addr + (t.size - n)) q).size (t.addr + (t.size - n)) = n := by
    rw [Heap.size_set_self, hq]
  refine ⟨⟨hbase, ?_, ?_, ?_, ?_, ?_, ?_⟩, ?_, ?_, ?_⟩
  · refine tiled_middle.mpr ⟨hlow, by simp only; omega, rfl, hn, ?_⟩
    have hend : t.addr + (t.size - n) + n = t.addr + t.size := by omega
    simp only [hend]
    exact hhigh
  · have hhi : Apart (t :: hi) := List.IsChain.right_of_append hapart
    have hcons : Apart (⟨t.addr + (t.size - n), n, false⟩ :: hi) := by
      refine Apart.cons (List.IsChain.tail hhi) ?_
      rintro z zs _ ⟨hfalse, _⟩
      cases hfalse
    have hpair : Apart (⟨t.addr, t.size - n, true⟩ :: ⟨t.addr + (t.size - n), n, false⟩ :: hi) := by
      refine Apart.cons hcons ?_
      rintro z zs heq ⟨_, hz⟩
      obtain ⟨rfl, _⟩ := cons_eq_cons.mp heq
      cases hz
    refine Apart.append (List.IsChain.left_of_append hapart) hpair ?_
    rintro z zs rfl
    rw [append_assoc] at hapart
    have hzt := (isChain_cons_cons.mp (List.IsChain.right_of_append hapart)).1
    exact Bool.eq_false_of_not_eq_true fun hz => hzt ⟨hz, hf.free⟩
  · refine forall_mem_middle ?_ (forall_mem_middle hself ?_)
    · exact (Heap.size_set_of_ne _ _ _ (by simp only; omega)).trans (Heap.size_set_self _ _ _)
    · intro z hz
      obtain ⟨h1, h2, hmem⟩ := hother z hz
      exact (hsizes z.addr h1 h2).trans (h.sizes z hmem)
  · rw [hfrees]
    refine h.linked.congr ?_
    intro v hv
    apply hptr
    rcases mem_cons.mp hv with rfl | hv
    · omega
    rw [hts] at hv
    obtain ⟨z, hz, _, rfl⟩ := mem_frees.mp hv
    rcases mem_append.mp hz with hz | hz
    · exact (hother z (mem_append_left _ hz)).2.1
    · rcases mem_cons.mp hz with rfl | hz
      · omega
      · exact (hother z (mem_append_right _ hz)).2.1
  · exact (hsizes base (by omega) (by omega)).trans h.zero
  · refine ⟨y, ?_, rfl⟩
    rw [hfrees, hts, frees_append, ← cons_append, hf.below]
    simp
  · rw [hts, used_append, used_append, used_cons_free rfl, used_cons_used rfl,
      used_cons_free hf.free]
    exact perm_middle
  · exact hself
  rw [hts]
  refine forall_mem_used (forall_mem_middle (fun hused => ?_) ?_)
  · rw [hf.free] at hused
    cases hused
  · intro z hz _
    obtain ⟨h1, h2, _⟩ := hother z hz
    exact hsizes z.addr h1 h2

theorem take_spec (h : Good base start s ts) (hy : y ∈ base :: frees ts) (hn : 0 < n)
    (hfit : n ≤ s.size (s.ptr y)) :
    ∃ p ts', (take s y (s.ptr y) n).2 = p + 1 ∧
      Taken base start s ts n (take s y (s.ptr y) n).1 p ts' := by
  obtain ⟨lo, t, hi, us, hf, haddr⟩ := h.found hy (by omega)
  have hsize : s.size (s.ptr y) = t.size := by
    rw [← haddr]
    exact h.sizes t (by rw [hf.split]; simp)
  unfold take
  rw [← haddr] at hsize hfit ⊢
  by_cases heq : s.size t.addr = n
  · rw [if_pos heq]
    obtain rfl : t.size = n := hsize.symm.trans heq
    exact ⟨t.addr, _, rfl, hf.take_whole h⟩
  · rw [if_neg heq]
    simp only [hsize]
    exact ⟨_, _, rfl, hf.take_part h hn (by omega) _ rfl⟩

theorem mallocLoop_round (hlinked : Linked s.ptr (x :: ys ++ [f]))
    (hfreep : s.freep = some f) (hf : f ∉ ys) (k : Nat) :
    (∃ y ∈ x :: ys, n ≤ s.size (s.ptr y) ∧ mallocLoop grows n (k + ys.length + 1) s x =
          some ((take s y (s.ptr y) n).1, some (take s y (s.ptr y) n).2)) ∨
      ∃ z, s.ptr z = f ∧ (∀ v ∈ ys ++ [f], s.size v < n) ∧
        mallocLoop grows n (k + ys.length + 1) s x = mallocLoop grows n (k + 1) s z := by
  induction ys generalizing x with
  | nil =>
    have hnext : s.ptr x = f := (linked_cons_cons.mp hlinked).1
    by_cases hfit : n ≤ s.size (s.ptr x)
    · refine .inl ⟨x, mem_cons_self, hfit, ?_⟩
      rw [mallocLoop, if_pos hfit]
    · refine .inr ⟨x, hnext, ?_, rfl⟩
      intro v hv
      rw [mem_singleton.mp hv, ← hnext]
      omega
  | cons y ys ih =>
    obtain ⟨hnext, htail⟩ := linked_cons_cons.mp hlinked
    have hfy : f ≠ y := ne_of_not_mem_cons hf
    by_cases hfit : n ≤ s.size (s.ptr x)
    · refine .inl ⟨x, mem_cons_self, hfit, ?_⟩
      rw [mallocLoop, if_pos hfit]
    have hstep : mallocLoop grows n (k + (y :: ys).length + 1) s x =
        mallocLoop grows n (k + ys.length + 1) s y := by
      have hne : ¬ s.freep = some (s.ptr x) := by
        rw [hfreep, hnext]
        intro heq
        exact hfy (Option.some.inj heq)
      rw [mallocLoop, if_neg hfit, if_neg hne, hnext, length_cons]
      rfl
    rw [hstep]
    rcases ih htail (not_mem_of_not_mem_cons hf) with ⟨v, hv, hvfit, hloop⟩ | ⟨z, hz, hall, hloop⟩
    · exact .inl ⟨v, mem_cons_of_mem x hv, hvfit, hloop⟩
    · refine .inr ⟨z, hz, ?_, hloop⟩
      intro v hv
      rcases mem_cons.mp hv with rfl | hv
      · rw [← hnext]
        omega
      · exact hall v hv

theorem Good.round (h : Good base start s ts) (hfreep : s.freep = some f) (hn : 0 < n) (k : Nat) :
    (∃ s' p ts', mallocLoop grows n (k + (frees ts).length + 1) s f = some (s', some (p + 1)) ∧
        Taken base start s ts n s' p ts') ∨
      ∃ z, s.ptr z = f ∧ (∀ v ∈ base :: frees ts, s.size v < n) ∧
        mallocLoop grows n (k + (frees ts).length + 1) s f = mallocLoop grows n (k + 1) s z := by
  obtain ⟨q, hq, hq'⟩ := h.roving
  obtain rfl : f = q := Option.some.inj (hfreep.symm.trans hq')
  obtain ⟨us, vs, hsplit⟩ := append_of_mem hq
  have hlen := congrArg List.length hsplit
  simp only [length_cons, length_append] at hlen
  have hsame : (vs ++ us).length = (frees ts).length := by
    rw [length_append]
    omega
  have hmem : ∀ v, v ∈ f :: (vs ++ us) ↔ v ∈ base :: frees ts := by
    intro v
    rw [hsplit]
    simp only [mem_cons, mem_append]
    tauto
  have hnodup : (us ++ f :: vs).Nodup := by
    rw [← hsplit]
    exact (h.tiled.sorted_frees h.base_lt).imp fun hlt => Nat.ne_of_lt hlt
  have hnotin : f ∉ vs ++ us := by
    obtain ⟨_, hright, hcross⟩ := nodup_append.mp hnodup
    intro hin
    rcases mem_append.mp hin with hin | hin
    · exact (nodup_cons.mp hright).1 hin
    · exact hcross f hin f mem_cons_self rfl
  rw [← hsame]
  rcases mallocLoop_round (h.linked.rotate hsplit) hfreep hnotin k with
    ⟨y, hy, hfit, hloop⟩ | ⟨z, hz, hall, hloop⟩
  · obtain ⟨p, ts', hp, htaken⟩ := take_spec h ((hmem y).mp hy) hn hfit
    rw [hp] at hloop
    exact .inl ⟨_, p, ts', hloop, htaken⟩
  refine .inr ⟨z, hz, ?_, hloop⟩
  intro v hv
  have hv' := (hmem v).mpr hv
  apply hall
  rcases mem_cons.mp hv' with rfl | hv'
  · simp
  · exact mem_append_left _ hv'

theorem Good.extend (h : Good base start s ts) (hnu : 0 < nu) (q : Header) (hq : q.size = nu) :
    Good base start (({ s with brk := s.brk + nu }).set s.brk q)
      (ts ++ ⟨s.brk, nu, false⟩ :: []) := by
  have hstart := h.tiled.le
  have hbase := h.base_lt
  have hne : ∀ t ∈ ts, t.addr ≠ s.brk := by
    intro t ht
    have hbounds := h.tiled.bounds ht
    omega
  have hfrees : frees (ts ++ ⟨s.brk, nu, false⟩ :: []) = frees ts := by
    rw [frees_append, frees_cons_used rfl]
    simp [frees]
  refine ⟨hbase, ?_, ?_, ?_, ?_, ?_, ?_⟩
  · exact tiled_middle.mpr ⟨h.tiled, hnu, rfl⟩
  · refine List.IsChain.append h.apart (isChain_singleton _) ?_
    rintro z _ x hx ⟨_, hxfree⟩
    obtain rfl : _ = x := Option.some.inj hx
    cases hxfree
  · intro t ht
    rcases mem_append.mp ht with ht | ht
    · exact (Heap.size_set_of_ne _ _ _ (hne t ht)).trans (h.sizes t ht)
    · rw [mem_singleton.mp ht]
      exact (Heap.size_set_self _ _ _).trans hq
  · rw [hfrees]
    refine h.linked.congr ?_
    intro v hv
    refine Heap.ptr_set_of_ne _ _ _ ?_
    rcases mem_cons.mp hv with rfl | hv
    · omega
    · obtain ⟨z, hz, _, rfl⟩ := mem_frees.mp hv
      exact hne z hz
  · exact (Heap.size_set_of_ne _ _ _ (by omega)).trans h.zero
  · rw [hfrees]
    exact h.roving

theorem sbrkAmount_eq (hn : n < 2 ^ 28) : sbrkAmount n = (8 * max n 4096 : Nat) := by
  unfold sbrkAmount
  rw [if_pos (by omega)]
  omega

theorem sbrk_eq (grows : Bool) (brk : Nat) (hn : n < 2 ^ 28) :
    sbrk grows brk (sbrkAmount n) = if grows = true then some (brk + max n 4096) else none := by
  rw [sbrkAmount_eq hn, sbrk, if_pos (by omega), Int.toNat_natCast,
    Nat.mul_div_cancel_left _ (by decide)]

theorem morecore_spec (h : Good base start s ts) (hn : n < 2 ^ 28) :
    ∃ s' ts', morecore true s n = some (some s') ∧ Good base start s' ts' ∧
      s'.brk = s.brk + max n 4096 ∧ used ts' = used ts ∧
      (∀ p ∈ used ts, s'.size p = s.size p) ∧ ∃ r ∈ ts', r.free = true ∧ n ≤ r.size := by
  have hpos : 0 < max n 4096 := Nat.lt_of_lt_of_le (by decide) (Nat.le_max_right n 4096)
  have hext := h.extend hpos ⟨s.ptr s.brk, max n 4096⟩ rfl
  obtain ⟨s', ts', hfree, hfreed⟩ := free_spec hext rfl
  have hused : used ts' = used ts := by
    rw [hfreed.inUse]
    simp [used]
  refine ⟨s', ts', ?_, hfreed.good, hfreed.brk, hused, ?_, ?_⟩
  · simp only [morecore, sbrk_eq true s.brk hn, if_true]
    rw [if_pos (Or.inl (Nat.lt_add_of_pos_right hpos)), hfree, Option.map_some]
  · intro p hp
    rw [hfreed.sizes p (by rw [hused]; exact hp)]
    obtain ⟨z, hz, _, rfl⟩ := mem_used.mp hp
    have hbounds := h.tiled.bounds hz
    exact Heap.size_set_of_ne _ _ _ (by omega)
  · obtain ⟨r, hr, hrfree, hle⟩ := hfreed.room
    exact ⟨r, hr, hrfree, Nat.le_trans (Nat.le_max_left n 4096) hle⟩

/-- What `malloc` does to a well formed heap: it returns null and leaves the blocks as they are, or
returns a block. -/
def Allocated (base start : Nat) (s : Heap) (ts : List Tile) (n : Nat)
    (r : Heap × Option Nat) : Prop :=
  (r.2 = none ∧ Good base start r.1 ts ∧ ∀ p ∈ used ts, r.1.size p = s.size p) ∨
    ∃ p ts', r.2 = some (p + 1) ∧ Taken base start s ts n r.1 p ts'

theorem mallocLoop_spec (grows : Bool) (h : Good base start s ts)
    (hfreep : s.freep = some f) (hn : 0 < n) (hlt : n < 2 ^ 28) (fuel : Nat)
    (hfuel : 2 * (s.brk + max n 4096) + 2 ≤ fuel) :
    ∃ r, mallocLoop grows n fuel s f = some r ∧ Allocated base start s ts n r := by
  have hcount := h.tiled.length_le
  have hlen : (frees ts).length ≤ ts.length := length_frees_le
  obtain ⟨k, rfl⟩ := Nat.exists_eq_add_of_le (show (frees ts).length + 1 ≤ fuel by omega)
  have hcomm : (frees ts).length + 1 + k = k + (frees ts).length + 1 := by omega
  rw [hcomm]
  rcases h.round hfreep hn k with ⟨s', p, ts', hloop, htaken⟩ | ⟨z, hz, hall, hloop⟩
  · exact ⟨_, hloop, .inr ⟨p, ts', rfl, htaken⟩⟩
  have hsmall : ¬ n ≤ s.size (s.ptr z) := by
    obtain ⟨q, hq, hq'⟩ := h.roving
    obtain rfl : f = q := Option.some.inj (hfreep.symm.trans hq')
    rw [hz]
    have hf := hall f hq
    omega
  have hend : s.freep = some (s.ptr z) := by rw [hz, hfreep]
  rw [hloop, mallocLoop, if_neg hsmall, if_pos hend]
  cases grows with
  | false =>
    have hmore : morecore false s n = some none := by
      simp [morecore, sbrk_eq false s.brk hlt]
    rw [hmore]
    exact ⟨_, rfl, .inl ⟨rfl, h, fun _ _ => rfl⟩⟩
  | true =>
    obtain ⟨s', ts', hmore, hgood, hbrk, hused, hsizes, r, hr, hrfree, hfit⟩ :=
      morecore_spec h hlt
    obtain ⟨q, hq, hq'⟩ := hgood.roving
    have hcount' := hgood.tiled.length_le
    have hlen' : (frees ts').length ≤ ts'.length := length_frees_le
    obtain ⟨j, rfl⟩ :=
      Nat.exists_eq_add_of_le (show (frees ts').length + 1 ≤ k by omega)
    have hcomm' : (frees ts').length + 1 + j = j + (frees ts').length + 1 := by omega
    simp only [hmore, hq']
    rw [hcomm']
    -- In the second round the new block is found at the latest.
    rcases hgood.round hq' hn j with ⟨s'', p, ts'', hloop', htaken⟩ | ⟨_, _, hall', _⟩
    · refine ⟨_, hloop', .inr ⟨p, ts'', rfl, htaken.good, ?_, htaken.size, ?_⟩⟩
      · rw [← hused]
        exact htaken.inUse
      · intro v hv
        rw [htaken.sizes v (by rw [hused]; exact hv)]
        exact hsizes v hv
    · have hsize := hgood.sizes r hr
      have hlt := hall' r.addr (mem_cons_of_mem base (mem_frees.mpr ⟨r, hr, hrfree, rfl⟩))
      omega

section Calls

variable {s : Sys}

structure Owns (base start : Nat) (s : Sys) (ts : List Tile) : Prop where
  good : Good base start s.heap ts
  live : (s.live.map Prod.fst).Perm ((used ts).map (· + 1))
  units : ∀ x ∈ s.live, s.heap.size (x.1 - 1) = nunits x.2 ∧ x.2 + 8 ≤ 8 * nunits x.2

def SysInv (base start : Nat) (s : Sys) : Prop :=
  (s.heap.freep = none ∧ s.heap.brk = start ∧ s.live = []) ∨ ∃ ts, Owns base start s ts

theorem le_nunits (h : 8 * ((nbytes + 7) / 8 + 1) < 2 ^ 31) : nbytes + 8 ≤ 8 * nunits nbytes := by
  unfold nunits
  rw [Nat.mod_eq_of_lt (by omega)]
  omega

theorem nunits_pos (nbytes : Nat) : 0 < nunits nbytes :=
  Nat.succ_pos _

theorem nunits_lt (h : 8 * ((nbytes + 7) / 8 + 1) < 2 ^ 31) : nunits nbytes < 2 ^ 28 := by
  unfold nunits
  omega

theorem good_start (hbase : base < start) (s : Heap) (hbrk : s.brk = start) :
    Good base start { s.set base ⟨base, 0⟩ with freep := some base } [] := by
  refine ⟨hbase, hbrk.symm, isChain_nil, ?_, ?_, Heap.size_set_self _ _ _, ?_⟩
  · intro t ht
    cases ht
  · exact linked_cons_cons.mpr ⟨Heap.ptr_set_self _ _ _, isChain_singleton base⟩
  · exact ⟨base, mem_cons_self, rfl⟩

theorem Owns.malloc {live : List (Nat × Nat)}
    (hs : Owns base start ⟨h, live⟩ ts) (hsmall : nbytes + 8 ≤ 8 * nunits nbytes)
    {r : Heap × Option Nat} (hr : Allocated base start h ts (nunits nbytes) r) :
    ∃ ts', Owns base start (received live nbytes r) ts' := by
  have hmem : ∀ x ∈ live, x.1 - 1 ∈ used ts := by
    intro x hx
    obtain ⟨q, hq, hqx⟩ := mem_map.mp (hs.live.subset (mem_map_of_mem hx))
    rw [← hqx]
    exact hq
  unfold received
  rcases hr with ⟨hnone, hgood, hsizes⟩ | ⟨p, ts', hsome, htaken⟩
  · rw [hnone]
    refine ⟨ts, hgood, hs.live, ?_⟩
    intro x hx
    rw [hsizes _ (hmem x hx)]
    exact hs.units x hx
  rw [hsome]
  refine ⟨ts', htaken.good, ?_, ?_⟩
  · refine List.Perm.trans ?_ (htaken.inUse.map _).symm
    exact hs.live.cons (p + 1)
  · intro x hx
    rcases mem_cons.mp hx with rfl | hx
    · exact ⟨htaken.size, hsmall⟩
    · rw [htaken.sizes _ (hmem x hx)]
      exact hs.units x hx

theorem SysInv.malloc (hbase : base < start) (hs : SysInv base start s)
    (hok : Allowed s (.malloc nbytes grows)) :
    ∃ t, act base s (.malloc nbytes grows) = some t ∧ SysInv base start t := by
  have hsmall := le_nunits hok
  rcases hs with ⟨hfreep, hbrk, hlive⟩ | ⟨ts, hs⟩
  · have hgood := good_start hbase s.heap hbrk
    obtain ⟨r, hloop, hr⟩ := mallocLoop_spec grows hgood rfl (nunits_pos nbytes) (nunits_lt hok)
      (mallocFuel s.heap (nunits nbytes)) (Nat.le_refl _)
    have howns : Owns base start
        ⟨{ s.heap.set base ⟨base, 0⟩ with freep := some base }, s.live⟩ [] := by
      refine ⟨hgood, ?_, ?_⟩
      · rw [hlive]
        exact List.Perm.refl _
      · rw [hlive]
        intro x hx
        cases hx
    obtain ⟨ts', ht⟩ := howns.malloc hsmall hr
    refine ⟨_, ?_, .inr ⟨ts', ht⟩⟩
    simp only [act, User.malloc, hfreep, hloop, Option.map_some]
  · obtain ⟨q, _, hq⟩ := hs.good.roving
    obtain ⟨r, hloop, hr⟩ := mallocLoop_spec grows hs.good hq (nunits_pos nbytes) (nunits_lt hok)
      (mallocFuel s.heap (nunits nbytes)) (Nat.le_refl _)
    obtain ⟨ts', ht⟩ := hs.malloc hsmall hr
    refine ⟨_, ?_, .inr ⟨ts', ht⟩⟩
    simp only [act, User.malloc, hq, hloop, Option.map_some]

theorem SysInv.free (hs : SysInv base start s) (hok : Allowed s (.free ap)) :
    ∃ t, act base s (.free ap) = some t ∧ SysInv base start t := by
  obtain ⟨n, hmem⟩ := hok
  rcases hs with ⟨_, _, hlive⟩ | ⟨ts, hs⟩
  · rw [hlive] at hmem
    cases hmem
  obtain ⟨p, hp, hap⟩ := mem_map.mp (hs.live.subset (mem_map_of_mem hmem))
  obtain ⟨t, ht, htfree, haddr⟩ := mem_used.mp hp
  obtain ⟨lo, hi, hts⟩ := append_of_mem ht
  have hgood := hs.good
  rw [hts] at hgood
  obtain ⟨h', ts', hfree, hfreed⟩ := free_spec hgood htfree
  have hap' : t.addr + 1 = ap := by rw [haddr]; exact hap
  rw [hap'] at hfree
  have hperm : ((s.live.eraseP fun x => x.1 = ap).map Prod.fst).Perm ((used ts').map (· + 1)) := by
    obtain ⟨x, l1, l2, _, hx, hsplit, herase⟩ :=
      exists_of_eraseP (p := fun x : Nat × Nat => decide (x.1 = ap)) hmem (by simp)
    have hlive := hs.live
    rw [hsplit, hts, used_append, used_cons_used htfree] at hlive
    simp only [map_append, map_cons, of_decide_eq_true hx, hap'] at hlive
    rw [herase, hfreed.inUse, map_append, map_append]
    exact List.Perm.cons_inv
      ((perm_middle.symm.trans hlive).trans perm_middle)
  refine ⟨⟨h', s.live.eraseP fun x => x.1 = ap⟩, ?_, .inr ⟨ts', hfreed.good, hperm, ?_⟩⟩
  · simp only [act, hfree, Option.map_some]
  intro x hx
  obtain ⟨q, hq, hqx⟩ := mem_map.mp (hperm.subset (mem_map_of_mem hx))
  have hsize := hfreed.sizes q hq
  have hunits := hs.units x (mem_of_mem_eraseP hx)
  rw [← hqx, Nat.add_sub_cancel] at hunits ⊢
  rw [hsize]
  exact hunits

theorem SysInv.store (hs : SysInv base start s) {q : Header}
    (hok : Allowed s (.store a q)) : SysInv base start { s with heap := s.heap.set a q } := by
  obtain ⟨ap, n, hmem, hle, hlt⟩ := hok
  rcases hs with ⟨_, _, hlive⟩ | ⟨ts, hs⟩
  · rw [hlive] at hmem
    cases hmem
  obtain ⟨p, hp, hap⟩ := mem_map.mp (hs.live.subset (mem_map_of_mem hmem))
  obtain ⟨t, ht, _, haddr⟩ := mem_used.mp hp
  have hap' : ap = t.addr + 1 := by rw [haddr]; exact hap.symm
  rw [hap', Nat.add_sub_cancel, hs.good.sizes t ht] at hlt
  rw [hap'] at hle
  have hbase : a ≠ base := by
    have hbounds := hs.good.tiled.bounds ht
    have hlow := hs.good.base_lt
    omega
  have hne : ∀ z ∈ ts, z.addr ≠ a := by
    intro z hz heq
    have hzt : z ≠ t := by
      rintro rfl
      omega
    have hsize := hs.good.tiled.bounds hz
    rcases hs.good.tiled.disjoint hz ht hzt with hbelow | habove
    · omega
    · omega
  refine .inr ⟨ts, ⟨hs.good.base_lt, hs.good.tiled, hs.good.apart, ?_, ?_, ?_, hs.good.roving⟩,
    hs.live, ?_⟩
  · intro z hz
    exact (Heap.size_set_of_ne _ _ _ (hne z hz)).trans (hs.good.sizes z hz)
  · refine hs.good.linked.congr ?_
    intro v hv
    refine Heap.ptr_set_of_ne _ _ _ ?_
    rcases mem_cons.mp hv with rfl | hv
    · exact Ne.symm hbase
    · obtain ⟨z, hz, _, rfl⟩ := mem_frees.mp hv
      exact hne z hz
  · exact (Heap.size_set_of_ne _ _ _ (Ne.symm hbase)).trans hs.good.zero
  intro x hx
  obtain ⟨v, hv, hvx⟩ := mem_map.mp (hs.live.subset (mem_map_of_mem hx))
  obtain ⟨z, hz, _, rfl⟩ := mem_used.mp hv
  have hunits := hs.units x hx
  rw [← hvx, Nat.add_sub_cancel] at hunits ⊢
  rw [Heap.size_set_of_ne _ _ _ (hne z hz)]
  exact hunits

theorem SysInv.act (hbase : base < start) (hs : SysInv base start s) {l : Act} (hok : Allowed s l) :
    ∃ t, act base s l = some t ∧ SysInv base start t := by
  cases l with
  | malloc nbytes grows => exact hs.malloc hbase hok
  | free ap => exact hs.free hok
  | store a q => exact ⟨_, rfl, hs.store hok⟩

def blocks (s : Sys) (fs : List Nat) : List Nat :=
  fs ++ s.live.map fun x => x.1 - 1

/-- The heap is well formed, with the free blocks `fs`. -/
structure WellFormed (base start : Nat) (s : Sys) (fs : List Nat) : Prop where
  ring : (s.heap.freep = none ∧ fs = []) ∨
    (Linked s.heap.ptr (base :: fs ++ [base]) ∧ ∃ q ∈ base :: fs, s.heap.freep = some q)
  ascending : (base :: fs).Pairwise (· < ·)
  apart : fs.Pairwise fun p q => p + s.heap.size p < q
  enough : ∀ x ∈ s.live, x.2 ≤ 8 * (s.heap.size (x.1 - 1) - 1)
  disjoint : (blocks s fs).Pairwise fun p q => p + s.heap.size p ≤ q ∨ q + s.heap.size q ≤ p
  within : ∀ p ∈ blocks s fs, start ≤ p ∧ p + s.heap.size p ≤ s.heap.brk ∧ 0 < s.heap.size p
  cover : ∀ c, start ≤ c → c < s.heap.brk → ∃ p ∈ blocks s fs, p ≤ c ∧ c < p + s.heap.size p

theorem Owns.blocks_perm (hs : Owns base start s ts) :
    (blocks s (frees ts)).Perm (ts.map Tile.addr) := by
  have hlive : (s.live.map fun x => x.1 - 1).Perm (used ts) := by
    have hmap := hs.live.map (· - 1)
    rw [map_map, map_map] at hmap
    have hid : (used ts).map ((fun p => p - 1) ∘ fun p => p + 1) = used ts := by
      simp [Function.comp_def]
    rw [hid] at hmap
    exact hmap
  have hparts : (frees ts ++ used ts).Perm (ts.map Tile.addr) := by
    unfold frees used
    rw [← map_append]
    exact (filter_append_perm _ ts).map _
  exact (hlive.append_left _).trans hparts

theorem Owns.wellFormed (hs : Owns base start s ts) : WellFormed base start s (frees ts) := by
  have hgood := hs.good
  have hmem : ∀ p ∈ blocks s (frees ts), ∃ t ∈ ts, t.addr = p :=
    fun p hp => mem_map.mp (hs.blocks_perm.subset hp)
  refine ⟨.inr ⟨hgood.linked, hgood.roving⟩, hgood.tiled.sorted_frees hgood.base_lt, ?_, ?_, ?_, ?_,
    ?_⟩
  · have hpair := (hgood.tiled.pairwise_free hgood.apart).filter fun t => t.free
    refine pairwise_map.mpr (hpair.imp_of_mem ?_)
    intro x y hx hy hxy
    obtain ⟨hx, hxfree⟩ := mem_filter.mp hx
    obtain ⟨_, hyfree⟩ := mem_filter.mp hy
    rw [hgood.sizes x hx]
    exact hxy hxfree hyfree
  · intro x hx
    have hunits := hs.units x hx
    omega
  · refine (hs.blocks_perm.pairwise_iff ?_).mpr ?_
    · intro p q hpq
      exact hpq.symm
    · refine pairwise_map.mpr (hgood.tiled.pairwise.imp_of_mem ?_)
      intro x y hx _ hxy
      rw [hgood.sizes x hx]
      exact .inl hxy
  · intro p hp
    obtain ⟨t, ht, rfl⟩ := hmem p hp
    rw [hgood.sizes t ht]
    exact hgood.tiled.bounds ht
  · intro c hc hlt
    obtain ⟨t, ht, hin⟩ := hgood.tiled.cover hc hlt
    refine ⟨t.addr, hs.blocks_perm.symm.subset (mem_map_of_mem ht), ?_⟩
    rw [hgood.sizes t ht]
    exact hin

theorem SysInv.wellFormed (hs : SysInv base start s) : ∃ fs, WellFormed base start s fs := by
  rcases hs with ⟨hfreep, hbrk, hlive⟩ | ⟨ts, hs⟩
  · refine ⟨[], .inl ⟨hfreep, rfl⟩, pairwise_singleton _ _, List.Pairwise.nil, ?_, ?_, ?_, ?_⟩
    · rw [hlive]
      intro x hx
      cases hx
    · rw [blocks, hlive]
      exact List.Pairwise.nil
    · rw [blocks, hlive]
      intro p hp
      cases hp
    · intro c hc hlt
      omega
  · exact ⟨frees ts, hs.wellFormed⟩

/-- Every sequence of calls of `malloc` and `free` returns and leaves the heap well formed. -/
theorem heap_well_formed (hbase : base < start)
    (hmeets : Meets (act base) Allowed (init mem start) ls) :
    ∃ t, run (act base) (init mem start) ls = some t ∧ ∃ fs, WellFormed base start t fs := by
  obtain ⟨t, hrun, hinv⟩ := run_of_meets (SysInv base start)
    (fun s l hs hok => hs.act hbase hok) (.inl ⟨rfl, rfl, rfl⟩) hmeets
  exact ⟨t, hrun, hinv.wellFormed⟩

/-- A block of ten bytes is allocated and freed. -/
theorem ten_bytes_well_formed :
    ∃ t, run (act 0) (init (fun _ => ⟨0, 0⟩) 1) [.malloc 10 true, .free 4095] = some t ∧
      ∃ fs, WellFormed 0 1 t fs := by
  have hlive : (act 0 (init (fun _ => ⟨0, 0⟩) 1) (.malloc 10 true)).map Sys.live =
      some [(4095, 10)] := by
    decide +kernel
  have hsmall : 8 * ((10 + 7) / 8 + 1) < 2 ^ 31 := by decide
  refine heap_well_formed (by decide) ⟨hsmall, ?_⟩
  intro t ht
  rw [ht, Option.map_some] at hlive
  refine ⟨⟨10, ?_⟩, fun _ _ => trivial⟩
  rw [Option.some.inj hlive]
  exact mem_cons_self

/-- What `malloc` can return in any heap: a block always has the units asked for, and null means
that `sbrk` has refused a positive amount. -/
structure Returned (grows : Bool) (n : Nat) (h : Heap) (r : Heap × Option Nat) : Prop where
  null : r.2 = none → grows = false ∧ 0 < sbrkAmount n ∧ r.1 = h
  size : ∀ ap, r.2 = some ap → r.1.size (ap - 1) = n
  brk : sbrkAmount n ≤ 0 → r.1.brk ≤ h.brk

end Calls

end Xv6.User
