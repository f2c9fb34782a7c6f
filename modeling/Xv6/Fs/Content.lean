import Xv6.Fs.Bmap

/-!
# Reading and writing the contents of an inode

The loops of `readi` and `writei` over the blocks of one inode.  For an inode
without holes, reading allocates nothing and leaves the state as it is, and
writing replaces the bytes and appends blocks as they are needed.
-/

namespace Xv6.Fs

open Lib Lib.Prog Log List

variable {g g' : Nat → UInt8} {s s' : State} {e : Ino} {N bn off n i m off' M' : Nat}
variable {sb : Superblock} {disk disk' : Disk} {U : Set Nat} {d d' : Dinode} {src : List UInt8}

/-- The blocks that `n` bytes need. -/
def blocksFor (n : Nat) : Nat :=
  (n + 511) / 512

def bytesFrom (g : Nat → UInt8) (off n : Nat) : List UInt8 :=
  (List.range n).map fun i => g (off + i)

@[simp] theorem length_bytesFrom (off n : Nat) : (bytesFrom g off n).length = n := by
  simp [bytesFrom]

theorem bytesFrom_zero (off : Nat) : bytesFrom g off 0 = [] := by
  rfl

theorem bytesFrom_add (off m n : Nat) :
    bytesFrom g off (m + n) = bytesFrom g off m ++ bytesFrom g (off + m) n := by
  unfold bytesFrom
  rw [range_add, map_append, map_map]
  congr 1
  apply map_congr_left
  intro i _
  simp [Nat.add_assoc]

theorem bytesFrom_congr (h : ∀ i < n, g (off + i) = g' (off' + i)) :
    bytesFrom g off n = bytesFrom g' off' n := by
  apply map_congr_left
  intro i hi
  exact h i (mem_range.mp hi)

theorem getD_bytesFrom (hi : i < n) : (bytesFrom g off n).getD i 0 = g (off + i) := by
  simp [bytesFrom, getD_eq_getElem?_getD, List.getElem?_range hi]

theorem bytesFrom_drop_take {size : Nat} (h : off + n ≤ size) :
    ((bytesFrom g 0 size).drop off).take n = bytesFrom g off n := by
  apply ext_getElem
  · simp
    omega
  · intro i hi hi'
    simp [bytesFrom]

theorem byteAt_in_block {disk : Disk}
    (hne : d.baddr disk (off / 512) ≠ 0) (hi : off % 512 + i < 512) :
    d.byteAt disk (off + i) = getByte (disk (d.baddr disk (off / 512))) (off % 512 + i) := by
  have hdiv : (off + i) / 512 = off / 512 := by omega
  have hmod : (off + i) % 512 = off % 512 + i := by omega
  unfold Dinode.byteAt
  rw [hdiv, hmod, if_neg hne]

theorem readLoop_spec {E : Stop → State → Prop} (ht : (s.icache e).d.type ≠ 0)
    (h : (s.icache e).d.Shape s.disk N) (fuel off n : Nat) (hfuel : n ≤ fuel)
    (hn : off + n ≤ 512 * N) :
    wp (readLoop e fuel off n)
      (fun l s' => s' = s ∧ l = bytesFrom ((s.icache e).d.byteAt s.disk) off n) E s := by
  induction fuel generalizing off n with
  | zero =>
    have h0 : n = 0 := by omega
    subst h0
    exact ⟨rfl, rfl⟩
  | succ fuel ih =>
    unfold readLoop
    rw [wp_ite]
    by_cases h0 : n = 0
    · subst h0
      rw [if_pos rfl]
      exact ⟨rfl, rfl⟩
    rw [if_neg h0]
    have hbn : off / 512 < N := by omega
    have hle := h.le
    have hne := (h.block (off / 512) (by omega)).mpr hbn
    simp only [wp_bind]
    refine wp_post (bmap_of_lt ht h hbn) ?_
    rintro _ _ ⟨rfl, rfl⟩
    unfold bread
    simp only [wp_bind, wp_get, wp_pure]
    have hm : min n (512 - off % 512) ≤ n := Nat.min_le_left _ _
    have hm' : min n (512 - off % 512) ≤ 512 - off % 512 := Nat.min_le_right _ _
    have hpos : 0 < min n (512 - off % 512) := by
      have := Nat.mod_lt off (show 0 < 512 by omega)
      omega
    generalize min n (512 - off % 512) = m at hm hm' hpos ⊢
    refine wp_post (ih (off + m) (n - m) (by omega) (by omega)) ?_
    rintro l t ⟨rfl, rfl⟩
    refine ⟨rfl, ?_⟩
    have hsplit : n = m + (n - m) := by omega
    conv_rhs => rw [hsplit, bytesFrom_add]
    congr 1
    apply map_congr_left
    intro i hi
    have hi' := mem_range.mp hi
    exact (byteAt_in_block hne (by omega)).symm

section
variable (h : Local sb disk U d N)
include h

theorem Local.held_setBlock (hne : d.baddr disk bn ≠ 0)
    (data : Block) (k : Nat) : d.held (setBlock disk (d.baddr disk bn) data) k = d.held disk k := by
  apply Dinode.held_congr
  intro h12
  apply setBlock_of_ne
  intro heq
  rw [← Dinode.held_twelve h.alloc disk] at heq
  exact Dinode.pos_ne bn (h.own.inj _ _ hne heq.symm)

theorem Local.setBlock (hok : sb.Ok) (hne : d.baddr disk bn ≠ 0)
    (data : Block) : Local sb (setBlock disk (d.baddr disk bn) data) U d N := by
  have hheld := h.held_setBlock hne data
  have hdata : sb.dataStart ≤ d.baddr disk bn := (h.own.region _ hne).1
  refine ⟨⟨?_, h.rest, ?_, h.fits, h.alloc⟩, h.shape.congr hheld rfl⟩
  · refine h.own.congr hheld ?_
    intro c hc
    exact bitAt_setBlock_data data hdata hc.2
  · intro c hc
    have hle := hok.data
    rw [bitAt_setBlock_data data hdata (by omega)]
    exact h.metaBits c hc

theorem Local.keeps_setBlock (hne : d.baddr disk bn ≠ 0) (data : Block) :
    Keeps sb U disk (Fs.setBlock disk (d.baddr disk bn) data) := by
  intro c hc
  apply setBlock_of_ne
  rintro rfl
  have hdata := (h.own.region _ hne).1
  have hstart := Superblock.bmapstart_lt sb
  rcases hc with hc | hc
  · unfold Dinode.baddr at hc
    omega
  · exact h.own.apart _ hne hc

theorem Local.byteAt_setBlock (hne : d.baddr disk bn ≠ 0) (data : Block) (o : Nat) :
    d.byteAt (Fs.setBlock disk (d.baddr disk bn) data) o =
      if o / 512 = bn then getByte data (o % 512) else d.byteAt disk o := by
  have hbaddr : ∀ k, d.baddr (Fs.setBlock disk (d.baddr disk bn) data) k = d.baddr disk k :=
    fun k => h.held_setBlock hne data _
  unfold Dinode.byteAt
  rw [hbaddr]
  by_cases hbn : o / 512 = bn
  · subst hbn
    rw [if_neg hne, if_pos rfl, setBlock_self]
  · rw [if_neg hbn]
    by_cases h0 : d.baddr disk (o / 512) = 0
    · rw [if_pos h0, if_pos h0]
    · rw [if_neg h0, if_neg h0, setBlock_of_ne]
      intro heq
      exact hbn (Dinode.pos_inj (h.own.inj _ _ h0 heq))

end

def writeAt (g : Nat → UInt8) (off : Nat) (src : List UInt8) : Nat → UInt8 :=
  fun o => if off ≤ o ∧ o < off + src.length then src.getD (o - off) 0 else g o

theorem writeAt_nil (g : Nat → UInt8) (off o : Nat) : writeAt g off [] o = g o := by
  unfold writeAt
  rw [if_neg (by simp)]

theorem Stored.nil (h : Local s.sb s.disk U (s.icache e).d N) (hoff : off ≤ 512 * N) :
    Stored U e (max N (blocksFor (off + ([] : List UInt8).length)))
      (writeAt ((s.icache e).d.byteAt s.disk) off []) s s := by
  refine (Stored.refl h).congr ?_ fun o => (writeAt_nil _ off o).symm
  simp only [blocksFor, length_nil]
  omega

theorem writeAt_split (g : Nat → UInt8) (off : Nat) (src : List UInt8)
    (hm : m ≤ src.length) (o : Nat) :
    writeAt (writeAt g off (src.take m)) (off + m) (src.drop m) o = writeAt g off src o := by
  unfold writeAt
  simp only [length_drop, length_take, Nat.min_eq_left hm]
  by_cases h1 : off + m ≤ o ∧ o < off + m + (src.length - m)
  · rw [if_pos h1, if_pos (by omega)]
    simp only [getD_eq_getElem?_getD, List.getElem?_drop]
    congr 2
    omega
  · rw [if_neg h1]
    by_cases h2 : off ≤ o ∧ o < off + m
    · rw [if_pos h2, if_pos (by omega)]
      simp only [getD_eq_getElem?_getD]
      rw [List.getElem?_take_of_lt (by omega)]
    · rw [if_neg h2, if_neg (by omega)]

/-- The indirect block, if the contents grow beyond `N` blocks. -/
def Dinode.grows (d : Dinode) (N M : Nat) : Finset Nat :=
  if N < M then d.indirect else ∅

/-- The blocks of an inode with `N` of them that are recorded when `t` blocks from `off` on are
written and the inode is to have `M` blocks. -/
def Dinode.rewrites (d : Dinode) (disk : Disk) (N M off t : Nat) : Finset Nat :=
  (Finset.Ico (off / 512) (min N (off / 512 + t))).image (d.baddr disk) ∪ d.grows N M

theorem Dinode.grows_subset {M : Nat} (d : Dinode) (disk : Disk) (off : Nat) (hM : M ≤ M') :
    d.grows N M ⊆ d.rewrites disk N M' off n := by
  refine Finset.Subset.trans ?_ Finset.subset_union_right
  unfold grows
  by_cases h : N < M
  · rw [if_pos h, if_pos (by omega)]
  · rw [if_neg h]
    exact Finset.empty_subset _

theorem Dinode.mem_rewrites (d : Dinode) (disk : Disk) (n : Nat) (h : off / 512 < N) :
    d.baddr disk (off / 512) ∈ d.rewrites disk N M' off (n + 1) :=
  Finset.mem_union_left _ (Finset.mem_image_of_mem _ (Finset.mem_Ico.mpr (by omega)))

theorem Dinode.rewrites_step {T : Finset Nat} (hsame : ∀ i < N, d'.baddr disk' i = d.baddr disk i)
    (hind : d'.indirect ⊆ d.indirect ∪ T) (hm : n = 0 ∨ (off + m) / 512 = off / 512 + 1) :
    d'.rewrites disk' (max N (off / 512 + 1)) M' (off + m) n ⊆
      d.rewrites disk N M' off (n + 1) ∪ T := by
  apply Finset.union_subset
  · intro b hb
    obtain ⟨i, hi, rfl⟩ := Finset.mem_image.mp hb
    rw [Finset.mem_Ico] at hi
    have hiN : off / 512 ≤ i ∧ i < N ∧ i < off / 512 + (n + 1) := by omega
    rw [hsame i hiN.2.1]
    refine Finset.mem_union_left _ (Finset.mem_union_left _ (Finset.mem_image_of_mem _ ?_))
    exact Finset.mem_Ico.mpr (by omega)
  · unfold grows
    by_cases hM : max N (off / 512 + 1) < M'
    · rw [if_pos hM]
      refine hind.trans (Finset.union_subset_union_left ?_)
      unfold rewrites grows
      rw [if_pos (by omega)]
      exact Finset.subset_union_right
    · rw [if_neg hM]
      exact Finset.empty_subset _

theorem bmap_spec (bn : Nat) (hok : s.sb.Ok) (hout : 0 < s.outstanding)
    (h : Local s.sb s.disk U (s.icache e).d N) (hbn : bn ≤ N) (hlt : bn < 140) :
    wp (bmap e bn)
      (AtBlock U e (max N (bn + 1)) bn (allocs N (bn + 1)) ((s.icache e).d.grows N (bn + 1)) s)
      (Fails ((s.icache e).d.grows N (bn + 1)) (allocs N (bn + 1)) s) s := by
  unfold Dinode.grows
  by_cases hnew : bn = N
  · subst hnew
    rw [Nat.max_eq_right (by omega), if_pos (by omega)]
    exact bmap_grow hok hout h hlt
  · refine wp_post (bmap_of_lt h.alloc h.shape (by omega)) ?_
    rintro b t ⟨rfl, rfl⟩
    rw [Nat.max_eq_left (by omega)]
    exact ⟨Stored.refl h, rfl, Uses.refl _ _ t, .inl rfl, Finset.subset_union_left⟩

theorem Became.write
    (hok : sb.Ok) (h : Became sb U N g disk d disk' d') (hne : d'.baddr disk' (off / 512) ≠ 0)
    (hm : m ≤ src.length) (hm' : m ≤ 512 - off % 512) :
    Became sb U N (writeAt g off (src.take m)) disk d
      (setBlock disk' (d'.baddr disk' (off / 512))
        (blit (disk' (d'.baddr disk' (off / 512))) (off % 512) m fun i => src.getD i 0)) d' where
  keeps := h.keeps.trans (h.loc.keeps_setBlock hne _)
  fields := h.fields
  loc := h.loc.setBlock hok hne _
  bytes := by
    intro o
    rw [h.loc.byteAt_setBlock hne, h.bytes o]
    unfold writeAt
    rw [length_take, Nat.min_eq_left hm]
    have hmod := Nat.mod_lt off (show 0 < 512 by omega)
    by_cases hblock : o / 512 = off / 512
    · rw [if_pos hblock, getByte_blit (by simp only [BSIZE]; omega)]
      by_cases hin : off ≤ o ∧ o < off + m
      · rw [if_pos (by omega), if_pos hin]
        simp only [getD_eq_getElem?_getD]
        rw [List.getElem?_take_of_lt (by omega)]
        congr 2
        omega
      · rw [if_neg (by omega), if_neg hin, ← h.bytes o]
        unfold Dinode.byteAt
        rw [hblock, if_neg hne]
    · rw [if_neg hblock, if_neg (by omega)]
  stays := by
    intro k hk
    rw [h.loc.held_setBlock hne]
    exact h.stays k hk

theorem Stored.write (hok : s.sb.Ok) (h : Stored U e N g s s')
    (hne : (s'.icache e).d.baddr s'.disk (off / 512) ≠ 0)
    (hm : m ≤ src.length) (hm' : m ≤ 512 - off % 512) :
    Stored U e N (writeAt g off (src.take m)) s
      (recordBlock ((s'.icache e).d.baddr s'.disk (off / 512))
        (blit (s'.disk ((s'.icache e).d.baddr s'.disk (off / 512))) (off % 512) m
          fun i => src.getD i 0) s') := by
  refine ⟨h.toBecame.write hok hne hm hm', ?_⟩
  rw [← State.upd_of_eq h.state]
  exact State.with_disk s' _ _ e

def touched (off n : Nat) : Nat :=
  if n = 0 then 0 else blocksFor (off + n) - off / 512

theorem touched_turn (off : Nat) (hn : 0 < n) :
    touched off n =
      touched (off + min n (512 - off % 512)) (n - min n (512 - off % 512)) + 1 := by
  unfold touched blocksFor
  rw [if_neg (by omega)]
  by_cases hlast : n ≤ 512 - off % 512
  · rw [Nat.min_eq_left hlast, if_pos (by omega)]
    omega
  · rw [Nat.min_eq_right (by omega), if_neg (by omega)]
    omega

theorem allocs_add {M : Nat} (hM : M ≤ N + 1) (hle : M ≤ M') :
    allocs N M + allocs (max N M) M' = allocs N M' := by
  unfold allocs
  by_cases hgrow : M ≤ N
  · rw [Nat.max_eq_left hgrow, if_neg (by omega)]
    omega
  have hM' : M = N + 1 := by omega
  subst hM'
  rw [Nat.max_eq_right (by omega)]
  by_cases h12 : N = 12
  · subst h12
    rw [if_pos (by omega), if_neg (by omega), if_pos (by omega)]
    omega
  · rw [if_neg (by omega)]
    by_cases hcross : N ≤ 12 ∧ 12 < M'
    · rw [if_pos (by omega), if_pos hcross]
      omega
    · rw [if_neg (by omega), if_neg hcross]
      omega

theorem writeLoop_spec (fuel off : Nat) (src : List UInt8) (hok : s.sb.Ok)
    (hout : 0 < s.outstanding) (h : Local s.sb s.disk U (s.icache e).d N)
    (hfuel : src.length ≤ fuel) (hoff : off ≤ 512 * N) (hmax : off + src.length ≤ 140 * 512) :
    wp (writeLoop e fuel off src)
      (fun _ s' => Stored U e (max N (blocksFor (off + src.length)))
          (writeAt ((s.icache e).d.byteAt s.disk) off src) s s' ∧
        Uses ((s.icache e).d.rewrites s.disk N (blocksFor (off + src.length)) off
            (touched off src.length))
          (allocs N (blocksFor (off + src.length))) s s')
      (fun x s' => 0 < src.length ∧
        Fails ((s.icache e).d.rewrites s.disk N (blocksFor (off + src.length)) off
            (touched off src.length - 1))
          (allocs N (blocksFor (off + src.length))) s x s') s := by
  induction fuel generalizing s off src N with
  | zero =>
    have hnil : src = [] := length_eq_zero_iff.mp (by omega)
    subst hnil
    exact ⟨Stored.nil h hoff, Uses.refl _ _ s⟩
  | succ fuel ih =>
    unfold writeLoop
    rw [wp_ite]
    by_cases hnil : src = []
    · subst hnil
      rw [if_pos rfl]
      exact ⟨Stored.nil h hoff, Uses.refl _ _ s⟩
    rw [if_neg hnil]
    have hlen : 0 < src.length := length_pos_iff.mpr hnil
    have hturn := touched_turn off hlen
    have hblocks : off / 512 + 1 ≤ blocksFor (off + src.length) := by
      unfold blocksFor
      omega
    have hadd := allocs_add (N := N) (show off / 512 + 1 ≤ N + 1 by omega) hblocks
    have hgrows : ∀ t, (s.icache e).d.grows N (off / 512 + 1) ⊆
        (s.icache e).d.rewrites s.disk N (blocksFor (off + src.length)) off t :=
      fun _ => Dinode.grows_subset _ _ off hblocks
    simp only [wp_bind]
    refine wp_mono (bmap_spec (off / 512) hok hout h (by omega) (by omega)) ?_
      fun _ _ he => ⟨hlen, he.mono (hgrows _) (by omega)⟩
    rintro _ s1 ⟨h1, rfl, huses1, hblock, hind⟩
    have hne := (h1.loc.shape.block (off / 512) (by omega)).mpr (by omega)
    have hdata : s.sb.dataStart ≤ (s1.icache e).d.baddr s1.disk (off / 512) :=
      (h1.loc.own.region _ hne).1
    unfold bread
    simp only [wp_bind, wp_get, wp_pure]
    refine wp_mono (logWrite_uses (by rw [h1.outstanding_eq]; exact hout) _ _) ?_ ?_
    · rintro _ s2 rfl
      have hm : min src.length (512 - off % 512) ≤ src.length := Nat.min_le_left _ _
      have hm' : min src.length (512 - off % 512) ≤ 512 - off % 512 := Nat.min_le_right _ _
      have hpos : 0 < min src.length (512 - off % 512) := by
        have := Nat.mod_lt off (show 0 < 512 by omega)
        omega
      have hlast : min src.length (512 - off % 512) = src.length ∨
          (off + min src.length (512 - off % 512)) / 512 = off / 512 + 1 := by omega
      generalize min src.length (512 - off % 512) = m at hm hm' hpos hturn hlast ⊢
      have h2 := h1.write hok hne hm hm'
      have huses2 := huses1.dataBlock hdata
        (blit (s1.disk ((s1.icache e).d.baddr s1.disk (off / 512))) (off % 512) m
          fun i => src.getD i 0)
      have hlen' : off + m + (src.drop m).length = off + src.length := by
        rw [length_drop]
        omega
      have hrest := ih (N := max N (off / 512 + 1)) (off + m) (src.drop m)
        (by rw [h2.sb_eq]; exact hok) (by rw [h2.outstanding_eq]; exact hout)
        (by rw [h2.sb_eq]; exact h2.loc) (by rw [length_drop]; omega) (by omega) (by omega)
      rw [hlen', length_drop] at hrest
      -- all that is recorded after this turn counts as recorded from the first block on
      have hcover : ∀ t, t = 0 ∨ (off + m) / 512 = off / 512 + 1 → ∀ k,
          (s.icache e).d.grows N (off / 512 + 1) ∪ {(s1.icache e).d.baddr s1.disk (off / 512)} ∪
              (s1.icache e).d.rewrites (setBlock s1.disk ((s1.icache e).d.baddr s1.disk (off / 512))
                (blit (s1.disk ((s1.icache e).d.baddr s1.disk (off / 512))) (off % 512) m
                  fun i => src.getD i 0)) (max N (off / 512 + 1)) (blocksFor (off + src.length))
                (off + m) t ⊆
            (s.icache e).d.rewrites s.disk N (blocksFor (off + src.length)) off (t + 1) ∪
              s.taking (allocs N (off / 512 + 1) + k) := by
        intro t ht k
        have htaking := Finset.union_subset_union_right
          (s := (s.icache e).d.rewrites s.disk N (blocksFor (off + src.length)) off (t + 1))
          (s.taking_mono (Nat.le_add_right (allocs N (off / 512 + 1)) k))
        refine Finset.Subset.trans (Finset.union_subset (Finset.union_subset ?_ ?_) ?_) htaking
        · exact (hgrows _).trans Finset.subset_union_left
        · rw [Finset.singleton_subset_iff]
          rcases hblock with hold | hnew
          · have hbn : off / 512 < N := (h.shape.block _ (by omega)).mp (by rw [hold]; exact hne)
            rw [← hold]
            exact Finset.mem_union_left _ (Dinode.mem_rewrites _ _ t hbn)
          · exact Finset.mem_union_right _ hnew
        · refine Dinode.rewrites_step (fun i hi => h2.stays _ ?_) hind ht
          have hle := h.shape.le
          exact (h.shape.block i (by omega)).mpr hi
      refine wp_mono hrest ?_ ?_
      · rintro _ s3 ⟨h3, huses3⟩
        have huses := (huses2.trans huses3).absorb (hcover _ (by unfold touched; split <;> omega) _)
        rw [hadd, ← hturn] at huses
        refine ⟨(h2.trans h3).congr (by omega) ?_, huses⟩
        intro o
        rw [← writeAt_split _ off src hm o]
        unfold writeAt
        simp only [h2.bytes]
        rfl
      · rintro x s3 ⟨hmore, hfails⟩
        have hfails' := (huses2.fails hfails).absorb (hcover _ (by omega) _)
        have hpos' : 0 < touched (off + m) (src.length - m) := by
          unfold touched blocksFor
          rw [if_neg (by omega)]
          omega
        rw [hadd] at hfails'
        rw [hturn, Nat.add_sub_cancel]
        rw [Nat.sub_add_cancel hpos'] at hfails'
        exact ⟨hlen, hfails'⟩
    · rintro x t ⟨rfl, rfl, hfull⟩
      rw [huses1.logCap_eq] at hfull
      exact ⟨hlen, huses1.mono (hgrows _) (by omega), .inl ⟨rfl, hfull⟩⟩

end Xv6.Fs
