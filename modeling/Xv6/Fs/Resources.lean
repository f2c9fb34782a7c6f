import Xv6.Fs.Blocks

/-!
# What an operation takes from the log and from the free map

Writing records data blocks, bitmap blocks, the indirect block and the inode
block in the log header, and takes blocks from the free map, always the first one
that is not marked.  `Uses` says which ones for a program that has returned,
`Fails` for one that has stopped because one of the two has run out.
-/

namespace Xv6.Fs

open Lib Lib.Prog Log Function Finset

variable {B B' : Finset Nat} {s s' s'' s1 : State} {e : Ino} {sb : Superblock}
variable {disk disk' : Disk} {b k k' c : Nat} {x : Stop} {d : Dinode}

def freeBlocks (sb : Superblock) (disk : Disk) : List Nat :=
  (List.range sb.size).filter fun b => bitAt sb disk b = false

namespace State

def frees (s : State) : List Nat :=
  freeBlocks s.sb s.disk

/-- The number of blocks that `balloc` can hand out. -/
def free (s : State) : Nat :=
  s.frees.length

def taking (s : State) (k : Nat) : Finset Nat :=
  (s.frees.take k).toFinset ∪ (s.frees.take k).toFinset.image s.sb.BBLOCK

def logCap (s : State) : Nat :=
  min LOGSIZE (s.sb.nlog - 1)

def HasRoom (s : State) (B : Finset Nat) : Prop :=
  s.logged.length + (B \ s.logged.toFinset).card < s.logCap

instance (s : State) (B : Finset Nat) : Decidable (s.HasRoom B) :=
  inferInstanceAs (Decidable (_ < _))

theorem taking_mono (s : State) (h : k ≤ k') : s.taking k ⊆ s.taking k' := by
  have hsub : (s.frees.take k).toFinset ⊆ (s.frees.take k').toFinset := by
    intro b hb
    rw [List.mem_toFinset] at hb ⊢
    exact (List.take_prefix_take_left h).subset hb
  exact union_subset_union hsub (image_subset_image hsub)

theorem card_taking_le (s : State) (k : Nat) : (s.taking k).card ≤ 2 * k := by
  have hnew : (s.frees.take k).toFinset.card ≤ k :=
    (List.toFinset_card_le _).trans (List.length_take_le _ _)
  have himage := card_image_le (s := (s.frees.take k).toFinset) (f := s.sb.BBLOCK)
  have hunion := card_union_le (s.frees.take k).toFinset
    ((s.frees.take k).toFinset.image s.sb.BBLOCK)
  unfold taking
  omega

theorem taking_drop (hsb : s'.sb = s.sb) (h : s'.frees = s.frees.drop b) (k : Nat) :
    s'.taking k ⊆ s.taking (b + k) := by
  have hsub : (s'.frees.take k).toFinset ⊆ (s.frees.take (b + k)).toFinset := by
    intro c hc
    rw [List.mem_toFinset] at hc ⊢
    rw [h, List.take_drop] at hc
    exact List.mem_of_mem_drop hc
  unfold taking
  rw [hsb]
  exact union_subset_union hsub (image_subset_image hsub)

theorem head_mem_taking (s : State) {l : List Nat} (h : s.frees = b :: l) :
    b ∈ s.taking 1 ∧ s.sb.BBLOCK b ∈ s.taking 1 := by
  simp [taking, h]

end State

theorem freeBlocks_congr (h : ∀ b < sb.size, bitAt sb disk' b = bitAt sb disk b) :
    freeBlocks sb disk' = freeBlocks sb disk := by
  unfold freeBlocks
  apply List.filter_congr
  intro b hb
  rw [h b (List.mem_range.mp hb)]

theorem freeBlocks_take {l : List Nat} (hhead : freeBlocks sb disk = b :: l)
    (h : ∀ c < sb.size, bitAt sb disk' c = if c = b then true else bitAt sb disk c) :
    freeBlocks sb disk' = l := by
  have hnodup : (b :: l).Nodup := hhead ▸ List.nodup_range.filter _
  have hfilter : freeBlocks sb disk' = (freeBlocks sb disk).filter fun c => c ≠ b := by
    unfold freeBlocks
    rw [List.filter_filter]
    apply List.filter_congr
    intro c hc
    rw [h c (List.mem_range.mp hc)]
    by_cases hcb : c = b <;> simp [hcb]
  rw [hfilter, hhead, List.filter_cons_of_neg (by simp), List.filter_eq_self]
  intro c hc
  have hne : c ≠ b := fun hcb => (List.nodup_cons.mp hnodup).1 (hcb ▸ hc)
  simpa using hne

def Records (B : Finset Nat) (s s' : State) : Prop :=
  ∃ l, s'.logged = s.logged ++ l ∧ l.Nodup ∧ (∀ b ∈ l, b ∉ s.logged) ∧ ∀ b ∈ l, b ∈ B

namespace Records

theorem refl (B : Finset Nat) (s : State) : Records B s s :=
  ⟨[], by simp, List.nodup_nil, by simp, by simp⟩

section
variable (h : Records B s s')
include h

theorem of_logged {t : State} (ht : t.logged = s'.logged) : Records B s t := by
  obtain ⟨l, hl⟩ := h
  exact ⟨l, by rw [ht]; exact hl.1, hl.2⟩

theorem mono (hB : B ⊆ B') : Records B' s s' := by
  obtain ⟨l, heq, hnodup, hnew, hmem⟩ := h
  exact ⟨l, heq, hnodup, hnew, fun b hb => hB (hmem b hb)⟩

theorem trans (h' : Records B' s' s'') : Records (B ∪ B') s s'' := by
  obtain ⟨l, heq, hnodup, hnew, hmem⟩ := h
  obtain ⟨l', heq', hnodup', hnew', hmem'⟩ := h'
  rw [heq] at heq' hnew'
  refine ⟨l ++ l', by rw [heq', List.append_assoc], ?_, ?_, ?_⟩
  · rw [List.nodup_append]
    refine ⟨hnodup, hnodup', ?_⟩
    rintro b hb c hc rfl
    exact hnew' b hc (List.mem_append_right _ hb)
  · intro b hb
    rcases List.mem_append.mp hb with hb | hb
    · exact hnew b hb
    · exact fun hs => hnew' b hb (List.mem_append_left _ hs)
  · intro b hb
    rcases List.mem_append.mp hb with hb | hb
    · exact mem_union_left _ (hmem b hb)
    · exact mem_union_right _ (hmem' b hb)

theorem length_le :
    s'.logged.length ≤ s.logged.length + (B \ s.logged.toFinset).card := by
  obtain ⟨l, heq, hnodup, hnew, hmem⟩ := h
  have hcard : l.length ≤ (B \ s.logged.toFinset).card := by
    rw [← List.toFinset_card_of_nodup hnodup]
    apply card_le_card
    intro b hb
    have hb' := List.mem_toFinset.mp hb
    exact mem_sdiff.mpr ⟨hmem b hb', fun hs => hnew b hb' (List.mem_toFinset.mp hs)⟩
  rw [heq, List.length_append]
  omega

end

end Records

theorem records_recordBlock (b : Nat) (data : Block) (s : State) :
    Records {b} s (recordBlock b data s) := by
  by_cases hb : b ∈ s.logged
  · exact ⟨[], by simp [recordBlock, hb], List.nodup_nil, by simp, by simp⟩
  · exact ⟨[b], by simp [recordBlock, hb], List.nodup_singleton b, by simpa using hb, by simp⟩

def Dinode.indirect (d : Dinode) : Finset Nat :=
  if d.addrs 12 = 0 then ∅ else {d.addrs 12}

/-- The program has recorded blocks of `B`, and has taken at most `k` blocks from the free map. -/
structure Uses (B : Finset Nat) (k : Nat) (s s' : State) : Prop where
  sb : s'.sb = s.sb
  records : Records (B ∪ s.taking k) s s'
  free : ∃ j ≤ k, s'.frees = s.frees.drop j

structure Fails (B : Finset Nat) (k : Nat) (s : State) (x : Stop) (s' : State) : Prop where
  uses : Uses B k s s'
  why : (x = .tooBig ∧ s.logCap ≤ s'.logged.length) ∨ (x = .outOfBlocks ∧ s.free < k)

theorem Uses.refl (B : Finset Nat) (k : Nat) (s : State) : Uses B k s s :=
  ⟨rfl, Records.refl _ _, 0, Nat.zero_le k, rfl⟩

section
variable (h : Uses B k s s')
include h

theorem Uses.absorb (hB : B ⊆ B' ∪ s.taking k) : Uses B' k s s' :=
  ⟨h.sb, h.records.mono (union_subset hB subset_union_right), h.free⟩

theorem Uses.mono (hB : B ⊆ B') (hk : k ≤ k') : Uses B' k' s s' where
  sb := h.sb
  records := h.records.mono (union_subset_union hB (s.taking_mono hk))
  free := by
    obtain ⟨j, hj, hdrop⟩ := h.free
    exact ⟨j, hj.trans hk, hdrop⟩

theorem Uses.taking_subset (k' : Nat) : s'.taking k' ⊆ s.taking (k + k') := by
  obtain ⟨j, hj, hdrop⟩ := h.free
  exact (State.taking_drop h.sb hdrop k').trans (s.taking_mono (by omega))

theorem Uses.trans (h' : Uses B' k' s' s'') : Uses (B ∪ B') (k + k') s s'' where
  sb := h'.sb.trans h.sb
  records := by
    refine (h.records.trans h'.records).mono ?_
    rw [union_union_union_comm]
    exact union_subset_union (Finset.Subset.refl _)
      (union_subset (s.taking_mono (Nat.le_add_right k k')) (h.taking_subset k'))
  free := by
    obtain ⟨j, hj, hdrop⟩ := h.free
    obtain ⟨j', hj', hdrop'⟩ := h'.free
    exact ⟨j + j', by omega, by rw [hdrop', hdrop, List.drop_drop]⟩

theorem Uses.withDinode (d : Dinode) :
    Uses B k s { s' with icache := update s'.icache e { s'.icache e with d := d } } :=
  ⟨h.sb, h.records.of_logged rfl, h.free⟩

theorem Uses.logCap_eq : s'.logCap = s.logCap := by
  unfold State.logCap
  rw [h.sb]

theorem Uses.fails (h' : Fails B' k' s' x s'') : Fails (B ∪ B') (k + k') s x s'' := by
  refine ⟨h.trans h'.uses, ?_⟩
  rcases h'.why with ⟨hx, hfull⟩ | ⟨hx, hshort⟩
  · rw [h.logCap_eq] at hfull
    exact .inl ⟨hx, hfull⟩
  · obtain ⟨j, hj, hdrop⟩ := h.free
    unfold State.free at hshort ⊢
    rw [hdrop, List.length_drop] at hshort
    exact .inr ⟨hx, by omega⟩

end

theorem Fails.absorb (h : Fails B k s x s') (hB : B ⊆ B' ∪ s.taking k) : Fails B' k s x s' :=
  ⟨h.uses.absorb hB, h.why⟩

theorem Fails.mono (h : Fails B k s x s') (hB : B ⊆ B') (hk : k ≤ k') : Fails B' k' s x s' :=
  ⟨h.uses.mono hB hk, h.why.imp_right fun hshort => ⟨hshort.1, hshort.2.trans_le hk⟩⟩

theorem Fails.false_of_room (h : Fails B k s x s') (hlog : s.HasRoom (B ∪ s.taking k))
    (hfree : k ≤ s.free) : False := by
  unfold State.HasRoom at hlog
  rcases h.why with ⟨_, hfull⟩ | ⟨_, hshort⟩
  · have hlen := h.uses.records.length_le
    omega
  · omega

def allocs (N M : Nat) : Nat :=
  (M - N) + if N ≤ 12 ∧ 12 < M then 1 else 0

def LogFull (e : Stop) : Prop :=
  e = .tooBig

/-- A resource has run out. -/
def NoRoom (e : Stop) : Prop :=
  e = .tooBig ∨ e = .outOfBlocks

theorem LogFull.noRoom {e : Stop} (h : LogFull e) : NoRoom e :=
  .inl h

theorem Fails.noRoom (h : Fails B k s x s') : NoRoom x :=
  h.why.imp And.left And.left

theorem logWrite_uses (hout : 0 < s.outstanding) (b : Nat) (data : Block) :
    wp (logWrite b data) (fun _ s' => s' = recordBlock b data s)
      (fun x s' => x = .tooBig ∧ s' = s ∧ s.logCap ≤ s.logged.length) s := by
  unfold logWrite
  simp only [wp_bind, wp_get, wp_ite, wp_throw, wp_modify]
  split
  · rename_i hfull
    refine ⟨trivial, trivial, ?_⟩
    unfold State.logCap
    rcases hfull with hfull | hfull
    · exact (Nat.min_le_left _ _).trans hfull
    · exact (Nat.min_le_right _ _).trans hfull
  · rw [if_neg (by omega)]
    trivial

theorem logWrite_spec (hout : 0 < s.outstanding) (b : Nat) (data : Block) :
    wp (logWrite b data)
      (fun _ s' => ∃ lg, s' = { s with disk := setBlock s.disk b data, logged := lg })
      (fun e _ => LogFull e) s :=
  wp_mono (logWrite_uses hout b data) (fun _ _ h => ⟨_, h⟩) fun _ _ h => h.1

theorem bitAt_setBlock_data (data : Block) (hb : sb.dataStart ≤ b) (hc : c < sb.size) :
    bitAt sb (setBlock disk b data) c = bitAt sb disk c := by
  have hmap := Superblock.bblock_lt hc
  exact bitAt_congr (setBlock_of_ne _ _ (by omega))

theorem uses_recordBlock (data : Block)
    (hbits : ∀ c < s.sb.size, bitAt s.sb (setBlock s.disk b data) c = bitAt s.sb s.disk c) :
    Uses {b} 0 s (recordBlock b data s) where
  sb := rfl
  records := (records_recordBlock b data s).mono subset_union_left
  free := ⟨0, le_refl 0, freeBlocks_congr hbits⟩

theorem Uses.dataBlock (h : Uses B k s s1) (hdata : s.sb.dataStart ≤ b) (data : Block) :
    Uses (B ∪ {b}) k s (recordBlock b data s1) :=
  h.trans (uses_recordBlock data fun _ hc => bitAt_setBlock_data _ (by rw [h.sb]; exact hdata) hc)

theorem uses_putBit {l : List Nat} (hhead : s.frees = b :: l) :
    Uses ∅ 1 s (recordBlock (s.sb.BBLOCK b) (putBit s.sb s.disk b true) s) where
  sb := rfl
  records := by
    refine (records_recordBlock _ _ _).mono ?_
    rw [singleton_subset_iff, empty_union]
    exact (s.head_mem_taking hhead).2
  free := by
    refine ⟨1, le_refl 1, ?_⟩
    rw [hhead]
    exact freeBlocks_take hhead fun c _ => bitAt_put b c true

def ballocDisk (sb : Superblock) (disk : Disk) (b : Nat) : Disk :=
  setBlock (setBlock disk (sb.BBLOCK b) (putBit sb disk b true)) b zeroBlock

theorem ballocDisk_self (b : Nat) : ballocDisk sb disk b b = zeroBlock := by
  simp [ballocDisk]

theorem ballocDisk_of_ne (hcb : c ≠ b) (hc : c ≠ sb.BBLOCK b) :
    ballocDisk sb disk b c = disk c := by
  unfold ballocDisk
  rw [setBlock_of_ne _ _ hcb, setBlock_of_ne _ _ hc]

theorem bitAt_ballocDisk (hb : sb.IsData b) (hc : c < sb.size) :
    bitAt sb (ballocDisk sb disk b) c = if c = b then true else bitAt sb disk c := by
  have hne : sb.BBLOCK c ≠ b := by
    have h1 := Superblock.bblock_lt hc
    have h2 := hb.1
    omega
  have hput : bitAt sb (setBlock disk (sb.BBLOCK b) (putBit sb disk b true)) c =
      if c = b then true else bitAt sb disk c := bitAt_put b c true
  rw [← hput]
  exact bitAt_congr (setBlock_of_ne _ _ hne)

theorem balloc_uses (hout : 0 < s.outstanding)
    (hmeta : ∀ b < s.sb.dataStart, bitAt s.sb s.disk b = true) :
    wp balloc
      (fun b s' => s.sb.IsData b ∧ bitAt s.sb s.disk b = false ∧ b ∈ s.taking 1 ∧
        ∃ lg, s' = { s with disk := ballocDisk s.sb s.disk b, logged := lg } ∧ Uses ∅ 1 s s')
      (Fails ∅ 1 s) s := by
  unfold balloc
  simp only [wp_bind, wp_get]
  have hlist : s.frees.head? = (List.range s.sb.size).find? fun b => bitAt s.sb s.disk b = false :=
    List.head?_filter
  rw [← hlist]
  cases hfrees : s.frees with
  | nil =>
    have hnone : s.free = 0 := by
      unfold State.free
      rw [hfrees]
      rfl
    exact ⟨Uses.refl ∅ 1 s, .inr ⟨rfl, by omega⟩⟩
  | cons b l =>
    have hmem : b ∈ s.frees := hfrees ▸ List.mem_cons_self
    obtain ⟨hlt, hbit⟩ := List.mem_filter.mp hmem
    have hfree : bitAt s.sb s.disk b = false := of_decide_eq_true hbit
    have hdata : s.sb.IsData b := by
      refine ⟨?_, List.mem_range.mp hlt⟩
      by_contra hlow
      rw [hmeta b (by omega)] at hfree
      cases hfree
    have htaking := (s.head_mem_taking hfrees).1
    simp only [List.head?_cons, wp_bind]
    refine wp_mono (logWrite_uses hout _ _) ?_ ?_
    · rintro _ t rfl
      have hput := uses_putBit hfrees
      unfold bzero
      refine wp_mono (logWrite_uses (by exact hout) _ _) ?_ ?_
      · rintro _ t rfl
        refine ⟨hdata, hfree, htaking, _, rfl, (hput.dataBlock hdata.1 zeroBlock).absorb ?_⟩
        rw [empty_union, empty_union]
        exact singleton_subset_iff.mpr htaking
      · rintro x t ⟨rfl, rfl, hfull⟩
        exact ⟨hput, .inl ⟨rfl, hfull⟩⟩
    · rintro x t ⟨rfl, rfl, hfull⟩
      exact ⟨Uses.refl ∅ 1 t, .inl ⟨rfl, hfull⟩⟩

theorem bfree_spec (hout : 0 < s.outstanding) (hb : bitAt s.sb s.disk b = true) :
    wp (bfree b)
      (fun _ s' => ∃ lg, s' =
        { s with
          disk := setBlock s.disk (s.sb.BBLOCK b) (putBit s.sb s.disk b false), logged := lg })
      (fun e _ => LogFull e) s := by
  unfold bfree
  simp only [wp_bind, wp_get, wp_ite, wp_throw]
  rw [if_neg (by simp [hb])]
  exact logWrite_spec hout _ _

end Xv6.Fs
