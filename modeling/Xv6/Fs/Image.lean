import Xv6.Fs.Update

/-!
# The node that an inode in memory stands for

The copy of a disk inode in the cache and the blocks that it names make up a node.
`readi` and `writei` on it need nothing of the other inodes but that they hold
other blocks.
-/

namespace Xv6.Fs

open Lib Lib.Prog Log Ptable

variable {s : State} {a : Ino} {E : Stop → State → Prop} {U : Set Nat} {k off : Nat}
variable {test : Dirent → Bool} {name : Str} {src : List UInt8}

/-- The node that the inode in entry `a` stands for. -/
def State.image (s : State) (a : Ino) : Node :=
  (s.icache a).d.node s.disk

theorem State.length_image_data (s : State) (a : Ino) :
    (s.image a).data.length = (s.icache a).d.size := by
  unfold image Dinode.node
  simp

theorem readi_image (ht : (s.icache a).d.type ≠ 0) (hdev : (s.icache a).d.type ≠ T_DEV)
    (hshape : (s.icache a).d.Shape s.disk (blocksFor (s.icache a).d.size)) (off n : Nat) :
    wp (readi a off n)
      (fun r s' => s' = s ∧
        r = if (s.image a).data.length < off ∨ (off + n) % 2 ^ 32 < off then none
          else some (((s.image a).data.drop off).take n)) E s := by
  rw [State.length_image_data]
  unfold readi
  rw [wp_bind, wp_get, if_neg hdev, wp_ite]
  by_cases hbad : (s.icache a).d.size < off ∨ (off + n) % 2 ^ 32 < off
  · rw [if_pos hbad, if_pos hbad]
    exact ⟨rfl, rfl⟩
  rw [if_neg hbad, if_neg hbad, wp_bind]
  have hsize : (s.icache a).d.size ≤ 512 * blocksFor (s.icache a).d.size := by
    unfold blocksFor
    omega
  refine wp_post (readLoop_spec ht hshape _ off _ (le_refl _) (by omega)) ?_
  rintro l s ⟨rfl, rfl⟩
  refine ⟨rfl, ?_⟩
  have hdata : (s.image a).data =
      bytesFrom ((s.icache a).d.byteAt s.disk) 0 (s.icache a).d.size := rfl
  have hlen : ((s.image a).data.drop off).length = (s.icache a).d.size - off := by
    rw [List.length_drop, State.length_image_data]
  rw [← bytesFrom_drop_take
      (show off + min n ((s.icache a).d.size - off) ≤ (s.icache a).d.size by omega),
    ← hdata, ← hlen, ← List.take_eq_take_min]

theorem size_le_of_shape {d : Dinode} {disk : Disk} (h : d.Shape disk (blocksFor d.size)) :
    d.size ≤ 71680 := by
  have hle := h.le
  unfold blocksFor at hle
  omega

section
variable (ht : (s.icache a).d.type = T_DIR)
  (hshape : (s.icache a).d.Shape s.disk (blocksFor (s.icache a).d.size))
include ht hshape

theorem readi_image_entry (hk : k < (s.image a).count) :
    wp (readi a (16 * k) 16)
      (fun r s' => s' = s ∧ ∃ l, r = some l ∧ l.length = 16 ∧
        Dirent.decode (fun i => l.getD i 0) = (s.image a).entry k) E s := by
  refine wp_post (readi_image (by rw [ht]; decide) (by rw [ht]; decide) hshape (16 * k) 16) ?_
  rintro r s ⟨rfl, rfl⟩
  have hlen := State.length_image_data s a
  have hsize := size_le_of_shape hshape
  unfold Node.count at hk
  generalize s.image a = f at *
  refine ⟨rfl, (f.data.drop (16 * k)).take 16, ?_, ?_, ?_⟩
  · rw [if_neg (by omega)]
  · simp only [List.length_take, List.length_drop]
    omega
  · unfold Node.entry
    apply Dirent.decode_congr
    intro r hr
    simp only [List.getD_eq_getElem?_getD]
    rw [List.getElem?_take_of_lt hr, List.getElem?_drop]

theorem dirScan_image {short : Stop}
    (h16 : 16 ∣ (s.icache a).d.size) (fuel k : Nat) (hfuel : (s.image a).count - k ≤ fuel) :
    wp (dirScan short a test fuel (16 * k))
      (fun r s' => s' = s ∧
        r = ((List.range' k ((s.image a).count - k)).find? fun j =>
          test ((s.image a).entry j)).map fun j => (16 * j, (s.image a).entry j)) E s := by
  have hlen := State.length_image_data s a
  induction fuel generalizing k with
  | zero =>
    have h0 : (s.image a).count - k = 0 := by omega
    rw [h0]
    exact ⟨rfl, rfl⟩
  | succ fuel ih =>
    unfold dirScan
    rw [wp_bind, wp_get, wp_ite]
    by_cases hend : (s.icache a).d.size ≤ 16 * k
    · have h0 : (s.image a).count - k = 0 := by
        unfold Node.count
        omega
      rw [if_pos hend, h0]
      exact ⟨rfl, rfl⟩
    have hk : k < (s.image a).count := by
      unfold Node.count
      omega
    have hrange : (s.image a).count - k = ((s.image a).count - (k + 1)) + 1 := by omega
    rw [if_neg hend]
    refine wp_seq (readi_image_entry ht hshape hk) ?_
    rintro _ s ⟨rfl, l, rfl, hl, hentry⟩
    simp only [wp_ite, hentry]
    rw [if_neg (by omega), hrange, List.range'_succ]
    by_cases htest : test ((s.image a).entry k) = true
    · rw [if_pos htest, List.find?_cons_of_pos (by exact htest)]
      exact ⟨rfl, rfl⟩
    · rw [if_neg htest, List.find?_cons_of_neg (by exact htest)]
      exact ih (k + 1) (by omega)

end

structure IsDir (s : State) (a : Ino) : Prop where
  type : (s.icache a).d.type = T_DIR
  shape : (s.icache a).d.Shape s.disk (blocksFor (s.icache a).d.size)
  whole : 16 ∣ (s.icache a).d.size

theorem IsDir.wp_dirScan {short : Stop} {Q : Option (Nat × Dirent) → State → Prop}
    (h : IsDir s a) (hoff : off = 16 * k) :
    wp (dirScan short a test ((s.icache a).d.size + 1) off) Q E s ↔
      Q (((List.range' k ((s.image a).count - k)).find? fun j => test ((s.image a).entry j)).map
        fun j => (16 * j, (s.image a).entry j)) s := by
  have hlen := State.length_image_data s a
  have hscan : wp (dirScan short a test ((s.icache a).d.size + 1) (16 * k)) _
      (fun _ _ => False) s :=
    dirScan_image h.type h.shape h.whole _ k (by unfold Node.count; omega)
  obtain ⟨r, t, hrun, rfl, rfl⟩ := exists_ok hscan fun _ _ he => he
  unfold wp
  rw [hoff, hrun]

theorem IsDir.wp_dirlookup {Q : Option (Nat × Ino) → State → Prop} (h : IsDir s a) :
    wp (dirlookup a name) Q E s ↔
      match (s.image a).lookup name with
      | none => Q none s
      | some k => wp (iget ((s.image a).entry k).inum) (fun b => Q (some (16 * k, b))) E s := by
  unfold dirlookup
  rw [wp_bind, wp_get, if_neg (by simp [h.type]), wp_bind, h.wp_dirScan (k := 0) rfl,
    Nat.sub_zero, ← List.range_eq_range']
  unfold Node.lookup
  cases (List.range (s.image a).count).find? fun k =>
      decide (((s.image a).entry k).inum ≠ 0 ∧ namecmp name ((s.image a).entry k).name = 0) with
  | none => exact Iff.rfl
  | some k => simp only [Option.map_some, wp_bind, wp_pure]

theorem IsDir.wp_dirlink {i : Nat} {Q : Int → State → Prop} (h : IsDir s a) :
    wp (dirlink a name i) Q E s ↔
      match (s.image a).lookup name with
      | none => wp (dirlinkAt a (16 * (s.image a).slot) name i) Q E s
      | some k =>
        wp (iget ((s.image a).entry k).inum) (fun b => wp (iput b) (fun _ => Q (-1)) E) E s := by
  unfold dirlink
  rw [wp_bind, h.wp_dirlookup]
  cases (s.image a).lookup name with
  | some k => simp only [wp_bind, wp_pure]
  | none =>
    simp only [wp_bind, wp_get]
    rw [h.wp_dirScan (k := 0) rfl, Nat.sub_zero, ← List.range_eq_range']
    unfold Node.slot
    cases (List.range (s.image a).count).find? fun k =>
        decide (((s.image a).entry k).inum = 0) with
    | some k => exact Iff.rfl
    | none =>
      have hend : (s.icache a).d.dirEnd = 16 * (s.image a).count := by
        have hlen := State.length_image_data s a
        have hwhole := h.whole
        unfold Dinode.dirEnd Node.count
        omega
      simp only [Option.map_none, Option.getD_none]
      rw [hend]

structure Wrote (U : Set Nat) (a : Ino) (off : Nat) (src : List UInt8) (s s' : State) : Prop where
  state : s' = s.upd s'.disk s'.logged a (s'.icache a).d
  loc : Local s.sb s'.disk U (s'.icache a).d (blocksFor (s'.icache a).d.size)
  image : s'.image a = (s.image a).write off src
  same : ∀ c ∈ U, s.sb.bmapstart ≤ c → s'.disk c = s.disk c
  others : ∀ j, j ≠ (s.icache a).inum → inodeAt s.sb s'.disk j = inodeAt s.sb s.disk j
  self : inodeAt s.sb s.disk (s.icache a).inum = (s.icache a).d →
    inodeAt s.sb s'.disk (s.icache a).inum = (s'.icache a).d

theorem Stored.image_write {N : Nat} {s1 : State}
    (h : Stored U a N (writeAt ((s.icache a).d.byteAt s.disk) off src) s s1)
    (d : Dinode) (disk : Disk) (hbytes : ∀ o, d.byteAt disk o = (s1.icache a).d.byteAt s1.disk o)
    (hfields : d = { (s1.icache a).d with size := max (s.icache a).d.size (off + src.length) })
    (hoff : off ≤ (s.icache a).d.size) : d.node disk = (s.image a).write off src := by
  have hdata : bytesFrom (d.byteAt disk) 0 d.size =
      (((s.icache a).d.node s.disk).write off src).data :=
    node_write_data d.size (fun o => (hbytes o).trans (h.bytes o)) hoff (by rw [hfields])
  have hsame := h.fields
  unfold Dinode.node State.image
  rw [hdata, hfields, hsame]
  rfl

theorem writei_image (hok : s.sb.Ok) (hout : 0 < s.outstanding) (hi : s.sb.IsInum (s.icache a).inum)
    (h : Local s.sb s.disk U (s.icache a).d (blocksFor (s.icache a).d.size))
    (hdev : (s.icache a).d.type ≠ T_DEV) (hoff : off ≤ (s.icache a).d.size)
    (hmax : off + src.length ≤ 71680) :
    wp (writei a off src) (fun r s' => r = src.length ∧ Wrote U a off src s s')
      (fun e _ => NoRoom e) s := by
  have hsize : (s.icache a).d.size ≤ 512 * blocksFor (s.icache a).d.size := by
    unfold blocksFor
    omega
  unfold writei
  simp only [MAXFILE, NDIRECT, NINDIRECT, wp_bind, wp_get, wp_ite, wp_pure]
  rw [if_neg hdev, if_neg (by omega), if_neg (by omega)]
  refine wp_mono (writeLoop_spec src.length off src hok hout h (le_refl _) (by omega) (by omega)) ?_
    fun _ _ he => he.2.noRoom
  rintro _ s1 ⟨h1, _⟩
  have hsize1 : (s1.icache a).d.size = (s.icache a).d.size := by rw [h1.fields]
  have hinum1 : (s1.icache a).inum = (s.icache a).inum := by rw [h1.state, State.upd_icache_self]
  have hN : max (blocksFor (s.icache a).d.size) (blocksFor (off + src.length)) =
      blocksFor (max (s.icache a).d.size (off + src.length)) := by
    unfold blocksFor
    omega
  unfold writeSize
  simp only [wp_bind, wp_get, wp_ite, wp_pure]
  rw [hsize1]
  by_cases hgrow : 0 < src.length ∧ (s.icache a).d.size < off + src.length
  · rw [if_pos hgrow]
    have hmaxsize : max (s.icache a).d.size (off + src.length) = off + src.length := by omega
    refine wp_mono (updateInode_spec (by rw [h1.outstanding_eq]; exact hout) a _) ?_
      fun _ _ he => he.noRoom
    rintro _ _ ⟨lg, rfl⟩
    rw [hinum1, h1.sb_eq, State.upd_of_eq h1.state]
    have hfits : ({ (s1.icache a).d with size := off + src.length } : Dinode).Fits := by
      have hf := h1.loc.fits
      exact ⟨hf.type, hf.major, hf.minor, hf.nlink, by simp only; omega, hf.addrs, hf.rest⟩
    refine ⟨trivial, by simp, ?_, ?_, ?_, ?_, ?_⟩
    · simp only [State.upd_disk, State.upd_icache_self]
      have hstore := h1.loc.store hok hi hfits h1.loc.alloc rfl
      rw [hN, hmaxsize] at hstore
      exact hstore
    · unfold State.image
      simp only [State.upd_disk, State.upd_icache_self]
      generalize hd : ({ (s1.icache a).d with size := off + src.length } : Dinode) = d2
      have haddrs : d2.addrs = (s1.icache a).d.addrs := by rw [← hd]
      have ht2 : d2.type ≠ 0 := by
        rw [← hd]
        exact h1.loc.alloc
      exact h1.image_write d2 _ (byteAt_store hok hi h1.loc haddrs ht2) (by rw [← hd, hmaxsize])
        hoff
    · intro c hc hle
      simp only [State.upd_disk]
      rw [iupdateDisk_of_le hok hi hle]
      exact h1.keeps c (.inr hc)
    · intro j hj
      simp only [State.upd_disk]
      rw [inodeAt_iupdate_of_ne hj]
      exact keeps_inodeAt hok h1.keeps j
    · intro _
      rw [State.upd_icache_self]
      exact inodeAt_iupdate_self hi hfits
  -- the write stays within the file
  rw [if_neg hgrow]
  have hmaxsize : max (s.icache a).d.size (off + src.length) = (s.icache a).d.size := by omega
  have hinodes := keeps_inodeAt hok h1.keeps
  rw [hN, hmaxsize] at h1
  refine ⟨trivial, h1.state, by rw [hsize1]; exact h1.loc, ?_, fun c hc _ => h1.keeps c (Or.inr hc),
    fun j _ => hinodes j, ?_⟩
  · refine h1.image_write (s1.icache a).d s1.disk (fun _ => rfl) ?_ hoff
    rw [hmaxsize, ← hsize1]
  · intro hself
    rw [hinodes, hself, h1.dinode_eq h]

theorem writei_accept {R : Multiset Ino} {L : Finset Ino} {X : Finset Nat}
    (h : In s R L X) (ha : a ∈ L) (hout : 0 < s.outstanding)
    (hdev : (s.node (s.icache a).inum).type ≠ T_DEV)
    (hoff : off ≤ (s.node (s.icache a).inum).data.length) (hmax : off + src.length ≤ 71680)
    (hdir : ((s.node (s.icache a).inum).write off src).DirOk s.sb) :
    wp (writei a off src)
      (fun r s' => r = src.length ∧ In s' R L X ∧
        Changed a ((s.node (s.icache a).inum).write off src) s s')
      (fun e _ => NoRoom e) s := by
  have hi := h.range a (h.locked a ha).1
  have hd := h.locked_dinode ha
  have hself : inodeAt s.sb s.disk (s.icache a).inum = (s.icache a).d := hd.1.symm
  have hloc := h.rep.local hd.2
  have himage : s.node (s.icache a).inum = s.image a := by
    unfold State.node nodeAt State.image
    rw [hself]
  rw [hself] at hloc
  rw [himage] at hdev hoff hdir ⊢
  rw [State.length_image_data] at hoff
  refine wp_post (writei_image h.rep.ok hout hi hloc hdev hoff hmax) ?_
  rintro r s' ⟨rfl, hw⟩
  refine ⟨rfl, h.rewrite ha hw.state (hw.self hself) hw.others ?_ hw.loc hw.image ?_ hdir ?_
    fun _ _ hm => hm⟩
  · intro c hc
    have hdata := (h.rep.isData_of_others hc).1
    have hstart := Superblock.bmapstart_lt s.sb
    exact hw.same c hc (by omega)
  · exact congrArg Node.type hw.image
  · intro hX hl
    refine h.live_locked ha rfl hX ?_
    rw [himage]
    exact hl

end Xv6.Fs
