import Xv6.Fs.Inv

/-!
# Changing one inode

`updateInode` stores fields of a locked inode, `writei` its contents.  Either
replaces one node of the table and keeps the invariant of the call.
-/

namespace Xv6.Fs

open Lib Lib.Prog Log Ptable Function

variable {R : Multiset Ino} {L : Finset Ino} {X Y : Finset Nat} {a : Ino} {s : State} {U : Set Nat}
variable {d d' : Dinode} {g : Nat → UInt8} {c j n off : Nat}

section Disk

variable {sb : Superblock} {disk disk1 : Disk} {i N : Nat} {d1 d2 : Dinode}

section
variable (hok : sb.Ok) (hi : sb.IsInum i) (hloc : Local sb disk1 U d1 N)
include hok hi hloc

theorem held_store (haddrs : d2.addrs = d1.addrs) (ht : d2.type ≠ 0) (k : Nat) :
    d2.held (iupdateDisk sb disk1 i d2) k = d1.held disk1 k := by
  rw [Dinode.held_fields (by simp [ht, hloc.alloc]) haddrs]
  exact hloc.held_iupdate hok hi k

theorem byteAt_store (haddrs : d2.addrs = d1.addrs) (ht : d2.type ≠ 0) (o : Nat) :
    d2.byteAt (iupdateDisk sb disk1 i d2) o = d1.byteAt disk1 o := by
  rw [← hloc.byteAt_iupdate d2 hok hi o]
  unfold Dinode.byteAt Dinode.baddr
  rw [held_store hok hi hloc haddrs ht, hloc.held_iupdate hok hi]

end

theorem keeps_inodeAt (hok : sb.Ok) (hkeeps : Keeps sb U disk disk1) (j : Nat) :
    inodeAt sb disk1 j = inodeAt sb disk j :=
  inodeAt_congr hok (fun c hc => hkeeps c (.inl hc)) j

section
variable (h : Rep sb disk) (hi : sb.IsInum i) (hkeeps : Keeps sb (others sb disk i) disk disk1)
include h hi hkeeps

theorem same_store (hc : c ∈ others sb disk i) : iupdateDisk sb disk1 i d2 c = disk c := by
  have hdata := (h.isData_of_others hc).1
  have hstart := Superblock.bmapstart_lt sb
  rw [iupdateDisk_of_le h.ok hi (by omega)]
  exact hkeeps c (.inr hc)

theorem Rep.store
    (hloc : Local sb disk1 (others sb disk i) d1 N) (hfits : d2.Fits) (haddrs : d2.addrs = d1.addrs)
    (hsize : d2.type ≠ 0 → blocksFor d2.size = N) (hfree : d2.type = 0 → ∀ k, d1.held disk1 k = 0) :
    Rep sb (iupdateDisk sb disk1 i d2) := by
  have hheld : ∀ k, d2.held (iupdateDisk sb disk1 i d2) k = d1.held disk1 k := by
    intro k
    by_cases ht : d2.type = 0
    · rw [Dinode.held_eq_zero_of_type ht, hfree ht]
    · exact held_store h.ok hi hloc haddrs ht k
  refine h.replace (inodeAt_iupdate_self hi hfits) ?_ (fun c hc => same_store h hi hkeeps hc) ?_
    ?_ ?_
  · intro j hj
    rw [inodeAt_iupdate_of_ne hj]
    exact keeps_inodeAt h.ok hkeeps j
  · exact hloc.own.congr hheld fun b _ => bitAt_iupdate h.ok hi b
  · intro b hb
    rw [bitAt_iupdate h.ok hi]
    exact hloc.metaBits b hb
  · intro ht
    rw [hsize ht]
    exact hloc.shape.congr hheld (by rw [haddrs])

end

theorem Local.store (h : Local sb disk U d N) (hok : sb.Ok)
    (hi : sb.IsInum i) (hfits : d'.Fits) (ht : d'.type ≠ 0) (haddrs : d'.addrs = d.addrs) :
    Local sb (iupdateDisk sb disk i d') U d' N := by
  have hheld := held_store hok hi h haddrs ht
  refine ⟨⟨h.own.congr hheld fun b _ => bitAt_iupdate hok hi b, h.rest, ?_, hfits, ht⟩,
    h.shape.congr hheld (by rw [haddrs])⟩
  intro b hb
  rw [bitAt_iupdate hok hi]
  exact h.metaBits b hb

theorem nodeAt_store_of_ne (h : Rep sb disk) (hi : sb.IsInum i)
    (hkeeps : Keeps sb (others sb disk i) disk disk1) (hj : j ≠ i) :
    nodeAt sb (iupdateDisk sb disk1 i d2) j = nodeAt sb disk j := by
  refine nodeAt_of_same hj ?_ fun c hc => same_store h hi hkeeps hc
  rw [inodeAt_iupdate_of_ne hj]
  exact keeps_inodeAt h.ok hkeeps j

end Disk

structure Changed (a : Ino) (f : Node) (s s' : State) : Prop where
  state : s' = s.upd s'.disk s'.logged a (s'.icache a).d
  self : s'.node (s.icache a).inum = f
  rest : ∀ j, j ≠ (s.icache a).inum → s'.node j = s.node j

section Changed

variable {s s' : State} {f : Node}

section
variable (h : s' = s.upd s'.disk s'.logged a (s'.icache a).d) (b : Ino)
include h

theorem upd_holders : s'.holders b = s.holders b := by
  rw [h]
  rfl

theorem upd_entry :
    (s'.icache b).inum = (s.icache b).inum ∧ (s'.icache b).ref = (s.icache b).ref ∧
      (s'.icache b).locked = (s.icache b).locked ∧ (s'.icache b).valid = (s.icache b).valid := by
  by_cases hba : b = a
  · subst hba
    rw [h, State.upd_icache_self]
    exact ⟨rfl, rfl, rfl, rfl⟩
  · rw [h, State.upd_icache_of_ne hba]
    exact ⟨rfl, rfl, rfl, rfl⟩

end

theorem Changed.sb (h : Changed a f s s') : s'.sb = s.sb := by rw [h.state]; rfl
theorem Changed.file (h : Changed a f s s') : s'.file = s.file := by rw [h.state]; rfl
theorem Changed.proc (h : Changed a f s s') : s'.proc = s.proc := by rw [h.state]; rfl

theorem Changed.outstanding (h : Changed a f s s') : s'.outstanding = s.outstanding := by
  rw [h.state]
  rfl

theorem Changed.inum (h : Changed a f s s') (b : Ino) : (s'.icache b).inum = (s.icache b).inum :=
  (upd_entry h.state b).1

theorem Changed.frame (h : Changed a f s s') (R : Multiset Ino) : Frame R s s' :=
  ⟨h.sb, h.file, h.proc, h.outstanding, fun b _ => h.inum b⟩

theorem Changed.node_eq (h : Changed a f s s') : s'.node = update s.node (s.icache a).inum f := by
  funext j
  by_cases hj : j = (s.icache a).inum
  · rw [hj, update_self, h.self]
  · rw [update_of_ne hj, h.rest j hj]

section
variable (h : In s R L X) (ha : a ∈ L)
include h ha

theorem In.locked_dinode :
    (s.icache a).d = s.ino (s.icache a).inum ∧ (s.ino (s.icache a).inum).type ≠ 0 := by
  have hlock := h.locked a ha
  exact h.sync a hlock.1 hlock.2

theorem In.live_locked (hn : (s.icache a).inum = n)
    (hX : n ∉ X) (hl : (s.node n).nlink = 0) : 0 < s.holders a := by
  have hlock := h.locked a ha
  have hd := h.locked_dinode ha
  subst hn
  obtain ⟨b, hinum, hb, _⟩ := h.live _ hX hd.2 hl
  have hba : b = a := h.uniq b a (h.ref_of_holders hb) hlock.1 hinum
  rw [← hba]
  exact hb

theorem In.rewrite (hst : s' = s.upd s'.disk s'.logged a (s'.icache a).d)
    (hself : inodeAt s.sb s'.disk (s.icache a).inum = (s'.icache a).d)
    (hinodes : ∀ j, j ≠ (s.icache a).inum → inodeAt s.sb s'.disk j = inodeAt s.sb s.disk j)
    (hsame : ∀ c ∈ others s.sb s.disk (s.icache a).inum, s'.disk c = s.disk c)
    (hloc : Local s.sb s'.disk (others s.sb s.disk (s.icache a).inum) (s'.icache a).d
      (blocksFor (s'.icache a).d.size))
    (hnode : (s'.icache a).d.node s'.disk = f) (htype : (s'.icache a).d.type = (s.icache a).d.type)
    (hdir : f.DirOk s.sb) (hlive : (s.icache a).inum ∉ Y → f.nlink = 0 → 0 < s.holders a)
    (hX : ∀ n, n ≠ (s.icache a).inum → n ∉ Y → n ∉ X) :
    In s' R L Y ∧ Changed a f s s' := by
  have hsb : s'.sb = s.sb := by
    rw [hst]
    rfl
  have hrep : Rep s.sb s'.disk :=
    h.rep.replace hself hinodes hsame hloc.own hloc.metaBits fun _ => hloc.shape
  have hnodes : ∀ j, j ≠ (s.icache a).inum → s'.node j = s.node j := by
    intro j hj
    unfold State.node
    rw [hsb]
    exact nodeAt_of_same hj (hinodes j hj) hsame
  have hfnode : s'.node (s.icache a).inum = f := by
    unfold State.node nodeAt
    rw [hsb, hself]
    exact hnode
  rw [← hfnode] at hdir hlive
  have hfile : s'.file = s.file := by
    rw [hst]
    rfl
  have hhold := upd_holders hst
  have hent := upd_entry hst
  have hlock := h.locked a ha
  have hd := h.locked_dinode ha
  have hino : ∀ n, (s'.ino n).type = (s.ino n).type := by
    intro n
    unfold State.ino
    rw [hsb]
    by_cases hn : n = (s.icache a).inum
    · rw [hn, hself, htype, hd.1]
      rfl
    · rw [hinodes n hn]
  refine ⟨⟨?_, ?_, ?_, ?_, ?_, ?_, ?_, ?_, ?_, ?_, ?_⟩, hst, hfnode, hnodes⟩
  · rw [hsb]
    exact hrep
  · intro b hb
    rw [(hent b).2.1] at hb
    rw [hsb, (hent b).1]
    exact h.range b hb
  · intro b c hb hc heq
    rw [(hent b).2.1] at hb
    rw [(hent c).2.1] at hc
    rw [(hent b).1, (hent c).1] at heq
    exact h.uniq b c hb hc heq
  · intro b hb hv
    rw [(hent b).2.1] at hb
    rw [(hent b).2.2.2] at hv
    have hsync := h.sync b hb hv
    rw [hino, (hent b).1]
    refine ⟨?_, hsync.2⟩
    by_cases hba : b = a
    · subst hba
      unfold State.ino
      rw [hsb]
      exact hself.symm
    · have hne : (s.icache b).inum ≠ (s.icache a).inum := by
        intro heq
        exact hba (h.uniq b a hb hlock.1 heq)
      unfold State.ino
      rw [hsb, hinodes _ hne, hst, State.upd_icache_of_ne hba]
      exact hsync.1
  · intro b
    rw [(hent b).2.1, hhold]
    exact h.refs b
  · intro b
    rw [(hent b).2.2.1]
    exact h.locks b
  · intro b hb
    rw [(hent b).2.1, (hent b).2.2.2]
    exact h.locked b hb
  · intro b hb
    rw [hhold] at hb
    rw [hino, (hent b).1]
    exact h.alloc b hb
  · intro n hn ht hl
    by_cases hna : n = (s.icache a).inum
    · subst hna
      exact ⟨a, (hent a).1, by rw [hhold]; exact hlive hn hl, by rw [(hent a).2.2.2]; exact hlock.2⟩
    · rw [hnodes n hna] at ht hl
      obtain ⟨b, hinum, hb, hv⟩ := h.live n (hX n hna hn) ht hl
      exact ⟨b, by rw [(hent b).1]; exact hinum, by rw [hhold]; exact hb,
        by rw [(hent b).2.2.2]; exact hv⟩
  · intro n
    rw [hsb]
    by_cases hna : n = (s.icache a).inum
    · rw [hna]
      exact hdir
    · rw [hnodes n hna]
      exact h.dirs n
  intro i b hip
  rw [hfile] at hip ⊢
  have hf := h.files i b hip
  refine ⟨hf.1, ?_⟩
  intro hw
  rw [State.node_type, hino, (hent b).1, ← State.node_type]
  exact hf.2 hw

theorem In.store {N : Nat} {disk1 : Disk} {d1 d2 : Dinode}
    (hn : (s.icache a).inum = n) (hkeeps : Keeps s.sb (others s.sb s.disk n) s.disk disk1)
    (hloc : Local s.sb disk1 (others s.sb s.disk n) d1 N) (hfits : d2.Fits)
    (haddrs : d2.addrs = d1.addrs) (htype : d2.type = (s.icache a).d.type)
    (hN : blocksFor d2.size = N)
    (hnode : ∀ disk, (∀ o, d2.byteAt disk o = d1.byteAt disk1 o) → d2.node disk = f)
    (hdir : f.DirOk s.sb) (hlive : n ∉ Y → f.nlink = 0 → 0 < s.holders a)
    (hX : ∀ m, m ≠ n → m ∉ Y → m ∉ X) (lg : List Nat) :
    In (s.upd (iupdateDisk s.sb disk1 n d2) lg a d2) R L Y ∧
      Changed a f s (s.upd (iupdateDisk s.sb disk1 n d2) lg a d2) := by
  subst hn
  have hd := h.locked_dinode ha
  have hi := h.range a (h.locked a ha).1
  have ht : d2.type ≠ 0 := by
    rw [htype, hd.1]
    exact hd.2
  refine h.rewrite ha (by simp) ?_ ?_ (fun c hc => same_store h.rep hi hkeeps hc) ?_ ?_ ?_ hdir
    hlive hX
  · rw [State.upd_icache_self]
    exact inodeAt_iupdate_self hi hfits
  · intro j hj
    simp only [State.upd_disk]
    rw [inodeAt_iupdate_of_ne hj]
    exact keeps_inodeAt h.rep.ok hkeeps j
  · simp only [State.upd_icache_self, State.upd_disk, hN]
    exact hloc.store h.rep.ok hi hfits ht haddrs
  · simp only [State.upd_icache_self, State.upd_disk]
    exact hnode _ (byteAt_store h.rep.ok hi hloc haddrs ht)
  · rw [State.upd_icache_self]
    exact htype

end

end Changed

section Fields

variable {f : Dinode → Dinode}

theorem updateInode_spec (hout : 0 < s.outstanding) (a : Ino) (f : Dinode → Dinode) :
    wp (updateInode a f)
      (fun _ s' => ∃ lg, s' =
        s.upd (iupdateDisk s.sb s.disk (s.icache a).inum (f (s.icache a).d)) lg a
          (f (s.icache a).d))
      (fun e _ => LogFull e) s := by
  unfold updateInode setDinode setInode iupdate
  simp only [wp_bind, wp_modify, wp_get, update_self]
  refine wp_post (logWrite_spec (by exact hout) _ _) ?_
  rintro _ _ ⟨lg, rfl⟩
  exact ⟨lg, rfl⟩

theorem updateFields_spec (h : In s R L X) (ha : a ∈ L) (hout : 0 < s.outstanding)
    (htype : (f (s.icache a).d).type = (s.icache a).d.type)
    (hsize : (f (s.icache a).d).size = (s.icache a).d.size)
    (haddrs : (f (s.icache a).d).addrs = (s.icache a).d.addrs) (hfits : (f (s.icache a).d).Fits)
    (hlive : (s.icache a).inum ∉ Y → (f (s.icache a).d).nlink = 0 → 0 < s.holders a)
    (hX : ∀ n, n ≠ (s.icache a).inum → n ∉ Y → n ∉ X) :
    wp (updateInode a f)
      (fun _ s' => In s' R L Y ∧ Changed a
        { s.node (s.icache a).inum with
          major := (f (s.icache a).d).major
          minor := (f (s.icache a).d).minor
          nlink := (f (s.icache a).d).nlink } s s' ∧
        ∀ b, bitAt s'.sb s'.disk b = bitAt s.sb s.disk b)
      (fun e _ => LogFull e) s := by
  refine wp_post (updateInode_spec hout a f) ?_
  rintro _ _ ⟨lg, rfl⟩
  have hd := h.locked_dinode ha
  have hi := h.range a (h.locked a ha).1
  have hloc := h.rep.local hd.2
  have hdinode : (s.icache a).d = inodeAt s.sb s.disk (s.icache a).inum := hd.1
  rw [← hdinode] at hloc
  refine and_assoc.mp ⟨?_, fun b => bitAt_iupdate h.rep.ok hi b⟩
  refine h.store ha rfl (Keeps.refl _ _ _) hloc hfits haddrs htype (by rw [hsize]) ?_ ?_ hlive hX lg
  · intro disk hbytes
    unfold State.node nodeAt Dinode.node
    rw [← hdinode]
    simp only [Node.mk.injEq]
    refine ⟨htype, trivial, trivial, trivial, ?_⟩
    rw [hsize]
    exact bytesFrom_congr fun o _ => hbytes (0 + o)
  · exact h.dirs _

theorem fits_setNlink (h : d.Fits) (n : Int) :
    (d.setNlink n).Fits where
  type := h.type
  major := h.major
  minor := h.minor
  nlink := isShort_short n
  size := h.size
  addrs := h.addrs
  rest := h.rest

def Node.addNlink (f : Node) (n : Int) : Node :=
  { f with nlink := short (f.nlink + n) }

theorem addNlink_spec {n : Int} (h : In s R L X) (ha : a ∈ L) (hout : 0 < s.outstanding)
    (hlive : (s.icache a).inum ∉ Y →
      ((s.node (s.icache a).inum).addNlink n).nlink = 0 → 0 < s.holders a)
    (hX : ∀ m, m ≠ (s.icache a).inum → m ∉ Y → m ∉ X) :
    wp (addNlink a n)
      (fun _ s' => In s' R L Y ∧ Changed a ((s.node (s.icache a).inum).addNlink n) s s' ∧
        ∀ b, bitAt s'.sb s'.disk b = bitAt s.sb s.disk b)
      (fun e _ => LogFull e) s := by
  have hd := h.locked_dinode ha
  have hfits : (s.icache a).d.Fits := by
    rw [hd.1]
    exact fits_inodeAt _
  unfold addNlink
  refine wp_post (updateFields_spec (Y := Y) h ha hout rfl rfl rfl (fits_setNlink hfits _) ?_ hX) ?_
  · intro hn hl
    apply hlive hn
    rw [hd.1] at hl
    exact hl
  · rintro _ s' ⟨hin, hch, hbits⟩
    refine ⟨hin, ⟨hch.state, ?_, hch.rest⟩, hbits⟩
    rw [hch.self, hd.1]
    rfl

end Fields

section Contents

variable {X : Finset Nat}

theorem Stored.dinode_eq {N : Nat} {s' : State}
    (h : Stored U a N g s s') (hloc : Local s.sb s.disk U (s.icache a).d N) :
    (s'.icache a).d = (s.icache a).d := by
  rw [h.fields]
  have hheld : ∀ k ≤ 12, (s'.icache a).d.held s'.disk k = (s.icache a).d.held s.disk k := by
    intro k hk
    by_cases h0 : (s.icache a).d.held s.disk k = 0
    · by_cases hk12 : k = 12
      · subst hk12
        have hind := h.loc.shape.indirect
        rw [← hloc.shape.indirect] at hind
        rw [Dinode.held_twelve hloc.alloc] at h0
        rw [Dinode.held_twelve h.loc.alloc, Dinode.held_twelve hloc.alloc, h0]
        by_contra hne
        exact (hind.mp hne) h0
      have hpos : Dinode.pos k = k := by
        unfold Dinode.pos
        rw [if_pos (by omega)]
      have hblock := h.loc.shape.block k (by omega)
      rw [← hloc.shape.block k (by omega)] at hblock
      unfold Dinode.baddr at hblock
      rw [hpos] at hblock
      rw [h0]
      by_contra hne
      exact (hblock.mp hne) h0
    · exact h.stays k h0
  have haddrs : (s'.icache a).d.addrs = (s.icache a).d.addrs := by
    funext k
    by_cases hk : k ≤ 12
    · rw [← Dinode.held_of_le h.loc.alloc hk s'.disk, ← Dinode.held_of_le hloc.alloc hk s.disk]
      exact hheld k hk
    · rw [h.loc.fits.rest k (by omega), hloc.fits.rest k (by omega)]
  rw [haddrs]

theorem node_write_data {disk : Disk} {src : List UInt8}
    (size : Nat) (hg : ∀ o, g o = writeAt (d.byteAt disk) off src o) (hoff : off ≤ d.size)
    (hsize : size = max d.size (off + src.length)) :
    bytesFrom g 0 size = ((d.node disk).write off src).data := by
  unfold Node.write Dinode.node
  simp only [length_bytesFrom]
  rw [hsize]
  apply bytesFrom_congr
  intro i hi
  rw [hg]
  unfold writeAt
  by_cases hin : off ≤ 0 + i ∧ 0 + i < off + src.length
  · rw [if_pos hin, if_pos hin]
  · rw [if_neg hin, if_neg hin]
    simp only
    rw [getD_bytesFrom (by omega), Nat.zero_add, Nat.zero_add]

end Contents

end Xv6.Fs
