import Xv6.Lib.SlotMap
import Xv6.Fs.Arrays

/-!
# A directory as a map from names

The entries of a directory are slots: an entry is empty if its inode number is 0,
and otherwise binds the first 14 bytes of a name.  `dirlink` fills the first empty
entry, or the one behind the last; `sys_unlink` empties the entry that `dirlookup`
has found.
-/

namespace Xv6.Fs

open Lib Lib.Prog Log Ptable Function

variable {name : Str} {s s' : State} {U : Set Nat} {dp b : Ino} {f : Node} {i j k : Nat}

namespace Node

def binding (f : Node) (j : Nat) : Option (Str × Nat) :=
  if (f.entry j).inum = 0 then none else some (cut 14 (f.entry j).name, (f.entry j).inum)

/-- The inode number for the first 14 bytes of a name. -/
def names (f : Node) : Str → Option Nat :=
  slotFind f.count f.binding

/-- No two entries in use have the same name. -/
def Distinct (f : Node) : Prop :=
  ∀ i < f.count, ∀ j < f.count, (f.entry i).inum ≠ 0 → (f.entry j).inum ≠ 0 →
    namecmp (f.entry i).name (f.entry j).name = 0 → i = j

instance (f : Node) : Decidable f.Distinct :=
  inferInstanceAs (Decidable (∀ i < f.count, ∀ j < f.count, _ → _ → _ → i = j))

theorem binding_eq_some {key : Str} :
    f.binding j = some (key, i) ↔
      (f.entry j).inum ≠ 0 ∧ cut 14 (f.entry j).name = key ∧ (f.entry j).inum = i := by
  unfold binding
  split
  · rename_i h0
    simp [h0]
  · rename_i h0
    simp [h0]

theorem slotsDistinct_iff : SlotsDistinct f.count f.binding ↔ f.Distinct := by
  constructor
  · intro h i hi j hj hi0 hj0 hname
    rw [namecmp_eq_zero] at hname
    exact h i hi j hj _ _ _ (binding_eq_some.mpr ⟨hi0, rfl, rfl⟩)
      (binding_eq_some.mpr ⟨hj0, hname.symm, rfl⟩)
  · intro h i hi j hj key v w hv hw
    obtain ⟨hi0, hikey, _⟩ := binding_eq_some.mp hv
    obtain ⟨hj0, hjkey, _⟩ := binding_eq_some.mp hw
    exact h i hi j hj hi0 hj0 ((namecmp_eq_zero _ _).mpr (hikey.trans hjkey.symm))

theorem names_eq_lookup (f : Node) (name : Str) :
    f.names (cut 14 name) = (f.lookup name).map fun k => (f.entry k).inum := by
  unfold names slotFind lookup
  induction List.range f.count with
  | nil => rfl
  | cons j l ih =>
    rw [List.findSome?_cons, List.find?_cons]
    by_cases hj : (f.entry j).inum ≠ 0 ∧ namecmp name (f.entry j).name = 0
    · have hbind : slotValue (cut 14 name) (f.binding j) = some (f.entry j).inum :=
        slotValue_eq_some.mpr (binding_eq_some.mpr
          ⟨hj.1, ((namecmp_eq_zero _ _).mp hj.2).symm, rfl⟩)
      simp only [hbind, decide_eq_true hj, Option.map_some]
    have hbind : slotValue (cut 14 name) (f.binding j) = none := by
      by_contra hne
      obtain ⟨v, hv⟩ := Option.ne_none_iff_exists'.mp hne
      obtain ⟨h0, hkey, _⟩ := binding_eq_some.mp (slotValue_eq_some.mp hv)
      exact hj ⟨h0, (namecmp_eq_zero _ _).mpr hkey.symm⟩
    simp only [hbind, decide_eq_false hj]
    exact ih

theorem binding_putEntry {de : Dirent} (hinum : de.inum < 2 ^ 16) (hname : de.name.length = 14) :
    (f.putEntry k de).binding = update f.binding k
      (if de.inum = 0 then none else some (cut 14 de.name, de.inum)) := by
  funext j
  unfold binding
  by_cases hjk : j = k
  · rw [hjk, update_self, entry_putEntry_self hinum hname]
  · rw [update_of_ne hjk, entry_putEntry_of_ne de hjk]

theorem binding_link (hi0 : i ≠ 0) (hi : i < 2 ^ 16) :
    (f.link name i).binding = update f.binding f.slot (some (cut 14 name, i)) := by
  unfold link
  rw [binding_putEntry (by exact hi) (length_strncpy 14 name)]
  simp only [newEntry, if_neg hi0, cut_strncpy]

theorem binding_slot (h : f.slot < f.count) : f.binding f.slot = none := by
  unfold binding
  rw [if_pos (slot_empty h)]

theorem names_link (h : f.Distinct) (h16 : 16 ∣ f.data.length) (hnone : f.lookup name = none)
    (hi0 : i ≠ 0) (hi : i < 2 ^ 16) :
    (f.link name i).Distinct ∧
      (f.link name i).names = update f.names (cut 14 name) (some i) := by
  have hslots := slotsDistinct_iff.mpr h
  have hfind : slotFind f.count f.binding (cut 14 name) = none := by
    change f.names (cut 14 name) = none
    rw [names_eq_lookup, hnone]
    rfl
  have hcount : (f.link name i).count = max f.count (f.slot + 1) :=
    count_putEntry h16 f.slot_le _
  constructor
  · rw [← slotsDistinct_iff, hcount, binding_link hi0 hi]
    exact slotsDistinct_fill hslots hfind f.slot_le
  · unfold names
    rw [hcount, binding_link hi0 hi]
    exact slotFind_fill hslots hfind binding_slot f.slot_le

theorem names_clear (h : f.Distinct) (h16 : 16 ∣ f.data.length) (hsome : f.lookup name = some k) :
    (f.putEntry k noEntry).Distinct ∧
      (f.putEntry k noEntry).names = update f.names (cut 14 name) none := by
  have hslots := slotsDistinct_iff.mpr h
  obtain ⟨hk, h0, hname⟩ := lookup_eq_some hsome
  have hbind : f.binding k = some (cut 14 name, (f.entry k).inum) :=
    binding_eq_some.mpr ⟨h0, ((namecmp_eq_zero _ _).mp hname).symm, rfl⟩
  have hcount : (f.putEntry k noEntry).count = f.count := by
    rw [count_putEntry h16 (by omega)]
    omega
  have hupdate : (f.putEntry k noEntry).binding = update f.binding k none :=
    binding_putEntry (by decide) rfl
  constructor
  · rw [← slotsDistinct_iff, hcount, hupdate]
    exact slotsDistinct_clear hslots k
  · unfold names
    rw [hcount, hupdate]
    exact slotFind_clear hslots hk hbind

end Node

/-- The directory in entry `dp` is locked, its blocks are its own, and no other entry of the
cache is locked or has its number. -/
structure OpenDir (U : Set Nat) (dp : Ino) (s : State) : Prop where
  ok : s.sb.Ok
  outstanding : 0 < s.outstanding
  inum : s.sb.IsInum (s.icache dp).inum
  ref : 0 < (s.icache dp).ref
  locked : (s.icache dp).locked = true
  type : (s.icache dp).d.type = T_DIR
  loc : Local s.sb s.disk U (s.icache dp).d (blocksFor (s.icache dp).d.size)
  whole : 16 ∣ (s.icache dp).d.size
  alone : ∀ b, b ≠ dp → 0 < (s.icache b).ref → (s.icache b).inum ≠ (s.icache dp).inum
  unlocked : ∀ b, b ≠ dp → (s.icache b).locked = false

theorem Got.inum (h : Got b i s s') : (s'.icache b).inum = i := by
  cases h with
  | shared href hinum => simpa using hinum
  | recycled href hnew => simp

theorem Got.state (h : Got b i s s') : s' = s.setEntry b (s'.icache b) := by
  cases h with
  | shared href hinum => simp
  | recycled href hnew => simp

theorem setEntry_icache_of_ne {c : Ino} (hc : c ≠ b) (e : Inode) :
    (s.setEntry b e).icache c = s.icache c :=
  update_of_ne hc _ _

theorem OpenDir.setEntry {e : Inode} (h : OpenDir U dp s)
    (hself : b = dp → e = { s.icache dp with ref := e.ref } ∧ 0 < e.ref)
    (hother : b ≠ dp → (0 < e.ref → e.inum ≠ (s.icache dp).inum) ∧ e.locked = false) :
    OpenDir U dp (s.setEntry b e) ∧ (s.setEntry b e).image dp = s.image dp := by
  by_cases hb : b = dp
  · subst hb
    obtain ⟨he, href⟩ := hself rfl
    have hd : e.d = (s.icache b).d := by rw [he]
    have hinum : e.inum = (s.icache b).inum := by rw [he]
    have hlocked : e.locked = (s.icache b).locked := by rw [he]
    have hentry : (s.setEntry b e).icache b = e := s.setEntry_icache_self b e
    constructor
    · refine ⟨h.ok, h.outstanding, ?_, ?_, ?_, ?_, ?_, ?_, ?_, ?_⟩
      · rw [hentry, hinum]
        exact h.inum
      · rw [hentry]
        exact href
      · rw [hentry, hlocked]
        exact h.locked
      · rw [hentry, hd]
        exact h.type
      · rw [hentry, hd]
        exact h.loc
      · rw [hentry, hd]
        exact h.whole
      · intro c hc hcref
        rw [setEntry_icache_of_ne hc] at hcref ⊢
        rw [hentry, hinum]
        exact h.alone c hc hcref
      · intro c hc
        rw [setEntry_icache_of_ne hc]
        exact h.unlocked c hc
    · unfold State.image
      rw [hentry, hd]
      rfl
  have hentry : (s.setEntry b e).icache dp = s.icache dp := setEntry_icache_of_ne (Ne.symm hb) e
  have hnew : (s.setEntry b e).icache b = e := s.setEntry_icache_self b e
  constructor
  · refine ⟨h.ok, h.outstanding, ?_, ?_, ?_, ?_, ?_, ?_, ?_, ?_⟩
    · rw [hentry]
      exact h.inum
    · rw [hentry]
      exact h.ref
    · rw [hentry]
      exact h.locked
    · rw [hentry]
      exact h.type
    · rw [hentry]
      exact h.loc
    · rw [hentry]
      exact h.whole
    · intro c hc hcref
      rw [hentry]
      by_cases hcb : c = b
      · subst hcb
        rw [hnew] at hcref ⊢
        exact (hother hb).1 hcref
      · rw [setEntry_icache_of_ne hcb] at hcref ⊢
        exact h.alone c hc hcref
    intro c hc
    by_cases hcb : c = b
    · subst hcb
      rw [hnew]
      exact (hother hb).2
    · rw [setEntry_icache_of_ne hcb]
      exact h.unlocked c hc
  · unfold State.image
    rw [hentry]
    rfl

theorem OpenDir.got (h : OpenDir U dp s) (hg : Got b i s s') :
    OpenDir U dp s' ∧ s'.image dp = s.image dp ∧ (b = dp ↔ i = (s.icache dp).inum) := by
  cases hg with
  | shared href hinum =>
    obtain ⟨hdir, himage⟩ := h.setEntry (b := b)
      (e := { s.icache b with ref := (s.icache b).ref + 1 })
      (fun hb => by rw [hb]; exact ⟨rfl, Nat.succ_pos _⟩)
      (fun hb => ⟨fun _ => h.alone b hb href, h.unlocked b hb⟩)
    refine ⟨hdir, himage, ?_⟩
    constructor
    · rintro rfl
      exact hinum.symm
    · intro hi
      by_contra hb
      exact h.alone b hb href (hinum.trans hi)
  | recycled href hnew =>
    have hb : b ≠ dp := by
      rintro rfl
      exact absurd h.ref (by omega)
    have hi : i ≠ (s.icache dp).inum := fun hi => hnew dp h.ref hi.symm
    obtain ⟨hdir, himage⟩ := h.setEntry (b := b)
      (e := { s.icache b with inum := i, ref := 1, valid := false })
      (fun hdp => absurd hdp hb) (fun _ => ⟨fun _ => hi, h.unlocked b hb⟩)
    exact ⟨hdir, himage, fun hdp => absurd hdp hb, fun hdp => absurd hdp hi⟩

theorem iput_idle (hlocked : (s.icache b).locked = false)
    (hkeep : ¬((s.icache b).valid = true ∧ (s.icache b).d.nlink = 0 ∧ (s.icache b).ref = 1)) :
    iput b s = (.ok (), s.setEntry b { s.icache b with ref := (s.icache b).ref - 1 }) := by
  have hspec : wp (iput b)
      (fun _ t => t = s.setEntry b { s.icache b with ref := (s.icache b).ref - 1 })
      (fun _ _ => False) s := by
    unfold iput acquiresleep ifreeUnused releasesleep setInode
    simp only [wp_bind, wp_get, wp_ite, wp_modify, wp_pure, wp_throw]
    rw [if_neg (by simp [hlocked])]
    simp only [update_self]
    rw [if_neg hkeep]
    simp only [State.setEntry, update_idem, ← hlocked]
  obtain ⟨r, t, hrun, ht⟩ := exists_ok hspec fun _ _ hx => hx
  rw [hrun, ht]

theorem iput_got (hg : Got b i s s') (hlocked : (s.icache b).locked = false) :
    ∃ e, iput b s' = (.ok (), s.setEntry b e) ∧ e.locked = false ∧ e.ref = (s.icache b).ref ∧
      (0 < (s.icache b).ref → e = s.icache b) := by
  cases hg with
  | shared href hinum =>
    refine ⟨s.icache b, ?_, hlocked, rfl, fun _ => rfl⟩
    rw [iput_idle (by simpa using hlocked) (by simp; omega)]
    simp
  | recycled href hnew =>
    refine ⟨{ s.icache b with inum := i, ref := 0, valid := false }, ?_, hlocked, href.symm, ?_⟩
    · rw [iput_idle (by simpa using hlocked) (by simp)]
      simp
    · intro hpos
      omega

/-- A directory entry can be written at index `k`: the directory stays within its maximal size,
there are enough free blocks, and the log has room. -/
structure EntryRoom (dp : Ino) (k : Nat) (s : State) : Prop where
  size : 16 * k + 16 ≤ MAXFILE * BSIZE
  blocks : blocksTaken (s.icache dp).d.size (16 * k) 16 ≤ s.free
  log : s.logged.length + entriesMade (s.icache dp).d.size (16 * k) 16 < s.logCap

section
variable (h : OpenDir U dp s)
include h

theorem OpenDir.isDir : IsDir s dp :=
  ⟨h.type, h.loc.shape, h.whole⟩

theorem dirlookup_open (name : Str) :
    wp (dirlookup dp name)
      (fun r s' => match r with
        | none => s' = s ∧ (s.image dp).lookup name = none
        | some (off, b) => ∃ k, (s.image dp).lookup name = some k ∧ off = 16 * k ∧
            Got b ((s.image dp).entry k).inum s s')
      (fun e _ => e = .igetNoInodes ∧ ∃ k, (s.image dp).lookup name = some k ∧
        ¬CacheRoom s ((s.image dp).entry k).inum) s := by
  rw [h.isDir.wp_dirlookup]
  cases hlook : (s.image dp).lookup name with
  | none => exact ⟨rfl, rfl⟩
  | some k =>
    refine wp_mono (iget_got s _) ?_ ?_
    · intro b t' hg
      exact ⟨k, rfl, rfl, hg⟩
    · rintro e t' ⟨rfl, hroom⟩
      exact ⟨rfl, k, rfl, hroom⟩

theorem writeEntry_open (hk : k ≤ (s.image dp).count) (hroom : EntryRoom dp k s) (de : Dirent) :
    wp (writei dp (16 * k) de.bytes)
      (fun r s' => r = 16 ∧ OpenDir U dp s' ∧ s'.image dp = (s.image dp).putEntry k de ∧
        ∀ c, (s'.icache c).inum = (s.icache c).inum)
      (fun _ _ => False) s := by
  have hbytes : de.bytes.length = 16 := Dirent.length_bytes de
  have hlen := State.length_image_data s dp
  have hdev : (s.icache dp).d.type ≠ T_DEV := by
    rw [h.type]
    decide
  have hoff : 16 * k ≤ (s.icache dp).d.size := by
    unfold Node.count at hk
    omega
  have hmax : 16 * k + de.bytes.length ≤ 71680 := by
    rw [hbytes]
    exact hroom.size
  have hblocks := hroom.blocks
  have hlog := hroom.log
  have huses := writei_uses (e := dp) (16 * k) de.bytes h.ok h.outstanding h.inum h.loc hdev
  rw [hbytes] at huses
  refine wp_mono (wp_and (writei_image h.ok h.outstanding h.inum h.loc hdev hoff hmax) huses) ?_ ?_
  · rintro r t ⟨⟨rfl, hw⟩, _⟩
    have hentry := upd_entry hw.state
    rw [hbytes]
    refine ⟨rfl, ?_, hw.image, fun c => (hentry c).1⟩
    have hother : ∀ c, c ≠ dp → t.icache c = s.icache c := by
      intro c hc
      rw [hw.state, State.upd_icache_of_ne hc]
    have hsb : t.sb = s.sb := by
      rw [hw.state]
      rfl
    have htype : (t.icache dp).d.type = T_DIR := by
      change (t.image dp).type = T_DIR
      rw [hw.image]
      exact h.type
    have hsize : (t.icache dp).d.size = max (s.icache dp).d.size (16 * k + 16) := by
      rw [← State.length_image_data, hw.image, Node.length_write, hbytes, hlen]
    have hwhole := h.whole
    refine ⟨?_, ?_, ?_, ?_, ?_, htype, ?_, ?_, ?_, ?_⟩
    · rw [hsb]
      exact h.ok
    · rw [hw.state]
      exact h.outstanding
    · rw [hsb, (hentry dp).1]
      exact h.inum
    · rw [(hentry dp).2.1]
      exact h.ref
    · rw [(hentry dp).2.2.1]
      exact h.locked
    · rw [hsb]
      exact hw.loc
    · rw [hsize]
      omega
    · intro c hc
      rw [hother c hc, (hentry dp).1]
      exact h.alone c hc
    · intro c hc
      rw [hother c hc]
      exact h.unlocked c hc
  · rintro x t ⟨_, _, hfails⟩
    refine hfails.false_of_room ?_ hblocks
    have hcard := s.card_rewrites_le h.loc.shape hoff 16
    have htaking := s.card_taking (s.rewrites dp (16 * k) 16)
      (blocksTaken (s.icache dp).d.size (16 * k) 16)
    unfold State.HasRoom
    omega

theorem dirlink_absent (hnone : (s.image dp).lookup name = none)
    (hroom : EntryRoom dp (s.image dp).slot s) :
    wp (dirlink dp name i)
      (fun r s' => r = 0 ∧ OpenDir U dp s' ∧ s'.image dp = (s.image dp).link name i)
      (fun _ _ => False) s := by
  rw [h.isDir.wp_dirlink, hnone]
  unfold dirlinkAt
  refine wp_seq (writeEntry_open h (Node.slot_le _) hroom (newEntry name i)) ?_
  rintro r t ⟨rfl, ht, himage, _⟩
  exact ⟨rfl, ht, himage⟩

theorem dirlink_present (hsome : (s.image dp).lookup name = some k)
    (hroom : CacheRoom s ((s.image dp).entry k).inum)
    (hself : ((s.image dp).entry k).inum ≠ (s.icache dp).inum) :
    wp (dirlink dp name i)
      (fun r s' => r = -1 ∧ OpenDir U dp s' ∧ s'.image dp = s.image dp ∧
        s' = { s with icache := s'.icache } ∧
        ∀ c, 0 < (s.icache c).ref → s'.icache c = s.icache c)
      (fun _ _ => False) s := by
  rw [h.isDir.wp_dirlink, hsome]
  refine wp_mono (iget_got s _) ?_ ?_
  · intro b t hg
    have hb : b ≠ dp := fun hdp => hself ((h.got hg).2.2.mp hdp)
    obtain ⟨e, hput, hlocked, href, hsame⟩ := iput_got hg (h.unlocked b hb)
    have hinum : 0 < e.ref → e.inum ≠ (s.icache dp).inum := by
      intro hpos
      rw [hsame (by omega)]
      exact h.alone b hb (by omega)
    obtain ⟨hdir, himage⟩ := h.setEntry (b := b) (e := e) (fun hdp => absurd hdp hb)
      fun _ => ⟨hinum, hlocked⟩
    unfold wp
    rw [hput]
    refine ⟨rfl, hdir, himage, rfl, ?_⟩
    intro c hc
    by_cases hcb : c = b
    · subst hcb
      rw [State.setEntry_icache_self]
      exact hsame hc
    · exact setEntry_icache_of_ne hcb e
  · rintro e t ⟨_, hno⟩
    exact hno hroom

theorem clearEntry_open (hk : k < (s.image dp).count) (hroom : EntryRoom dp k s) :
    wp (clearEntry dp (16 * k))
      (fun _ s' => OpenDir U dp s' ∧ s'.image dp = (s.image dp).putEntry k noEntry ∧
        ∀ c, (s'.icache c).inum = (s.icache c).inum)
      (fun _ _ => False) s := by
  unfold clearEntry
  rw [← bytes_noEntry]
  refine wp_seq (writeEntry_open h (by omega) hroom noEntry) ?_
  rintro r t ⟨rfl, ht⟩
  exact ht

theorem EntryRoom.got (hroom : EntryRoom dp k s) (hg : Got b i s s') : EntryRoom dp k s' := by
  have hsize : (s'.icache dp).d.size = (s.icache dp).d.size := by
    rw [← State.length_image_data, (h.got hg).2.1, State.length_image_data]
  have hstate := hg.state
  refine ⟨hroom.size, ?_, ?_⟩
  · rw [hsize, hstate]
    exact hroom.blocks
  · rw [hsize, hstate]
    exact hroom.log

end

/-- An operation on a directory: `dirlink`, emptying the entry that `dirlookup` reports, and
`dirlookup`. -/
inductive DirOp where
  | link (name : Str) (inum : Nat)
  | clear (name : Str)
  | lookup (name : Str)

/-- What an operation returns: the value of `dirlink`, or the inode that was found. -/
inductive DirReply where
  | returned (r : Int)
  | found (r : Option Nat)
deriving DecidableEq

namespace DirOp

/-- The operations as the kernel does them. -/
def exec (dp : Ino) : DirOp → FM DirReply
  | .link name inum => do
    let r ← dirlink dp name inum
    pure (.returned r)
  | .clear name => do
    let r ← dirlookup dp name
    match r with
    | none => pure (.found none)
    | some (off, ip) => do
      clearEntry dp off
      let s ← get
      pure (.found (some (s.icache ip).inum))
  | .lookup name => do
    let r ← dirlookup dp name
    match r with
    | none => pure (.found none)
    | some (_, ip) => do
      let s ← get
      pure (.found (some (s.icache ip).inum))

def onMap : DirOp → (Str → Option Nat) → DirReply × (Str → Option Nat)
  | .link name inum, m =>
    if m (cut 14 name) = none then
      (.returned 0, update m (cut 14 name) (some inum))
    else (.returned (-1), m)
  | .clear name, m => (.found (m (cut 14 name)), update m (cut 14 name) none)
  | .lookup name, m => (.found (m (cut 14 name)), m)

/-- The numbers that are linked are not 0 and have 16 bits. -/
def Valid : DirOp → Prop
  | .link _ inum => 1 ≤ inum ∧ inum < 2 ^ 16
  | _ => True

/-- The operation finds what it needs.  A name that is linked again must not be one for the
directory itself. -/
def Ready (dp : Ino) (s : State) : DirOp → Prop
  | .link name _ =>
    ((s.image dp).lookup name = none → EntryRoom dp (s.image dp).slot s) ∧
    ∀ k, (s.image dp).lookup name = some k → CacheRoom s ((s.image dp).entry k).inum ∧
      ((s.image dp).entry k).inum ≠ (s.icache dp).inum
  | .clear name =>
    ∀ k, (s.image dp).lookup name = some k →
      CacheRoom s ((s.image dp).entry k).inum ∧ EntryRoom dp k s
  | .lookup name =>
    ∀ k, (s.image dp).lookup name = some k → CacheRoom s ((s.image dp).entry k).inum

end DirOp

def execDir (dp : Ino) : List DirOp → FM (List DirReply)
  | [] => pure []
  | op :: ops => do
    let r ← op.exec dp
    let rs ← execDir dp ops
    pure (r :: rs)

def onMapAll : List DirOp → (Str → Option Nat) → List DirReply × (Str → Option Nat)
  | [], m => ([], m)
  | op :: ops, m =>
    ((op.onMap m).1 :: (onMapAll ops (op.onMap m).2).1, (onMapAll ops (op.onMap m).2).2)

def AllReady (dp : Ino) : List DirOp → State → Prop
  | [], _ => True
  | op :: ops, s => op.Ready dp s ∧ AllReady dp ops (op.exec dp s).2

theorem DirOp.exec_spec {op : DirOp} (h : OpenDir U dp s) (hdist : (s.image dp).Distinct)
    (hvalid : op.Valid) (hready : op.Ready dp s) :
    wp (op.exec dp)
      (fun r s' => OpenDir U dp s' ∧ (s'.image dp).Distinct ∧
        op.onMap (s.image dp).names = (r, (s'.image dp).names))
      (fun _ _ => False) s := by
  have h16 : 16 ∣ (s.image dp).data.length := by
    rw [State.length_image_data]
    exact h.whole
  cases op with
  | link name i =>
    simp only [DirOp.exec, wp_bind, wp_pure]
    cases hlook : (s.image dp).lookup name with
    | none =>
      have hnone : (s.image dp).names (cut 14 name) = none := by
        rw [Node.names_eq_lookup, hlook]
        rfl
      refine wp_post (dirlink_absent h hlook (hready.1 hlook)) ?_
      rintro r t ⟨rfl, ht, himage⟩
      obtain ⟨hdist', hnames⟩ := Node.names_link hdist h16 hlook (by have := hvalid.1; omega)
        hvalid.2
      rw [himage]
      refine ⟨ht, hdist', ?_⟩
      simp only [DirOp.onMap, if_pos hnone, hnames]
    | some k =>
      have hsome : (s.image dp).names (cut 14 name) ≠ none := by
        rw [Node.names_eq_lookup, hlook]
        simp
      obtain ⟨hroom, hself⟩ := hready.2 k hlook
      refine wp_post (dirlink_present h hlook hroom hself) ?_
      rintro r t ⟨rfl, ht, himage, _⟩
      rw [himage]
      refine ⟨ht, hdist, ?_⟩
      simp only [DirOp.onMap, if_neg hsome]
  | clear name =>
    simp only [DirOp.exec, wp_bind]
    refine wp_mono (dirlookup_open h name) ?_ ?_
    · rintro r t hr
      cases r with
      | none =>
        obtain ⟨rfl, hlook⟩ := hr
        have hnone : (t.image dp).names (cut 14 name) = none := by
          rw [Node.names_eq_lookup, hlook]
          rfl
        refine ⟨h, hdist, ?_⟩
        simp only [DirOp.onMap, hnone]
        rw [← hnone, update_eq_self]
      | some r =>
        obtain ⟨off, b⟩ := r
        obtain ⟨k, hlook, rfl, hg⟩ := hr
        obtain ⟨ht, himage, _⟩ := h.got hg
        have hroom := EntryRoom.got h (hready k hlook).2 hg
        have hk := (Node.lookup_eq_some hlook).1
        obtain ⟨hdist', hnames⟩ := Node.names_clear hdist h16 hlook
        simp only [wp_bind, wp_get, wp_pure]
        refine wp_post (clearEntry_open ht (by rw [himage]; exact hk) hroom) ?_
        rintro _ u ⟨hu, himage', hinum⟩
        rw [himage] at himage'
        rw [himage']
        refine ⟨hu, hdist', ?_⟩
        simp only [DirOp.onMap, hnames, Node.names_eq_lookup, hlook, Option.map_some, hinum,
          hg.inum]
    · rintro e t ⟨_, k, hlook, hno⟩
      exact hno (hready k hlook).1
  | lookup name =>
    simp only [DirOp.exec, wp_bind]
    refine wp_mono (dirlookup_open h name) ?_ ?_
    · rintro r t hr
      cases r with
      | none =>
        obtain ⟨rfl, hlook⟩ := hr
        refine ⟨h, hdist, ?_⟩
        simp only [DirOp.onMap, Node.names_eq_lookup, hlook, Option.map_none]
      | some r =>
        obtain ⟨off, b⟩ := r
        obtain ⟨k, hlook, rfl, hg⟩ := hr
        obtain ⟨ht, himage, _⟩ := h.got hg
        simp only [wp_bind, wp_get, wp_pure]
        rw [himage]
        refine ⟨ht, hdist, ?_⟩
        simp only [DirOp.onMap, Node.names_eq_lookup, hlook, Option.map_some, hg.inum]
    · rintro e t ⟨_, k, hlook, hno⟩
      exact hno (hready k hlook)

theorem execDir_spec {ops : List DirOp} (h : OpenDir U dp s) (hdist : (s.image dp).Distinct)
    (hvalid : ∀ op ∈ ops, op.Valid) (hready : AllReady dp ops s) :
    wp (execDir dp ops)
      (fun rs s' => OpenDir U dp s' ∧ (s'.image dp).Distinct ∧
        onMapAll ops (s.image dp).names = (rs, (s'.image dp).names))
      (fun _ _ => False) s := by
  induction ops generalizing s with
  | nil => exact ⟨h, hdist, rfl⟩
  | cons op ops ih =>
    have hop := DirOp.exec_spec h hdist (hvalid op List.mem_cons_self) hready.1
    obtain ⟨r, t, hrun, ht, hdist', hmap⟩ := exists_ok hop fun _ _ he => he
    have hrest := hready.2
    rw [hrun] at hrest
    have hih := ih ht hdist' (fun o ho => hvalid o (List.mem_cons_of_mem op ho)) hrest
    obtain ⟨rs, u, hrun', hu, hdist'', hmap'⟩ := exists_ok hih fun _ _ he => he
    unfold execDir wp
    rw [bind_ok hrun, bind_ok hrun']
    refine ⟨hu, hdist'', ?_⟩
    simp only [onMapAll, hmap, hmap']

/-- A directory is a map from the first 14 bytes of names.  A run whose operations all find what
they need gives the answers of the map and leaves its bindings,
with one entry for each name; afterwards as before, a name that is there is refused and
nothing changes but entries of the cache that are not in use. -/
theorem directory_is_map (ops : List DirOp) (h : OpenDir U dp s) (hdist : (s.image dp).Distinct)
    (hvalid : ∀ op ∈ ops, op.Valid) (hready : AllReady dp ops s) :
    ∃ s', execDir dp ops s = (.ok (onMapAll ops (s.image dp).names).1, s') ∧
      (s'.image dp).names = (onMapAll ops (s.image dp).names).2 ∧
      (s'.image dp).Distinct ∧
      ∀ name i, (s'.image dp).names (cut 14 name) ≠ none → (DirOp.link name i).Ready dp s' →
        ∃ s'', dirlink dp name i s' = (.ok (-1), s'') ∧ s'' = { s' with icache := s''.icache } ∧
          ∀ c, 0 < (s'.icache c).ref → s''.icache c = s'.icache c := by
  obtain ⟨rs, s', hrun, hdir, hdist', hmap⟩ :=
    exists_ok (execDir_spec h hdist hvalid hready) fun _ _ he => he
  refine ⟨s', by rw [hrun, hmap], by rw [hmap], hdist', ?_⟩
  intro name i hname hlink
  rw [Node.names_eq_lookup] at hname
  have hfound : (s'.image dp).lookup name ≠ none := by
    intro hnone
    rw [hnone] at hname
    exact hname rfl
  obtain ⟨k, hlook⟩ := Option.ne_none_iff_exists'.mp hfound
  obtain ⟨hroom, hself⟩ := hlink.2 k hlook
  obtain ⟨r, s'', hput, rfl, _, _, hsame⟩ :=
    exists_ok (dirlink_present (i := i) hdir hlook hroom hself) fun _ _ he => he
  exact ⟨s'', hput, hsame⟩

theorem In.openDir {R : Multiset Ino} {X : Finset Nat} (h : In s R {dp} X)
    (hout : 0 < s.outstanding) (hdir : (s.node (s.icache dp).inum).type = T_DIR) :
    OpenDir (others s.sb s.disk (s.icache dp).inum) dp s := by
  have hmem : dp ∈ ({dp} : Finset Ino) := Finset.mem_singleton_self dp
  have hd := h.locked_dinode hmem
  have hlock := h.locked dp hmem
  have h16 := (h.dirs _ hdir).1
  rw [State.length_node_data, ← hd.1] at h16
  refine ⟨h.rep.ok, hout, h.range dp hlock.1, hlock.1, (h.locks dp).mpr hmem, ?_, ?_, h16, ?_, ?_⟩
  · rw [h.type_locked hmem]
    exact hdir
  · rw [hd.1]
    exact h.rep.local hd.2
  · intro b hb href heq
    exact hb (h.uniq b dp href hlock.1 heq)
  · intro b hb
    have hnot : (s.icache b).locked ≠ true := by
      rw [ne_eq, h.locks b, Finset.mem_singleton]
      exact hb
    simpa using hnot

def newDirTest (s₀ : State) : Bool :=
  match beginLocked 1 s₀ with
  | (.ok _, s) => decide ((s₀.proc 0).cwd = some 1 ∧ s.outstanding = 1 ∧ s.logged = [] ∧
      (s.node (s.icache 1).inum).type = T_DIR ∧ (s.icache 1).d.size = 32 ∧ s.logCap = 29 ∧
      (s.image 1).Distinct ∧ (s.image 1).lookup [120] = none ∧ (s.image 1).slot = 2 ∧
      (s.image 1).names (cut 14 dot) = some (s.icache 1).inum ∧
      (dirlink 1 dot 7 s).1 = .error .deadlock)
  | _ => false

theorem exists_new_dir :
    ∃ s U, OpenDir U 1 s ∧ (s.image 1).Distinct ∧ (s.image 1).lookup [120] = none ∧
      EntryRoom 1 (s.image 1).slot s ∧
      (s.image 1).names (cut 14 dot) = some (s.icache 1).inum ∧
      (dirlink 1 dot 7 s).1 = .error .deadlock := by
  obtain ⟨s0, hrun, htest⟩ := exists_of_run_map step (boot freshImage [])
    [(0, .mkdir (some [100])), (0, .chdir (some [100]))] newDirTest (by decide +kernel)
  have hsettled := settled_of_reachable consistent_freshImage ⟨_, hrun⟩
  unfold newDirTest at htest
  cases hlock : beginLocked 1 s0 with
  | mk r s =>
    rw [hlock] at htest
    cases r with
    | error x => cases htest
    | ok _ =>
      obtain ⟨hcwd, hout, hlogged, htype, hsize, hcap, hdist, hnone, hslot, hdot, hwaits⟩ :=
        of_decide_eq_true htest
      have hin := hsettled.beginLocked (State.holders_of_cwd hcwd) hlock
      refine ⟨s, _, hin.openDir (by omega) htype, hdist, hnone, ?_, hdot, hwaits⟩
      rw [hslot]
      refine ⟨by decide, ?_, ?_⟩
      · rw [hsize]
        exact Nat.zero_le _
      · rw [hsize, hlogged, hcap]
        decide

theorem link_in_new_dir :
    ∃ s s', (s.image 1).lookup [120] = none ∧
      execDir 1 [.link [120] 7] s = (.ok [.returned 0], s') ∧
      (s'.image 1).names [120] = some 7 := by
  obtain ⟨s, U, h, hdist, hnone, hroom, _⟩ := exists_new_dir
  have hnames : (s.image 1).names (cut 14 [120]) = none := by
    rw [Node.names_eq_lookup, hnone]
    rfl
  obtain ⟨s', hrun, hmap, _⟩ := directory_is_map [.link [120] 7] h hdist
    (by simp [DirOp.Valid]) ⟨⟨fun _ => hroom, by simp [hnone]⟩, trivial⟩
  refine ⟨s, s', hnone, ?_, ?_⟩
  · rw [hrun]
    simp only [onMapAll, DirOp.onMap, if_pos hnames]
  · rw [hmap]
    simp only [onMapAll, DirOp.onMap, if_pos hnames]
    exact update_self _ _ _

/-- The name "." is there, but `dirlink` does not return -1: it waits for the lock of the directory,
which its caller holds. -/
theorem link_of_dot_waits :
    ∃ s U, OpenDir U 1 s ∧ (s.image 1).Distinct ∧ (DirOp.link dot 7).Valid ∧
      (s.image 1).names (cut 14 dot) ≠ none ∧ (dirlink 1 dot 7 s).1 = .error .deadlock := by
  obtain ⟨s, U, h, hdist, _, _, hdot, hwaits⟩ := exists_new_dir
  exact ⟨s, U, h, hdist, by simp [DirOp.Valid], by simp [hdot], hwaits⟩

end Xv6.Fs
