import Xv6.Fs.Image
import Xv6.Fs.Usage
import Xv6.Fs.Life

/-!
# Looking up names

Reading a locked directory does not change anything; a lookup takes a reference to
the inode it finds, and a walk along a path gives back all references on its way.
A walk ends in a panic only when the inode cache is full or when a directory entry
names a free inode.
-/

namespace Xv6.Fs

open Lib Lib.Prog Log Ptable Multiset

variable {s s' s'' : State} {R : Multiset Ino} {L : Finset Ino} {X : Finset Nat} {a : Ino}
variable {name : Str} {i k : Nat} {nameiparent : Bool} {goal : Option (Nat × Str)}
variable {r : Option (Ino × Str)}

section
variable (h : In s R L X) (ha : a ∈ L)
include h ha

theorem In.image_eq : s.image a = s.node (s.icache a).inum := by
  unfold State.image
  rw [(h.locked_dinode ha).1]
  rfl

theorem In.shape_locked : (s.icache a).d.Shape s.disk (blocksFor (s.icache a).d.size) := by
  have hd := h.locked_dinode ha
  rw [hd.1]
  exact h.rep.shape _ hd.2

theorem In.type_locked : (s.icache a).d.type = (s.node (s.icache a).inum).type := by
  rw [(h.locked_dinode ha).1, State.node_type]

theorem readi_spec {E : Stop → State → Prop}
    (hdev : (s.node (s.icache a).inum).type ≠ T_DEV) (off n : Nat) :
    wp (readi a off n)
      (fun r s' => s' = s ∧
        r = if (s.node (s.icache a).inum).data.length < off ∨ (off + n) % 2 ^ 32 < off then none
          else some (((s.node (s.icache a).inum).data.drop off).take n)) E s := by
  have hd := h.locked_dinode ha
  rw [← h.image_eq ha]
  apply readi_image
  · rw [hd.1]
    exact hd.2
  · rw [h.type_locked ha]
    exact hdev
  · exact h.shape_locked ha

theorem In.isDir (hdir : (s.node (s.icache a).inum).type = T_DIR) : IsDir s a := by
  have h16 := (h.dirs (s.icache a).inum hdir).1
  rw [← h.image_eq ha, State.length_image_data] at h16
  exact ⟨(h.type_locked ha).trans hdir, h.shape_locked ha, h16⟩

theorem dirlookup_spec (hdir : (s.node (s.icache a).inum).type = T_DIR) :
    wp (dirlookup a name)
      (fun r s' => match r with
        | none => s' = s ∧ (s.node (s.icache a).inum).lookup name = none
        | some (off, b) => ∃ k, (s.node (s.icache a).inum).lookup name = some k ∧ off = 16 * k ∧
            In s' (b ::ₘ R) L X ∧ Quiet R s s' ∧
            (s'.icache b).inum = ((s.node (s.icache a).inum).entry k).inum)
      (fun e _ => e = .igetNoInodes) s := by
  rw [(h.isDir ha hdir).wp_dirlookup, h.image_eq ha]
  cases hlook : (s.node (s.icache a).inum).lookup name with
  | none => exact ⟨rfl, rfl⟩
  | some k =>
    have hk := Node.lookup_eq_some hlook
    have hinum := ((h.dirs (s.icache a).inum hdir).2 k hk.1).resolve_left hk.2.1
    refine wp_post (iget_spec h hinum) ?_
    rintro b s' ⟨h', hq, hinum'⟩
    exact ⟨k, rfl, rfl, h', hq, hinum'⟩

end

def newEntry (name : Str) (i : Nat) : Dirent :=
  ⟨i, strncpy 14 name⟩

/-- The directory after `dirlink`. -/
def Node.link (f : Node) (name : Str) (i : Nat) : Node :=
  f.putEntry f.slot (newEntry name i)

theorem Node.DirOk.putEntry {sb : Superblock} {f : Node} {de : Dirent} (h : f.DirOk sb)
    (hdir : f.type = T_DIR) (hk : k ≤ f.count) (hname : de.name.length = 14)
    (hlt : de.inum < 2 ^ 16) (hinum : de.inum = 0 ∨ sb.IsInum de.inum) :
    (f.putEntry k de).DirOk sb := by
  intro _
  have hf := h hdir
  refine ⟨dvd_length_putEntry hf.1 de, ?_⟩
  intro j hj
  rw [count_putEntry hf.1 hk] at hj
  by_cases hjk : j = k
  · subst hjk
    rw [entry_putEntry_self hlt hname]
    exact hinum
  · rw [entry_putEntry_of_ne de hjk]
    exact hf.2 j (by omega)

theorem Superblock.IsInum.lt {sb : Superblock} (hok : sb.Ok) (hi : sb.IsInum i) : i < 2 ^ 16 := by
  have h1 := hok.inum
  have h2 := hi.2
  omega

def NoEntry (e : Stop) : Prop :=
  NoRoom e ∨ e = .dirlinkWrite

section
variable (h : In s R L X) (ha : a ∈ L) (hout : 0 < s.outstanding)
include h ha hout

section
variable (hdir : (s.node (s.icache a).inum).type = T_DIR)
include hdir

theorem writeEntry_spec {x : Dirent}
    (hk : k ≤ (s.node (s.icache a).inum).count) (hmax : 16 * k + 16 ≤ 71680)
    (hok : ((s.node (s.icache a).inum).putEntry k x).DirOk s.sb) :
    wp (writei a (16 * k) x.bytes)
      (fun r s' => r = 16 ∧ In s' R L X ∧ Changed a ((s.node (s.icache a).inum).putEntry k x) s s')
      (fun e _ => NoRoom e) s := by
  have hbytes : x.bytes.length = 16 := Dirent.length_bytes x
  have hoff : 16 * k ≤ (s.node (s.icache a).inum).data.length := by
    unfold Node.count at hk
    omega
  refine wp_post (writei_accept h ha hout (by rw [hdir]; decide) hoff (by rw [hbytes]; exact hmax)
    hok) ?_
  rintro r s' ⟨rfl, hs'⟩
  rw [hbytes]
  exact ⟨rfl, hs'⟩

theorem dirlinkAt_spec (hi : s.sb.IsInum i) :
    wp (dirlinkAt a (16 * (s.node (s.icache a).inum).slot) name i)
      (fun r s' => r = 0 ∧ In s' R L X ∧ Changed a ((s.node (s.icache a).inum).link name i) s s')
      (fun e _ => NoEntry e) s := by
  have hslot := Node.slot_le (s.node (s.icache a).inum)
  unfold dirlinkAt
  rw [wp_bind]
  by_cases hmax : 16 * (s.node (s.icache a).inum).slot + 16 ≤ 71680
  · refine wp_mono (writeEntry_spec (x := newEntry name i) h ha hout hdir hslot hmax ?_) ?_
      fun _ _ he => .inl he
    · exact (h.dirs _).putEntry hdir hslot (length_strncpy 14 name) (hi.lt h.rep.ok) (.inr hi)
    · rintro r s' ⟨rfl, hs'⟩
      exact ⟨rfl, hs'⟩
  -- the directory has its maximal size
  have hd := h.isDir ha hdir
  have hsize := size_le_of_shape hd.shape
  have hlen := State.length_image_data s a
  have hbytes : (Dirent.bytes ⟨i, strncpy 14 name⟩).length = 16 := Dirent.length_bytes _
  rw [← h.image_eq ha] at hslot hmax ⊢
  unfold Node.count at hslot
  unfold writei
  simp only [MAXFILE, NDIRECT, NINDIRECT, wp_bind, wp_get, wp_ite, wp_pure, hbytes]
  rw [if_neg (by rw [hd.type]; decide), if_neg (by omega), if_pos (by omega), if_neg (by decide)]
  exact .inr rfl

theorem dirlink_new (hi : s.sb.IsInum i) (hnone : (s.node (s.icache a).inum).lookup name = none) :
    wp (dirlink a name i)
      (fun r s' => r = 0 ∧ In s' R L X ∧ Changed a ((s.node (s.icache a).inum).link name i) s s')
      (fun e _ => NoEntry e ∨ e = .igetNoInodes) s := by
  rw [(h.isDir ha hdir).wp_dirlink, h.image_eq ha, hnone]
  exact wp_mono (dirlinkAt_spec h ha hout hdir hi) (fun _ _ hq => hq) fun _ _ he => .inl he

end

end

theorem dirlink_found (h : In s R L X) (ha : a ∈ L) (hX : Pinned s R X)
    (hdir : (s.node (s.icache a).inum).type = T_DIR)
    (hsome : (s.node (s.icache a).inum).lookup name = some k) :
    wp (dirlink a name i)
      (fun r s' => r = -1 ∧ In s' R L X ∧ Quiet R s s' ∧
        ∀ b ∈ L, (s.icache b).inum ≠ ((s.node (s.icache a).inum).entry k).inum)
      (fun e _ => e = .igetNoInodes ∧ ¬CacheRoom s ((s.node (s.icache a).inum).entry k).inum ∨
        e = .deadlock ∧
          ∃ b ∈ L, (s.icache b).inum = ((s.node (s.icache a).inum).entry k).inum) s := by
  have hk := Node.lookup_eq_some hsome
  have hi := ((h.dirs (s.icache a).inum hdir).2 k hk.1).resolve_left hk.2.1
  rw [(h.isDir ha hdir).wp_dirlink, h.image_eq ha, hsome]
  refine wp_mono (wp_and (iget_spec h hi) (iget_got s _)) ?_ fun _ _ he => .inl he.2
  rintro b s1 ⟨⟨h1, hq, hinum⟩, _⟩
  have hsame : ∀ c ∈ L, (s1.icache c).inum = (s.icache c).inum := by
    intro c hc
    have href := h.refs c
    have hpos := (h.locked c hc).1
    exact hq.inum c (by omega)
  by_cases hb : b ∈ L
  · unfold iput acquiresleep
    simp only [wp_bind, wp_get, wp_ite, wp_throw]
    rw [if_pos ((h1.locks b).mpr hb)]
    exact .inr ⟨trivial, b, hb, (hsame b hb).symm.trans hinum⟩
  refine wp_post (iput_keep h1 hb (hX.quiet hq)) ?_
  rintro _ s2 ⟨h2, hq2⟩
  refine ⟨rfl, h2, hq.trans hq2 (le_refl R), ?_⟩
  intro c hc heq
  have hcb : c = b := by
    apply h1.uniq c b (h1.locked c hc).1
    · exact h1.ref_pos (mem_cons_self b _)
    · rw [hsame c hc, heq, hinum]
  exact hb (hcb ▸ hc)

/-- Where a path leads from the inode `n`; with `nameiparent` its last element is kept. -/
def resolve (node : Nat → Node) (nameiparent : Bool) : Nat → Nat → Str → Option (Nat × Str)
  | 0, _, _ => none
  | fuel + 1, n, path =>
    match skipelem path with
    | none => if nameiparent = true then none else some (n, [])
    | some (name, rest) =>
      if (node n).type ≠ T_DIR then none
      else if nameiparent = true ∧ rest = [] then some (n, name)
      else
        match (node n).lookup name with
        | none => none
        | some k => resolve node nameiparent fuel ((node n).entry k).inum rest

theorem Node.entry_congr {f g : Node} (h : f.data = g.data) (k : Nat) : f.entry k = g.entry k := by
  unfold Node.entry
  rw [h]

theorem Node.lookup_congr {f g : Node} (h : f.data = g.data) (name : Str) :
    f.lookup name = g.lookup name := by
  unfold Node.lookup Node.count Node.entry
  rw [h]

theorem resolve_congr {node node' : Nat → Node} (htype : ∀ n, (node' n).type = (node n).type)
    (hdata : ∀ n, (node' n).data = (node n).data) (nameiparent : Bool) (fuel n : Nat) (path : Str) :
    resolve node' nameiparent fuel n path = resolve node nameiparent fuel n path := by
  induction fuel generalizing n path with
  | zero => rfl
  | succ fuel ih =>
    unfold resolve
    simp only [htype, Node.lookup_congr (hdata n), Node.entry_congr (hdata n), ih]

namespace State

/-- The number of the inode at which a path starts. -/
def start (s : State) (p : Slot) (path : Str) : Nat :=
  if path.head? = some slash then ROOTINO
  else
    match (s.proc p).cwd with
    | none => 0
    | some ip => (s.icache ip).inum

def resolve (s : State) (p : Slot) (nameiparent : Bool) (path : Str) : Option (Nat × Str) :=
  Fs.resolve s.node nameiparent (path.length + 1) (s.start p path) path

end State

/-- The parts of a path between slashes that are not empty, cut to `DIRSIZ` bytes. -/
def elements (path : Str) : List Str :=
  ((path.splitOn slash).filter (· ≠ [])).map (·.take 14)

/-- From a directory to the inode that it has under a name. -/
def follow (node : Nat → Node) (n : Nat) (name : Str) : Option Nat :=
  if (node n).type = T_DIR then ((node n).lookup name).map fun k => ((node n).entry k).inum
  else none

section
open List

variable {path rest : Str} {c : UInt8} {cs : Str}

theorem head_of_dropWhile {p : UInt8 → Bool} (h : path.dropWhile p = c :: cs) : p c = false := by
  have hhead := head_dropWhile_not (l := path) p (by rw [h]; simp)
  simpa only [h, head_cons] using hhead

theorem elements_append (w as : Str) : elements (w ++ slash :: as) = elements w ++ elements as := by
  have hsplit := splitOnP_append_cons (p := (· == slash)) w as (beq_self_eq_true slash)
  unfold elements splitOn
  rw [hsplit, filter_append, map_append]

theorem elements_word {w : Str} (hw : slash ∉ w) (hne : w ≠ []) : elements w = [w.take 14] := by
  unfold elements
  rw [splitOn_eq_singleton hw]
  simp [hne]

theorem elements_dropWhile (path : Str) :
    elements (path.dropWhile (· = slash)) = elements path := by
  induction path with
  | nil => rfl
  | cons c path ih =>
    by_cases hc : c = slash
    · rw [dropWhile_cons_of_pos (by simp [hc]), ih, hc]
      exact (elements_append [] path).symm
    · rw [dropWhile_cons_of_neg (by simpa using hc)]

theorem elements_cons (hc : c ≠ slash) :
    elements (c :: cs) = ((c :: cs).takeWhile (· ≠ slash)).take 14 ::
      elements ((c :: cs).dropWhile (· ≠ slash)) := by
  have hw : slash ∉ (c :: cs).takeWhile (· ≠ slash) := by
    intro hmem
    have hall := all_takeWhile (p := (· ≠ slash)) (l := c :: cs)
    simpa using all_eq_true.mp hall slash hmem
  have hne : (c :: cs).takeWhile (· ≠ slash) ≠ [] := by simp [hc]
  have hsplit := takeWhile_append_dropWhile (p := (· ≠ slash)) (l := c :: cs)
  cases hr : (c :: cs).dropWhile (· ≠ slash) with
  | nil =>
    rw [hr, append_nil] at hsplit
    have hword := elements_word hw hne
    rwa [hsplit] at hword ⊢
  | cons d as =>
    have hd : d = slash := by simpa using head_of_dropWhile hr
    rw [hr, hd] at hsplit
    have happ := elements_append ((c :: cs).takeWhile (· ≠ slash)) as
    rw [hsplit, elements_word hw hne] at happ
    rw [happ, hd]
    exact congrArg _ (elements_append [] as).symm

theorem elements_of_skipelem (h : skipelem path = some (name, rest)) :
    elements path = name :: elements rest ∧ (rest = [] ↔ elements rest = []) := by
  unfold skipelem at h
  rw [← elements_dropWhile path]
  cases hp : path.dropWhile (· = slash) with
  | nil =>
    rw [hp] at h
    cases h
  | cons c cs =>
    have hc : c ≠ slash := by simpa using head_of_dropWhile hp
    rw [hp] at h
    cases h
    refine ⟨by rw [elements_dropWhile, elements_cons hc], ?_, ?_⟩
    · intro hrest
      rw [hrest]
      rfl
    intro hnone
    cases hr : ((c :: cs).dropWhile (· ≠ slash)).dropWhile (· = slash) with
    | nil => rfl
    | cons d as =>
      have hd : d ≠ slash := by simpa using head_of_dropWhile hr
      rw [hr, elements_cons hd] at hnone
      cases hnone

theorem elements_of_skipelem_none (h : skipelem path = none) : elements path = [] := by
  unfold skipelem at h
  rw [← elements_dropWhile path]
  cases hp : path.dropWhile (· = slash) with
  | nil => rfl
  | cons c cs =>
    rw [hp] at h
    cases h

end

def walkNames (nameiparent : Bool) (path : Str) : List Str :=
  if nameiparent = true then (elements path).dropLast else elements path

theorem walkNames_cons {path rest : Str} (nameiparent : Bool)
    (h : skipelem path = some (name, rest)) :
    walkNames nameiparent path = if nameiparent = true ∧ rest = [] then []
      else name :: walkNames nameiparent rest := by
  obtain ⟨heq, hlast⟩ := elements_of_skipelem h
  simp only [walkNames, heq, hlast]
  by_cases hp : nameiparent = true
  · by_cases hrest : elements rest = []
    · simp [hp, hrest]
    · simp [hp, hrest, List.dropLast_cons_of_ne_nil]
  · simp [hp]

def HasEntry (C : Finset Nat) (n : Nat) : Prop :=
  n ∈ C ∨ C.card < NINODE

/-- The walk from `n` finds an entry of the cache for each inode while it has one for the directory
before; the entries for `C` are in use all the time. -/
def WalkRoom (node : Nat → Node) (C : Finset Nat) : Nat → List Str → Prop
  | _, [] => True
  | n, name :: names =>
    ∀ m ∈ follow node n name, HasEntry (insert n C) m ∧ WalkRoom node C m names

/-- The same for a path that starts at `n`, and for the root if it starts there. -/
def PathRoom (node : Nat → Node) (C : Finset Nat) (nameiparent : Bool) (n : Nat) (path : Str) :
    Prop :=
  (path.head? = some slash → HasEntry C ROOTINO) ∧
    WalkRoom node C n (walkNames nameiparent path)

theorem pathRoom_congr {node node' : Nat → Node} {C : Finset Nat}
    (htype : ∀ n, (node' n).type = (node n).type) (hdata : ∀ n, (node' n).data = (node n).data)
    (nameiparent : Bool) (n : Nat) (path : Str) :
    PathRoom node' C nameiparent n path ↔ PathRoom node C nameiparent n path := by
  have hfollow : ∀ n name, follow node' n name = follow node n name := by
    intro n name
    simp only [follow, htype, Node.lookup_congr (hdata n), Node.entry_congr (hdata n)]
  have hwalk : ∀ n names, WalkRoom node' C n names ↔ WalkRoom node C n names := by
    intro n names
    induction names generalizing n with
    | nil => exact Iff.rfl
    | cons name names ih => simp only [WalkRoom, hfollow, ih]
  unfold PathRoom
  rw [hwalk]

/-- The inodes with an entry of the cache that somebody has a reference to. -/
def State.kept (s : State) (R : Multiset Ino) : Finset Nat :=
  (Finset.univ.filter fun b => 0 < s.holders b + R.count b).image fun b => (s.icache b).inum

theorem State.mem_kept {n : Nat} :
    n ∈ s.kept R ↔ ∃ b, 0 < s.holders b + R.count b ∧ (s.icache b).inum = n := by
  simp [kept]

theorem State.kept_cons (s : State) (a : Ino) (R : Multiset Ino) :
    s.kept (a ::ₘ R) = insert (s.icache a).inum (s.kept R) := by
  ext n
  rw [Finset.mem_insert, mem_kept, mem_kept]
  constructor
  · rintro ⟨b, hb, rfl⟩
    by_cases hba : b = a
    · exact .inl (hba ▸ rfl)
    · rw [count_cons_of_ne hba] at hb
      exact .inr ⟨b, hb, rfl⟩
  · rintro (rfl | ⟨b, hb, rfl⟩)
    · exact ⟨a, by simp, rfl⟩
    · exact ⟨b, hb.trans_le (Nat.add_le_add_left (count_le_count_cons b a R) _), rfl⟩

theorem Frame.kept (h : Frame R s s') : s'.kept R = s.kept R := by
  ext n
  simp only [State.mem_kept, h.holders]
  constructor
  · rintro ⟨b, hb, rfl⟩
    exact ⟨b, hb, (h.inum b hb).symm⟩
  · rintro ⟨b, hb, rfl⟩
    exact ⟨b, hb, h.inum b hb⟩

theorem Quiet.kept (hq : Quiet R s s') : s'.kept R = s.kept R :=
  hq.frame.kept

theorem In.cacheRoom_iff (h : In s R L X) (n : Nat) : CacheRoom s n ↔ HasEntry (s.kept R) n := by
  have hcard : (s.kept R).card =
      (Finset.univ.filter fun b => 0 < s.holders b + R.count b).card := by
    apply Finset.card_image_of_injOn
    intro b hb c hc heq
    simp only [Finset.coe_filter, Finset.mem_univ, true_and, Set.mem_ofPred_eq, ← h.refs] at hb hc
    exact h.uniq b c hb hc heq
  have hfree : (s.kept R).card < NINODE ↔ ∃ b, (s.icache b).ref = 0 := by
    have hlt := Finset.card_lt_iff_ne_univ (Finset.univ.filter fun b => 0 < s.holders b + R.count b)
    rw [Fintype.card_fin] at hlt
    rw [hcard, hlt, ne_eq, Finset.eq_univ_iff_forall, not_forall]
    simp only [Finset.mem_filter, Finset.mem_univ, true_and, ← h.refs, Nat.pos_iff_ne_zero, not_not]
  unfold HasEntry CacheRoom
  rw [hfree, State.mem_kept, exists_or]
  simp only [h.refs]

theorem In.dirlookup_room (h : In s R L X) (ha : a ∈ L)
    (hdir : (s.node (s.icache a).inum).type = T_DIR) :
    wp (dirlookup a name)
      (fun _ _ => ∀ m ∈ follow s.node (s.icache a).inum name, HasEntry (s.kept R) m)
      (fun _ _ => ∃ m ∈ follow s.node (s.icache a).inum name, ¬HasEntry (s.kept R) m) s := by
  rw [(h.isDir ha hdir).wp_dirlookup, h.image_eq ha]
  unfold follow
  rw [if_pos hdir]
  cases hlook : (s.node (s.icache a).inum).lookup name with
  | none =>
    rintro m ⟨⟩
  | some k =>
    refine wp_mono (iget_got s _) ?_ ?_
    · rintro b t hg m ⟨⟩
      exact (h.cacheRoom_iff _).mp hg.room
    · rintro e t ⟨_, hroom⟩
      exact ⟨_, rfl, fun hentry => hroom ((h.cacheRoom_iff _).mpr hentry)⟩

/-- Every entry of a directory names an inode that is in use. -/
def Sound (node : Nat → Node) : Prop :=
  (node ROOTINO).type ≠ 0 ∧
    ∀ d, (node d).type = T_DIR → ∀ k < (node d).count, ((node d).entry k).inum ≠ 0 →
      (node ((node d).entry k).inum).type ≠ 0

def NoWalk (node : Nat → Node) (e : Stop) : Prop :=
  e = .igetNoInodes ∨ e = .noType ∧ ¬Sound node

def WalkStops (node : Nat → Node) (room : Prop) (goal : Option (Nat × Str)) (e : Stop) : Prop :=
  e = .igetNoInodes ∧ ¬room ∨ e = .noType ∧ ¬Sound node ∧ goal = none

theorem WalkStops.noWalk {node : Nat → Node} {room : Prop} {e : Stop}
    (h : WalkStops node room goal e) : NoWalk node e :=
  h.imp And.left fun hno => ⟨hno.1, hno.2.1⟩

/-- What a walk leaves behind: the references as before, and one to the inode found. -/
structure Walked (R : Multiset Ino) (X : Finset Nat) (nameiparent : Bool)
    (goal : Option (Nat × Str)) (s : State) (r : Option (Ino × Str)) (s' : State) : Prop where
  quiet : Quiet R s s'
  found : r.map (fun x => ((s'.icache x.1).inum, x.2)) = goal
  inv : In s' (r.elim R fun x => x.1 ::ₘ R) ∅ X
  alloc : Sound s.node → ∀ x ∈ r, (s.node (s'.icache x.1).inum).type ≠ 0
  dir : nameiparent = true → ∀ x ∈ r, (s.node (s'.icache x.1).inum).type = T_DIR

theorem Walked.after (hq : Quiet R s s') (h : Walked R X nameiparent goal s' r s'') :
    Walked R X nameiparent goal s r s'' where
  quiet := hq.trans h.quiet (le_refl R)
  found := h.found
  inv := h.inv
  alloc := by
    rw [← hq.node_eq]
    exact h.alloc
  dir := by
    rw [← hq.node_eq]
    exact h.dir

theorem Walked.none (hq : Quiet R s s') (h : In s' R ∅ X) :
    Walked R X nameiparent none s none s' where
  quiet := hq
  found := rfl
  inv := h
  alloc := by
    intro _ x hx
    cases hx
  dir := by
    intro _ x hx
    cases hx

theorem Walked.ilock {x : Str} (hw : Walked R X nameiparent goal s (some (a, x)) s') :
    wp (ilock a)
      (fun _ t => In t (a ::ₘ R) (insert a ∅) X ∧ Quiet R s t ∧
        (t.icache a).inum = (s'.icache a).inum ∧ (s.node (s'.icache a).inum).type ≠ 0)
      (fun e _ => NoWalk s.node e ∧ (s.node (s'.icache a).inum).type = 0) s' := by
  have h : In s' (a ::ₘ R) ∅ X := hw.inv
  refine wp_mono (ilock_spec h (h.ref_pos (mem_cons_self a R)) (Finset.notMem_empty a)) ?_ ?_
  · rintro _ t ⟨ht, hq, hinum, htype⟩
    rw [hw.quiet.node_eq] at htype
    exact ⟨ht, hw.quiet.trans hq (le_cons_self R a), hinum, htype⟩
  · rintro e _ ⟨he, htype⟩
    rw [hw.quiet.node_eq] at htype
    exact ⟨.inr ⟨he, fun hs => hw.alloc hs (a, x) rfl htype⟩, htype⟩

theorem namexLoop_spec (nameiparent : Bool) (fuel : Nat) (path : Str) (hfuel : path.length < fuel)
    (h : In s (a ::ₘ R) ∅ X) (hX : Pinned s R X)
    (hsound : Sound s.node → (s.node (s.icache a).inum).type ≠ 0) :
    wp (namexLoop nameiparent fuel a path)
      (fun r s' =>
        Walked R X nameiparent (resolve s.node nameiparent fuel (s.icache a).inum path) s r s' ∧
        WalkRoom s.node (s.kept R) (s.icache a).inum (walkNames nameiparent path))
      (fun e _ => WalkStops s.node
        (WalkRoom s.node (s.kept R) (s.icache a).inum (walkNames nameiparent path))
        (resolve s.node nameiparent fuel (s.icache a).inum path) e) s := by
  induction fuel generalizing s a path with
  | zero => omega
  | succ fuel ih =>
    unfold namexLoop resolve
    cases hskip : skipelem path with
    | none =>
      have hroom : walkNames nameiparent path = [] := by
        unfold walkNames
        rw [elements_of_skipelem_none hskip]
        split <;> rfl
      rw [hroom]
      simp only [wp_ite, wp_bind, wp_pure]
      by_cases hp : nameiparent = true
      · rw [if_pos hp, if_pos hp]
        refine wp_post (iput_keep h (Finset.notMem_empty a) hX) ?_
        rintro _ s1 ⟨h1, hq⟩
        exact ⟨Walked.none hq h1, trivial⟩
      · rw [if_neg hp, if_neg hp]
        refine ⟨⟨Quiet.refl R s, rfl, h, ?_, fun hp' => absurd hp' hp⟩, trivial⟩
        rintro hs x ⟨⟩
        exact hsound hs
    | some elem =>
      obtain ⟨name, rest⟩ := elem
      have hlen := skipelem_length hskip
      have hpos : 0 < (s.icache a).ref := h.ref_pos (mem_cons_self _ _)
      rw [walkNames_cons nameiparent hskip]
      simp only [wp_bind]
      refine wp_mono (ilock_spec h hpos (Finset.notMem_empty a)) ?_ ?_
      swap
      · rintro e _ ⟨he, ht⟩
        refine .inr ⟨he, fun hs => hsound hs ht, ?_⟩
        rw [if_pos (by rw [ht]; decide)]
      rintro _ s1 ⟨h1, hq1, hinum1, _⟩
      have hmem : a ∈ insert a (∅ : Finset Ino) := Finset.mem_insert_self a ∅
      have hd1 := h1.locked_dinode hmem
      have hqR := hq1.mono (le_cons_self R a)
      have hX1 := hX.quiet hqR
      have hkept : s1.kept (a ::ₘ R) = insert (s1.icache a).inum (s.kept R) := by
        rw [State.kept_cons, hqR.kept]
      rw [← hinum1, ← hq1.node_eq]
      simp only [wp_get, wp_ite, wp_bind, wp_pure]
      rw [hd1.1, ← State.node_type]
      by_cases hdir : (s1.node (s1.icache a).inum).type ≠ T_DIR
      · rw [if_pos hdir, if_pos hdir]
        refine wp_post (iunlockput_keep h1 (Finset.notMem_empty a) hX1) ?_
        rintro _ s2 ⟨h2, hq2⟩
        refine ⟨Walked.none (hqR.trans hq2 (le_refl R)) h2, ?_⟩
        split
        · trivial
        · intro m hm
          rw [follow, if_neg hdir] at hm
          cases hm
      rw [if_neg hdir, if_neg hdir]
      rw [not_not] at hdir
      by_cases hlast : nameiparent = true ∧ rest = []
      · rw [if_pos hlast, if_pos hlast, if_pos hlast]
        refine wp_post (iunlock_spec h1 (Finset.notMem_empty a)) ?_
        rintro _ s2 ⟨h2, hq2, hinum2⟩
        have htype : (s.node (s2.icache a).inum).type = T_DIR := by
          rw [hinum2, ← hq1.node_eq]
          exact hdir
        refine ⟨⟨hqR.trans hq2 (le_cons_self R a), ?_, h2, ?_, ?_⟩, trivial⟩
        · simp only [Option.map_some, hinum2]
        · rintro _ x ⟨⟩
          rw [htype]
          decide
        · rintro _ x ⟨⟩
          exact htype
      rw [if_neg hlast, if_neg hlast, if_neg hlast]
      refine wp_mono (wp_and (dirlookup_spec h1 hmem hdir) (h1.dirlookup_room hmem hdir)) ?_ ?_
      swap
      · rintro e _ ⟨he, m, hm, hfull⟩
        refine .inl ⟨he, fun hroom => hfull ?_⟩
        rw [hkept]
        exact (hroom m hm).1
      rintro r s2 ⟨hr, hentry⟩
      rw [hkept] at hentry
      cases r with
      | none =>
        obtain ⟨hs2, hlook⟩ := hr
        subst hs2
        rw [hlook]
        refine wp_post (iunlockput_keep h1 (Finset.notMem_empty a) hX1) ?_
        rintro _ s3 ⟨h3, hq3⟩
        refine ⟨Walked.none (hqR.trans hq3 (le_refl R)) h3, ?_⟩
        intro m hm
        rw [follow, if_pos hdir, hlook] at hm
        cases hm
      | some found =>
        obtain ⟨off, b⟩ := found
        obtain ⟨k, hlook, _, h2, hq2, hinum2⟩ := hr
        rw [cons_swap] at h2
        have hfollow : follow s1.node (s1.icache a).inum name =
            some ((s1.node (s1.icache a).inum).entry k).inum := by
          rw [follow, if_pos hdir, hlook]
          rfl
        rw [hlook]
        have hbR : Pinned s2 (b ::ₘ R) X := by
          have hX2 := hX1.quiet (hq2.mono (le_cons_self R a))
          intro n hn
          obtain ⟨c, hc, hcn⟩ := hX2 n hn
          exact ⟨c, mem_cons_of_mem hc, hcn⟩
        refine wp_post (iunlockput_keep h2 (Finset.notMem_empty a) hbR) ?_
        rintro _ s3 ⟨h3, hq3⟩
        have hq12 := hqR.trans hq2 (le_cons_self R a)
        have hq := hq12.trans hq3 (le_cons_self R b)
        have hinum3 : (s3.icache b).inum = ((s1.node (s1.icache a).inum).entry k).inum :=
          (hq3.held (mem_cons_self _ _)).trans hinum2
        have hsound3 : Sound s3.node → (s3.node (s3.icache b).inum).type ≠ 0 := by
          intro hs
          rw [hq.node_eq, ← hqR.node_eq] at hs ⊢
          rw [hinum3]
          have hk := Node.lookup_eq_some hlook
          exact hs.2 _ hdir k hk.1 hk.2.1
        have hrest := ih rest (by omega) h3 (hX.quiet hq) hsound3
        rw [hinum3, hq.kept, hq.node_eq, ← hqR.node_eq] at hrest
        refine wp_mono hrest ?_ ?_
        · rintro r t ⟨ht, hroom⟩
          refine ⟨ht.after hq, ?_⟩
          intro m hm
          rw [hfollow] at hm
          cases hm
          exact ⟨hentry _ hfollow, hroom⟩
        · rintro e t (⟨he, hno⟩ | hno)
          · exact .inl ⟨he, fun hroom => hno (hroom _ hfollow).2⟩
          · exact .inr hno

theorem namex_walk {p : Slot} {b : Ino} (nameiparent : Bool) (path : Str) (h : In s R ∅ X)
    (hX : Pinned s R X) (hcwd : (s.proc p).cwd = some b) :
    wp (namex p nameiparent path)
      (fun r s' => Walked R X nameiparent (s.resolve p nameiparent path) s r s' ∧
        PathRoom s.node (s.kept R) nameiparent (s.start p path) path)
      (fun e _ => WalkStops s.node
        (PathRoom s.node (s.kept R) nameiparent (s.start p path) path)
        (s.resolve p nameiparent path) e) s := by
  have hstart : wp (namexStart p path)
      (fun a s' => In s' (a ::ₘ R) ∅ X ∧ Quiet R s s' ∧ (s'.icache a).inum = s.start p path ∧
        (Sound s.node → (s.node (s.start p path)).type ≠ 0) ∧
        (path.head? = some slash → HasEntry (s.kept R) ROOTINO))
      (fun e _ => WalkStops s.node
        (PathRoom s.node (s.kept R) nameiparent (s.start p path) path)
        (s.resolve p nameiparent path) e) s := by
    unfold namexStart State.start
    rw [wp_ite]
    by_cases hroot : path.head? = some slash
    · rw [if_pos hroot, if_pos hroot]
      refine wp_mono (wp_and (iget_spec h h.rep.ok.root) (iget_got s _)) ?_ ?_
      · rintro a s1 ⟨⟨h1, hq, hinum⟩, hg⟩
        exact ⟨h1, hq, hinum, fun hs => hs.1, fun _ => (h.cacheRoom_iff _).mp hg.room⟩
      · rintro e _ ⟨he, _, hfull⟩
        exact .inl ⟨he, fun hroom => hfull ((h.cacheRoom_iff _).mpr (hroom.1 hroot))⟩
    rw [if_neg hroot, if_neg hroot]
    unfold cwdOf
    simp only [wp_bind, wp_get, hcwd, wp_pure]
    have hhold := State.holders_of_cwd hcwd
    refine wp_post (idup_spec h (h.ref_of_holders hhold)) ?_
    rintro a s1 ⟨rfl, h1, hq, hinum⟩
    exact ⟨h1, hq, hinum, fun _ => h.alloc a hhold, fun hslash => absurd hslash hroot⟩
  unfold namex
  refine wp_seq hstart ?_
  rintro a s1 ⟨h1, hq, hinum, hsound, hentry⟩
  have hloop := namexLoop_spec nameiparent _ path (Nat.lt_succ_self _) h1 (hX.quiet hq) (by
    intro hs
    rw [hq.node_eq] at hs ⊢
    rw [hinum]
    exact hsound hs)
  rw [hinum, hq.kept, hq.node_eq] at hloop
  refine wp_mono hloop ?_ ?_
  · rintro r t ⟨ht, hroom⟩
    exact ⟨ht.after hq, hentry, hroom⟩
  · rintro e t (⟨he, hno⟩ | hno)
    · exact .inl ⟨he, fun hroom => hno hroom.2⟩
    · exact .inr hno

theorem namex_spec {p : Slot} {b : Ino} (nameiparent : Bool) (path : Str) (h : In s R ∅ X)
    (hX : Pinned s R X) (hcwd : (s.proc p).cwd = some b) :
    wp (namex p nameiparent path) (Walked R X nameiparent (s.resolve p nameiparent path) s)
      (fun e _ => NoWalk s.node e) s :=
  wp_mono (namex_walk nameiparent path h hX hcwd) (fun _ _ hw => hw.1) fun _ _ he => he.noWalk

end Xv6.Fs
