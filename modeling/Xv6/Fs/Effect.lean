import Xv6.Fs.Lookup

/-!
# What calls do to the table of files

A call that succeeds changes the table in one of a few ways, and then frees nodes
that have lost their last link.  `Effect` lists them; the specifications of the
calls say which one happens and when.
-/

namespace Xv6.Fs

open Lib Lib.Prog Log Ptable Function

variable {node' : Nat → Node} {Q : Unit → State → Prop} {E : Stop → State → Prop}

def noEntry : Dirent :=
  ⟨0, List.replicate 14 0⟩

theorem bytes_noEntry : noEntry.bytes = List.replicate 16 0 := by
  decide

section Tables

variable (node : Nat → Node)

def linked (i d : Nat) (name : Str) : Nat → Node :=
  update (update node i ((node i).addNlink 1)) d ((node d).link name i)

def unlinkedDir (d k i : Nat) : Node :=
  if (node i).type = T_DIR then ((node d).putEntry k noEntry).addNlink (-1)
  else (node d).putEntry k noEntry

def unlinked (d k i : Nat) : Nat → Node :=
  update (update node d (unlinkedDir node d k i)) i ((node i).addNlink (-1))

def Node.new (type major minor : Int) : Node where
  type := short type
  major := short major
  minor := short minor
  nlink := 1
  data := []

def newNode (d n : Nat) (type major minor : Int) : Node :=
  if type = T_DIR then ((Node.new type major minor).link dot n).link dotdot d
  else Node.new type major minor

def parentDir (d : Nat) (type : Int) : Node :=
  if type = T_DIR then (node d).addNlink 1 else node d

def created (d n : Nat) (name : Str) (type major minor : Int) : Nat → Node :=
  update (update node n (newNode d n type major minor)) d
    ((parentDir node d type).link name n)

end Tables

def Frees : (Nat → Node) → (Nat → Node) → Prop :=
  Relation.ReflTransGen fun node node' => ∃ n, (node n).type ≠ 0 ∧ (node n).nlink = 0 ∧
      node' = update node n (node n).freed

def Rewrites (node node' : Nat → Node) : Prop :=
  ∀ n, (node' n).type = (node n).type ∧ (node' n).nlink = (node n).nlink ∧
    ((node n).type = T_DIR → node' n = node n)

theorem Rewrites.refl (node : Nat → Node) : Rewrites node node :=
  fun _ => ⟨rfl, rfl, fun _ => rfl⟩

theorem Rewrites.trans {node node'' : Nat → Node} (h : Rewrites node node')
    (h' : Rewrites node' node'') : Rewrites node node'' := by
  intro n
  obtain ⟨ht, hl, hd⟩ := h n
  obtain ⟨ht', hl', hd'⟩ := h' n
  refine ⟨ht'.trans ht, hl'.trans hl, ?_⟩
  intro hdir
  rw [hd' (ht.trans hdir), hd hdir]

/-- The ways in which a call changes the table. -/
inductive Effect (node : Nat → Node) : (Nat → Node) → Prop where
  | frees {node' : Nat → Node} (h : Frees node node') : Effect node node'
  | writes {node' : Nat → Node} (h : Rewrites node node') : Effect node node'
  | link {node' : Nat → Node} {i d : Nat} {name : Str}
      (hi : (node i).type ≠ 0)
      (hfile : (node i).type ≠ T_DIR)
      (hd : (node d).type = T_DIR)
      (hnew : (node d).lookup name = none)
      (h : Frees (linked node i d name) node') : Effect node node'
  | unlink {node' : Nat → Node} {i d k : Nat} {name : Str}
      (hd : (node d).type = T_DIR)
      (hdot : namecmp name dot ≠ 0)
      (hdotdot : namecmp name dotdot ≠ 0)
      (hk : (node d).lookup name = some k)
      (hi : ((node d).entry k).inum = i)
      (hne : i ≠ d)
      (halloc : (node i).type ≠ 0)
      (hlink : 1 ≤ (node i).nlink)
      (hempty : (node i).type = T_DIR → ∀ j, 2 ≤ j → j < (node i).count →
        ((node i).entry j).inum = 0)
      (h : Frees (unlinked node d k i) node') : Effect node node'
  | create {node' : Nat → Node} {d n : Nat} {name : Str} {type major minor : Int}
      (htype : type = T_DIR ∨ type = T_FILE ∨ type = T_DEV)
      (hd : (node d).type = T_DIR)
      (hnew : (node d).lookup name = none)
      (hn : (node n).type = 0)
      (hn0 : n ≠ 0)
      (h : Frees (created node d n name type major minor) node') : Effect node node'

def Stop.expected : Stop → Bool
  | .tooBig | .outOfBlocks | .iallocNoInodes | .igetNoInodes | .dirlinkWrite | .unlinkNlink => true
  | .filedup | .fileclose | .fileread | .filewrite | .initExiting => true
  | _ => false

def Stops (node : Nat → Node) (D : Prop) (e : Stop) : Prop :=
  e.expected = true ∨ e = .noType ∧ ¬Sound node ∨ e = .deadlock ∧ D

def StopsIff (node : Nat → Node) (D : Prop) (e : Stop) : Prop :=
  Stops node D e ∧ (D → e = .deadlock)

section Stops

variable {node : Nat → Node} {D : Prop} {e : Stop}

theorem LogFull.expected (h : LogFull e) : e.expected = true := by
  unfold LogFull at h
  rw [h]
  rfl

theorem NoRoom.expected (h : NoRoom e) : e.expected = true := by
  rcases h with rfl | rfl
  · rfl
  · rfl

theorem NoEntry.expected (h : NoEntry e ∨ e = .igetNoInodes) : e.expected = true := by
  rcases h with (h | rfl) | rfl
  · exact h.expected
  · rfl
  · rfl

theorem NoInode.expected (h : NoInode e) : e.expected = true := by
  rcases h with rfl | rfl | rfl
  · rfl
  · rfl
  · rfl

theorem LogFull.stops (h : LogFull e) : Stops node D e :=
  .inl h.expected

theorem NoRoom.stops (h : NoRoom e) : Stops node D e :=
  .inl h.expected

theorem NoEntry.stops (h : NoEntry e ∨ e = .igetNoInodes) : Stops node D e :=
  .inl (NoEntry.expected h)

theorem stops_iget (h : e = .igetNoInodes) : Stops node D e :=
  .inl (by rw [h]; rfl)

theorem NoWalk.stops (h : NoWalk node e) : Stops node D e := by
  rcases h with h | h
  · exact stops_iget h
  · exact .inr (.inl h)

theorem Stops.of_not (h : Stops node False e) (hD : ¬D) : StopsIff node D e := by
  refine ⟨?_, fun hd => absurd hd hD⟩
  rcases h with h | h | ⟨_, ⟨⟩⟩
  · exact .inl h
  · exact .inr (.inl h)

end Stops

theorem sound_congr {node : Nat → Node} (htype : ∀ n, (node' n).type = (node n).type)
    (hdata : ∀ n, (node' n).data = (node n).data) : Sound node' ↔ Sound node := by
  unfold Sound Node.count Node.entry
  simp only [htype, hdata]

namespace State

variable (s : State)

def begun : State :=
  { s with outstanding := s.outstanding + 1 }

def ended : State :=
  { s with
    outstanding := s.outstanding - 1
    logged := if s.outstanding - 1 = 0 then [] else s.logged }

end State

section Ends

variable {s s' : State} {R : Multiset Ino} {L : Finset Ino} {X Y : Finset Nat} {a : Ino}

theorem wp_beginOp : wp beginOp Q E s ↔ Q () s.begun :=
  Iff.rfl

theorem wp_endOp : wp endOp Q E s ↔ Q () s.ended :=
  Iff.rfl

theorem wp_endFail {Q : Int → State → Prop} : wp endFail Q E s ↔ Q (-1) s.ended :=
  Iff.rfl

theorem In.begun (h : In s R L X) : In s.begun R L X :=
  ⟨h.rep, h.range, h.uniq, h.sync, h.refs, h.locks, h.locked, h.alloc, h.live, h.dirs, h.files⟩

theorem In.ended (h : In s R L X) : In s.ended R L X :=
  ⟨h.rep, h.range, h.uniq, h.sync, h.refs, h.locks, h.locked, h.alloc, h.live, h.dirs, h.files⟩

theorem In.mono (h : In s R L X) (hX : X ⊆ Y) : In s R L Y :=
  { h with live := fun n hn => h.live n fun hx => hn (hX hx) }

def Ended (s : State) (P : State → Prop) (s' : State) : Prop :=
  ∃ t, s' = t.ended ∧ In t 0 ∅ ∅ ∧ Frame 0 s.begun t ∧ P t

theorem Frame.start (h : Frame R s s') (p : Slot) (path : Str) :
    s'.start p path = s.start p path := by
  unfold State.start
  rw [h.proc]
  cases hcwd : (s.proc p).cwd with
  | none => rfl
  | some a =>
    have ha := State.holders_of_cwd hcwd
    simp only
    rw [h.inum a (by omega)]

theorem Frame.cwd {p : Slot} {b : Ino} (h : Frame R s s') (hcwd : (s.proc p).cwd = some b) :
    (s'.proc p).cwd = some b := by
  rw [h.proc]
  exact hcwd

theorem iunlockput_last {n : Nat} (h : In s (a ::ₘ R) (insert a L) X) (hL : a ∉ L)
    (hn : (s.icache a).inum = n) (hout : 0 < s.outstanding) (hR : R.count a = 0)
    (hX : ∀ m, m ≠ n → m ∉ Y → m ∉ X) :
    wp (iunlockput a)
      (fun _ s' => In s' R L Y ∧ Frame R s s' ∧ (s'.node = s.node ∨
        (s.node n).type ≠ 0 ∧ (s.node n).nlink = 0 ∧ s'.node = update s.node n (s.node n).freed))
      (fun e _ => LogFull e) s := by
  have hlock := h.locked a (Finset.mem_insert_self a L)
  unfold iunlockput
  refine wp_seq (iunlock_spec h hL) ?_
  rintro _ s1 ⟨h1, hq1, hinum1⟩
  have hq := hq1.mono (Multiset.le_cons_self R a)
  have hvalid := hq1.held_valid (Multiset.mem_cons_self _ _) hlock.2
  refine wp_post (iput_last h1 hL (hinum1.trans hn) (by rw [hq1.outstanding]; exact hout) hR
    (fun _ _ => hvalid) hX) ?_
  rintro _ s2 ⟨h2, hend⟩
  refine ⟨h2, ?_⟩
  rcases hend with ⟨hq2, _⟩ | ⟨hf, ht, hl, _⟩
  · exact ⟨(hq.trans hq2 (le_refl R)).frame, .inl (hq2.node_eq.trans hq1.node_eq)⟩
  · rw [hq1.node_eq] at ht hl
    refine ⟨hq.frame.trans hf.frame (le_refl R), .inr ⟨ht, hl, ?_⟩⟩
    rw [hf.node, hq1.node_eq]

end Ends

end Xv6.Fs
