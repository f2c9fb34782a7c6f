import Xv6.User.Grammar

/-!
# The shell parser accepts its grammar

`parsecmd` returns the tree of the derivation of the whole line, or panics when
there is none; and after `nulterminate` the pointers of the tree are C strings.
-/

namespace Xv6.User

open List

variable {buf : List UInt8} {ts : List Token} {w : Nat × Nat} {rs : List Redir} {cmd : Cmd}

def Cmd.words : Cmd → List (Nat × Nat)
  | .exec argv => argv
  | .redir cmd r => cmd.words ++ [(r.file, r.efile)]
  | .pipe left right => left.words ++ right.words
  | .list left right => left.words ++ right.words
  | .back cmd => cmd.words

/-- The memory has the C string `w` at `p`. -/
def CString (mem : Nat → UInt8) (p : Nat) (w : List UInt8) : Prop :=
  (∀ i < w.length, mem (p + i) = w.getD i 0 ∧ w.getD i 0 ≠ 0) ∧ mem (p + w.length) = 0

theorem setNul_apply (mem : Nat → UInt8) (ps : List Nat) (i : Nat) :
    setNul mem ps i = if i ∈ ps then 0 else mem i := by
  induction ps generalizing mem with
  | nil => rfl
  | cons p ps ih =>
    change setNul (Function.update mem p 0) ps i = _
    rw [ih]
    by_cases hp : i = p
    · subst hp
      simp
    · simp [hp]

theorem nulterminate_apply (mem : Nat → UInt8) (cmd : Cmd) (i : Nat) :
    nulterminate mem cmd i = if i ∈ cmd.words.map Prod.snd then 0 else mem i := by
  induction cmd generalizing mem with
  | exec argv => exact setNul_apply mem _ i
  | redir cmd r ih =>
    rw [nulterminate, setNul_apply, ih]
    by_cases h : i = r.efile
    · simp only [Cmd.words, map_append, map_cons, map_nil, mem_append,
        mem_singleton, h, or_true, if_true]
    · simp only [Cmd.words, map_append, map_cons, map_nil, mem_append,
        mem_singleton, h, or_false, if_false]
  | pipe left right ihl ihr =>
    rw [nulterminate, ihr, ihl]
    by_cases h : i ∈ right.words.map Prod.snd
    · simp only [Cmd.words, map_append, mem_append, h, or_true, if_true]
    · simp only [Cmd.words, map_append, mem_append, h, or_false, if_false]
  | list left right ihl ihr =>
    rw [nulterminate, ihr, ihl]
    by_cases h : i ∈ right.words.map Prod.snd
    · simp only [Cmd.words, map_append, mem_append, h, or_true, if_true]
    · simp only [Cmd.words, map_append, mem_append, h, or_false, if_false]
  | back cmd ih => exact ih mem

def FromToken (ts : List Token) (w : Nat × Nat) : Prop :=
  ∃ t ∈ ts, t.kind = .word ∧ w = (t.q, t.eq)

theorem FromToken.mono {us : List Token} (h : FromToken ts w) (hsub : ts ⊆ us) :
    FromToken us w := by
  obtain ⟨t, ht, hk⟩ := h
  exact ⟨t, hsub ht, hk⟩

theorem words_wrap (cmd : Cmd) (rs : List Redir) :
    (wrap cmd rs).words = cmd.words ++ rs.map fun r => (r.file, r.efile) := by
  induction rs generalizing cmd with
  | nil => exact (append_nil _).symm
  | cons r rs ih =>
    change (wrap (.redir cmd r) rs).words = _
    rw [ih, Cmd.words, map_cons, append_assoc]
    rfl

theorem words_backs (n : Nat) (cmd : Cmd) : (backs n cmd).words = cmd.words := by
  induction n generalizing cmd with
  | zero => rfl
  | succ n ih => exact ih (.back cmd)

theorem Redirs.fromToken (h : Redirs ts rs) : ∀ r ∈ rs, FromToken ts (r.file, r.efile) := by
  induction h with
  | nil =>
    intro r hr
    cases hr
  | @cons op file ts rs hop hfile rest ih =>
    intro r hr
    rcases mem_cons.mp hr with rfl | hr
    · refine ⟨file, by simp, hfile, ?_⟩
      unfold redirOf
      split <;> rfl
    · exact (ih r hr).mono fun t ht => by simp [ht]

theorem Args.fromToken {args : List (Nat × Nat)} (h : Args ts args rs) :
    (∀ w ∈ args, FromToken ts w) ∧ ∀ r ∈ rs, FromToken ts (r.file, r.efile) := by
  induction h with
  | nil =>
    constructor
    · intro w hw
      cases hw
    · intro r hr
      cases hr
  | @cons t ts us args rs ws ht redirs rest ih =>
    constructor
    · intro w hw
      rcases mem_cons.mp hw with rfl | hw
      · exact ⟨t, by simp, ht, rfl⟩
      · exact (ih.1 w hw).mono fun u hu => by simp [hu]
    · intro r hr
      rcases mem_append.mp hr with hr | hr
      · exact (redirs.fromToken r hr).mono fun u hu => by simp [hu]
      · exact (ih.2 r hr).mono fun u hu => by simp [hu]

theorem Derives.fromToken {part : Part} (h : Derives part ts cmd) :
    ∀ w ∈ cmd.words, FromToken ts w := by
  induction h with
  | line first hamps ih =>
    intro w hw
    rw [words_backs] at hw
    exact (ih w hw).mono fun u hu => by simp [hu]
  | list first hamps hsemi rest ih ihrest =>
    intro w hw
    rw [Cmd.words, words_backs, mem_append] at hw
    rcases hw with hw | hw
    · exact (ih w hw).mono fun u hu => by simp [hu]
    · exact (ihrest w hw).mono fun u hu => by simp [hu]
  | single first ih => exact ih
  | pipe first hbar rest ih ihrest =>
    intro w hw
    rw [Cmd.words, mem_append] at hw
    rcases hw with hw | hw
    · exact (ih w hw).mono fun u hu => by simp [hu]
    · exact (ihrest w hw).mono fun u hu => by simp [hu]
  | block hlpar body hrpar redirs ih =>
    intro w hw
    rw [words_wrap, mem_append] at hw
    rcases hw with hw | hw
    · exact (ih w hw).mono fun u hu => by simp [hu]
    · obtain ⟨r, hr, rfl⟩ := mem_map.mp hw
      exact (redirs.fromToken r hr).mono fun u hu => by simp [hu]
  | exec redirs words hargs =>
    intro w hw
    rw [words_wrap, mem_append] at hw
    rcases hw with hw | hw
    · exact (words.fromToken.1 w hw).mono fun u hu => by simp [hu]
    · obtain ⟨r, hr, rfl⟩ := mem_map.mp hw
      rcases mem_append.mp hr with hr | hr
      · exact (redirs.fromToken r hr).mono fun u hu => by simp [hu]
      · exact (words.fromToken.2 r hr).mono fun u hu => by simp [hu]

theorem parseFuel_le : 4 * (tokens buf 0).length + 5 ≤ parseFuel buf := by
  have hle := length_lex_le 0 (buf.drop 0)
  rw [drop_zero] at hle
  unfold parseFuel tokens
  rw [drop_zero]
  omega

theorem parsecmd_eq_ok (hbuf : 0 ∉ buf) (cmd : Cmd) (mem : Nat → UInt8) :
    parsecmd buf = .ok (cmd, mem) ↔
      Derives .line (tokens buf 0) cmd ∧ mem = nulterminate (memory buf) cmd := by
  have hsound := (soundAt hbuf (parseFuel buf)).line 0 (Nat.zero_le _) parseFuel_le
  constructor
  · intro h
    unfold parsecmd at h
    rcases hsound with ⟨cmd', s', ts, hok, hts, hderives, hs'⟩ | ⟨p, hp⟩
    · rw [hok] at h
      simp only at h
      split at h
      case isTrue => cases h
      case isFalse hend =>
          cases h
          have hnil : tokens buf s' = [] := by
            rw [← tokens_skip, not_not.mp hend, tokens, drop_length, lex]
          rw [hts, hnil, append_nil]
          exact ⟨hderives, rfl⟩
    · rw [hp] at h
      cases h
  rintro ⟨hderives, rfl⟩
  obtain ⟨s', hok, hs'⟩ := parsePart_complete hbuf hderives 0 [] (parseFuel buf)
    (append_nil _).symm (fun t us heq => by cases heq) parseFuel_le
  have hline : parseline buf (parseFuel buf) 0 = .ok (cmd, s') := hok
  have hle : s' ≤ buf.length := by
    rcases hsound with ⟨cmd', s'', ts, hok', _, _, hs''⟩ | ⟨p, hp⟩
    · rw [hline] at hok'
      cases hok'
      exact hs''
    · rw [hline] at hp
      cases hp
  have hend : skip buf s' = buf.length := by
    rcases skip_cases hbuf s' with ⟨hdrop, _⟩ | ⟨c, cs, hdrop, hspace, hc⟩
    · have hge := drop_eq_nil_iff.mp hdrop
      have hle' := skip_le hle
      omega
    · have hcons := scan_spec hdrop hspace hc
      rw [tokens_skip, hs'] at hcons
      cases hcons
  unfold parsecmd
  simp only [hline]
  rw [if_neg (not_not.mpr hend)]

theorem parsecmd_error {e : Halt} (hbuf : 0 ∉ buf) (h : parsecmd buf = .error e) :
    ∃ p, e = .panic p := by
  unfold parsecmd at h
  rcases (soundAt hbuf (parseFuel buf)).line 0 (Nat.zero_le _) parseFuel_le with
    ⟨cmd, s', ts, hok, _, _, _⟩ | ⟨p, hp⟩
  · rw [hok] at h
    simp only at h
    split at h
    case isTrue =>
        cases h
        exact ⟨_, rfl⟩
    case isFalse => cases h
  · rw [hp] at h
    cases h
    exact ⟨p, rfl⟩

theorem cstring_of_run (hbuf : 0 ∉ buf)
    (hruns : ∀ v ∈ cmd.words, IsRun buf v.1 v.2) (hw : w ∈ cmd.words) :
    CString (nulterminate (memory buf) cmd) w.1 ((buf.drop w.1).take (w.2 - w.1)) := by
  have hrun := hruns w hw
  have hlt := hrun.lt
  have hle := hrun.le
  have hlen : ((buf.drop w.1).take (w.2 - w.1)).length = w.2 - w.1 := by
    rw [length_take, length_drop]
    omega
  constructor
  · intro i hi
    rw [hlen] at hi
    have hin := hrun.inside (w.1 + i) (by omega) (by omega)
    have hnot : w.1 + i ∉ cmd.words.map Prod.snd := by
      intro hmem
      obtain ⟨v, hv, heq⟩ := mem_map.mp hmem
      rcases (hruns v hv).after with hend | hafter
      · omega
      · rw [heq, hin] at hafter
        cases hafter
    have hget : ((buf.drop w.1).take (w.2 - w.1)).getD i 0 = charAt buf (w.1 + i) := by
      rw [charAt, getD_eq_getElem?_getD, getD_eq_getElem?_getD,
        List.getElem?_take_of_lt hi, List.getElem?_drop]
    have hne : charAt buf (w.1 + i) ≠ 0 := by
      intro hzero
      apply hbuf
      rw [← hzero, charAt, getD_eq_getElem?_getD,
        List.getElem?_eq_getElem (show w.1 + i < buf.length by omega)]
      exact getElem_mem _
    rw [nulterminate_apply, if_neg hnot, hget]
    exact ⟨rfl, hne⟩
  · have hmem : w.1 + (w.2 - w.1) ∈ cmd.words.map Prod.snd := by
      have heq : w.1 + (w.2 - w.1) = w.2 := by omega
      rw [heq]
      exact mem_map_of_mem hw
    rw [hlen, nulterminate_apply, if_pos hmem]

/-- The parser of the shell accepts exactly its grammar: for a line without NUL it returns the tree
that the derivation of the whole line prescribes, and panics if there is none.  The pointers of the
tree are the ends of word tokens, and read as C strings they are these words. -/
theorem parsecmd_accepts_grammar (hbuf : 0 ∉ buf) :
    (∀ cmd, (∃ mem, parsecmd buf = .ok (cmd, mem)) ↔ Derives .line (tokens buf 0) cmd) ∧
      (∀ cmd cmd', Derives .line (tokens buf 0) cmd → Derives .line (tokens buf 0) cmd' →
        cmd = cmd') ∧
      ((¬ ∃ cmd, Derives .line (tokens buf 0) cmd) → ∃ p, parsecmd buf = .error (.panic p)) ∧
      (∀ cmd mem, parsecmd buf = .ok (cmd, mem) → ∀ w ∈ cmd.words,
        (∃ t ∈ tokens buf 0, t.kind = .word ∧ w = (t.q, t.eq) ∧ IsRun buf t.q t.eq) ∧
          CString mem w.1 ((buf.drop w.1).take (w.2 - w.1))) := by
  have hok := parsecmd_eq_ok hbuf
  refine ⟨?_, ?_, ?_, ?_⟩
  · intro cmd
    constructor
    · rintro ⟨mem, h⟩
      exact ((hok cmd mem).mp h).1
    · intro h
      exact ⟨_, (hok cmd _).mpr ⟨h, rfl⟩⟩
  · intro cmd cmd' h h'
    have heq := ((hok cmd _).mpr ⟨h, rfl⟩).symm.trans ((hok cmd' _).mpr ⟨h', rfl⟩)
    exact congrArg Prod.fst (Except.ok.inj heq)
  · intro hnone
    cases hparse : parsecmd buf with
    | ok r => exact absurd ⟨r.1, ((hok r.1 r.2).mp hparse).1⟩ hnone
    | error e => exact (parsecmd_error hbuf hparse).imp fun p hp => by rw [hp]
  intro cmd mem h w hw
  obtain ⟨hderives, rfl⟩ := (hok cmd mem).mp h
  have hruns : ∀ v ∈ cmd.words, ∃ t ∈ tokens buf 0, t.kind = .word ∧ v = (t.q, t.eq) ∧
      IsRun buf t.q t.eq := by
    intro v hv
    obtain ⟨t, ht, hk, hvt⟩ := hderives.fromToken v hv
    exact ⟨t, ht, hk, hvt, isRun_of_mem_lex 0 _ rfl ht hk⟩
  refine ⟨hruns w hw, cstring_of_run hbuf ?_ hw⟩
  intro v hv
  obtain ⟨t, _, _, rfl, hrun⟩ := hruns v hv
  exact hrun

/-- The line `a|b`. -/
theorem parsecmd_pipe :
    ∃ mem, parsecmd [97, 124, 98] = .ok (.pipe (.exec [(0, 1)]) (.exec [(2, 3)]), mem) ∧
      Derives .line (tokens [97, 124, 98] 0) (.pipe (.exec [(0, 1)]) (.exec [(2, 3)])) := by
  have hline : parseline [97, 124, 98] (parseFuel [97, 124, 98]) 0 =
      .ok (.pipe (.exec [(0, 1)]) (.exec [(2, 3)]), 3) := by
    decide +kernel
  have hparse : parsecmd [97, 124, 98] = .ok (.pipe (.exec [(0, 1)]) (.exec [(2, 3)]),
      nulterminate (memory [97, 124, 98]) (.pipe (.exec [(0, 1)]) (.exec [(2, 3)]))) := by
    unfold parsecmd
    rw [hline]
    rfl
  exact ⟨_, hparse, ((parsecmd_accepts_grammar (by decide)).1 _).mp ⟨_, hparse⟩⟩

end Xv6.User
