import Xv6.User.Lexer

/-!
# The grammar of the shell

The grammar that the parser of the shell implements, with the tree that each
derivation prescribes.  Every run of the parser ends with the tree of a derivation
of the tokens it has read or with a panic; and what can be derived is parsed.
-/

namespace Xv6.User

open List

variable {buf toks : List UInt8} {s fuel : Nat} {t : Token} {us ts amps : List Token}
variable {rs : List Redir} {args : List (Nat × Nat)} {cmd : Cmd}

/-- `redir*`: each is an operator and a word. -/
inductive Redirs : List Token → List Redir → Prop where
  | nil : Redirs [] []
  | cons
      {op file : Token} {ts : List Token} {rs : List Redir}
      (hop : op.kind = .lt ∨ op.kind = .gt ∨ op.kind = .gtgt)
      (hfile : file.kind = .word)
      (rest : Redirs ts rs) :
      Redirs (op :: file :: ts) (redirOf op.kind file.q file.eq :: rs)

/-- `(word redir*)*`. -/
inductive Args : List Token → List (Nat × Nat) → List Redir → Prop where
  | nil : Args [] [] []
  | cons
      {t : Token} {ts us : List Token} {args : List (Nat × Nat)} {rs ws : List Redir}
      (ht : t.kind = .word)
      (redirs : Redirs ts rs)
      (rest : Args us args ws) :
      Args (t :: (ts ++ us)) ((t.q, t.eq) :: args) (rs ++ ws)

inductive Part where
  | line
  | pipe
  | exec
deriving DecidableEq

/-- One `BACK` for each `&`. -/
def backs : Nat → Cmd → Cmd
  | 0, cmd => cmd
  | n + 1, cmd => backs n (.back cmd)

/-- The tokens can be derived from the nonterminal, with the tree. -/
inductive Derives : Part → List Token → Cmd → Prop where
  | line
      {ts amps : List Token} {cmd : Cmd}
      (first : Derives .pipe ts cmd)
      (hamps : ∀ t ∈ amps, t.kind = .amp) :
      Derives .line (ts ++ amps) (backs amps.length cmd)
  | list
      {ts amps us : List Token} {semi : Token} {cmd right : Cmd}
      (first : Derives .pipe ts cmd)
      (hamps : ∀ t ∈ amps, t.kind = .amp)
      (hsemi : semi.kind = .semi)
      (rest : Derives .line us right) :
      Derives .line (ts ++ (amps ++ semi :: us)) (.list (backs amps.length cmd) right)
  | single
      {ts : List Token} {cmd : Cmd}
      (first : Derives .exec ts cmd) :
      Derives .pipe ts cmd
  | pipe
      {ts us : List Token} {bar : Token} {cmd right : Cmd}
      (first : Derives .exec ts cmd)
      (hbar : bar.kind = .bar)
      (rest : Derives .pipe us right) :
      Derives .pipe (ts ++ bar :: us) (.pipe cmd right)
  | block
      {lpar rpar : Token} {ts us : List Token} {cmd : Cmd} {rs : List Redir}
      (hlpar : lpar.kind = .lpar)
      (body : Derives .line ts cmd)
      (hrpar : rpar.kind = .rpar)
      (redirs : Redirs us rs) :
      Derives .exec (lpar :: (ts ++ rpar :: us)) (wrap cmd rs)
  | exec
      {ts us : List Token} {args : List (Nat × Nat)} {rs ws : List Redir}
      (redirs : Redirs ts rs)
      (words : Args us args ws)
      (hargs : args.length ≤ MAXARGS - 1) :
      Derives .exec (ts ++ us) (wrap (.exec args) (rs ++ ws))

theorem skip_le (hs : s ≤ buf.length) : skip buf s ≤ buf.length := by
  have hle := (takeWhile_sublist (l := buf.drop s) isSpace).length_le
  rw [length_drop] at hle
  unfold skip
  omega

theorem lt_of_charAt_ne (h : charAt buf s ≠ 0) : s < buf.length := by
  by_contra hge
  exact h (charAt_of_drop_nil (drop_eq_nil_of_le (Nat.not_lt.mp hge)))

theorem scan_le (hs : s ≤ buf.length) : (scan buf s).2 ≤ buf.length := by
  have hword := (takeWhile_sublist (l := buf.drop s) isWord).length_le
  rw [length_drop] at hword
  unfold scan
  split
  · exact hs
  rename_i hne
  have hlt := lt_of_charAt_ne hne
  have hgt : charAt buf (s + 1) = 62 → s + 1 < buf.length := by
    intro heq
    exact lt_of_charAt_ne (by rw [heq]; decide)
  split_ifs with _ _ _ _ _ _ _ h62
  all_goals simp only
  all_goals try omega
  have := hgt h62
  omega

theorem gettoken_le (hs : s ≤ buf.length) : (gettoken buf s).ps ≤ buf.length :=
  skip_le (scan_le (skip_le hs))

section
variable (k : Tok)

theorem lead_redir : k.lead.any [60, 62].contains = true ↔ k = .lt ∨ k = .gt ∨ k = .gtgt := by
  cases k <;> decide

theorem lead_stop :
    k.lead.any [124, 41, 38, 59].contains = true ↔
      k = .bar ∨ k = .rpar ∨ k = .amp ∨ k = .semi := by
  cases k <;> decide

theorem lead_amp : k.lead.any [38].contains = true ↔ k = .amp := by
  cases k <;> decide

theorem lead_semi : k.lead.any [59].contains = true ↔ k = .semi := by
  cases k <;> decide

theorem lead_bar : k.lead.any [124].contains = true ↔ k = .bar := by
  cases k <;> decide

theorem lead_lpar : k.lead.any [40].contains = true ↔ k = .lpar := by
  cases k <;> decide

theorem lead_rpar : k.lead.any [41].contains = true ↔ k = .rpar := by
  cases k <;> decide

end

theorem peek_true (hbuf : 0 ∉ buf) (htoks : toks ⊆ symbols) (h : peek buf s toks = true) :
    ∃ t, tokens buf s = t :: tokens buf (gettoken buf (skip buf s)).ps ∧
      t.kind.lead.any toks.contains = true ∧ (gettoken buf (skip buf s)).tok = t.kind := by
  cases htokens : tokens buf s with
  | nil =>
    rw [peek_nil hbuf htokens] at h
    cases h
  | cons t ts =>
    rw [peek_cons hbuf htokens htoks] at h
    have hskip : tokens buf (skip buf s) = t :: ts := by rw [tokens_skip, htokens]
    obtain ⟨htok, _, _, hrest⟩ := gettoken_cons hbuf hskip
    exact ⟨t, by rw [hrest], h, htok⟩

def Parsed (buf : List UInt8) (part : Part) (s : Nat) (r : Except Halt (Cmd × Nat)) : Prop :=
  (∃ cmd s' ts, r = .ok (cmd, s') ∧ tokens buf s = ts ++ tokens buf s' ∧ Derives part ts cmd ∧
      s' ≤ buf.length) ∨
    ∃ p, r = .error (.panic p)

section
variable (hbuf : 0 ∉ buf) (fuel : Nat)
include hbuf

theorem parseredirs_sound (hs : s ≤ buf.length) (hfuel : (tokens buf s).length < fuel) :
    (∃ rs s' ts, parseredirs buf fuel s = .ok (rs, s') ∧ tokens buf s = ts ++ tokens buf s' ∧
        Redirs ts rs ∧ s' ≤ buf.length) ∨
      ∃ p, parseredirs buf fuel s = .error (.panic p) := by
  induction fuel generalizing s with
  | zero => cases hfuel
  | succ fuel ih =>
    unfold parseredirs
    by_cases hpeek : peek buf s [60, 62] = true
    · rw [if_pos hpeek]
      obtain ⟨op, htokens, hop, hoptok⟩ := peek_true hbuf (by decide) hpeek
      have hops := gettoken_le (skip_le hs)
      simp only
      by_cases hword : (gettoken buf (gettoken buf (skip buf s)).ps).tok ≠ .word
      · rw [if_pos hword]
        exact .inr ⟨_, rfl⟩
      rw [if_neg hword]
      cases hrest : tokens buf (gettoken buf (skip buf s)).ps with
      | nil =>
        have heof := (gettoken_nil hbuf hrest).1
        rw [heof] at hword
        exact absurd (by decide) hword
      | cons file ts =>
        obtain ⟨hkind, hq, heq, hts⟩ := gettoken_cons hbuf hrest
        rw [htokens, hrest, length_cons, length_cons] at hfuel
        rcases ih (gettoken_le hops) (by rw [hts]; omega) with
          ⟨rs, s', us, hok, hus, hrs, hs'⟩ | ⟨p, hp⟩
        · rw [hok]
          refine .inl ⟨_, s', op :: file :: us, rfl, ?_, ?_, hs'⟩
          · rw [htokens, hrest, ← hts, hus]
            rfl
          · rw [hoptok, hq, heq]
            exact .cons ((lead_redir _).mp hop) (hkind ▸ not_not.mp hword) hrs
        · rw [hp]
          exact .inr ⟨p, rfl⟩
    · rw [if_neg hpeek]
      exact .inl ⟨[], skip buf s, [], rfl, by rw [tokens_skip]; rfl, .nil, skip_le hs⟩

theorem parseargs_sound {argc : Nat} (hs : s ≤ buf.length)
    (hargc : argc ≤ MAXARGS - 1) (hfuel : (tokens buf s).length < fuel) :
    (∃ args rs s' ts, parseargs buf fuel argc s = .ok ((args, rs), s') ∧
        tokens buf s = ts ++ tokens buf s' ∧ Args ts args rs ∧
        argc + args.length ≤ MAXARGS - 1 ∧ s' ≤ buf.length) ∨
      ∃ p, parseargs buf fuel argc s = .error (.panic p) := by
  induction fuel generalizing s argc with
  | zero => cases hfuel
  | succ fuel ih =>
    unfold parseargs
    by_cases hpeek : peek buf s [124, 41, 38, 59] = true
    · rw [if_pos hpeek]
      exact .inl ⟨[], [], skip buf s, [], rfl, by rw [tokens_skip]; rfl, .nil, hargc, skip_le hs⟩
    rw [if_neg hpeek]
    simp only
    have hps := gettoken_le (skip_le hs)
    cases htokens : tokens buf (skip buf s) with
    | nil =>
      obtain ⟨heof, hrest⟩ := gettoken_nil hbuf htokens
      rw [if_pos heof]
      refine .inl ⟨[], [], _, [], rfl, ?_, .nil, hargc, hps⟩
      rw [hrest, ← tokens_skip, htokens]
      rfl
    | cons t ts =>
      obtain ⟨hkind, hq, heq, hts⟩ := gettoken_cons hbuf htokens
      rw [tokens_skip] at htokens
      rw [htokens, length_cons] at hfuel
      by_cases heof : (gettoken buf (skip buf s)).tok = .eof
      · exact absurd (hkind.symm.trans heof) (kind_ne_eof hbuf htokens)
      rw [if_neg heof]
      by_cases hword : (gettoken buf (skip buf s)).tok ≠ .word
      · rw [if_pos hword]
        exact .inr ⟨_, rfl⟩
      rw [if_neg hword]
      by_cases hmax : argc + 1 ≥ MAXARGS
      · rw [if_pos hmax]
        exact .inr ⟨_, rfl⟩
      rw [if_neg hmax]
      rcases parseredirs_sound hbuf fuel hps (by rw [hts]; omega) with
        ⟨rs, s1, us, hok, hus, hrs, hs1⟩ | ⟨p, hp⟩
      · have hlen := congrArg List.length (hts.symm.trans hus)
        rw [length_append] at hlen
        have hargc' : argc + 1 ≤ MAXARGS - 1 := by omega
        rcases ih hs1 hargc' (by omega) with
          ⟨args, rs', s2, vs, hok2, hvs, hargs, hmax2, hs2⟩ | ⟨p, hp⟩
        · simp only [hok, hok2]
          refine .inl ⟨_, _, s2, t :: (us ++ vs), rfl, ?_, ?_, ?_, hs2⟩
          · rw [htokens, ← hts, hus, hvs]
            simp
          · rw [hq, heq]
            exact .cons (hkind ▸ not_not.mp hword) hrs hargs
          · rw [length_cons]
            omega
        · simp only [hok, hp]
          exact .inr ⟨p, rfl⟩
      · simp only [hp]
        exact .inr ⟨p, rfl⟩

theorem parsebacks_sound (cmd : Cmd) (hs : s ≤ buf.length) (hfuel : (tokens buf s).length < fuel) :
    ∃ s' amps, parsebacks buf fuel cmd s = .ok (backs amps.length cmd, s') ∧
      tokens buf s = amps ++ tokens buf s' ∧ (∀ t ∈ amps, t.kind = .amp) ∧ s' ≤ buf.length := by
  induction fuel generalizing s cmd with
  | zero => cases hfuel
  | succ fuel ih =>
    unfold parsebacks
    by_cases hpeek : peek buf s [38] = true
    · rw [if_pos hpeek]
      obtain ⟨t, htokens, ht, _⟩ := peek_true hbuf (by decide) hpeek
      rw [htokens, length_cons] at hfuel
      obtain ⟨s', amps, hok, hamps, hkinds, hs'⟩ :=
        ih (.back cmd) (gettoken_le (skip_le hs)) (by omega)
      refine ⟨s', t :: amps, hok, ?_, ?_, hs'⟩
      · rw [htokens, hamps]
        rfl
      · intro u hu
        rcases mem_cons.mp hu with rfl | hu
        · exact (lead_amp _).mp ht
        · exact hkinds u hu
    · rw [if_neg hpeek]
      refine ⟨skip buf s, [], rfl, by rw [tokens_skip]; rfl, ?_, skip_le hs⟩
      intro t ht
      cases ht

end

structure SoundAt (buf : List UInt8) (fuel : Nat) : Prop where
  line : ∀ s, s ≤ buf.length → 4 * (tokens buf s).length + 5 ≤ fuel →
    Parsed buf .line s (parseline buf fuel s)
  pipe : ∀ s, s ≤ buf.length → 4 * (tokens buf s).length + 4 ≤ fuel →
    Parsed buf .pipe s (parsepipe buf fuel s)
  exec : ∀ s, s ≤ buf.length → 4 * (tokens buf s).length + 3 ≤ fuel →
    Parsed buf .exec s (parseexec buf fuel s)
  block : ∀ s, s ≤ buf.length → 4 * (tokens buf s).length + 2 ≤ fuel →
    Parsed buf .exec s (parseblock buf fuel s)

section
variable (hbuf : 0 ∉ buf) (h : SoundAt buf fuel) (hs : s ≤ buf.length)
include hbuf h hs

theorem SoundAt.parseline (hfuel : 4 * (tokens buf s).length + 5 ≤ fuel + 1) :
    Parsed buf .line s (parseline buf (fuel + 1) s) := by
  unfold User.parseline
  rcases h.pipe s hs (by omega) with ⟨cmd, s1, ts, hok, hts, hpipe, hs1⟩ | ⟨p, hp⟩
  · have hlen := congrArg List.length hts
    rw [length_append] at hlen
    obtain ⟨s2, amps, hok2, hamps, hkinds, hs2⟩ :=
      parsebacks_sound hbuf fuel cmd hs1 (by omega)
    have hlen2 := congrArg List.length hamps
    rw [length_append] at hlen2
    simp only [hok, hok2]
    by_cases hpeek : peek buf s2 [59] = true
    · rw [if_pos hpeek]
      obtain ⟨semi, hsemi, hkind, _⟩ := peek_true hbuf (by decide) hpeek
      have hlen3 := congrArg List.length hsemi
      rw [length_cons] at hlen3
      rcases h.line _ (gettoken_le (skip_le hs2)) (by omega) with
        ⟨right, s3, us, hok3, hus, hline, hs3⟩ | ⟨p, hp⟩
      · rw [hok3]
        refine .inl ⟨_, s3, ts ++ (amps ++ semi :: us), rfl, ?_, ?_, hs3⟩
        · rw [hts, hamps, hsemi, hus]
          simp
        · exact .list hpipe hkinds ((lead_semi _).mp hkind) hline
      · rw [hp]
        exact .inr ⟨p, rfl⟩
    · rw [if_neg hpeek]
      refine .inl ⟨_, skip buf s2, ts ++ amps, rfl, ?_, .line hpipe hkinds, skip_le hs2⟩
      rw [hts, hamps, tokens_skip, append_assoc]
  · simp only [hp]
    exact .inr ⟨p, rfl⟩

theorem SoundAt.parsepipe (hfuel : 4 * (tokens buf s).length + 4 ≤ fuel + 1) :
    Parsed buf .pipe s (parsepipe buf (fuel + 1) s) := by
  unfold User.parsepipe
  rcases h.exec s hs (by omega) with ⟨cmd, s1, ts, hok, hts, hexec, hs1⟩ | ⟨p, hp⟩
  · have hlen := congrArg List.length hts
    rw [length_append] at hlen
    simp only [hok]
    by_cases hpeek : peek buf s1 [124] = true
    · rw [if_pos hpeek]
      obtain ⟨bar, hbar, hkind, _⟩ := peek_true hbuf (by decide) hpeek
      have hlen2 := congrArg List.length hbar
      rw [length_cons] at hlen2
      rcases h.pipe _ (gettoken_le (skip_le hs1)) (by omega) with
        ⟨right, s2, us, hok2, hus, hpipe, hs2⟩ | ⟨p, hp⟩
      · rw [hok2]
        refine .inl ⟨_, s2, ts ++ bar :: us, rfl, ?_, ?_, hs2⟩
        · rw [hts, hbar, hus]
          simp
        · exact .pipe hexec ((lead_bar _).mp hkind) hpipe
      · rw [hp]
        exact .inr ⟨p, rfl⟩
    · rw [if_neg hpeek]
      refine .inl ⟨_, skip buf s1, ts, rfl, ?_, .single hexec, skip_le hs1⟩
      rw [hts, tokens_skip]
  · simp only [hp]
    exact .inr ⟨p, rfl⟩

theorem SoundAt.parseexec (hfuel : 4 * (tokens buf s).length + 3 ≤ fuel + 1) :
    Parsed buf .exec s (parseexec buf (fuel + 1) s) := by
  unfold User.parseexec
  have hskip : tokens buf (skip buf s) = tokens buf s := tokens_skip s
  by_cases hpeek : peek buf s [40] = true
  · rw [if_pos hpeek]
    have hblock := h.block (skip buf s) (skip_le hs) (by rw [hskip]; omega)
    unfold Parsed at hblock ⊢
    rw [hskip] at hblock
    exact hblock
  rw [if_neg hpeek]
  rcases parseredirs_sound hbuf fuel (skip_le hs) (by rw [hskip]; omega) with
    ⟨rs, s1, ts, hok, hts, hrs, hs1⟩ | ⟨p, hp⟩
  · rw [hskip] at hts
    have hlen := congrArg List.length hts
    rw [length_append] at hlen
    rcases parseargs_sound hbuf fuel hs1 (Nat.zero_le _) (by omega) with
      ⟨args, ws, s2, us, hok2, hus, hargs, hmax, hs2⟩ | ⟨p, hp⟩
    · simp only [hok, hok2]
      refine .inl ⟨_, s2, ts ++ us, rfl, ?_, ?_, hs2⟩
      · rw [hts, hus, append_assoc]
      · exact .exec hrs hargs (by omega)
    · simp only [hok, hp]
      exact .inr ⟨p, rfl⟩
  · simp only [hp]
    exact .inr ⟨p, rfl⟩

theorem SoundAt.parseblock (hfuel : 4 * (tokens buf s).length + 2 ≤ fuel + 1) :
    Parsed buf .exec s (parseblock buf (fuel + 1) s) := by
  unfold User.parseblock
  by_cases hpeek : peek buf s [40] = true
  · rw [if_pos hpeek]
    obtain ⟨lpar, hlpar, hkind, _⟩ := peek_true hbuf (by decide) hpeek
    have hlen := congrArg List.length hlpar
    rw [length_cons] at hlen
    rcases h.line _ (gettoken_le (skip_le hs)) (by omega) with
      ⟨cmd, s1, ts, hok, hts, hline, hs1⟩ | ⟨p, hp⟩
    · have hlen1 := congrArg List.length hts
      rw [length_append] at hlen1
      simp only [hok]
      by_cases hclose : peek buf s1 [41] = true
      · rw [if_pos hclose]
        obtain ⟨rpar, hrpar, hkind', _⟩ := peek_true hbuf (by decide) hclose
        have hlen2 := congrArg List.length hrpar
        rw [length_cons] at hlen2
        rcases parseredirs_sound hbuf fuel (gettoken_le (skip_le hs1)) (by omega) with
          ⟨rs, s2, us, hok2, hus, hrs, hs2⟩ | ⟨p, hp⟩
        · rw [hok2]
          refine .inl ⟨_, s2, lpar :: (ts ++ rpar :: us), rfl, ?_, ?_, hs2⟩
          · rw [hlpar, hts, hrpar, hus]
            simp
          · exact .block ((lead_lpar _).mp hkind) hline ((lead_rpar _).mp hkind') hrs
        · rw [hp]
          exact .inr ⟨p, rfl⟩
      · rw [if_neg hclose]
        exact .inr ⟨_, rfl⟩
    · simp only [hp]
      exact .inr ⟨p, rfl⟩
  · rw [if_neg hpeek]
    exact .inr ⟨_, rfl⟩

end

theorem soundAt (hbuf : 0 ∉ buf) (fuel : Nat) : SoundAt buf fuel := by
  induction fuel with
  | zero => exact ⟨by omega, by omega, by omega, by omega⟩
  | succ fuel ih =>
    exact ⟨fun s hs hf => ih.parseline hbuf hs hf, fun s hs hf => ih.parsepipe hbuf hs hf,
      fun s hs hf => ih.parseexec hbuf hs hf, fun s hs hf => ih.parseblock hbuf hs hf⟩

def Part.follows : Part → List Tok
  | .line => [.rpar]
  | .pipe => [.rpar, .amp, .semi]
  | .exec => [.rpar, .amp, .semi, .bar]

def Follows (part : Part) (rest : List Token) : Prop :=
  ∀ t us, rest = t :: us → t.kind ∈ part.follows

theorem peek_not {rest : List Token} (hbuf : 0 ∉ buf) (h : tokens buf s = rest)
    (htoks : toks ⊆ symbols)
    (hno : ∀ t us, rest = t :: us → ¬ t.kind.lead.any toks.contains = true) :
    ¬ peek buf s toks = true := by
  cases rest with
  | nil =>
    rw [peek_nil hbuf h]
    exact Bool.false_ne_true
  | cons t us =>
    rw [peek_cons hbuf h htoks]
    exact hno t us rfl

theorem peek_yes (hbuf : 0 ∉ buf) (h : tokens buf s = t :: us) (htoks : toks ⊆ symbols)
    (hyes : t.kind.lead.any toks.contains = true) :
    peek buf s toks = true ∧ tokens buf (gettoken buf (skip buf s)).ps = us ∧
      (gettoken buf (skip buf s)).tok = t.kind := by
  have hskip : tokens buf (skip buf s) = t :: us := by rw [tokens_skip, h]
  obtain ⟨hkind, _, _, hrest⟩ := gettoken_cons hbuf hskip
  rw [peek_cons hbuf h htoks]
  exact ⟨hyes, hrest, hkind⟩

theorem parseredirs_complete {rest : List Token} (hbuf : 0 ∉ buf)
    (h : Redirs ts rs) (fuel : Nat) (hs : tokens buf s = ts ++ rest)
    (hrest : ∀ t us, rest = t :: us → ¬ (t.kind = .lt ∨ t.kind = .gt ∨ t.kind = .gtgt))
    (hfuel : (tokens buf s).length < fuel) :
    ∃ s', parseredirs buf fuel s = .ok (rs, s') ∧ tokens buf s' = rest := by
  induction h generalizing s fuel with
  | nil =>
    cases fuel with
    | zero => cases hfuel
    | succ fuel =>
      have hno := peek_not hbuf hs (by decide)
        (fun t us heq hlead => hrest t us heq ((lead_redir _).mp hlead))
      unfold parseredirs
      rw [if_neg hno]
      exact ⟨_, rfl, by rw [tokens_skip]; exact hs⟩
  | @cons op file ts rs hop hfile _ ih =>
    cases fuel with
    | zero => cases hfuel
    | succ fuel =>
      rw [cons_append, cons_append] at hs
      obtain ⟨hpeek, hnext, hoptok⟩ := peek_yes hbuf hs (by decide) ((lead_redir _).mpr hop)
      obtain ⟨hkind, hq, heq, hts⟩ := gettoken_cons hbuf hnext
      have hlen := congrArg List.length hs
      rw [length_cons, length_cons] at hlen
      obtain ⟨s', hok, hs'⟩ := ih fuel hts (by rw [hts]; omega)
      unfold parseredirs
      rw [if_pos hpeek]
      simp only
      rw [if_neg (by rw [hkind, hfile]; simp), hok, hoptok, hq, heq]
      exact ⟨s', rfl, hs'⟩

theorem Args.not_redir {rest : List Token} (h : Args us args rs) (hrest : Follows .exec rest) :
    ∀ t vs, us ++ rest = t :: vs → ¬ (t.kind = .lt ∨ t.kind = .gt ∨ t.kind = .gtgt) := by
  intro t vs heq
  cases h with
  | nil =>
    have hkind := hrest t vs heq
    simp [Part.follows] at hkind
    rcases hkind with hk | hk | hk | hk <;> simp [hk]
  | cons ht _ _ =>
    obtain ⟨rfl, _⟩ := cons_eq_cons.mp heq
    simp [ht]

theorem Args.not_lpar {rest : List Token} {ws : List Redir}
    (h : Args us args ws) (hredirs : Redirs ts rs) (hrest : Follows .exec rest) :
    ∀ t vs, ts ++ (us ++ rest) = t :: vs → t.kind ≠ .lpar := by
  intro t vs heq
  cases hredirs with
  | cons hop _ _ =>
    obtain ⟨rfl, _⟩ := cons_eq_cons.mp heq
    rcases hop with hk | hk | hk <;> simp [hk]
  | nil =>
    cases h with
    | cons ht _ _ =>
      obtain ⟨rfl, _⟩ := cons_eq_cons.mp heq
      simp [ht]
    | nil =>
      have hkind := hrest t vs heq
      simp [Part.follows] at hkind
      rcases hkind with hk | hk | hk | hk <;> simp [hk]

theorem parseargs_complete {rest : List Token}
    (hbuf : 0 ∉ buf) (h : Args ts args rs) (fuel argc : Nat) (hs : tokens buf s = ts ++ rest)
    (hrest : Follows .exec rest) (hmax : argc + args.length ≤ MAXARGS - 1)
    (hfuel : (tokens buf s).length < fuel) :
    ∃ s', parseargs buf fuel argc s = .ok ((args, rs), s') ∧ tokens buf s' = rest := by
  induction h generalizing s fuel argc with
  | nil =>
    cases fuel with
    | zero => cases hfuel
    | succ fuel =>
      unfold parseargs
      cases rest with
      | nil =>
        have hskip : tokens buf (skip buf s) = [] := by rw [tokens_skip]; exact hs
        obtain ⟨heof, hps⟩ := gettoken_nil hbuf hskip
        rw [if_neg (by rw [peek_nil hbuf hs]; simp)]
        simp only
        rw [if_pos heof]
        exact ⟨_, rfl, hps⟩
      | cons t us =>
        have hkind := hrest t us rfl
        have hyes : t.kind.lead.any [124, 41, 38, 59].contains = true := by
          rw [lead_stop]
          simp [Part.follows] at hkind
          tauto
        rw [if_pos (peek_yes hbuf hs (by decide) hyes).1]
        exact ⟨_, rfl, by rw [tokens_skip]; exact hs⟩
  | @cons t ts us args rs ws ht hredirs words ih =>
    cases fuel with
    | zero => cases hfuel
    | succ fuel =>
      rw [cons_append, append_assoc] at hs
      have hlen := congrArg List.length hs
      rw [length_cons] at hlen
      rw [length_cons] at hmax
      have hskip : tokens buf (skip buf s) = t :: (ts ++ (us ++ rest)) := by rw [tokens_skip, hs]
      obtain ⟨hkind, hq, heq, hts⟩ := gettoken_cons hbuf hskip
      have hno : ¬ peek buf s [124, 41, 38, 59] = true := by
        refine peek_not hbuf hs (by decide) ?_
        rintro u vs heq hlead
        obtain ⟨rfl, _⟩ := cons_eq_cons.mp heq
        rw [ht] at hlead
        exact absurd hlead (by decide)
      have hword : (gettoken buf (skip buf s)).tok = .word := hkind.trans ht
      obtain ⟨s1, hok, hs1⟩ := parseredirs_complete hbuf hredirs fuel hts
        (words.not_redir hrest) (by rw [hts]; omega)
      have hlen1 : (tokens buf s1).length ≤ (ts ++ (us ++ rest)).length := by
        rw [hs1]
        simp only [length_append]
        omega
      obtain ⟨s2, hok2, hs2⟩ := ih fuel (argc + 1) hs1 (by omega) (by omega)
      unfold parseargs
      rw [if_neg hno]
      simp only
      rw [if_neg (by rw [hword]; decide), if_neg (by rw [hword]; decide), if_neg (by omega)]
      simp only [hok, hok2, hq, heq]
      exact ⟨s2, rfl, hs2⟩

theorem parsebacks_complete {rest : List Token} (hbuf : 0 ∉ buf)
    (hamps : ∀ t ∈ amps, t.kind = .amp) (fuel : Nat) (cmd : Cmd) (hs : tokens buf s = amps ++ rest)
    (hrest : ∀ t us, rest = t :: us → t.kind ≠ .amp) (hfuel : (tokens buf s).length < fuel) :
    ∃ s', parsebacks buf fuel cmd s = .ok (backs amps.length cmd, s') ∧ tokens buf s' = rest := by
  induction amps generalizing s fuel cmd with
  | nil =>
    cases fuel with
    | zero => cases hfuel
    | succ fuel =>
      have hno := peek_not hbuf hs (by decide)
        (fun t us heq hlead => hrest t us heq ((lead_amp _).mp hlead))
      unfold parsebacks
      rw [if_neg hno]
      exact ⟨_, rfl, by rw [tokens_skip]; exact hs⟩
  | cons t amps ih =>
    cases fuel with
    | zero => cases hfuel
    | succ fuel =>
      rw [cons_append] at hs
      have hlen := congrArg List.length hs
      rw [length_cons] at hlen
      obtain ⟨hpeek, hnext, _⟩ := peek_yes hbuf hs (by decide)
        ((lead_amp _).mpr (hamps t mem_cons_self))
      obtain ⟨s', hok, hs'⟩ := ih (fun u hu => hamps u (mem_cons_of_mem t hu)) fuel
        (.back cmd) hnext (by rw [hnext]; omega)
      unfold parsebacks
      rw [if_pos hpeek, hok]
      exact ⟨s', rfl, hs'⟩

def parsePart (buf : List UInt8) : Part → Nat → Nat → Except Halt (Cmd × Nat)
  | .line => parseline buf
  | .pipe => parsepipe buf
  | .exec => parseexec buf

def Part.need : Part → Nat
  | .line => 5
  | .pipe => 4
  | .exec => 3

theorem follows_amps {rest : List Token} (hamps : ∀ t ∈ amps, t.kind = .amp)
    (hrest : ∀ t us, rest = t :: us → t.kind = .rpar ∨ t.kind = .semi) :
    Follows .pipe (amps ++ rest) := by
  intro t us heq
  cases amps with
  | nil => rcases hrest t us heq with hk | hk <;> simp [Part.follows, hk]
  | cons a amps =>
    obtain ⟨rfl, _⟩ := cons_eq_cons.mp heq
    simp [Part.follows, hamps a mem_cons_self]

theorem Follows.line {rest : List Token} (h : Follows .line rest)
    (heq : rest = t :: us) : t.kind = .rpar := by
  simpa [Part.follows] using h t us heq

theorem parseline_first {rest : List Token} (hbuf : 0 ∉ buf)
    (hpipe : ∀ (s : Nat) (rest : List Token) (fuel : Nat), tokens buf s = ts ++ rest →
      Follows .pipe rest → 4 * (tokens buf s).length + 4 ≤ fuel →
      ∃ s', parsepipe buf fuel s = .ok (cmd, s') ∧ tokens buf s' = rest)
    (hamps : ∀ t ∈ amps, t.kind = .amp)
    (hrest : ∀ t us, rest = t :: us → t.kind = .rpar ∨ t.kind = .semi) (fuel : Nat)
    (hs : tokens buf s = ts ++ (amps ++ rest)) (hfuel : 4 * (tokens buf s).length + 4 ≤ fuel) :
    ∃ s1 s2, parsepipe buf fuel s = .ok (cmd, s1) ∧
      parsebacks buf fuel cmd s1 = .ok (backs amps.length cmd, s2) ∧ tokens buf s2 = rest := by
  obtain ⟨s1, hok, hs1⟩ := hpipe s (amps ++ rest) fuel hs (follows_amps hamps hrest) hfuel
  have hlen : (tokens buf s1).length ≤ (tokens buf s).length := by
    rw [hs1, hs]
    simp only [length_append]
    omega
  obtain ⟨s2, hok2, hs2⟩ := parsebacks_complete hbuf hamps fuel cmd hs1
    (fun t us heq hk => by rcases hrest t us heq with h | h <;> rw [h] at hk <;> cases hk)
    (by omega)
  exact ⟨s1, s2, hok, hok2, hs2⟩

theorem exists_fuel {k n fuel : Nat} (h : k + (n + 1) ≤ fuel) : ∃ m, fuel = m + 1 ∧ k + n ≤ m :=
  ⟨fuel - 1, by omega, by omega⟩

theorem parsePart_complete {part : Part} (hbuf : 0 ∉ buf) (h : Derives part ts cmd) :
    ∀ (s : Nat) (rest : List Token) (fuel : Nat), tokens buf s = ts ++ rest → Follows part rest →
      4 * (tokens buf s).length + part.need ≤ fuel →
      ∃ s', parsePart buf part fuel s = .ok (cmd, s') ∧ tokens buf s' = rest := by
  induction h with
  | @line ts amps cmd first hamps ih =>
    intro s rest fuel hs hrest hfuel
    obtain ⟨fuel, rfl, hfuel'⟩ := exists_fuel hfuel
    rw [append_assoc] at hs
    obtain ⟨s1, s2, hok, hok2, hs2⟩ := parseline_first hbuf ih hamps
      (fun t us heq => .inl (hrest.line heq)) fuel hs hfuel'
    have hno : ¬ peek buf s2 [59] = true := by
      refine peek_not hbuf hs2 (by decide) ?_
      intro t us heq hlead
      rw [hrest.line heq] at hlead
      exact absurd hlead (by decide)
    refine ⟨skip buf s2, ?_, by rw [tokens_skip]; exact hs2⟩
    change parseline buf (fuel + 1) s = _
    unfold parseline
    simp only [hok, hok2]
    rw [if_neg hno]
  | @list ts amps us semi cmd right first hamps hsemi tail ih ihtail =>
    intro s rest fuel hs hrest hfuel
    obtain ⟨fuel, rfl, hfuel'⟩ := exists_fuel hfuel
    have hs' : tokens buf s = ts ++ (amps ++ (semi :: (us ++ rest))) := by
      rw [hs]
      simp
    obtain ⟨s1, s2, hok, hok2, hs2⟩ := parseline_first hbuf ih hamps
      (fun t vs heq => .inr ((cons_eq_cons.mp heq).1 ▸ hsemi)) fuel hs' hfuel'
    obtain ⟨hpeek, hnext, _⟩ := peek_yes hbuf hs2 (by decide) ((lead_semi _).mpr hsemi)
    have hlen : (us ++ rest).length + 1 ≤ (tokens buf s).length := by
      rw [hs']
      simp only [length_append, length_cons]
      omega
    obtain ⟨s3, hok3, hs3⟩ := ihtail _ rest fuel hnext hrest
      (by rw [hnext]; simp only [Part.need]; omega)
    refine ⟨s3, ?_, hs3⟩
    have hline : parseline buf fuel (gettoken buf (skip buf s2)).ps = .ok (right, s3) := hok3
    change parseline buf (fuel + 1) s = _
    unfold parseline
    simp only [hok, hok2]
    rw [if_pos hpeek, hline]
  | @single ts cmd first ih =>
    intro s rest fuel hs hrest hfuel
    obtain ⟨fuel, rfl, hfuel'⟩ := exists_fuel hfuel
    obtain ⟨s1, hok, hs1⟩ := ih s rest fuel hs
      (fun t us heq => by
        have hk := hrest t us heq
        simp [Part.follows] at hk ⊢
        tauto) hfuel'
    have hexec : parseexec buf fuel s = .ok (cmd, s1) := hok
    have hno : ¬ peek buf s1 [124] = true := by
      refine peek_not hbuf hs1 (by decide) ?_
      intro t us heq hlead
      have hk := hrest t us heq
      rw [(lead_bar _).mp hlead] at hk
      exact absurd hk (by decide)
    refine ⟨skip buf s1, ?_, by rw [tokens_skip]; exact hs1⟩
    change parsepipe buf (fuel + 1) s = _
    unfold parsepipe
    simp only [hexec]
    rw [if_neg hno]
  | @pipe ts us bar cmd right first hbar tail ih ihtail =>
    intro s rest fuel hs hrest hfuel
    obtain ⟨fuel, rfl, hfuel'⟩ := exists_fuel hfuel
    rw [append_assoc, cons_append] at hs
    obtain ⟨s1, hok, hs1⟩ := ih s (bar :: (us ++ rest)) fuel hs
      (fun t vs heq => by
        obtain ⟨rfl, _⟩ := cons_eq_cons.mp heq
        simp [Part.follows, hbar]) hfuel'
    have hexec : parseexec buf fuel s = .ok (cmd, s1) := hok
    obtain ⟨hpeek, hnext, _⟩ := peek_yes hbuf hs1 (by decide) ((lead_bar _).mpr hbar)
    have hlen : (us ++ rest).length + 1 ≤ (tokens buf s).length := by
      rw [hs]
      simp only [length_append, length_cons]
      omega
    obtain ⟨s2, hok2, hs2⟩ := ihtail _ rest fuel hnext hrest
      (by rw [hnext]; simp only [Part.need]; omega)
    refine ⟨s2, ?_, hs2⟩
    have hpipe : parsepipe buf fuel (gettoken buf (skip buf s1)).ps = .ok (right, s2) := hok2
    change parsepipe buf (fuel + 1) s = _
    unfold parsepipe
    simp only [hexec]
    rw [if_pos hpeek, hpipe]
  | @block lpar rpar ts us cmd rs hlpar body hrpar redirs ih =>
    intro s rest fuel hs hrest hfuel
    obtain ⟨fuel, rfl, hfuel'⟩ := exists_fuel hfuel
    obtain ⟨fuel, rfl⟩ := Nat.exists_eq_succ_of_ne_zero (show fuel ≠ 0 by omega)
    rw [cons_append, append_assoc, cons_append] at hs
    obtain ⟨hpeek, _, _⟩ := peek_yes hbuf hs (by decide) ((lead_lpar _).mpr hlpar)
    have hskip : tokens buf (skip buf s) = lpar :: (ts ++ rpar :: (us ++ rest)) := by
      rw [tokens_skip, hs]
    obtain ⟨hpeek', hnext, _⟩ := peek_yes hbuf hskip (by decide) ((lead_lpar _).mpr hlpar)
    have hlen : (ts ++ rpar :: (us ++ rest)).length + 1 = (tokens buf s).length := by
      rw [hs, length_cons]
    obtain ⟨s1, hok, hs1⟩ := ih _ (rpar :: (us ++ rest)) fuel hnext
      (fun t vs heq => by
        obtain ⟨rfl, _⟩ := cons_eq_cons.mp heq
        simp [Part.follows, hrpar])
      (by rw [hnext]; simp only [Part.need]; omega)
    have hline : parseline buf fuel (gettoken buf (skip buf (skip buf s))).ps = .ok (cmd, s1) := hok
    obtain ⟨hclose, hafter, _⟩ := peek_yes hbuf hs1 (by decide) ((lead_rpar _).mpr hrpar)
    have hlen1 : (us ++ rest).length + 1 ≤ (tokens buf s).length := by
      rw [← hlen]
      simp only [length_append, length_cons]
      omega
    obtain ⟨s2, hok2, hs2⟩ := parseredirs_complete hbuf redirs fuel hafter
      (fun t vs heq => Args.nil.not_redir hrest t vs heq) (by rw [hafter]; omega)
    refine ⟨s2, ?_, hs2⟩
    change parseexec buf (fuel + 1 + 1) s = _
    unfold parseexec
    rw [if_pos hpeek]
    unfold parseblock
    rw [if_pos hpeek']
    simp only [hline]
    rw [if_pos hclose, hok2]
  | @exec ts us args rs ws redirs words hargs =>
    intro s rest fuel hs hrest hfuel
    obtain ⟨fuel, rfl, hfuel'⟩ := exists_fuel hfuel
    rw [append_assoc] at hs
    have hno : ¬ peek buf s [40] = true := by
      refine peek_not hbuf hs (by decide) ?_
      intro t vs heq hlead
      exact words.not_lpar redirs hrest t vs heq ((lead_lpar _).mp hlead)
    have hskip : tokens buf (skip buf s) = ts ++ (us ++ rest) := by rw [tokens_skip, hs]
    obtain ⟨s1, hok, hs1⟩ := parseredirs_complete hbuf redirs fuel hskip
      (words.not_redir hrest) (by rw [tokens_skip]; omega)
    have hlen : (tokens buf s1).length ≤ (tokens buf s).length := by
      rw [hs1, hs]
      simp only [length_append]
      omega
    obtain ⟨s2, hok2, hs2⟩ := parseargs_complete hbuf words fuel 0 hs1 hrest (by omega) (by omega)
    refine ⟨s2, ?_, hs2⟩
    change parseexec buf (fuel + 1) s = _
    unfold parseexec
    rw [if_neg hno]
    simp only [hok, hok2]

end Xv6.User
