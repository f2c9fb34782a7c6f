import Xv6.User.Match

/-!
# The loop of grep

`grep` (grep.c) reads into a buffer of 1024 bytes, writes the lines that match, and
moves the unfinished line to the front.  How many bytes each `read` returns is given
by `cuts`: at least one, as long as there are any, and at most as many as are asked for.
-/

namespace Xv6.User

open List

variable {a b p line rest pattern buf input : Text} {cuts : Nat → Nat} {k n fuel : Nat}

def newline : UInt8 := 0x0a

/-- `strchr(p, '\n')`: what is before the newline and what is behind it. -/
def cutLine : Text → Option (Text × Text)
  | [] => none
  | c :: p => if c = newline then some ([], p) else (cutLine p).map fun q => (c :: q.1, q.2)

/-- The inner loop: the bytes written, and the bytes from the last `p` on. -/
def grepLines (pattern : Text) : Nat → Text → Text × Text
  | 0, p => ([], p)
  | fuel + 1, p =>
    match cutLine p with
    | none => ([], p)
    | some (line, rest) =>
      let r := grepLines pattern fuel rest
      ((if matchText pattern line then line ++ [newline] else []) ++ r.1, r.2)

/-- `read(fd, buf+m, sizeof(buf)-m-1)` in turn `k`. -/
def read (cuts : Nat → Nat) (k : Nat) (buf input : Text) : Text :=
  input.take (min (max 1 (cuts k)) (1024 - buf.length - 1))

/-- The outer loop: what each turn reads and writes.  `buf` has the first `m` bytes of the
buffer. -/
def grepTurns (pattern : Text) (cuts : Nat → Nat) :
    Nat → Nat → Text → Text → List (Text × Text)
  | 0, _, _, _ => []
  | fuel + 1, k, buf, input =>
    let piece := read cuts k buf input
    if piece = [] then []
    else
      let data := buf ++ piece
      let r := grepLines pattern data.length data
      let m := if r.2.length = data.length then 0 else data.length
      (piece, r.1) ::
        grepTurns pattern cuts fuel (k + 1) (if 0 < m then r.2 else []) (input.drop piece.length)

/-- What each turn of `grep` on an input reads and writes. -/
def grep (pattern : Text) (cuts : Nat → Nat) (input : Text) : List (Text × Text) :=
  grepTurns pattern cuts (input.length + 1) 0 [] input

/-- What `grep` writes. -/
def written (turns : List (Text × Text)) : Text :=
  turns.flatMap Prod.snd

def splitLines : Text → List Text × Text
  | [] => ([], [])
  | c :: t =>
    if c = newline then ([] :: (splitLines t).1, (splitLines t).2)
    else
      match (splitLines t).1 with
      | [] => ([], c :: (splitLines t).2)
      | l :: ls => ((c :: l) :: ls, (splitLines t).2)

/-- The matching lines. -/
def selected (pattern text : Text) : Text :=
  ((splitLines text).1.filter (matchText pattern)).flatMap (· ++ [newline])

theorem splitLines_append (a b : Text) :
    splitLines (a ++ b) = ((splitLines a).1 ++ (splitLines ((splitLines a).2 ++ b)).1,
        (splitLines ((splitLines a).2 ++ b)).2) := by
  induction a with
  | nil => rfl
  | cons c a ih =>
    by_cases hc : c = newline
    · simp [splitLines, hc, ih]
    · cases hl : (splitLines a).1 with
      | nil => simp [splitLines, hc, ih, hl]
      | cons l ls => simp [splitLines, hc, ih, hl]

theorem splitLines_of_notMem (h : newline ∉ a) : splitLines a = ([], a) := by
  induction a with
  | nil => rfl
  | cons c a ih =>
    obtain ⟨hc, ha⟩ := not_or.mp (mem_cons.not.mp h)
    simp [splitLines, Ne.symm hc, ih ha]

theorem notMem_unfinished (a : Text) : newline ∉ (splitLines a).2 := by
  induction a with
  | nil => exact not_mem_nil
  | cons c a ih =>
    by_cases hc : c = newline
    · simpa [splitLines, hc] using ih
    · cases hl : (splitLines a).1 with
      | nil => simpa [splitLines, hc, hl, Ne.symm hc] using ih
      | cons l ls => simpa [splitLines, hc, hl] using ih

theorem join_splitLines (a : Text) :
    (splitLines a).1.flatMap (· ++ [newline]) ++ (splitLines a).2 = a := by
  induction a with
  | nil => rfl
  | cons c a ih =>
    by_cases hc : c = newline
    · simp [splitLines, hc, ih]
    cases hl : (splitLines a).1 with
    | nil =>
      rw [hl] at ih
      simpa [splitLines, hc, hl] using ih
    | cons l ls =>
      rw [hl] at ih
      simpa [splitLines, hc, hl] using ih

theorem length_unfinished (h : newline ∈ a) : (splitLines a).2.length < a.length := by
  have hjoin := congrArg List.length (join_splitLines a)
  rw [length_append] at hjoin
  cases hl : (splitLines a).1 with
  | nil =>
    rw [hl, flatMap_nil] at hjoin
    have hself := join_splitLines a
    rw [hl] at hself
    rw [← hself] at h
    exact absurd h (notMem_unfinished a)
  | cons l ls =>
    rw [hl, flatMap_cons, length_append, length_append, length_singleton] at hjoin
    omega

theorem splitLines_prepend {l : Text} {ls : List Text} (ha : newline ∉ a)
    (hb : (splitLines b).1 = l :: ls) :
    splitLines (a ++ b) = ((a ++ l) :: ls, (splitLines b).2) := by
  induction a with
  | nil => exact Prod.ext hb rfl
  | cons c a ih =>
    obtain ⟨hc, ha⟩ := not_or.mp (mem_cons.not.mp ha)
    simp [splitLines, Ne.symm hc, ih ha]

theorem cutLine_none (h : cutLine p = none) : newline ∉ p := by
  induction p with
  | nil => exact not_mem_nil
  | cons c p ih =>
    rw [cutLine] at h
    by_cases hc : c = newline
    · rw [if_pos hc] at h
      cases h
    · rw [if_neg hc, Option.map_eq_none_iff] at h
      simpa [Ne.symm hc] using ih h

theorem cutLine_some (h : cutLine p = some (line, rest)) :
    newline ∉ line ∧ p = line ++ newline :: rest := by
  induction p generalizing line with
  | nil => cases h
  | cons c p ih =>
    rw [cutLine] at h
    by_cases hc : c = newline
    · rw [if_pos hc] at h
      cases h
      exact ⟨not_mem_nil, by rw [hc]; rfl⟩
    · rw [if_neg hc, Option.map_eq_some_iff] at h
      obtain ⟨⟨l, r⟩, hq, hlr⟩ := h
      cases hlr
      obtain ⟨hl, rfl⟩ := ih hq
      exact ⟨by simpa [Ne.symm hc] using hl, rfl⟩

theorem grepLines_eq {fuel : Nat} (pattern : Text) (hfuel : p.length ≤ fuel) :
    grepLines pattern fuel p = (selected pattern p, (splitLines p).2) := by
  induction fuel generalizing p with
  | zero =>
    obtain rfl := eq_nil_of_length_eq_zero (Nat.le_zero.mp hfuel)
    rfl
  | succ fuel ih =>
    rw [grepLines]
    cases hcut : cutLine p with
    | none =>
      have hnl := splitLines_of_notMem (cutLine_none hcut)
      simp [selected, hnl]
    | some q =>
      obtain ⟨line, rest⟩ := q
      obtain ⟨hline, rfl⟩ := cutLine_some hcut
      rw [length_append, length_cons] at hfuel
      have hsplit : splitLines (line ++ newline :: rest) =
          (line :: (splitLines rest).1, (splitLines rest).2) := by
        have hfirst := splitLines_prepend (b := newline :: rest) (l := []) hline rfl
        rwa [append_nil] at hfirst
      simp only [ih (show rest.length ≤ fuel by omega), selected, hsplit, filter_cons]
      split
      · simp
      · simp

theorem selected_append (pattern a b : Text) :
    selected pattern (a ++ b) =
      selected pattern a ++ selected pattern ((splitLines a).2 ++ b) := by
  unfold selected
  rw [splitLines_append, filter_append, flatMap_append]

theorem selected_of_notMem (pattern : Text) (h : newline ∉ a) : selected pattern a = [] := by
  unfold selected
  rw [splitLines_of_notMem h]
  rfl

theorem selected_nil (a : Text) : selected [] a ++ (splitLines a).2 = a := by
  have hall : ∀ l, matchText [] l = true := by
    intro l
    cases l <;> rfl
  unfold selected
  rw [filter_eq_self.mpr fun l _ => hall l]
  exact join_splitLines a

/-- What is in the buffer after a turn. -/
def kept (data : Text) : Text :=
  if newline ∈ data then (splitLines data).2 else []

theorem grepTurns_cases (cuts : Nat → Nat) (fuel k : Nat) (buf input : Text) :
    (input = [] ∨ 1023 ≤ buf.length) ∧
        (∀ pattern, grepTurns pattern cuts (fuel + 1) k buf input = []) ∨
      ∃ piece input', piece ≠ [] ∧ input = piece ++ input' ∧
        ∀ pattern, grepTurns pattern cuts (fuel + 1) k buf input =
          (piece, selected pattern (buf ++ piece)) ::
            grepTurns pattern cuts fuel (k + 1) (kept (buf ++ piece)) input' := by
  have hinput : input = read cuts k buf input ++ input.drop (read cuts k buf input).length :=
    (prefix_iff_eq_append.mp <| List.take_prefix _ _).symm
  by_cases hpiece : read cuts k buf input = []
  · refine .inl ⟨?_, fun pattern => if_pos hpiece⟩
    rcases take_eq_nil_iff.mp hpiece with h | h
    · exact .inr (by omega)
    · exact .inl h
  refine .inr ⟨_, _, hpiece, hinput, fun pattern => ?_⟩
  rw [grepTurns]
  simp only [grepLines_eq pattern (Nat.le_refl _)]
  rw [if_neg hpiece]
  congr 2
  unfold kept
  by_cases hmem : newline ∈ buf ++ read cuts k buf input
  · have hlt := length_unfinished hmem
    rw [if_pos hmem, if_neg (show ¬_ = _ by omega), if_pos (by omega)]
  · rw [if_neg hmem, splitLines_of_notMem hmem]
    simp

theorem written_of_newlines (hfuel : input.length < fuel) (hbuf : newline ∉ buf)
    (hend : (splitLines (buf ++ input)).2 = [])
    (hshort : ∀ l ∈ (splitLines (buf ++ input)).1, l.length < 1023)
    (hall : ∀ t ∈ grepTurns pattern cuts fuel k buf input, newline ∈ t.1) :
    written (grepTurns pattern cuts fuel k buf input) = selected pattern (buf ++ input) := by
  induction fuel generalizing k buf input with
  | zero => omega
  | succ fuel ih =>
    rcases grepTurns_cases cuts fuel k buf input with ⟨hstop, hturn⟩ |
      ⟨piece, input', hne, rfl, hturn⟩
    · -- the unfinished line leaves room for a byte, so there is none left
      have hinput : input = [] := by
        by_contra hne
        have hlong : 1023 ≤ buf.length := hstop.resolve_left hne
        by_cases hnl : newline ∈ buf ++ input
        · cases hl : (splitLines input).1 with
          | nil =>
            have hjoin := join_splitLines input
            rw [hl, flatMap_nil, nil_append] at hjoin
            rcases mem_append.mp hnl with h | h
            · exact hbuf h
            · rw [← hjoin] at h
              exact notMem_unfinished input h
          | cons l ls =>
            rw [splitLines_prepend hbuf hl] at hshort
            have hfirst := hshort (buf ++ l) mem_cons_self
            rw [length_append] at hfirst
            omega
        · rw [splitLines_of_notMem hnl] at hend
          exact hne (append_eq_nil_iff.mp hend).2
      rw [hturn, hinput, append_nil, selected_of_notMem pattern hbuf]
      rfl
    rw [hturn] at hall ⊢
    have hnl := mem_append_right buf (hall _ mem_cons_self)
    have hpos := length_pos_iff.mpr hne
    rw [length_append] at hfuel
    rw [← append_assoc] at hend hshort ⊢
    rw [splitLines_append] at hend hshort
    have hkept : kept (buf ++ piece) = (splitLines (buf ++ piece)).2 := if_pos hnl
    rw [hkept] at hall ⊢
    rw [selected_append pattern (buf ++ piece),
      ← ih (k := k + 1) (by omega) (notMem_unfinished _) hend
      (fun l hl => hshort l (mem_append_right _ hl))
      fun t ht => hall t (mem_cons_of_mem _ ht)]
    rfl

theorem length_written (buf input : Text) (hbuf : newline ∉ buf) :
    (written (grepTurns [] cuts fuel k buf input)).length ≤ (buf ++ input).length ∧
      ((written (grepTurns [] cuts fuel k buf input)).length = (buf ++ input).length →
        ∀ t ∈ grepTurns [] cuts fuel k buf input, newline ∈ t.1) := by
  induction fuel generalizing k buf input with
  | zero => exact ⟨Nat.zero_le _, fun _ => nofun⟩
  | succ fuel ih =>
    rcases grepTurns_cases cuts fuel k buf input with ⟨_, hturn⟩ | ⟨piece, input', hne, rfl, hturn⟩
    · rw [hturn]
      exact ⟨Nat.zero_le _, fun _ => nofun⟩
    have hpos := length_pos_iff.mpr hne
    have hself := congrArg List.length (selected_nil (buf ++ piece))
    rw [hturn]
    simp only [written, flatMap_cons, length_append] at hself ih ⊢
    by_cases hnl : newline ∈ buf ++ piece
    · have hkept : kept (buf ++ piece) = (splitLines (buf ++ piece)).2 := if_pos hnl
      obtain ⟨hle, heq⟩ := ih (k := k + 1) _ input' (notMem_unfinished (buf ++ piece))
      rw [hkept]
      refine ⟨by omega, fun htotal t ht => ?_⟩
      rcases mem_cons.mp ht with rfl | ht
      · exact (mem_append.mp hnl).resolve_left hbuf
      · exact heq (by omega) t ht
    · -- the piece is lost
      have hkept : kept (buf ++ piece) = [] := if_neg hnl
      obtain ⟨hle, _⟩ := ih (k := k + 1) [] input' not_mem_nil
      rw [hkept, selected_of_notMem [] hnl, length_nil] at *
      exact ⟨by omega, fun htotal => by omega⟩

theorem map_fst_grepTurns (pattern : Text) (cuts : Nat → Nat) (fuel k : Nat) (buf input : Text) :
    (grepTurns pattern cuts fuel k buf input).map Prod.fst =
      (grepTurns [] cuts fuel k buf input).map Prod.fst := by
  induction fuel generalizing k buf input with
  | zero => rfl
  | succ fuel ih =>
    rcases grepTurns_cases cuts fuel k buf input with ⟨_, hturn⟩ | ⟨piece, input', _, rfl, hturn⟩
    · rw [hturn, hturn]
    · rw [hturn, hturn, map_cons, map_cons, ih]

/-- For an input of whole lines that fit into the buffer, `grep` writes the matching lines for every
pattern if and only if every piece that is read has a newline. -/
theorem grep_selects_iff (cuts : Nat → Nat) (input : Text) (hend : (splitLines input).2 = [])
    (hshort : ∀ l ∈ (splitLines input).1, l.length < 1023) :
    (∀ pattern, written (grep pattern cuts input) = selected pattern input) ↔
      ∀ piece ∈ (grep [] cuts input).map Prod.fst, newline ∈ piece := by
  constructor
  · intro h piece hpiece
    obtain ⟨t, ht, rfl⟩ := mem_map.mp hpiece
    refine (length_written [] input not_mem_nil).2 ?_ t ht
    have hself := selected_nil input
    rw [hend, append_nil] at hself
    exact congrArg List.length ((h []).trans hself)
  intro h pattern
  refine written_of_newlines (by omega) (show newline ∉ [] from not_mem_nil) hend hshort ?_
  intro t ht
  refine h t.1 ?_
  unfold grep
  rw [← map_fst_grepTurns pattern]
  exact mem_map_of_mem ht

/-- Two lines that are read one by one. -/
theorem grep_selects_two_lines :
    written (grep [0x61] (fun _ => 2) [0x61, 0x0a, 0x62, 0x0a]) = [0x61, 0x0a] :=
  (grep_selects_iff (fun _ => 2) [0x61, 0x0a, 0x62, 0x0a] (by decide) (by decide)).mpr (by decide) _

/-- The line `ab` read in two pieces. -/
theorem grep_loses_first_piece :
    written (grep [0x61, 0x62] (fun _ => 1) [0x61, 0x62, 0x0a]) = [] ∧
      selected [0x61, 0x62] [0x61, 0x62, 0x0a] = [0x61, 0x62, 0x0a] := by
  decide

end Xv6.User
