import Xv6.User.Sh

/-!
# The tokens of a line

`lex` cuts a line into tokens: words are maximal runs of bytes that are neither
whitespace nor symbols, and `>>` is one token.  `gettoken` returns these tokens one
after the other, and `peek` looks at the next one.
-/

namespace Xv6.User

open List

variable {buf cs : List UInt8} {s : Nat} {c : UInt8} {t : Token} {ts : List Token}

structure Token where
  kind : Tok
  q : Nat
  eq : Nat
deriving DecidableEq, Repr

def symbolTok (c : UInt8) : Tok :=
  if c = 124 then .bar
  else if c = 40 then .lpar
  else if c = 41 then .rpar
  else if c = 59 then .semi
  else if c = 38 then .amp
  else if c = 60 then .lt
  else .gt

def lex (off : Nat) : List UInt8 → List Token
  | [] => []
  | c :: cs =>
    if isSpace c = true then lex (off + 1) cs
    else if isWord c = true then
      ⟨.word, off, off + (cs.takeWhile isWord).length + 1⟩ ::
        lex (off + (cs.takeWhile isWord).length + 1) (cs.dropWhile isWord)
    else if c = 62 ∧ cs.head? = some 62 then ⟨.gtgt, off, off + 2⟩ :: lex (off + 2) cs.tail
    else ⟨symbolTok c, off, off + 1⟩ :: lex (off + 1) cs
termination_by cs => cs.length
decreasing_by
  · simp
  · have hle := (dropWhile_sublist (l := cs) isWord).length_le
    simp only [length_cons]
    omega
  · simp only [length_tail, length_cons]
    omega
  · simp

/-- The tokens from the cursor on. -/
def tokens (buf : List UInt8) (s : Nat) : List Token :=
  lex s (buf.drop s)

theorem lex_skip (off : Nat) (cs : List UInt8) :
    lex (off + (cs.takeWhile isSpace).length) (cs.dropWhile isSpace) = lex off cs := by
  induction cs generalizing off with
  | nil => rfl
  | cons c cs ih =>
    by_cases hc : isSpace c = true
    · rw [takeWhile_cons_of_pos hc, dropWhile_cons_of_pos hc, length_cons, lex,
        if_pos hc, ← ih (off + 1)]
      congr 1
      omega
    · rw [takeWhile_cons_of_neg hc, dropWhile_cons_of_neg hc]
      rfl

theorem drop_length_takeWhile (p : UInt8 → Bool) (cs : List UInt8) :
    cs.drop (cs.takeWhile p).length = cs.dropWhile p := by
  induction cs with
  | nil => rfl
  | cons c cs ih =>
    by_cases hc : p c = true
    · rw [takeWhile_cons_of_pos hc, dropWhile_cons_of_pos hc, length_cons, drop_succ_cons, ih]
    · rw [takeWhile_cons_of_neg hc, dropWhile_cons_of_neg hc]
      rfl

theorem drop_skip (s : Nat) : buf.drop (skip buf s) = (buf.drop s).dropWhile isSpace := by
  rw [skip, ← drop_drop, drop_length_takeWhile]

@[simp] theorem tokens_skip (s : Nat) : tokens buf (skip buf s) = tokens buf s := by
  rw [tokens, drop_skip, skip, lex_skip, tokens]

theorem charAt_of_drop_nil (h : buf.drop s = []) : charAt buf s = 0 := by
  rw [charAt, getD_eq_getElem?_getD, List.getElem?_eq_none (drop_eq_nil_iff.mp h)]
  rfl

theorem charAt_of_drop_cons (h : buf.drop s = c :: cs) : charAt buf s = c := by
  have hget : (buf.drop s)[0]? = some c := by
    rw [h]
    rfl
  rw [List.getElem?_drop] at hget
  rw [charAt, getD_eq_getElem?_getD]
  simpa using congrArg (fun o => o.getD 0) hget

theorem skip_cases (hbuf : 0 ∉ buf) (s : Nat) :
    (buf.drop (skip buf s) = [] ∧ tokens buf s = []) ∨
      ∃ c cs, buf.drop (skip buf s) = c :: cs ∧ isSpace c = false ∧ c ≠ 0 := by
  cases hdrop : buf.drop (skip buf s) with
  | nil =>
    refine .inl ⟨rfl, ?_⟩
    rw [← tokens_skip, tokens, hdrop, lex]
  | cons c cs =>
    refine .inr ⟨c, cs, rfl, ?_, ?_⟩
    · have hhead := List.head?_dropWhile_not isSpace (buf.drop s)
      rw [← drop_skip, hdrop] at hhead
      simpa using hhead
    · rintro rfl
      apply hbuf
      apply mem_of_mem_drop (i := skip buf s)
      rw [hdrop]
      exact mem_cons_self

theorem symbol_cases (hspace : isSpace c = false) (hword : ¬ isWord c = true) :
    c = 60 ∨ c = 124 ∨ c = 62 ∨ c = 38 ∨ c = 59 ∨ c = 40 ∨ c = 41 := by
  unfold isSpace at hspace
  unfold isWord at hword
  rw [hspace] at hword
  simp [symbols] at hword
  tauto

theorem scan_spec (hdrop : buf.drop s = c :: cs) (hspace : isSpace c = false) (hc : c ≠ 0) :
    tokens buf s = ⟨(scan buf s).1, s, (scan buf s).2⟩ :: tokens buf (scan buf s).2 := by
  have hchar := charAt_of_drop_cons hdrop
  have hnext : buf.drop (s + 1) = cs := by
    rw [← drop_drop, hdrop]
    rfl
  rw [tokens, hdrop, lex, if_neg (by simp [hspace])]
  by_cases hword : isWord c = true
  · have hsym : c ≠ 124 ∧ c ≠ 40 ∧ c ≠ 41 ∧ c ≠ 59 ∧ c ≠ 38 ∧ c ≠ 60 ∧ c ≠ 62 := by
      refine ⟨?_, ?_, ?_, ?_, ?_, ?_, ?_⟩ <;> rintro rfl <;> exact absurd hword (by decide)
    have hscan : scan buf s = (.word, s + ((buf.drop s).takeWhile isWord).length) := by
      simp [scan, hchar, hc, hsym]
    have hlen : ((c :: cs).takeWhile isWord).length = (cs.takeWhile isWord).length + 1 := by
      rw [takeWhile_cons_of_pos hword, length_cons]
    rw [if_pos hword, hscan, tokens]
    simp only
    rw [← drop_drop, drop_length_takeWhile, hdrop, hlen, dropWhile_cons_of_pos hword]
    rfl
  rw [if_neg hword]
  by_cases hgt : c = 62
  · subst hgt
    cases cs with
    | nil =>
      have hscan : scan buf s = (.gt, s + 1) := by simp [scan, hchar, charAt_of_drop_nil hnext]
      rw [hscan, if_neg (by simp), tokens, hnext]
      rfl
    | cons d ds =>
      have hchar' := charAt_of_drop_cons hnext
      by_cases hd : d = 62
      · have hscan : scan buf s = (.gtgt, s + 2) := by
          simp [scan, hchar, hchar', hd]
        have hnext' : buf.drop (s + 2) = ds := by
          rw [← drop_drop, hdrop]
          rfl
        rw [hscan, if_pos (by simp [hd]), tokens, hnext']
        rfl
      · have hscan : scan buf s = (.gt, s + 1) := by
          simp [scan, hchar, hchar', hd]
        rw [hscan, if_neg (by simp [hd]), tokens, hnext]
        rfl
  rw [if_neg (by simp [hgt]), tokens]
  -- The other symbols are tokens of one byte.
  rcases symbol_cases hspace hword with rfl | rfl | rfl | rfl | rfl | rfl | rfl
  · simp [scan, hchar, hnext, symbolTok]
  · simp [scan, hchar, hnext, symbolTok]
  · exact absurd rfl hgt
  · simp [scan, hchar, hnext, symbolTok]
  · simp [scan, hchar, hnext, symbolTok]
  · simp [scan, hchar, hnext, symbolTok]
  · simp [scan, hchar, hnext, symbolTok]

theorem gettoken_nil (hbuf : 0 ∉ buf) (h : tokens buf s = []) :
    (gettoken buf s).tok = .eof ∧ tokens buf (gettoken buf s).ps = [] := by
  rcases skip_cases hbuf s with ⟨hdrop, _⟩ | ⟨c, cs, hdrop, hspace, hc⟩
  · have hscan : scan buf (skip buf s) = (.eof, skip buf s) := by
      simp [scan, charAt_of_drop_nil hdrop]
    refine ⟨congrArg Prod.fst hscan, ?_⟩
    change tokens buf (skip buf (scan buf (skip buf s)).2) = []
    rw [hscan, tokens_skip, tokens_skip, h]
  · have hcons := scan_spec hdrop hspace hc
    rw [tokens_skip, h] at hcons
    cases hcons

theorem gettoken_cons (hbuf : 0 ∉ buf) (h : tokens buf s = t :: ts) :
    (gettoken buf s).tok = t.kind ∧ (gettoken buf s).q = t.q ∧ (gettoken buf s).eq = t.eq ∧
      tokens buf (gettoken buf s).ps = ts := by
  rcases skip_cases hbuf s with ⟨_, hnil⟩ | ⟨c, cs, hdrop, hspace, hc⟩
  · rw [h] at hnil
    cases hnil
  · have hcons := scan_spec hdrop hspace hc
    rw [tokens_skip, h] at hcons
    obtain ⟨rfl, rfl⟩ := cons_eq_cons.mp hcons
    refine ⟨rfl, rfl, rfl, ?_⟩
    exact tokens_skip _

theorem kind_ne_eof (hbuf : 0 ∉ buf) (h : tokens buf s = t :: ts) : t.kind ≠ .eof := by
  rcases skip_cases hbuf s with ⟨_, hnil⟩ | ⟨c, cs, hdrop, hspace, hc⟩
  · rw [h] at hnil
    cases hnil
  have hcons := scan_spec hdrop hspace hc
  rw [tokens_skip, h] at hcons
  obtain ⟨rfl, _⟩ := cons_eq_cons.mp hcons
  simp only
  unfold scan
  rw [charAt_of_drop_cons hdrop, if_neg hc]
  split_ifs <;> simp

def Tok.lead : Tok → Option UInt8
  | .bar => some 124
  | .lpar => some 40
  | .rpar => some 41
  | .semi => some 59
  | .amp => some 38
  | .lt => some 60
  | .gt => some 62
  | .gtgt => some 62
  | .eof => none
  | .word => none

theorem peek_nil (hbuf : 0 ∉ buf) (h : tokens buf s = []) (toks : List UInt8) :
    peek buf s toks = false := by
  rcases skip_cases hbuf s with ⟨hdrop, _⟩ | ⟨c, cs, hdrop, hspace, hc⟩
  · simp [peek, charAt_of_drop_nil hdrop]
  · have hcons := scan_spec hdrop hspace hc
    rw [tokens_skip, h] at hcons
    cases hcons

theorem peek_cons {toks : List UInt8} (hbuf : 0 ∉ buf)
    (h : tokens buf s = t :: ts) (htoks : toks ⊆ symbols) :
    peek buf s toks = t.kind.lead.any toks.contains := by
  rcases skip_cases hbuf s with ⟨_, hnil⟩ | ⟨c, cs, hdrop, hspace, hc⟩
  · rw [h] at hnil
    cases hnil
  have hcons := scan_spec hdrop hspace hc
  rw [tokens_skip, h] at hcons
  obtain ⟨rfl, _⟩ := cons_eq_cons.mp hcons
  have hchar := charAt_of_drop_cons hdrop
  have hpeek : peek buf s toks = toks.contains c := by simp [peek, hchar, hc]
  rw [hpeek]
  simp only
  by_cases hword : isWord c = true
  · have hsym : c ≠ 124 ∧ c ≠ 40 ∧ c ≠ 41 ∧ c ≠ 59 ∧ c ≠ 38 ∧ c ≠ 60 ∧ c ≠ 62 := by
      refine ⟨?_, ?_, ?_, ?_, ?_, ?_, ?_⟩ <;> rintro rfl <;> exact absurd hword (by decide)
    have hnot : toks.contains c = false := by
      apply Bool.eq_false_of_not_eq_true
      intro hmem
      have hin : c ∈ symbols := htoks (by simpa using hmem)
      simp [isWord, hin] at hword
    rw [hnot]
    simp [scan, hchar, hc, hsym, Tok.lead]
  rcases symbol_cases hspace hword with rfl | rfl | rfl | rfl | rfl | rfl | rfl
  · simp [scan, hchar, Tok.lead]
  · simp [scan, hchar, Tok.lead]
  · by_cases hd : charAt buf (skip buf s + 1) = 62
    · simp [scan, hchar, hd, Tok.lead]
    · simp [scan, hchar, hd, Tok.lead]
  · simp [scan, hchar, Tok.lead]
  · simp [scan, hchar, Tok.lead]
  · simp [scan, hchar, Tok.lead]
  · simp [scan, hchar, Tok.lead]

theorem length_lex_le (off : Nat) (cs : List UInt8) : (lex off cs).length ≤ cs.length := by
  induction off, cs using lex.induct with
  | case1 off => simp [lex]
  | case2 off c cs hc ih =>
    rw [lex, if_pos hc, length_cons]
    omega
  | case3 off c cs hc hw ih =>
    have hle := (dropWhile_sublist (l := cs) isWord).length_le
    rw [lex, if_neg hc, if_pos hw, length_cons, length_cons]
    omega
  | case4 off c cs hc hw hgt ih =>
    rw [lex, if_neg hc, if_neg hw, if_pos hgt, length_cons, length_cons]
    rw [length_tail] at ih
    omega
  | case5 off c cs hc hw hgt ih =>
    rw [lex, if_neg hc, if_neg hw, if_neg hgt, length_cons, length_cons]
    omega

/-- A word of the line: a run of word bytes that ends where no word byte follows. -/
structure IsRun (buf : List UInt8) (q eq : Nat) : Prop where
  lt : q < eq
  le : eq ≤ buf.length
  inside : ∀ i, q ≤ i → i < eq → isWord (charAt buf i) = true
  after : eq = buf.length ∨ isWord (charAt buf eq) = false

theorem getD_takeWhile (p : UInt8 → Bool) (cs : List UInt8) (i : Nat)
    (hi : i < (cs.takeWhile p).length) : p (cs.getD i 0) = true := by
  induction cs generalizing i with
  | nil => cases hi
  | cons c cs ih =>
    by_cases hc : p c = true
    · cases i with
      | zero => exact hc
      | succ i =>
        rw [takeWhile_cons_of_pos hc, length_cons] at hi
        exact ih i (Nat.lt_of_succ_lt_succ hi)
    · rw [takeWhile_cons_of_neg hc] at hi
      cases hi

theorem getD_length_takeWhile (p : UInt8 → Bool) (cs : List UInt8) :
    (cs.takeWhile p).length = cs.length ∨ p (cs.getD (cs.takeWhile p).length 0) = false := by
  induction cs with
  | nil => exact .inl rfl
  | cons c cs ih =>
    by_cases hc : p c = true
    · rw [takeWhile_cons_of_pos hc, length_cons, length_cons]
      exact ih.imp (congrArg Nat.succ) id
    · rw [takeWhile_cons_of_neg hc]
      exact .inr (Bool.eq_false_of_not_eq_true hc)

theorem isRun_of_drop {off : Nat} (hdrop : buf.drop off = c :: cs)
    (hc : isWord c = true) : IsRun buf off (off + (cs.takeWhile isWord).length + 1) := by
  have hlen : (buf.drop off).length = cs.length + 1 := by rw [hdrop, length_cons]
  rw [length_drop] at hlen
  have htake : ((c :: cs).takeWhile isWord).length = (cs.takeWhile isWord).length + 1 := by
    rw [takeWhile_cons_of_pos hc, length_cons]
  have hle := (takeWhile_sublist (l := cs) isWord).length_le
  have hchar : ∀ j, charAt buf (off + j) = (c :: cs).getD j 0 := by
    intro j
    rw [← hdrop, charAt, getD_eq_getElem?_getD, getD_eq_getElem?_getD, List.getElem?_drop]
  refine ⟨by omega, by omega, ?_, ?_⟩
  · intro i hi hlt
    obtain ⟨j, rfl⟩ := Nat.exists_eq_add_of_le hi
    rw [hchar]
    exact getD_takeWhile isWord (c :: cs) j (by omega)
  · rw [Nat.add_assoc, hchar, ← htake]
    rcases getD_length_takeWhile isWord (c :: cs) with hall | hafter
    · left
      rw [hall, length_cons]
      omega
    · exact .inr hafter

theorem isRun_of_mem_lex (off : Nat) (cs : List UInt8) (hdrop : buf.drop off = cs)
    (ht : t ∈ lex off cs) (hk : t.kind = .word) : IsRun buf t.q t.eq := by
  induction off, cs using lex.induct with
  | case1 off =>
    rw [lex] at ht
    cases ht
  | case2 off c cs hc ih =>
    rw [lex, if_pos hc] at ht
    refine ih ?_ ht
    rw [← drop_drop, hdrop]
    rfl
  | case3 off c cs hc hw ih =>
    rw [lex, if_neg hc, if_pos hw] at ht
    rcases mem_cons.mp ht with rfl | ht
    · exact isRun_of_drop hdrop hw
    · refine ih ?_ ht
      rw [Nat.add_assoc, ← drop_drop, hdrop, drop_succ_cons]
      exact drop_length_takeWhile isWord cs
  | case4 off c cs hc hw hgt ih =>
    rw [lex, if_neg hc, if_neg hw, if_pos hgt] at ht
    rcases mem_cons.mp ht with rfl | ht
    · cases hk
    · refine ih ?_ ht
      rw [← drop_drop, hdrop, drop_succ_cons, drop_one]
  | case5 off c cs hc hw hgt ih =>
    rw [lex, if_neg hc, if_neg hw, if_neg hgt] at ht
    rcases mem_cons.mp ht with rfl | ht
    · exact absurd hk (by unfold symbolTok; split_ifs <;> simp)
    · refine ih ?_ ht
      rw [← drop_drop, hdrop]
      rfl

end Xv6.User
