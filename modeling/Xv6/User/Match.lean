import Mathlib.Data.List.Basic

/-!
# The matcher of grep

`match`, `matchhere` and `matchstar` (grep.c), and what a pattern means.  A string
is the list of its bytes before the terminating NUL, so the end of the list is
where the source reads a NUL.
-/

namespace Xv6.User

abbrev Text := List UInt8

def caret : UInt8 := 0x5e
def dollar : UInt8 := 0x24
def star : UInt8 := 0x2a
def period : UInt8 := 0x2e

def matchstar (here : Text → Bool) (c : UInt8) : Text → Bool
  | [] => here []
  | t :: text => here (t :: text) || ((t = c || c = period) && matchstar here c text)

/-- One character of the pattern against one of the text, with the match of what follows. -/
def matchone (here : Text → Bool) (c : UInt8) : Text → Bool
  | [] => false
  | t :: text => (c = period || c = t) && here text

def matchhere : Text → Text → Bool
  | [], _ => true
  | [c], text => if c = dollar then text = [] else matchone (matchhere []) c text
  | c :: d :: re, text =>
    if d = star then matchstar (matchhere re) c text else matchone (matchhere (d :: re)) c text

def matchLoop (re : Text) : Text → Bool
  | [] => matchhere re []
  | t :: text => matchhere re (t :: text) || matchLoop re text

/-- `match`. -/
def matchText (re text : Text) : Bool :=
  match re with
  | [] => matchLoop [] text
  | c :: re => if c = caret then matchhere re text else matchLoop (c :: re) text

inductive Item
  | many (c : UInt8)
  | stop
  | one (c : UInt8)

def items : Text → List Item
  | [] => []
  | [c] => if c = dollar then [.stop] else [.one c]
  | c :: d :: re => if d = star then .many c :: items re else .one c :: items (d :: re)

def Stands (c t : UInt8) : Prop :=
  c = period ∨ c = t

/-- The items match from the start of the text on. -/
def Fits : List Item → Text → Prop
  | [], _ => True
  | .many c :: is, text => ∃ u v, text = u ++ v ∧ (∀ t ∈ u, Stands c t) ∧ Fits is v
  | .stop :: is, text => text = [] ∧ Fits is text
  | .one c :: is, text => ∃ t v, text = t :: v ∧ Stands c t ∧ Fits is v

/-- The declarative meaning of a pattern. -/
def Matches (re text : Text) : Prop :=
  match re with
  | [] => True
  | c :: re' =>
    if c = caret then Fits (items re') text
    else ∃ u v, text = u ++ v ∧ Fits (items re) v

section Match

variable {c : UInt8} {re text : Text}

theorem matchstar_iff {here : Text → Bool} :
    matchstar here c text = true ↔
      ∃ u v, text = u ++ v ∧ (∀ t ∈ u, Stands c t) ∧ here v = true := by
  induction text with
  | nil =>
    constructor
    · intro h
      exact ⟨[], [], rfl, nofun, h⟩
    · rintro ⟨u, v, htext, -, h⟩
      obtain ⟨-, rfl⟩ := List.append_eq_nil_iff.mp htext.symm
      exact h
  | cons t text ih =>
    have hstands : (decide (t = c) || decide (c = period)) = true ↔ Stands c t := by
      rw [Bool.or_eq_true, decide_eq_true_iff, decide_eq_true_iff, or_comm, eq_comm (a := t)]
      rfl
    rw [matchstar, Bool.or_eq_true, Bool.and_eq_true, hstands, ih]
    constructor
    · rintro (h | ⟨ht, u, v, rfl, hu, h⟩)
      · exact ⟨[], t :: text, rfl, nofun, h⟩
      · refine ⟨t :: u, v, rfl, ?_, h⟩
        intro x hx
        rcases List.mem_cons.mp hx with rfl | hx
        · exact ht
        · exact hu x hx
    rintro ⟨u, v, htext, hu, h⟩
    cases u with
    | nil =>
      rw [List.nil_append] at htext
      rw [htext]
      exact .inl h
    | cons x u =>
      obtain ⟨rfl, rfl⟩ := List.cons_eq_cons.mp htext
      refine .inr ⟨hu t List.mem_cons_self, u, v, rfl, ?_, h⟩
      exact fun y hy => hu y (List.mem_cons_of_mem t hy)

theorem matchone_iff {here : Text → Bool} {is : List Item} (h : ∀ v, here v = true ↔ Fits is v) :
    matchone here c text = true ↔ Fits (.one c :: is) text := by
  cases text with
  | nil => exact ⟨nofun, fun ⟨t, v, hv, _⟩ => nomatch hv⟩
  | cons t text =>
    simp only [matchone, Bool.and_eq_true, Bool.or_eq_true, decide_eq_true_eq, h]
    constructor
    · rintro ⟨ht, hv⟩
      exact ⟨t, text, rfl, ht, hv⟩
    · rintro ⟨t', v, hv, ht, hfits⟩
      obtain ⟨rfl, rfl⟩ := List.cons_eq_cons.mp hv
      exact ⟨ht, hfits⟩

theorem matchhere_iff : matchhere re text = true ↔ Fits (items re) text := by
  have hnil : ∀ v, matchhere [] v = true ↔ Fits [] v := fun _ => ⟨fun _ => trivial, fun _ => rfl⟩
  induction re using items.induct generalizing text with
  | case1 => exact hnil text
  | case2 =>
    rw [matchhere, items, if_pos rfl, if_pos rfl]
    simp [Fits]
  | case3 c hc =>
    rw [matchhere, items, if_neg hc, if_neg hc]
    exact matchone_iff hnil
  | case4 c re ih =>
    rw [matchhere, items, if_pos rfl, if_pos rfl, matchstar_iff]
    simp only [ih]
    rfl
  | case5 c d re hd ih =>
    rw [matchhere, items, if_neg hd, if_neg hd]
    exact matchone_iff fun _ => ih

theorem matchLoop_iff : matchLoop re text = true ↔ ∃ u v, text = u ++ v ∧ Fits (items re) v := by
  induction text with
  | nil =>
    rw [matchLoop, matchhere_iff]
    constructor
    · intro h
      exact ⟨[], [], rfl, h⟩
    · rintro ⟨u, v, htext, h⟩
      obtain ⟨-, rfl⟩ := List.append_eq_nil_iff.mp htext.symm
      exact h
  | cons t text ih =>
    rw [matchLoop, Bool.or_eq_true, matchhere_iff, ih]
    constructor
    · rintro (h | ⟨u, v, rfl, h⟩)
      · exact ⟨[], t :: text, rfl, h⟩
      · exact ⟨t :: u, v, rfl, h⟩
    rintro ⟨u, v, htext, h⟩
    cases u with
    | nil =>
      rw [List.nil_append] at htext
      rw [htext]
      exact .inl h
    | cons x u =>
      obtain ⟨rfl, rfl⟩ := List.cons_eq_cons.mp htext
      exact .inr ⟨u, v, rfl, h⟩

end Match

/-- The matcher is sound and complete. -/
theorem matchText_iff (re text : Text) : matchText re text = true ↔ Matches re text := by
  unfold matchText Matches
  cases re with
  | nil =>
    rw [matchLoop_iff]
    exact ⟨fun _ => trivial, fun _ => ⟨[], text, rfl, trivial⟩⟩
  | cons c re =>
    simp only
    split
    · exact matchhere_iff
    · exact matchLoop_iff

end Xv6.User
