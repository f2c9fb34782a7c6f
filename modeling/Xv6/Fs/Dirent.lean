import Xv6.Fs.Layout

/-!
# Names and directory entries

The string functions of string.c that directories are built on, `struct dirent`,
and `skipelem`.  A string is the list of its bytes without the terminating NUL; a
pointer into a buffer is the list of the bytes from there on, and reading past
the end of either gives 0.
-/

namespace Xv6.Fs

open Lib List

/-- A name or a path. -/
abbrev Str := List UInt8

def strncmp : Nat → Str → Str → Int
  | 0, _, _ => 0
  | n + 1, p, q =>
    if p.headD 0 ≠ 0 ∧ p.headD 0 = q.headD 0 then strncmp n p.tail q.tail
    else ((p.headD 0).toNat : Int) - (q.headD 0).toNat

def strncpy : Nat → Str → Str
  | 0, _ => []
  | n + 1, t =>
    if t.headD 0 = 0 then List.replicate (n + 1) 0
    else t.headD 0 :: strncpy n t.tail

def namecmp (s t : Str) : Int :=
  strncmp 14 s t

/-- The part of a string that `strncmp` and `strncpy` look at. -/
def cut : Nat → Str → Str
  | 0, _ => []
  | n + 1, t => if t.headD 0 = 0 then [] else t.headD 0 :: cut n t.tail

theorem strncmp_eq_zero (n : Nat) (p q : Str) : strncmp n p q = 0 ↔ cut n p = cut n q := by
  induction n generalizing p q with
  | zero => simp [strncmp, cut]
  | succ n ih =>
    simp only [strncmp, cut]
    by_cases hp : p.headD 0 = 0
    · by_cases hq : q.headD 0 = 0
      · rw [hp, hq]
        simp
      · have hne : (q.headD 0).toNat ≠ 0 := by
          intro h
          exact hq (UInt8.toNat_inj.mp h)
        rw [if_neg (fun h => h.1 hp), if_pos hp, if_neg hq, hp]
        simp only [UInt8.toNat_zero, reduceCtorEq, iff_false]
        omega
    by_cases heq : p.headD 0 = q.headD 0
    · rw [if_pos ⟨hp, heq⟩, if_neg hp, if_neg (heq ▸ hp), ih, heq]
      simp
    rw [if_neg (fun h => heq h.2), if_neg hp]
    have hne : (p.headD 0).toNat ≠ (q.headD 0).toNat := fun h => heq (UInt8.toNat_inj.mp h)
    by_cases hq : q.headD 0 = 0
    · rw [if_pos hq]
      simp only [reduceCtorEq, iff_false]
      omega
    · rw [if_neg hq]
      simp only [List.cons.injEq, heq, false_and, iff_false]
      omega

theorem namecmp_eq_zero (s t : Str) : namecmp s t = 0 ↔ cut 14 s = cut 14 t :=
  strncmp_eq_zero 14 s t

@[simp] theorem length_strncpy (n : Nat) (t : Str) : (strncpy n t).length = n := by
  induction n generalizing t with
  | zero => rfl
  | succ n ih =>
    simp only [strncpy]
    split
    · simp
    · simp [ih]

@[simp] theorem cut_strncpy (n : Nat) (t : Str) : cut n (strncpy n t) = cut n t := by
  induction n generalizing t with
  | zero => rfl
  | succ n ih =>
    by_cases ht : t.headD 0 = 0
    · have hcopy : strncpy (n + 1) t = 0 :: List.replicate n 0 := by
        rw [strncpy, if_pos ht, replicate_succ]
      rw [hcopy, cut, cut, if_pos ht, headD_cons, if_pos rfl]
    · have hcopy : strncpy (n + 1) t = t.headD 0 :: strncpy n t.tail := by
        rw [strncpy, if_neg ht]
      rw [hcopy, cut, cut, if_neg ht, headD_cons, if_neg ht, tail_cons, ih]

/-- `struct dirent`. -/
@[ext] structure Dirent where
  inum : Nat
  name : Str
deriving DecidableEq

namespace Dirent

def byte (de : Dirent) (r : Nat) : UInt8 :=
  if r < 2 then halfByte de.inum r else de.name.getD (r - 2) 0

def decode (g : Nat → UInt8) : Dirent where
  inum := halfOf g 0
  name := (List.range 14).map fun r => g (2 + r)

/-- The bytes that are written to the directory. -/
def bytes (de : Dirent) : List UInt8 :=
  (List.range 16).map de.byte

@[simp] theorem length_bytes (de : Dirent) : de.bytes.length = 16 := by
  simp [bytes]

theorem getD_bytes (de : Dirent) {r : Nat} (hr : r < 16) : de.bytes.getD r 0 = de.byte r := by
  simp [bytes, getD_eq_getElem?_getD, List.getElem?_range hr]

theorem decode_byte {de : Dirent} (hinum : de.inum < 2 ^ 16) (hname : de.name.length = 14) :
    decode de.byte = de := by
  ext1
  · exact halfOf_of_bytes hinum fun r hr => by
      unfold byte
      rw [if_pos (by omega), Nat.zero_add]
  simp only [decode]
  apply ext_getElem
  · simp [hname]
  · intro r hr hr'
    have hlt : r < de.name.length := hr'
    simp only [getElem_map, getElem_range, byte]
    rw [if_neg (by omega)]
    simp [getD_eq_getElem?_getD, hlt]

theorem decode_congr {g g' : Nat → UInt8} (h : ∀ r < 16, g r = g' r) : decode g = decode g' := by
  ext1
  · exact halfOf_congr fun r hr => h (0 + r) (by omega)
  · simp only [decode]
    apply map_congr_left
    intro r hr
    exact h (2 + r) (by have := mem_range.mp hr; omega)

end Dirent

abbrev slash : UInt8 := 47

/-- `skipelem`: the next path element, cut to 14 bytes, and the rest of the path. -/
def skipelem (path : Str) : Option (Str × Str) :=
  match path.dropWhile (· = slash) with
  | [] => none
  | c :: cs =>
    some (((c :: cs).takeWhile (· ≠ slash)).take 14,
      ((c :: cs).dropWhile (· ≠ slash)).dropWhile (· = slash))

theorem length_dropWhile_le {α : Type} (p : α → Bool) (l : List α) :
    (l.dropWhile p).length ≤ l.length :=
  (dropWhile_sublist p).length_le

theorem skipelem_length {path name rest : Str} (h : skipelem path = some (name, rest)) :
    rest.length < path.length := by
  unfold skipelem at h
  cases hp : path.dropWhile (· = slash) with
  | nil =>
    rw [hp] at h
    cases h
  | cons c cs =>
    rw [hp] at h
    simp only [Option.some.injEq, Prod.mk.injEq] at h
    have hc : c ≠ slash := by
      have hhead := head_dropWhile_not (l := path) (· = slash) (by rw [hp]; simp)
      simpa [hp] using hhead
    have hle : (c :: cs).length ≤ path.length := by
      rw [← hp]
      exact length_dropWhile_le _ path
    have hrest : rest.length ≤ cs.length := by
      rw [← h.2, dropWhile_cons_of_pos (by simpa using hc)]
      exact (length_dropWhile_le _ _).trans (length_dropWhile_le _ _)
    simp only [length_cons] at hle
    omega

end Xv6.Fs
