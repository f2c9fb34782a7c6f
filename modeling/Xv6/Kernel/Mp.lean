import Mathlib.Tactic

/-!
# The multiprocessor configuration table

`mpsearch`, `mpconfig` and `mpinit` (mp.c).  Memory is indexed by physical addresses,
and the table does not reach the end of the address space.  The loop of `mpinit` is run
for a number of turns; `running` says that it has not ended by then.
-/

namespace Xv6.Mp

open Function

variable {m : Mem} {e n p : Nat} {s : State}

abbrev Mem := Nat → UInt8

def sum (m : Mem) (addr len : Nat) : UInt8 :=
  (List.range len).foldl (fun t i => t + m (addr + i)) 0

def signature (m : Mem) (p : Nat) : List UInt8 :=
  (List.range 4).map fun i => m (p + i)

def u16 (m : Mem) (a : Nat) : Nat :=
  (m a).toNat + 2 ^ 8 * (m (a + 1)).toNat

def u32 (m : Mem) (a : Nat) : Nat :=
  u16 m a + 2 ^ 16 * u16 m (a + 2)

/-- `mpsearch1`; a `struct mp` has 16 bytes. -/
def mpsearch1 (m : Mem) (a len : Nat) : Option Nat :=
  ((List.range ((len + 15) / 16)).map fun i => a + 16 * i).find? fun p =>
    signature m p = [0x5f, 0x4d, 0x50, 0x5f] ∧ sum m p 16 = 0

def mpsearch (m : Mem) : Option Nat :=
  let p := u16 m 0x40e * 2 ^ 4
  let low :=
    if p ≠ 0 then mpsearch1 m p 1024
    else mpsearch1 m ((u16 m 0x413 * 1024 + 2 ^ 32 - 1024) % 2 ^ 32) 1024
  match low with
  | some mp => some mp
  | none => mpsearch1 m 0xf0000 0x10000

/-- The length of a table. -/
def length (m : Mem) (conf : Nat) : Nat :=
  u16 m (conf + 4)

/-- `mpconfig`: the table, and the floating pointer structure that leads to it. -/
def mpconfig (m : Mem) : Option (Nat × Nat) :=
  match mpsearch m with
  | none => none
  | some mp =>
    let conf := u32 m (mp + 4)
    if conf = 0 then none
    else if signature m conf ≠ [0x50, 0x43, 0x4d, 0x50] then none
    else if m (conf + 6) ≠ 1 ∧ m (conf + 6) ≠ 4 then none
    else if sum m conf (length m conf) ≠ 0 then none
    else some (conf, mp)

def NCPU : Nat :=
  8

/-- What `mpinit` keeps: the cursor, the processors found, and `ismp`. -/
structure State where
  p : Nat
  ncpu : Nat
  apicid : Nat → UInt8
  ioapicid : UInt8
  ismp : Bool

inductive Stop
  /-- `panic("Expect to run on an SMP")` -/
  | noTable
  /-- `panic("Didn't find a suitable machine")` -/
  | unsuitable
  | running
deriving DecidableEq

/-- The `switch` on the type of an entry. -/
def turn (m : Mem) (s : State) : State :=
  match (m s.p).toNat with
  -- MPPROC
  | 0 =>
    if s.ncpu < NCPU then
      { s with
        apicid := update s.apicid s.ncpu (m (s.p + 1))
        ncpu := s.ncpu + 1
        p := s.p + 20 }
    else { s with p := s.p + 20 }
  -- MPIOAPIC
  | 2 => { s with ioapicid := m (s.p + 1), p := s.p + 8 }
  -- MPBUS, MPIOINTR, MPLINTR
  | 1 | 3 | 4 => { s with p := s.p + 8 }
  | _ => { s with ismp := false }

/-- The loop over the entries before `e`, for at most `n` turns. -/
def mpLoop (m : Mem) (e : Nat) : Nat → State → State
  | 0, s => s
  | n + 1, s => if s.p < e then mpLoop m e n (turn m s) else s

/-- The state before the first entry; a `struct mpconf` has 44 bytes. -/
def start (conf : Nat) : State :=
  ⟨conf + 44, 0, fun _ => 0, 0, true⟩

/-- `mpinit`, with at most `n` turns of the loop; it returns what it found and `imcrp`. -/
def mpinit (n : Nat) (m : Mem) : Except Stop (State × Bool) :=
  match mpconfig m with
  | none => .error .noTable
  | some (conf, mp) =>
    let e := conf + length m conf
    let s := mpLoop m e n (start conf)
    if s.p < e then .error .running
    else if s.ismp = false then .error .unsuitable
    else .ok (s, m (mp + 12) ≠ 0)

def next (m : Mem) (p : Nat) : Nat :=
  if (m p).toNat = 0 then p + 20 else if (m p).toNat ≤ 4 then p + 8 else p

/-- All entries from `p` on have a known type. -/
def Known (m : Mem) (e p : Nat) : Prop :=
  ∀ k, (next m)^[k] p < e → (m ((next m)^[k] p)).toNat ≤ 4

theorem turn_spec (m : Mem) (s : State) :
    (turn m s).p = next m s.p ∧ (s.ncpu ≤ NCPU → (turn m s).ncpu ≤ NCPU) ∧
      ((m s.p).toNat ≤ 4 → (turn m s).ismp = s.ismp) := by
  unfold turn next
  split
  · rename_i ht
    rw [if_pos ht]
    by_cases hroom : s.ncpu < NCPU
    · rw [if_pos hroom]
      exact ⟨rfl, fun _ => hroom, fun _ => rfl⟩
    · rw [if_neg hroom]
      exact ⟨rfl, id, fun _ => rfl⟩
  · rename_i ht
    rw [if_neg (by omega), if_pos (by omega)]
    exact ⟨rfl, id, fun _ => rfl⟩
  · rename_i ht
    rw [if_neg (by omega), if_pos (by omega)]
    exact ⟨rfl, id, fun _ => rfl⟩
  · rename_i ht
    rw [if_neg (by omega), if_pos (by omega)]
    exact ⟨rfl, id, fun _ => rfl⟩
  · rename_i ht
    rw [if_neg (by omega), if_pos (by omega)]
    exact ⟨rfl, id, fun _ => rfl⟩
  · rename_i h0 h2 h1 h3 h4
    simp only [imp_false] at h0 h2 h1 h3 h4
    have hbig : ¬(m s.p).toNat ≤ 4 := by omega
    rw [if_neg h0, if_neg hbig]
    exact ⟨rfl, id, fun hle => absurd hle hbig⟩

theorem next_of_known (h : (m p).toNat ≤ 4) : p + 8 ≤ next m p := by
  unfold next
  rw [if_pos h]
  split
  · omega
  · exact Nat.le_refl _

theorem next_of_unknown (h : ¬(m p).toNat ≤ 4) : next m p = p := by
  unfold next
  rw [if_neg (by omega), if_neg h]

theorem le_next (m : Mem) (p : Nat) : p ≤ next m p := by
  by_cases h : (m p).toNat ≤ 4
  · have := next_of_known h
    omega
  · exact Nat.le_of_eq (next_of_unknown h).symm

theorem le_iterate (m : Mem) (p k : Nat) : p ≤ (next m)^[k] p := by
  induction k generalizing p with
  | zero => exact Nat.le_refl p
  | succ k ih => exact Nat.le_trans (le_next m p) (ih (next m p))

theorem Known.next (h : Known m e p) : Known m e (next m p) :=
  fun k => h (k + 1)

theorem mpLoop_stuck (h : ¬(m s.p).toNat ≤ 4) (n : Nat) : (mpLoop m e n s).p = s.p := by
  induction n generalizing s with
  | zero => rfl
  | succ n ih =>
    have hp : (turn m s).p = s.p := (turn_spec m s).1.trans (next_of_unknown h)
    rw [mpLoop]
    split
    · rw [ih (by rw [hp]; exact h), hp]
    · rfl

theorem known_of_ended (h : ¬(mpLoop m e n s).p < e) : Known m e s.p := by
  induction n generalizing s with
  | zero =>
    intro k hk
    have hle := le_iterate m s.p k
    rw [mpLoop] at h
    omega
  | succ n ih =>
    by_cases hlt : s.p < e
    · by_cases hknown : (m s.p).toNat ≤ 4
      · rw [mpLoop, if_pos hlt] at h
        have hnext := ih h
        rw [(turn_spec m s).1] at hnext
        intro k
        cases k with
        | zero => exact fun _ => hknown
        | succ k => exact hnext k
      · rw [mpLoop_stuck hknown] at h
        exact absurd hlt h
    · intro k hk
      have hle := le_iterate m s.p k
      omega

theorem ended_of_known (h : Known m e s.p) (hn : e - s.p ≤ n) :
    ¬(mpLoop m e n s).p < e ∧ (mpLoop m e n s).ismp = s.ismp := by
  induction n generalizing s with
  | zero =>
    rw [mpLoop]
    exact ⟨by omega, rfl⟩
  | succ n ih =>
    rw [mpLoop]
    by_cases hlt : s.p < e
    · have hknown : (m s.p).toNat ≤ 4 := h 0 hlt
      have hmove := next_of_known hknown
      obtain ⟨hp, _, hismp⟩ := turn_spec m s
      rw [if_pos hlt]
      obtain ⟨hend, hsame⟩ := ih (s := turn m s) (by rw [hp]; exact h.next) (by rw [hp]; omega)
      exact ⟨hend, hsame.trans (hismp hknown)⟩
    · rw [if_neg hlt]
      exact ⟨hlt, rfl⟩

theorem mpLoop_of_ended (h : ¬(mpLoop m e n s).p < e) (k : Nat) :
    mpLoop m e (n + k) s = mpLoop m e n s := by
  induction n generalizing s with
  | zero =>
    rw [mpLoop] at h ⊢
    cases k with
    | zero => rfl
    | succ k => rw [Nat.zero_add, mpLoop, if_neg h]
  | succ n ih =>
    rw [show n + 1 + k = (n + k) + 1 by omega]
    rw [mpLoop] at h ⊢
    rw [mpLoop]
    split
    · rename_i hlt
      rw [if_pos hlt] at h
      exact ih h
    · rfl

theorem ncpu_le (h : s.ncpu ≤ NCPU) (n : Nat) : (mpLoop m e n s).ncpu ≤ NCPU := by
  induction n generalizing s with
  | zero => exact h
  | succ n ih =>
    rw [mpLoop]
    split
    · exact ih ((turn_spec m s).2.1 h)
    · exact h

/-- For a table that `mpconfig` accepts, the loop of `mpinit` ends if and only if every entry up to
the end has a known type.  It then ends within as many turns as the table has bytes,
without a panic; `ncpu` never exceeds `NCPU`. -/
theorem mpinit_ends_iff (m : Mem) (conf mp : Nat) (h : mpconfig m = some (conf, mp)) :
    ((∃ n, mpinit n m ≠ .error .running) ↔ Known m (conf + length m conf) (conf + 44)) ∧
      (∀ n, mpinit n m ≠ .error .running →
        ∃ s, mpinit n m = .ok s ∧ mpinit (length m conf) m = .ok s) ∧
      ∀ n, (mpLoop m (conf + length m conf) n (start conf)).ncpu ≤ NCPU := by
  have hval : ∀ n, mpinit n m = let s := mpLoop m (conf + length m conf) n (start conf)
      if s.p < conf + length m conf then .error .running
      else if s.ismp = false then .error .unsuitable
      else .ok (s, m (mp + 12) ≠ 0) := by
    intro n
    unfold mpinit
    rw [h]
  have hrun : ∀ n, mpinit n m ≠ .error .running ↔
      ¬(mpLoop m (conf + length m conf) n (start conf)).p < conf + length m conf := by
    intro n
    rw [hval]
    simp only
    split
    · rename_i hlt
      exact ⟨fun hc => absurd rfl hc, fun hc => absurd hlt hc⟩
    · rename_i hlt
      split
      · exact ⟨fun _ => hlt, fun _ => nofun⟩
      · exact ⟨fun _ => hlt, fun _ => nofun⟩
  have hlen : conf + length m conf - (start conf).p ≤ length m conf := by
    change conf + length m conf - (conf + 44) ≤ length m conf
    omega
  refine ⟨⟨?_, ?_⟩, ?_, fun n => ncpu_le (Nat.zero_le _) n⟩
  · rintro ⟨n, hn⟩
    exact known_of_ended (s := start conf) ((hrun n).mp hn)
  · intro hknown
    exact ⟨length m conf, (hrun _).mpr (ended_of_known (s := start conf) hknown hlen).1⟩
  intro n hn
  have hend := (hrun n).mp hn
  obtain ⟨hend', hismp⟩ := ended_of_known (known_of_ended hend) hlen
  have hsame : mpLoop m (conf + length m conf) n (start conf) =
      mpLoop m (conf + length m conf) (length m conf) (start conf) := by
    rw [← mpLoop_of_ended hend (length m conf), Nat.add_comm n, mpLoop_of_ended hend']
  rw [hval, hval, hsame]
  simp only
  rw [if_neg hend', if_neg (by rw [hismp]; nofun)]
  exact ⟨_, rfl, rfl⟩

def sample (t : UInt8) : Mem := fun a => if a = 0x40f then 0x80
  else if a < 0x80000 then 0
  else
    ([0x5f, 0x4d, 0x50, 0x5f, 0x10, 0, 8, 0, 1, 4, 0x88, 0, 0, 0, 0, 0] ++
      [0x50, 0x43, 0x4d, 0x50, 52, 0, 4, 0x98 - t] ++ List.replicate 36 0 ++ [t]).getD
        (a - 0x80000) 0

/-- The entry of a bus ends the table. -/
theorem mpinit_ends_for_bus : ∃ s, mpinit 52 (sample 1) = .ok s := by
  have h := mpinit_ends_iff (sample 1) 0x80010 0x80000 (by decide)
  have hlen : length (sample 1) 0x80010 = 52 := by decide
  have hnext : next (sample 1) (0x80010 + 44) = 0x80010 + 52 := by decide
  rw [hlen] at h
  have hknown : Known (sample 1) (0x80010 + 52) (0x80010 + 44) := by
    intro k hk
    cases k with
    | zero => decide
    | succ k =>
      have hle := le_iterate (sample 1) (next (sample 1) (0x80010 + 44)) k
      rw [Function.iterate_succ_apply] at hk
      omega
  obtain ⟨n, hn⟩ := h.1.mpr hknown
  exact (h.2.1 n hn).imp fun _ hs => hs.2

/-- An entry of type 5 is never passed. -/
theorem mpinit_never_ends :
    mpconfig (sample 5) = some (0x80010, 0x80000) ∧ ∀ n, mpinit n (sample 5) = .error .running := by
  have h : mpconfig (sample 5) = some (0x80010, 0x80000) := by decide
  refine ⟨h, fun n => ?_⟩
  have hp := mpLoop_stuck (m := sample 5) (e := 0x80010 + length (sample 5) 0x80010)
    (s := start 0x80010) (by decide) n
  unfold mpinit
  rw [h]
  simp only
  rw [if_pos]
  rw [hp]
  decide

end Xv6.Mp
