import Mathlib.Tactic

/-!
# Labelled transition systems with a partial step function

A system is given by one function `step : σ → ℓ → Option σ`.  The label carries
every choice the environment makes, so a step is deterministic; `none` means
that the step is not enabled in that state.
-/

namespace Xv6.Lib

universe u v w

section Transition

variable {σ : Type u} {ℓ : Type v} {ε : Type w}

/-- Execute a list of labels from left to right. -/
def run (step : σ → ℓ → Option σ) : σ → List ℓ → Option σ
  | s, [] => some s
  | s, l :: ls =>
    match step s l with
    | none => none
    | some t => run step t ls

variable {step : σ → ℓ → Option σ}

@[simp] theorem run_nil (s : σ) : run step s [] = some s := by
  rfl

theorem run_cons_eq_some {s u : σ} {l : ℓ} {ls : List ℓ} :
    run step s (l :: ls) = some u ↔
      ∃ t, step s l = some t ∧ run step t ls = some u := by
  simp only [run]
  cases hs : step s l with
  | none => simp
  | some t => simp

theorem run_append_eq_some {s u : σ} {xs ys : List ℓ} :
    run step s (xs ++ ys) = some u ↔
      ∃ t, run step s xs = some t ∧ run step t ys = some u := by
  induction xs generalizing s with
  | nil => simp
  | cons l xs ih =>
    simp only [List.cons_append, run_cons_eq_some, ih]
    constructor
    · rintro ⟨t, hst, m, hm, hu⟩
      exact ⟨m, ⟨t, hst, hm⟩, hu⟩
    · rintro ⟨m, ⟨t, hst, hm⟩, hu⟩
      exact ⟨t, hst, m, hm, hu⟩

theorem run_snoc_eq_some {s u : σ} {xs : List ℓ} {l : ℓ} :
    run step s (xs ++ [l]) = some u ↔
      ∃ t, run step s xs = some t ∧ step t l = some u := by
  rw [run_append_eq_some]
  simp [run_cons_eq_some]

/-- Read the end of an evaluated run. -/
theorem exists_of_run_map (step : σ → ℓ → Option σ) (s : σ) (ls : List ℓ) (test : σ → Bool)
    (h : (run step s ls).map test = some true) : ∃ t, run step s ls = some t ∧ test t = true := by
  cases hr : run step s ls with
  | none =>
    rw [hr] at h
    cases h
  | some t =>
    rw [hr] at h
    exact ⟨t, rfl, by simpa using h⟩

/-- States that some run from `init` ends in. -/
def Reachable (step : σ → ℓ → Option σ) (init s : σ) : Prop :=
  ∃ ls, run step init ls = some s

theorem Reachable.init (s : σ) : Reachable step s s :=
  ⟨[], rfl⟩

theorem Reachable.tail {init s t : σ} {l : ℓ} (h : Reachable step init s)
    (hst : step s l = some t) : Reachable step init t := by
  obtain ⟨ls, hls⟩ := h
  exact ⟨ls ++ [l], run_snoc_eq_some.mpr ⟨s, hls, hst⟩⟩

theorem run_invariant {Inv : σ → Prop} (hstep : ∀ s l t, Inv s → step s l = some t → Inv t)
    {s t : σ} {ls : List ℓ} (hs : Inv s) (hrun : run step s ls = some t) : Inv t := by
  induction ls generalizing s with
  | nil =>
    cases hrun
    exact hs
  | cons l ls ih =>
    obtain ⟨m, hsm, hmt⟩ := run_cons_eq_some.mp hrun
    exact ih (hstep s l m hs hsm) hmt

theorem Reachable.invariant (Inv : σ → Prop) {init s : σ} (h : Reachable step init s)
    (hinit : Inv init) (hstep : ∀ s l t, Inv s → step s l = some t → Inv t) : Inv s := by
  obtain ⟨ls, hls⟩ := h
  exact run_invariant hstep hinit hls

/-- Every step of the run is taken in a state that meets the side condition. -/
def Meets (step : σ → ℓ → Option σ) (Ok : σ → ℓ → Prop) : σ → List ℓ → Prop
  | _, [] => True
  | s, l :: ls => Ok s l ∧ ∀ t, step s l = some t → Meets step Ok t ls

theorem meets_append {Ok : σ → ℓ → Prop} {s t : σ} {xs ys : List ℓ} (hrun : run step s xs = some t)
    (hxs : Meets step Ok s xs) (hys : Meets step Ok t ys) : Meets step Ok s (xs ++ ys) := by
  induction xs generalizing s with
  | nil =>
    cases hrun
    exact hys
  | cons k xs ih =>
    obtain ⟨m, hsm, hmt⟩ := run_cons_eq_some.mp hrun
    refine ⟨hxs.1, ?_⟩
    intro m' hm'
    exact ih (by rw [hsm] at hm'; cases hm'; exact hmt) (hxs.2 m' hm')

/-- The side condition at a step in the middle of the run. -/
theorem Meets.at {Ok : σ → ℓ → Prop} {s t : σ} {xs ys : List ℓ} {l : ℓ}
    (h : Meets step Ok s (xs ++ l :: ys)) (hrun : run step s xs = some t) : Ok t l := by
  induction xs generalizing s with
  | nil =>
    cases hrun
    exact h.1
  | cons k xs ih =>
    obtain ⟨m, hsm, hmt⟩ := run_cons_eq_some.mp hrun
    exact ih (h.2 m hsm) hmt

theorem Meets.mono {Ok Ok' : σ → ℓ → Prop} (hok : ∀ s l, Ok s l → Ok' s l) {s : σ} {ls : List ℓ}
    (h : Meets step Ok s ls) : Meets step Ok' s ls := by
  induction ls generalizing s with
  | nil => trivial
  | cons l ls ih => exact ⟨hok s l h.1, fun t ht => ih (h.2 t ht)⟩

theorem Meets.and {Ok Ok' : σ → ℓ → Prop} {s : σ} {ls : List ℓ} (h : Meets step Ok s ls)
    (h' : Meets step Ok' s ls) : Meets step (fun s l => Ok s l ∧ Ok' s l) s ls := by
  induction ls generalizing s with
  | nil => trivial
  | cons l ls ih => exact ⟨⟨h.1, h'.1⟩, fun t ht => ih (h.2 t ht) (h'.2 t ht)⟩

/-- A property kept by every step that meets the condition is kept by such runs. -/
theorem run_invariant_of_meets (Inv : σ → Prop) {Ok : σ → ℓ → Prop}
    (hstep : ∀ s l t, Inv s → Ok s l → step s l = some t → Inv t) {s t : σ} {ls : List ℓ}
    (hs : Inv s) (hmeets : Meets step Ok s ls) (hrun : run step s ls = some t) : Inv t := by
  induction ls generalizing s with
  | nil =>
    cases hrun
    exact hs
  | cons l ls ih =>
    obtain ⟨m, hsm, hmt⟩ := run_cons_eq_some.mp hrun
    exact ih (hstep s l m hs hmeets.1 hsm) (hmeets.2 m hsm) hmt

/-- When every step that meets the condition is enabled and keeps a property, such runs go
through. -/
theorem run_of_meets (Inv : σ → Prop) {Ok : σ → ℓ → Prop}
    (hstep : ∀ s l, Inv s → Ok s l → ∃ t, step s l = some t ∧ Inv t) {s : σ} {ls : List ℓ}
    (hs : Inv s) (hmeets : Meets step Ok s ls) : ∃ t, run step s ls = some t ∧ Inv t := by
  induction ls generalizing s with
  | nil => exact ⟨s, rfl, hs⟩
  | cons l ls ih =>
    obtain ⟨m, hsm, hm⟩ := hstep s l hs hmeets.1
    obtain ⟨t, hmt, ht⟩ := ih hm (hmeets.2 m hsm)
    exact ⟨t, run_cons_eq_some.mpr ⟨m, hsm, hmt⟩, ht⟩

/-- When a step from a good state leads to a good state exactly if it meets the condition, the runs
that meet it are those whose states are all good. -/
theorem meets_iff_forall (K Inv : σ → Prop) {Ok : σ → ℓ → Prop}
    (hK : ∀ s l t, K s → step s l = some t → K t)
    (hstep : ∀ s l t, K s → Inv s → step s l = some t → (Ok s l ↔ Inv t)) {s t : σ} {ls : List ℓ}
    (hk : K s) (hs : Inv s) (hrun : run step s ls = some t) :
    Meets step Ok s ls ↔ ∀ xs ys u, ls = xs ++ ys → run step s xs = some u → Inv u := by
  induction ls generalizing s with
  | nil =>
    refine ⟨?_, fun _ => trivial⟩
    intro _ xs ys u hsplit hu
    obtain ⟨rfl, _⟩ := List.append_eq_nil_iff.mp hsplit.symm
    cases hu
    exact hs
  | cons l ls ih =>
    obtain ⟨m, hsm, hmt⟩ := run_cons_eq_some.mp hrun
    have hm := hstep s l m hk hs hsm
    have hkm := hK s l m hk hsm
    constructor
    · intro hmeets xs ys u hsplit hu
      cases xs with
      | nil =>
        cases hu
        exact hs
      | cons x xs =>
        cases hsplit
        obtain ⟨m', hsm', hu'⟩ := run_cons_eq_some.mp hu
        rw [hsm] at hsm'
        cases hsm'
        exact (ih hkm (hm.mp hmeets.1) hmt).mp (hmeets.2 m hsm) xs ys u rfl hu'
    intro hall
    have hgood : Inv m := hall [l] ls m rfl (run_cons_eq_some.mpr ⟨m, hsm, rfl⟩)
    refine ⟨hm.mpr hgood, ?_⟩
    intro m' hm'
    rw [hsm] at hm'
    cases hm'
    refine (ih hkm hgood hmt).mpr ?_
    intro xs ys u hsplit hu
    exact hall (l :: xs) ys u (by rw [hsplit, List.cons_append])
      (run_cons_eq_some.mpr ⟨m, hsm, hu⟩)

/-- The side condition, evaluated along the run. -/
def meetsTest (step : σ → ℓ → Option σ) (ok : σ → ℓ → Bool) : σ → List ℓ → Bool
  | _, [] => true
  | s, l :: ls =>
    ok s l &&
      match step s l with
      | none => true
      | some t => meetsTest step ok t ls

theorem meets_of_meetsTest {ok : σ → ℓ → Bool} {s : σ} {ls : List ℓ}
    (h : meetsTest step ok s ls = true) : Meets step (fun s l => ok s l = true) s ls := by
  induction ls generalizing s with
  | nil => trivial
  | cons l ls ih =>
    simp only [meetsTest, Bool.and_eq_true] at h
    refine ⟨h.1, ?_⟩
    intro t ht
    rw [ht] at h
    exact ih h.2

/-- A step that also records what it shows, newest observation first. -/
def recordStep
    (step : σ → ℓ → Option σ) (shows : σ → ℓ → List ε)
    (sh : σ × List ε) (l : ℓ) : Option (σ × List ε) :=
  (step sh.1 l).map fun t => (t, shows sh.1 l ++ sh.2)

theorem recordStep_eq_some {shows : σ → ℓ → List ε} {sh : σ × List ε} {l : ℓ} {th : σ × List ε} :
    recordStep step shows sh l = some th ↔
      step sh.1 l = some th.1 ∧ th.2 = shows sh.1 l ++ sh.2 := by
  obtain ⟨t, h⟩ := th
  simp only [recordStep, Option.map_eq_some_iff, Prod.mk.injEq]
  constructor
  · rintro ⟨t', ht', rfl, rfl⟩
    exact ⟨ht', rfl⟩
  · rintro ⟨ht, rfl⟩
    exact ⟨t, ht, rfl, rfl⟩

theorem run_of_recorded {shows : σ → ℓ → List ε} {sh th : σ × List ε} {ls : List ℓ}
    (h : run (recordStep step shows) sh ls = some th) : run step sh.1 ls = some th.1 := by
  induction ls generalizing sh with
  | nil =>
    cases h
    rfl
  | cons l ls ih =>
    obtain ⟨m, hm, hmt⟩ := run_cons_eq_some.mp h
    exact run_cons_eq_some.mpr
      ⟨m.1, (recordStep_eq_some.mp hm).1, ih hmt⟩

theorem meets_recorded
    {shows : σ → ℓ → List ε} {Ok : σ → ℓ → Prop} {s : σ} {h : List ε} {ls : List ℓ}
    (hmeets : Meets step Ok s ls) :
    Meets (recordStep step shows) (fun sh l => Ok sh.1 l) (s, h) ls := by
  induction ls generalizing s h with
  | nil => trivial
  | cons l ls ih =>
    refine ⟨hmeets.1, ?_⟩
    rintro ⟨t, h'⟩ ht
    obtain ⟨hst, _⟩ := recordStep_eq_some.mp ht
    exact ih (hmeets.2 t hst)

end Transition

end Xv6.Lib
