import Mathlib.Tactic

/-!
# Programs with state and errors

`Prog σ ε α` runs on a state and ends with a value or an error; either way the
state reached is kept, since what a program has done before it stops matters.

`wp m Q E` is the weakest precondition for ending with a value in `Q` or with an
error in `E`.
-/

namespace Xv6.Lib

section Prog

variable {σ ε α β ι : Type}

/-- A program over states `σ` with errors `ε`. -/
def Prog (σ ε α : Type) : Type :=
  σ → Except ε α × σ

namespace Prog

instance : Monad (Prog σ ε) where
  pure a := fun s => (.ok a, s)
  bind m k := fun s =>
    match m s with
    | (.ok a, t) => k a t
    | (.error e, t) => (.error e, t)

/-- Read the state. -/
def get : Prog σ ε σ :=
  fun s => (.ok s, s)

/-- Change the state. -/
def modify (f : σ → σ) : Prog σ ε Unit :=
  fun s => (.ok (), f s)

/-- Stop. -/
def throw (e : ε) : Prog σ ε α :=
  fun s => (.error e, s)

/-- Run a body for every element of a list, from left to right. -/
def forEach : List ι → (ι → Prog σ ε Unit) → Prog σ ε Unit
  | [], _ => pure ()
  | x :: xs, f => do
    f x
    forEach xs f

/-- Run a program on a part of the state. -/
def zoom {τ : Type} (view : τ → σ) (put : τ → σ → τ) (m : Prog σ ε α) : Prog τ ε α :=
  fun t => ((m (view t)).1, put t (m (view t)).2)

/-- Run a program whose errors are a part of the errors. -/
def mapError {ε' : Type} (f : ε → ε') (m : Prog σ ε α) : Prog σ ε' α :=
  fun s =>
    match m s with
    | (.ok a, t) => (.ok a, t)
    | (.error e, t) => (.error (f e), t)

/-- The weakest precondition. -/
def wp (m : Prog σ ε α) (Q : α → σ → Prop) (E : ε → σ → Prop) (s : σ) : Prop :=
  match m s with
  | (.ok a, t) => Q a t
  | (.error e, t) => E e t

variable {Q : α → σ → Prop} {E : ε → σ → Prop} {s : σ}

@[simp] theorem wp_pure (a : α) : wp (pure a : Prog σ ε α) Q E s ↔ Q a s := by
  rfl

@[simp] theorem wp_throw (e : ε) : wp (throw e : Prog σ ε α) Q E s ↔ E e s := by
  rfl

@[simp] theorem wp_get {Q : σ → σ → Prop} : wp (get : Prog σ ε σ) Q E s ↔ Q s s := by
  rfl

@[simp] theorem wp_modify {Q : Unit → σ → Prop} (f : σ → σ) :
    wp (modify f : Prog σ ε Unit) Q E s ↔ Q () (f s) := by
  rfl

@[simp] theorem wp_bind {Q : β → σ → Prop} (m : Prog σ ε α) (k : α → Prog σ ε β) :
    wp (m >>= k) Q E s ↔ wp m (fun a t => wp (k a) Q E t) E s := by
  unfold wp
  simp only [bind]
  cases hm : m s with
  | mk r t =>
    cases r with
    | ok a => rfl
    | error e => rfl

@[simp] theorem wp_ite (c : Prop) [Decidable c] (m n : Prog σ ε α) :
    wp (if c then m else n) Q E s ↔ if c then wp m Q E s else wp n Q E s := by
  split <;> rfl

@[simp] theorem wp_zoom
    {τ : Type} {view : τ → σ} {put : τ → σ → τ} {Q : α → τ → Prop} {E : ε → τ → Prop} {t : τ}
    (m : Prog σ ε α) :
    wp (zoom view put m) Q E t ↔
      wp m (fun a s => Q a (put t s)) (fun e s => E e (put t s)) (view t) := by
  unfold wp zoom
  cases hm : m (view t) with
  | mk r s =>
    cases r with
    | ok a => rfl
    | error e => rfl

@[simp] theorem wp_mapError {ε' : Type} {f : ε → ε'} {E : ε' → σ → Prop} (m : Prog σ ε α) :
    wp (mapError f m) Q E s ↔ wp m Q (fun e t => E (f e) t) s := by
  unfold wp mapError
  cases hm : m s with
  | mk r t =>
    cases r with
    | ok a => rfl
    | error e => rfl

theorem wp_mono {Q' : α → σ → Prop} {E' : ε → σ → Prop} {m : Prog σ ε α} (h : wp m Q E s)
    (hQ : ∀ a t, Q a t → Q' a t) (hE : ∀ e t, E e t → E' e t) : wp m Q' E' s := by
  unfold wp at h ⊢
  cases hm : m s with
  | mk r t =>
    rw [hm] at h
    cases r with
    | ok a => exact hQ a t h
    | error e => exact hE e t h

theorem wp_post {Q' : α → σ → Prop} {m : Prog σ ε α} (h : wp m Q E s) (hQ : ∀ a t, Q a t → Q' a t) :
    wp m Q' E s :=
  wp_mono h hQ fun _ _ hE => hE

theorem wp_seq {β : Type} {Q' : β → σ → Prop} {m : Prog σ ε α} {f : α → Prog σ ε β} (h : wp m Q E s)
    (hf : ∀ a t, Q a t → wp (f a) Q' E t) : wp (m >>= f) Q' E s :=
  (wp_bind m f).mpr (wp_post h hf)

theorem wp_and {Q' : α → σ → Prop} {E' : ε → σ → Prop} {m : Prog σ ε α} (h : wp m Q E s)
    (h' : wp m Q' E' s) : wp m (fun a t => Q a t ∧ Q' a t) (fun e t => E e t ∧ E' e t) s := by
  unfold wp at h h' ⊢
  cases hm : m s with
  | mk r t =>
    rw [hm] at h h'
    cases r with
    | ok a => exact ⟨h, h'⟩
    | error e => exact ⟨h, h'⟩

theorem wp_ok {m : Prog σ ε α} {a : α} {t : σ} (h : wp m Q E s) (hm : m s = (.ok a, t)) :
    Q a t := by
  unfold wp at h
  rw [hm] at h
  exact h

theorem bind_ok {m : Prog σ ε α} {k : α → Prog σ ε β} {a : α} {t : σ} (h : m s = (.ok a, t)) :
    (m >>= k) s = k a t := by
  simp only [bind, h]

theorem bind_eq_ok {m : Prog σ ε α} {k : α → Prog σ ε β} {b : β} {u : σ}
    (h : (m >>= k) s = (.ok b, u)) : ∃ a t, m s = (.ok a, t) ∧ k a t = (.ok b, u) := by
  simp only [bind] at h
  cases hm : m s with
  | mk r t =>
    rw [hm] at h
    cases r with
    | ok a => exact ⟨a, t, rfl, h⟩
    | error e => cases h

theorem zoom_eq_ok {τ : Type} {view : τ → σ} {put : τ → σ → τ} {m : Prog σ ε α} {a : α} {t t' : τ}
    (h : zoom view put m t = (.ok a, t')) : ∃ s', m (view t) = (.ok a, s') ∧ t' = put t s' := by
  unfold zoom at h
  cases hm : m (view t) with
  | mk r s' =>
    rw [hm] at h
    cases h
    exact ⟨s', rfl, rfl⟩

theorem wp_true (m : Prog σ ε α) : wp m (fun _ _ => True) (fun _ _ => True) s := by
  unfold wp
  cases m s with
  | mk r t =>
    cases r with
    | ok a => trivial
    | error e => trivial

theorem exists_ok {m : Prog σ ε α} (h : wp m Q E s) (hE : ∀ e t, ¬E e t) :
    ∃ a t, m s = (.ok a, t) ∧ Q a t := by
  unfold wp at h
  cases hm : m s with
  | mk r t =>
    rw [hm] at h
    cases r with
    | ok a => exact ⟨a, t, rfl, h⟩
    | error e => exact absurd h (hE e t)

theorem wp_forEach {E : ε → σ → Prop} {I : σ → Prop} {f : ι → Prog σ ε Unit} {xs : List ι} {s : σ}
    (hstep : ∀ x ∈ xs, ∀ t, I t → wp (f x) (fun _ => I) E t) (hs : I s) :
    wp (forEach xs f) (fun _ => I) E s := by
  induction xs generalizing s with
  | nil => exact hs
  | cons x xs ih =>
    unfold forEach
    refine wp_seq (hstep x List.mem_cons_self s hs) ?_
    intro _ t ht
    exact ih (fun y hy => hstep y (List.mem_cons_of_mem x hy)) ht

/-- A counting loop with an invariant that depends on the number of turns done. -/
theorem wp_forEach_range
    {E : ε → σ → Prop} {I : Nat → σ → Prop} {f : Nat → Prog σ ε Unit} {n : Nat} {s : σ}
    (hstep : ∀ i < n, ∀ t, I i t → wp (f i) (fun _ => I (i + 1)) E t) (hs : I 0 s) :
    wp (forEach (List.range n) f) (fun _ => I n) E s := by
  have hfrom : ∀ k i t, i + k = n → I i t →
      wp (forEach (List.range' i k) f) (fun _ => I n) E t := by
    intro k
    induction k with
    | zero =>
      intro i t hi ht
      have hin : i = n := by omega
      subst hin
      exact ht
    | succ k ih =>
      intro i t hi ht
      rw [List.range'_succ]
      unfold forEach
      exact wp_seq (hstep i (by omega) t ht) fun _ u hu => ih (i + 1) u (by omega) hu
  rw [List.range_eq_range']
  exact hfrom n 0 s (by omega) hs

/-! ### Programs that do not see a part of the state -/

/-- The change `f` of the state may as well be made after the program. -/
def Commutes (f : σ → σ) (m : Prog σ ε α) : Prop :=
  ∀ s, m (f s) = ((m s).1, f (m s).2)

section Commutes

variable {f : σ → σ}

theorem Commutes.pure (a : α) : Commutes f (Pure.pure a : Prog σ ε α) :=
  fun _ => rfl

theorem Commutes.throw (e : ε) : Commutes f (Prog.throw e : Prog σ ε α) :=
  fun _ => rfl

theorem Commutes.modify {g : σ → σ} (h : ∀ s, g (f s) = f (g s)) :
    Commutes f (Prog.modify g : Prog σ ε Unit) := by
  intro s
  unfold Prog.modify
  rw [h]

theorem Commutes.bind {m : Prog σ ε α} {k : α → Prog σ ε β} (hm : Commutes f m)
    (hk : ∀ a, Commutes f (k a)) : Commutes f (m >>= k) := by
  intro s
  simp only [Bind.bind, hm s]
  cases hms : m s with
  | mk r t =>
    cases r with
    | ok a => exact hk a t
    | error e => rfl

theorem Commutes.get {k : σ → Prog σ ε β} (hf : ∀ s, k (f s) = k s) (hk : ∀ s, Commutes f (k s)) :
    Commutes f (Prog.get >>= k) := by
  intro s
  change k (f s) (f s) = _
  rw [hf s]
  exact hk s s

theorem Commutes.ite {c : Prop} [Decidable c] {m n : Prog σ ε α} (hm : Commutes f m)
    (hn : Commutes f n) : Commutes f (if c then m else n) := by
  split
  · exact hm
  · exact hn

theorem Commutes.forEach {g : ι → Prog σ ε Unit} (xs : List ι) (h : ∀ x, Commutes f (g x)) :
    Commutes f (Prog.forEach xs g) := by
  induction xs with
  | nil => exact Commutes.pure ()
  | cons x xs ih => exact (h x).bind fun _ => ih

theorem wp_of_commutes {m : Prog σ ε α} (hm : Commutes f m) (h : wp m Q E (f s)) :
    wp m (fun a t => Q a (f t)) (fun e t => E e (f t)) s := by
  unfold wp at h ⊢
  rw [hm s] at h
  cases hms : m s with
  | mk r t =>
    rw [hms] at h
    cases r with
    | ok a => exact h
    | error e => exact h

end Commutes

end Prog

end Prog

end Xv6.Lib
