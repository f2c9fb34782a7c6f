import Xv6.Lib.Prog

/-!
# Programs that write to a store that survives a crash

`applyWrites` is the store after a list of writes.  `Emits` is about programs
that append the writes they issue to a trace: it fixes what is appended if the
program ends with a value, and that an error cuts the same list short.  The
store after a crash is then the one that a first part of the list leaves.
-/

namespace Xv6.Lib

section Writes

variable {κ β : Type} [DecidableEq κ]

/-- The store after a list of writes, the first write first. -/
def applyWrites (d : κ → β) (ws : List (κ × β)) : κ → β :=
  ws.foldl (fun d w => Function.update d w.1 w.2) d

variable {d : κ → β} {k : κ}

@[simp] theorem applyWrites_nil : applyWrites d [] = d := by
  rfl

theorem applyWrites_append (ws vs : List (κ × β)) :
    applyWrites d (ws ++ vs) = applyWrites (applyWrites d ws) vs := by
  exact List.foldl_append

@[simp] theorem applyWrites_singleton (k : κ) (v : β) :
    applyWrites d [(k, v)] = Function.update d k v := by
  rfl

/-- A key holds `v` if it held `v` or is written, and only `v` is written to it. -/
theorem applyWrites_eq_of_forall {v : β} {ws : List (κ × β)} (hval : ∀ w ∈ ws, w.1 = k → w.2 = v)
    (hsome : (∃ w ∈ ws, w.1 = k) ∨ d k = v) : applyWrites d ws k = v := by
  induction ws generalizing d with
  | nil =>
    rcases hsome with ⟨w, hw, _⟩ | hd
    · cases hw
    · exact hd
  | cons w ws ih =>
    refine ih (d := Function.update d w.1 w.2)
      (fun x hx => hval x (List.mem_cons_of_mem w hx)) ?_
    by_cases hk : w.1 = k
    · right
      rw [hk, Function.update_self]
      exact hval w List.mem_cons_self hk
    · rw [Function.update_of_ne (Ne.symm hk)]
      rcases hsome with ⟨x, hx, hxk⟩ | hd
      · rcases List.mem_cons.mp hx with rfl | hx
        · exact absurd hxk hk
        · exact .inl ⟨x, hx, hxk⟩
      · exact .inr hd

theorem applyWrites_of_forall_ne {ws : List (κ × β)} (h : ∀ w ∈ ws, w.1 ≠ k) :
    applyWrites d ws k = d k :=
  applyWrites_eq_of_forall (fun w hw hk => absurd hk (h w hw)) (.inr rfl)

end Writes

theorem prefix_append_cases {τ : Type} {vs ws us : List τ} (h : vs <+: ws ++ us) :
    vs <+: ws ∨ ∃ xs, xs <+: us ∧ vs = ws ++ xs := by
  obtain ⟨zs, hzs⟩ := h
  rcases List.append_eq_append_iff.mp hzs with ⟨xs, hws, hzs⟩ | ⟨xs, hvs, hus⟩
  · exact .inl ⟨xs, hws.symm⟩
  · exact .inr ⟨xs, ⟨zs, hus.symm⟩, hvs⟩

namespace Prog

variable {σ ε α β ι τ : Type} {Q : α → σ → Prop} {s : σ}

/-- The state in which the program ends, with a value or with an error. -/
def final (m : Prog σ ε α) (s : σ) : σ :=
  (m s).2

theorem final_of_wp {m : Prog σ ε α} {R : σ → Prop} (h : wp m (fun _ => R) (fun _ => R) s) :
    R (m.final s) := by
  unfold wp at h
  unfold Prog.final
  cases hm : m s with
  | mk r t =>
    rw [hm] at h
    cases r with
    | ok a => exact h
    | error e => exact h

/--
What `m` appends to the trace from states in `P`, and where it then ends.  An
error cuts the sequence short; from a state in `live` there is none, and the
program ends in `live` again.
-/
def Emits (trace : σ → List τ) (live : σ → Prop) (P : σ → Prop) (m : Prog σ ε α)
    (ws : List τ) (Q : α → σ → Prop) : Prop :=
  ∀ s, P s → wp m (fun a t => trace t = trace s ++ ws ∧ Q a t ∧ (live s → live t))
      (fun _ t => (∃ vs, vs <+: ws ∧ trace t = trace s ++ vs) ∧ ¬live s) s

section Emits

variable {trace : σ → List τ} {live : σ → Prop} {P : σ → Prop} {ws vs : List τ}

theorem Emits.bind {m : Prog σ ε α} {k : α → Prog σ ε β} {R : β → σ → Prop}
    (hm : Emits trace live P m ws Q) (hk : ∀ a, Emits trace live (Q a) (k a) vs R) :
    Emits trace live P (m >>= k) (ws ++ vs) R := by
  intro s hs
  rw [wp_bind]
  refine wp_mono (hm s hs) ?_ ?_
  · rintro a t ⟨htr, hq, hlive⟩
    refine wp_mono (hk a t hq) ?_ ?_
    · rintro b u ⟨hu, hr, hlive'⟩
      exact ⟨by rw [hu, htr, List.append_assoc], hr, fun h => hlive' (hlive h)⟩
    · rintro e u ⟨⟨us, hus, hu⟩, hdead⟩
      exact ⟨⟨ws ++ us, (List.prefix_append_right_inj ws).mpr hus,
        by rw [hu, htr, List.append_assoc]⟩, fun h => hdead (hlive h)⟩
  · rintro e t ⟨⟨us, hus, ht⟩, hdead⟩
    exact ⟨⟨us, hus.trans (List.prefix_append ws vs), ht⟩, hdead⟩

theorem Emits.conseq {m : Prog σ ε α} {P' : σ → Prop} {Q' : α → σ → Prop}
    (h : Emits trace live P m ws Q) (hP : ∀ s, P' s → P s) (hQ : ∀ a s, Q a s → Q' a s) :
    Emits trace live P' m ws Q' := by
  intro s hs
  exact wp_mono (h s (hP s hs)) (fun a t ht => ⟨ht.1, hQ a t ht.2.1, ht.2.2⟩) fun _ _ ht => ht

theorem emits_pure {Q : Unit → σ → Prop} (h : ∀ s, P s → Q () s) :
    Emits trace live P (pure () : Prog σ ε Unit) [] Q := by
  intro s hs
  exact ⟨by simp, h s hs, id⟩

theorem emits_modify {Q : Unit → σ → Prop} {f : σ → σ} (htrace : ∀ s, trace (f s) = trace s)
    (hlive : ∀ s, live s → live (f s)) (h : ∀ s, P s → Q () (f s)) :
    Emits trace live P (modify f : Prog σ ε Unit) [] Q := by
  intro s hs
  exact ⟨by simp [htrace], h s hs, hlive s⟩

theorem emits_get_bind {k : σ → Prog σ ε α} (h : ∀ s, P s → Emits trace live P (k s) ws Q) :
    Emits trace live P (get >>= k) ws Q := by
  intro s hs
  rw [wp_bind, wp_get]
  exact h s hs s hs

/-- A counting loop with an invariant that depends on the number of turns done. -/
theorem emits_forEach {I : Nat → σ → Prop} {f : Nat → Prog σ ε Unit} {w : Nat → List τ} {n : Nat}
    (h : ∀ i < n, Emits trace live (I i) (f i) (w i) fun _ => I (i + 1)) :
    Emits trace live (I 0) (forEach (List.range n) f) ((List.range n).flatMap w)
      fun _ => I n := by
  -- the turns from `i` on, by induction on their number
  have hfrom : ∀ m i, i + m = n →
      Emits trace live (I i) (forEach (List.range' i m) f) ((List.range' i m).flatMap w)
        fun _ => I n := by
    intro m
    induction m with
    | zero =>
      intro i hi
      have hin : i = n := by omega
      subst hin
      exact emits_pure fun s hs => hs
    | succ m ih =>
      intro i hi
      rw [List.range'_succ, List.flatMap_cons]
      exact (h i (by omega)).bind fun _ => ih (i + 1) (by omega)
  have hall := hfrom n 0 (by omega)
  rwa [← List.range_eq_range'] at hall

theorem Emits.final {m : Prog σ ε α} (h : Emits trace live P m ws Q) (hs : P s) :
    ∃ vs, vs <+: ws ∧ trace (m.final s) = trace s ++ vs := by
  have hwp := h s hs
  unfold wp at hwp
  unfold Prog.final
  cases hm : m s with
  | mk r t =>
    rw [hm] at hwp
    cases r with
    | ok a => exact ⟨ws, List.prefix_refl ws, hwp.1⟩
    | error e => exact hwp.1

theorem Emits.complete {m : Prog σ ε α} (h : Emits trace live P m ws Q) (hs : P s)
    (hlive : live s) : ∃ a t, m s = (.ok a, t) ∧ trace t = trace s ++ ws ∧ Q a t ∧ live t := by
  have hwp := h s hs
  unfold wp at hwp
  cases hm : m s with
  | mk r t =>
    rw [hm] at hwp
    cases r with
    | ok a => exact ⟨a, t, rfl, hwp.1, hwp.2.1, hwp.2.2 hlive⟩
    | error e => exact absurd hlive hwp.2

end Emits

end Prog

end Xv6.Lib
