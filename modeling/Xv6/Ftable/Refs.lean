import Xv6.Ftable.Moves
import Xv6.Lib.Counting

/-!
# The reference counts of the file table

The count of an entry is the number of descriptors that point to it, and of references
that calls in progress hold outside the descriptors, less the descriptors of a `sys_dup`
that has not come to `filedup` yet and of an `exit` that has called `fileclose` already.
-/

namespace Xv6.Ftable

open Lib
open Ptable (NOFILE NFILE)

variable {P I G : Type}

/-- How many of the descriptors point to the entry. -/
@[irreducible] def slots (f : Fin NFILE) (ofile : Fin NOFILE → Option (Fin NFILE)) : Nat :=
  total (fun x => if x = some f then 1 else 0) ofile

def Rest.holds : Rest → List (Fin NFILE)
  | .files fs => fs
  | .exit _ _ => []

/-- The entry of the descriptor that `exit` has yet to clear. -/
def Rest.owes : Rest → List (Fin NFILE)
  | .files _ => []
  | .exit _ f => [f]

def Pc.holds : Pc P I G → List (Fin NFILE)
  | .pipeSecond f₀ => [f₀]
  | .pipePage f₀ f₁ => [f₀, f₁]
  | .closing f fs => f :: fs
  | .releasing _ k => k.holds
  | .freeing _ k => k.holds
  | _ => []

def Pc.owes : Pc P I G → List (Fin NFILE)
  | .duping f => [f]
  | .clearing _ f => [f]
  | .releasing _ k => k.owes
  | .freeing _ k => k.owes
  | _ => []

@[simp, grind =] theorem Rest.holds_pc (k : Rest) : (k.pc : Pc P I G).holds = k.holds := by
  rcases k with ⟨_ | ⟨f, fs⟩⟩ | ⟨fd, f⟩ <;> rfl

@[simp, grind =] theorem Rest.owes_pc (k : Rest) : (k.pc : Pc P I G).owes = k.owes := by
  rcases k with ⟨_ | ⟨f, fs⟩⟩ | ⟨fd, f⟩ <;> rfl

def net (f : Fin NFILE) (pr : Proc P I G) : Int :=
  slots f pr.ofile + pr.pc.holds.count f - pr.pc.owes.count f

theorem slots_update (f : Fin NFILE) (ofile : Fin NOFILE → Option (Fin NFILE)) (fd : Fin NOFILE)
    (x : Option (Fin NFILE)) :
    slots f (Function.update ofile fd x) + (if ofile fd = some f then 1 else 0) =
      slots f ofile + if x = some f then 1 else 0 := by
  unfold slots
  exact total_update _ ofile fd x

theorem slots_pos {f : Fin NFILE} {ofile : Fin NOFILE → Option (Fin NFILE)} {fd : Fin NOFILE}
    (h : ofile fd = some f) : 1 ≤ slots f ofile := by
  have hle := le_total (w := fun x => if x = some f then 1 else 0) (f := ofile)
    (fun i => Nat.zero_le _) fd
  simp only [h, if_pos] at hle
  unfold slots
  exact hle

def Rest.Fits (ofile : Fin NOFILE → Option (Fin NFILE)) : Rest → Prop
  | .files _ => True
  | .exit fd f => ofile fd = some f ∧ ∀ fd' < fd, ofile fd' = none

/-- The descriptors of a process are as its position says, and it has not panicked. -/
def Proc.Fits (pr : Proc P I G) : Prop :=
  match pr.pc with
  | .unused => ∀ fd, pr.ofile fd = none
  | .zombie => ∀ fd, pr.ofile fd = none
  | .typing _ _ f => 1 ≤ slots f pr.ofile
  | .duping f => 2 ≤ slots f pr.ofile
  | .releasing _ k => k.Fits pr.ofile
  | .freeing _ k => k.Fits pr.ofile
  | .exiting i => ∀ fd : Fin NOFILE, fd < i → pr.ofile fd = none
  | .clearing fd f => (Rest.exit fd f).Fits pr.ofile
  | .panic _ => False
  | _ => True

def Pc.child : Pc P I G → Option (P × Nat)
  | .copying np => some (np, 0)
  | .forking np i => some (np, i)
  | _ => none

def Pc.fresh : Pc P I G → List (Fin NFILE)
  | .typing _ _ f => [f]
  | .pipeSecond f₀ => [f₀]
  | .pipePage f₀ f₁ => [f₀, f₁]
  | _ => []

/-- A process that `fork` is making has one parent and no descriptors that are not copied. -/
structure State.Family (s : State P I G) : Prop where
  child : ∀ p np i, (s.proc p).pc.child = some (np, i) →
    (s.proc np).pc = .embryo ∧ ∀ fd : Fin NOFILE, i ≤ fd → (s.proc np).ofile fd = none
  parent : ∀ p q np i j, (s.proc p).pc.child = some (np, i) → (s.proc q).pc.child = some (np, j) →
    p = q

def State.Counted [Fintype P] (s : State P I G) : Prop :=
  ∀ f, ((s.file f).ref : Int) = total (net f) s.proc

/-- The entries without references and those that a call has just taken have no type. -/
structure State.Fresh (s : State P I G) : Prop where
  blank : ∀ f, (s.file f).ref = 0 → (s.file f).kind = .none
  taken : ∀ p, ∀ f ∈ (s.proc p).pc.fresh, (s.file f).ref = 1 ∧ (s.file f).kind = .none
  apart : ∀ p, (s.proc p).pc.fresh.Nodup

structure State.Sound [Fintype P] (s : State P I G) : Prop where
  fits : ∀ p, (s.proc p).Fits
  family : s.Family
  counted : s.Counted
  fresh : s.Fresh

section Consequences

variable {f : Fin NFILE}

theorem Proc.Fits.net_nonneg {pr : Proc P I G} (h : pr.Fits) : 0 ≤ net f pr := by
  obtain ⟨c, ofile⟩ := pr
  have hrest : ∀ k : Rest, k.Fits ofile → k.owes.count f ≤ slots f ofile := by
    intro k hk
    cases k with
    | files fs => exact Nat.zero_le _
    | exit fd f' =>
      by_cases heq : f' = f
      · subst heq
        have hpos := slots_pos hk.1
        simp [Rest.owes]
        omega
      · simp [Rest.owes, heq]
  have hle : c.owes.count f ≤ slots f ofile := by
    cases c with
    | duping f' =>
      have htwo : 2 ≤ slots f' ofile := h
      by_cases heq : f' = f
      · subst heq
        simp [Pc.owes]
        omega
      · simp [Pc.owes, heq]
    | clearing fd f' => exact hrest (.exit fd f') h
    | releasing o k => exact hrest k h
    | freeing g k => exact hrest k h
    | _ => exact Nat.zero_le _
  simp only [net]
  omega

theorem net_of_closes {pr : Proc P I G} {k : Rest} (h : Closes pr f k) : 1 ≤ net f pr := by
  cases h with
  | call fs hpc =>
    simp [net, hpc, Pc.holds, Pc.owes]
    omega
  | exit fd hpc hslot =>
    have hpos := slots_pos hslot
    simp [net, hpc, Pc.holds, Pc.owes]
    omega

theorem net_of_dups {pr : Proc P I G} (hfits : pr.Fits) (h : Dups pr f) : 1 ≤ net f pr := by
  cases h with
  | dup hpc =>
    have htwo : 2 ≤ slots f pr.ofile := by simpa only [Proc.Fits, hpc] using hfits
    simp [net, hpc, Pc.holds, Pc.owes]
    omega
  | fork np fd hpc hslot =>
    have hpos := slots_pos hslot
    simp [net, hpc, Pc.holds, Pc.owes]
    omega

theorem net_of_fresh {pr : Proc P I G} (hfits : pr.Fits) (h : f ∈ pr.pc.fresh) : 1 ≤ net f pr := by
  obtain ⟨c, ofile⟩ := pr
  cases c with
  | typing ip omode f' =>
    have hone : 1 ≤ slots f' ofile := hfits
    obtain rfl : f = f' := by simpa [Pc.fresh] using h
    simp [net, Pc.holds, Pc.owes]
    omega
  | pipeSecond f0 =>
    obtain rfl : f = f0 := by simpa [Pc.fresh] using h
    simp [net, Pc.holds, Pc.owes]
  | pipePage f0 f1 =>
    have hpos : 0 < [f0, f1].count f := List.count_pos_iff.mpr h
    simp only [net, Pc.holds, Pc.owes, List.count_nil]
    omega
  | _ => simp [Pc.fresh] at h

variable [Fintype P] {s : State P I G} (h : s.Sound)

include h

theorem ref_pos {p : P} (hp : 1 ≤ net f (s.proc p)) : 1 ≤ (s.file f).ref := by
  have hle := le_total (w := net f) (f := s.proc) (fun q => (h.fits q).net_nonneg) p
  have hcount := h.counted f
  omega

theorem alone_of_fresh [DecidableEq P] {p q : P} (hq : f ∈ (s.proc q).pc.fresh)
    (hp : 1 ≤ net f (s.proc p)) : p = q := by
  by_contra hne
  have hle := add_le_total (w := net f) (f := s.proc) (fun q => (h.fits q).net_nonneg) hne
  have hfresh := net_of_fresh (h.fits q) hq
  have hcount := h.counted f
  have hone := (h.fresh.taken q f hq).1
  omega

end Consequences

section Steps

variable [Fintype P] [DecidableEq P] [DecidableEq I] [DecidableEq G]
variable {s t : State P I G} {l : P × Act P I G}

omit [DecidableEq I] [DecidableEq G] in
theorem State.Counted.update {p : P} {pr : Proc P I G} (h : s.Counted)
    (hproc : t.proc = Function.update s.proc p pr)
    (href : ∀ f, ((t.file f).ref : Int) + net f (s.proc p) = (s.file f).ref + net f pr) :
    t.Counted := by
  intro f
  have hcount := h f
  have htotal := total_update (net f) s.proc p pr
  have hone := href f
  rw [hproc]
  omega

omit [DecidableEq I] [DecidableEq G] in
theorem State.Counted.update₂ {p np : P} {pr pr' : Proc P I G} (h : s.Counted) (hne : p ≠ np)
    (hproc : t.proc = Function.update (Function.update s.proc np pr') p pr)
    (href : ∀ f, ((t.file f).ref : Int) + net f (s.proc p) + net f (s.proc np) =
      (s.file f).ref + net f pr + net f pr') :
    t.Counted := by
  intro f
  have hcount := h f
  have hchild := total_update (net f) s.proc np pr'
  have htotal := total_update (net f) (Function.update s.proc np pr') p pr
  rw [Function.update_of_ne hne] at htotal
  have hone := href f
  rw [hproc]
  omega

omit [DecidableEq I] [DecidableEq G] in
theorem State.Counted.goto {p : P} {c : Pc P I G} (h : s.Counted)
    (hproc : t.proc = Function.update s.proc p { s.proc p with pc := c })
    (hfile : ∀ f, (t.file f).ref = (s.file f).ref)
    (hrefs : c.holds = (s.proc p).pc.holds ∧ c.owes = (s.proc p).pc.owes) : t.Counted := by
  refine h.update hproc fun f => ?_
  simp only [net, hfile, hrefs]

omit [Fintype P] [DecidableEq P] [DecidableEq I] [DecidableEq G] in
theorem net_close {pr : Proc P I G} {f : Fin NFILE} {k : Rest} (f' : Fin NFILE)
    (h : Closes pr f k) :
    net f' ({ pr with pc := k.pc } : Proc P I G) + (if f' = f then 1 else 0) = net f' pr := by
  cases h with
  | call fs hpc => grind [net, Pc.holds, Pc.owes, Rest.holds, Rest.owes]
  | exit fd hpc hslot => grind [net, Pc.holds, Pc.owes, Rest.holds, Rest.owes]

omit [Fintype P] [DecidableEq P] [DecidableEq I] [DecidableEq G] in
theorem ne_child {p np : P} {i : Nat} (h : s.Family) (hchild : (s.proc p).pc.child = some (np, i)) :
    p ≠ np := by
  rintro rfl
  rw [(h.child p p i hchild).1] at hchild
  cases hchild

theorem State.Sound.move (h : s.Sound) (hstep : step s l = some t) : Move s l t := by
  refine move_of_step ?_ hstep
  intro hpanics
  cases hpanics with
  | dup p f hdup href =>
    have hpos := ref_pos h (net_of_dups (h.fits p) hdup)
    omega
  | close p f k hclose href =>
    have hpos := ref_pos h (net_of_closes hclose)
    omega

omit [DecidableEq I] [DecidableEq G] in
theorem State.Counted.take {p : P} {c : Pc P I G} {f : Fin NFILE} (h : s.Counted)
    (hf : filealloc s = some f) (hholds : ∀ f', c.holds.count f' =
      (s.proc p).pc.holds.count f' + if f' = f then 1 else 0)
    (howes : c.owes = (s.proc p).pc.owes) :
    ((s.setFile f { s.file f with ref := 1 }).setPc p c).Counted := by
  have hzero := ref_of_filealloc hf
  refine h.update rfl fun f' => ?_
  have hone := hholds f'
  grind [net]

omit [DecidableEq I] [DecidableEq G] in
theorem State.Counted.close {p : P} {c : Pc P I G} {f : Fin NFILE} {k : Rest} {x : File I G}
    (h : s.Counted) (hclose : Closes (s.proc p) f k) (href : (s.file f).ref = x.ref + 1)
    (hc : c.holds = k.holds ∧ c.owes = k.owes) : ((s.setFile f x).setPc p c).Counted := by
  refine h.update rfl fun f' => ?_
  have hnet := net_close f' hclose
  grind [net]

theorem counted_step (h : s.Sound) (hstep : step s l = some t) : t.Counted := by
  cases h.move hstep with
  | same => exact h.counted
  | opened p ip omode f fd hpc hf hfd =>
    have hzero := ref_of_filealloc hf
    have hslot := none_of_fdalloc hfd
    refine h.counted.update rfl fun f' => ?_
    have hslots := slots_update f' (s.proc p).ofile fd (some f)
    grind [net, Pc.holds, Pc.owes]
  | openFull p ip omode f hpc hf =>
    exact h.counted.take hf (by grind [Pc.holds]) (by simp [hpc, Pc.owes])
  | pipeFirst p f0 hpc hf =>
    exact h.counted.take hf (by grind [Pc.holds]) (by simp [hpc, Pc.owes])
  | pipeSecond p f0 f1 hpc hf =>
    exact h.counted.take hf (by grind [Pc.holds]) (by simp [hpc, Pc.owes])
  | duped p fd fd' f hpc hf hfd =>
    have hslot := none_of_fdalloc hfd
    refine h.counted.update rfl fun f' => ?_
    have hslots := slots_update f' (s.proc p).ofile fd' (some f)
    grind [net, Pc.holds, Pc.owes]
  | filedup p f hpc href =>
    refine h.counted.update rfl fun f' => ?_
    grind [net, Pc.holds, Pc.owes]
  | closed p fd f hpc hf =>
    refine h.counted.update rfl fun f' => ?_
    have hslots := slots_update f' (s.proc p).ofile fd none
    grind [net, Pc.holds, Pc.owes]
  | shared p f k hclose href =>
    exact h.counted.close hclose (by simp; omega) ⟨k.holds_pc, k.owes_pc⟩
  | last p f k hclose href hobj => exact h.counted.close hclose href ⟨k.holds_pc, k.owes_pc⟩
  | lastOf p f k o hclose href hobj =>
    exact h.counted.close hclose href ⟨rfl, rfl⟩
  | typed p ip omode f hpc =>
    exact h.counted.goto rfl (by grind [openedFile]) (by simp [hpc, Pc.holds, Pc.owes])
  | pipeFull p f0 f1 g hpc hg =>
    exact h.counted.goto rfl (by grind [pipeFile]) (by simp [hpc, Pc.holds, Pc.owes])
  | piped p f0 f1 g fd0 fd1 hpc hg hfd0 hfd1 =>
    have hslot0 := none_of_fdalloc hfd0
    have hslot1 := none_of_fdalloc hfd1
    refine h.counted.update rfl fun f' => ?_
    have hfirst := slots_update f' (s.proc p).ofile fd0 (some f0)
    have hsecond := slots_update f' (Function.update (s.proc p).ofile fd0 (some f0)) fd1 (some f1)
    grind [net, Pc.holds, Pc.owes, pipeFile]
  | fork p np hpc hnp =>
    have hne : p ≠ np := by
      rintro rfl
      rw [hpc] at hnp
      cases hnp
    refine h.counted.update₂ hne rfl fun f' => ?_
    grind [net, Pc.holds, Pc.owes]
  | forkFail p np hpc =>
    have hchild : (s.proc p).pc.child = some (np, 0) := by rw [hpc]; rfl
    have hnp := (h.family.child p np 0 hchild).1
    refine h.counted.update₂ (ne_child h.family hchild) rfl fun f' => ?_
    grind [net, Pc.holds, Pc.owes]
  | forkDup p np fd f hpc hf href =>
    have hchild : (s.proc p).pc.child = some (np, fd.val) := by rw [hpc]; rfl
    have hnone := (h.family.child p np fd hchild).2 fd le_rfl
    refine h.counted.update₂ (ne_child h.family hchild) rfl fun f' => ?_
    have hslots := slots_update f' (s.proc np).ofile fd (some f)
    grind [net, Pc.holds, Pc.owes]
  | forked p np i hpc hi =>
    have hchild : (s.proc p).pc.child = some (np, i) := by rw [hpc]; rfl
    have hnp := (h.family.child p np i hchild).1
    refine h.counted.update₂ (ne_child h.family hchild) rfl fun f' => ?_
    grind [net, Pc.holds, Pc.owes]
  | cleared p fd f hpc =>
    have hfits := h.fits p
    simp only [Proc.Fits, hpc, Rest.Fits] at hfits
    refine h.counted.update rfl fun f' => ?_
    have hslots := slots_update f' (s.proc p).ofile fd none
    grind [net, Pc.holds, Pc.owes]
  -- the other steps leave the references of the process as they are
  | _ => exact h.counted.goto rfl (fun f => rfl) (by grind [Pc.holds, Pc.owes])

end Steps

end Xv6.Ftable
