import Xv6.Ftable.Refs

/-!
# The file table is sound in every state

What the reference counts rest on is kept by every step: the descriptors of a process are
as its position says, `fork` works on a process of its own, and an entry without references
or without a type is seen by nobody.
-/

namespace Xv6.Ftable

open Lib Function
open Ptable (NOFILE NFILE)

variable {P I G : Type} [Fintype P] [DecidableEq P] [DecidableEq I] [DecidableEq G]
variable {s t : State P I G} {l : P × Act P I G} {k : Rest} {f : Fin NFILE}

omit [Fintype P] [DecidableEq I] [DecidableEq G] in
theorem fits_update {p : P} {pr : Proc P I G} (h : ∀ q, (s.proc q).Fits)
    (hproc : t.proc = update s.proc p pr) (hpr : pr.Fits) (q : P) : (t.proc q).Fits := by
  rw [hproc, update_apply]
  split
  · exact hpr
  · exact h q

omit [Fintype P] [DecidableEq P] [DecidableEq I] [DecidableEq G] in
theorem Rest.Fits.pc {ofile : Fin NOFILE → Option (Fin NFILE)} (h : k.Fits ofile) :
    (⟨k.pc, ofile⟩ : Proc P I G).Fits := by
  cases k with
  | files fs =>
    cases fs with
    | nil => trivial
    | cons f fs => trivial
  | exit fd f => exact h

omit [Fintype P] [DecidableEq P] [DecidableEq I] [DecidableEq G] in
theorem Closes.fits {pr : Proc P I G} (h : Closes pr f k) (hfits : pr.Fits) : k.Fits pr.ofile := by
  cases h with
  | call fs hpc => trivial
  | exit fd hpc hslot =>
    simp only [Proc.Fits, hpc] at hfits
    exact ⟨hslot, fun fd' hlt => hfits fd' hlt⟩

theorem fits_step (h : s.Sound) (hstep : step s l = some t) : ∀ q, (t.proc q).Fits := by
  cases h.move hstep with
  | same => exact h.fits
  | opened p ip omode f fd => exact fits_update h.fits rfl (slots_pos (update_self ..))
  | duped p fd fd' f hpc hf hfd =>
    have hslots := slots_update f (s.proc p).ofile fd' (some f)
    have hpos := slots_pos hf
    have htwo : 2 ≤ slots f (update (s.proc p).ofile fd' (some f)) := by
      simp only [none_of_fdalloc hfd, if_pos] at hslots
      simp at hslots
      omega
    exact fits_update h.fits rfl htwo
  | shared p f k hclose => exact fits_update h.fits rfl (hclose.fits (h.fits p)).pc
  | last p f k hclose => exact fits_update h.fits rfl (hclose.fits (h.fits p)).pc
  | lastOf p f k o hclose => exact fits_update h.fits rfl (hclose.fits (h.fits p))
  | iput p ip k hpc =>
    have hfits := h.fits p
    simp only [Proc.Fits, hpc] at hfits
    exact fits_update h.fits rfl hfits.pc
  | pipeclose p g w k e hpc =>
    have hfits := h.fits p
    simp only [Proc.Fits, hpc] at hfits
    exact fits_update h.fits rfl hfits.pc
  | pipecloseBoth p g w k e hpc =>
    have hfits := h.fits p
    simp only [Proc.Fits, hpc] at hfits
    exact fits_update h.fits rfl hfits
  | freed p g k hpc =>
    have hfits := h.fits p
    simp only [Proc.Fits, hpc] at hfits
    exact fits_update h.fits rfl hfits.pc
  | forkFail p np hpc =>
    have hnone := (h.family.child p np 0 (by rw [hpc]; rfl)).2
    have hnp := fits_update (s := s) (t := s.setPc np .unused) h.fits rfl
      (fun fd => hnone fd (Nat.zero_le _))
    exact fits_update hnp rfl trivial
  | exitSkip p fd hpc hf =>
    have hfits := h.fits p
    simp only [Proc.Fits, hpc] at hfits
    refine fits_update h.fits rfl ?_
    intro fd' hlt
    by_cases heq : fd' = fd
    · rw [heq]
      exact hf
    · exact hfits fd' (by omega)
  | exited p i hpc hi =>
    have hfits := h.fits p
    simp only [Proc.Fits, hpc] at hfits
    exact fits_update h.fits rfl fun fd => hfits fd (lt_of_lt_of_le fd.isLt hi)
  | cleared p fd f hpc =>
    have hfits := h.fits p
    simp only [Proc.Fits, hpc, Rest.Fits] at hfits
    refine fits_update h.fits rfl ?_
    intro fd' hlt
    by_cases heq : fd' = fd
    · rw [heq]
      exact update_self ..
    · exact (update_of_ne heq ..).trans (hfits.2 fd' (by omega))
  | wait p np hpc hnp =>
    have hfits := h.fits np
    simp only [Proc.Fits, hnp] at hfits
    exact fits_update h.fits rfl hfits
  | exit p hpc => exact fits_update h.fits rfl fun fd hlt => absurd hlt (Nat.not_lt_zero _)
  | fork p np hpc hnp =>
    have hchild := fits_update (s := s) (t := s.setPc np .embryo) h.fits rfl trivial
    exact fits_update hchild rfl trivial
  | forkDup p np fd f hpc =>
    have hchild : (s.proc p).pc.child = some (np, fd.val) := by rw [hpc]; rfl
    have hnp := (h.family.child p np fd hchild).1
    have hnew : (⟨(s.proc np).pc, update (s.proc np).ofile fd (some f)⟩ :
        Proc P I G).Fits := by
      rw [hnp]
      trivial
    have hchild := fits_update (s := s) (t := s.setProc np _) h.fits rfl hnew
    exact fits_update hchild rfl trivial
  | forked p np i hpc hi =>
    have hchild := fits_update (s := s) (t := s.setPc np .idle) h.fits rfl trivial
    exact fits_update hchild rfl trivial
  | _ => exact fits_update h.fits rfl trivial

omit [Fintype P] [DecidableEq I] [DecidableEq G] in
theorem State.Family.keep {p : P} {pr : Proc P I G} (h : s.Family)
    (hproc : t.proc = update s.proc p pr) (hpc : (s.proc p).pc ≠ .embryo)
    (hchild : ∀ np i, pr.pc.child = some (np, i) → ∃ j ≤ i, (s.proc p).pc.child = some (np, j)) :
    t.Family := by
  have hfrom : ∀ q np i, (t.proc q).pc.child = some (np, i) →
      ∃ j ≤ i, (s.proc q).pc.child = some (np, j) := by
    intro q np i hq
    rw [hproc, update_apply] at hq
    split at hq
    case isTrue heq =>
        subst heq
        exact hchild np i hq
    case isFalse => exact ⟨i, le_rfl, hq⟩
  constructor
  · intro q np i hq
    obtain ⟨j, hj, hs⟩ := hfrom q np i hq
    obtain ⟨hnp, hnone⟩ := h.child q np j hs
    have hne : np ≠ p := by
      rintro rfl
      exact hpc hnp
    rw [hproc, update_of_ne hne]
    exact ⟨hnp, fun fd hfd => hnone fd (le_trans hj hfd)⟩
  · intro q q' np i j hq hq'
    obtain ⟨_, _, hs⟩ := hfrom q np i hq
    obtain ⟨_, _, hs'⟩ := hfrom q' np j hq'
    exact h.parent q q' np _ _ hs hs'

omit [Fintype P] [DecidableEq I] [DecidableEq G] in
theorem State.Family.keep₂ {p np : P} {i : Nat} {pr pr' : Proc P I G} (h : s.Family)
    (hproc : t.proc = update (update s.proc np pr') p pr)
    (hmine : (s.proc p).pc.child = some (np, i)) (hnew : pr'.pc.child = none)
    (hchild : ∀ np' j, pr.pc.child = some (np', j) →
      np' = np ∧ pr'.pc = .embryo ∧ ∀ fd : Fin NOFILE, j ≤ fd → pr'.ofile fd = none) :
    t.Family := by
  have hne := ne_child h hmine
  have hfrom : ∀ q np' j, (t.proc q).pc.child = some (np', j) →
      (q = p ∧ np' = np ∧ pr'.pc = .embryo ∧ ∀ fd : Fin NOFILE, j ≤ fd → pr'.ofile fd = none) ∨
        (q ≠ p ∧ np' ≠ np ∧ (s.proc q).pc.child = some (np', j)) := by
    intro q np' j hq
    rw [hproc, update_apply] at hq
    split at hq
    case isTrue heq => exact .inl ⟨heq, hchild np' j hq⟩
    case isFalse hqp =>
        rw [update_apply] at hq
        split at hq
        case isTrue =>
            rw [hnew] at hq
            cases hq
        case isFalse =>
            refine .inr ⟨hqp, ?_, hq⟩
            rintro rfl
            exact hqp (h.parent q p np' j i hq hmine)
  constructor
  · intro q np' j hq
    obtain ⟨_, rfl, hembryo, hnone⟩ | ⟨hqp, hnp, hs⟩ := hfrom q np' j hq
    · rw [hproc, update_of_ne (Ne.symm hne), update_self]
      exact ⟨hembryo, hnone⟩
    obtain ⟨hembryo, hnone⟩ := h.child q np' j hs
    have hnp' : np' ≠ p := by
      rintro rfl
      rw [hembryo] at hmine
      cases hmine
    rw [hproc, update_of_ne hnp', update_of_ne hnp]
    exact ⟨hembryo, hnone⟩
  intro q q' np' j j' hq hq'
  obtain ⟨hqp, hnp, _⟩ | ⟨hqp, hnp, hs⟩ := hfrom q np' j hq
  · obtain ⟨hqp', _⟩ | ⟨_, hnp', _⟩ := hfrom q' np' j' hq'
    · rw [hqp, hqp']
    · exact absurd hnp hnp'
  · obtain ⟨_, hnp', _⟩ | ⟨_, _, hs'⟩ := hfrom q' np' j' hq'
    · exact absurd hnp' hnp
    · exact h.parent q q' np' j j' hs hs'

omit [Fintype P] [DecidableEq P] [DecidableEq I] [DecidableEq G] in
@[simp] theorem Rest.child_pc (k : Rest) : (k.pc : Pc P I G).child = none := by
  rcases k with ⟨_ | ⟨f, fs⟩⟩ | ⟨fd, f⟩ <;> rfl

omit [Fintype P] [DecidableEq P] [DecidableEq I] [DecidableEq G] in
theorem Closes.not_embryo {pr : Proc P I G} (h : Closes pr f k) : pr.pc ≠ .embryo := by
  cases h with
  | call fs hpc => simp [hpc]
  | exit fd hpc hslot => simp [hpc]

theorem family_step (h : s.Sound) (hstep : step s l = some t) : t.Family := by
  cases h.move hstep with
  | same => exact h.family
  | shared p f k hclose => exact h.family.keep rfl hclose.not_embryo (by simp)
  | last p f k hclose => exact h.family.keep rfl hclose.not_embryo (by simp)
  | lastOf p f k o hclose => exact h.family.keep rfl hclose.not_embryo (by simp [Pc.child])
  | iput p ip k hpc => exact h.family.keep rfl (by simp [hpc]) (by simp)
  | pipeclose p g w k e hpc => exact h.family.keep rfl (by simp [hpc]) (by simp)
  | freed p g k hpc => exact h.family.keep rfl (by simp [hpc]) (by simp)
  | fork p np hpc hnp =>
    -- nobody else has this child: it was not an embryo
    have hne : p ≠ np := by
      rintro rfl
      rw [hpc] at hnp
      cases hnp
    have hfits := h.fits np
    simp only [Proc.Fits, hnp] at hfits
    have hfrom : ∀ q np' i, q ≠ p →
        (((s.setPc np .embryo).setPc p (.copying np)).proc q).pc.child = some (np', i) →
          (s.proc q).pc.child = some (np', i) ∧ np' ≠ np ∧ np' ≠ p := by
      intro q np' i hq hchild
      have hsame : (s.proc q).pc.child = some (np', i) := by grind [Pc.child]
      have hembryo := (h.family.child q np' i hsame).1
      refine ⟨hsame, ?_, ?_⟩
      · rintro rfl
        rw [hnp] at hembryo
        cases hembryo
      · rintro rfl
        rw [hpc] at hembryo
        cases hembryo
    constructor
    · intro q np' i hchild
      by_cases hq : q = p
      · subst hq
        have heq : np = np' ∧ 0 = i := by simpa [Pc.child] using hchild
        obtain ⟨rfl, rfl⟩ := heq
        rw [setPc_proc, if_neg (Ne.symm hne), setPc_proc, if_pos rfl]
        exact ⟨rfl, fun fd _ => hfits fd⟩
      · obtain ⟨hsame, hnp', hp'⟩ := hfrom q np' i hq hchild
        rw [setPc_proc, if_neg hp', setPc_proc, if_neg hnp']
        exact h.family.child q np' i hsame
    intro q q' np' i j hq hq'
    have hmine : ∀ i, (((s.setPc np .embryo).setPc p (.copying np)).proc p).pc.child =
        some (np', i) → np' = np := by
      intro i hchild
      have heq : np = np' ∧ 0 = i := by simpa [Pc.child] using hchild
      exact heq.1.symm
    by_cases hqp : q = p
    · subst hqp
      by_contra hne'
      exact (hfrom q' np' j (Ne.symm hne') hq').2.1 (hmine i hq)
    · by_cases hqp' : q' = p
      · subst hqp'
        exact absurd (hmine j hq') (hfrom q np' i hqp hq).2.1
      · exact h.family.parent q q' np' i j (hfrom q np' i hqp hq).1 (hfrom q' np' j hqp' hq').1
  | forkFail p np hpc =>
    have hchild : (s.proc p).pc.child = some (np, 0) := by rw [hpc]; rfl
    exact h.family.keep₂ rfl hchild rfl (by simp [Pc.child])
  | copied p np hpc =>
    refine h.family.keep rfl (by simp [hpc]) ?_
    intro np' i hchild
    cases hchild
    exact ⟨0, le_rfl, by rw [hpc]; rfl⟩
  | forkDup p np fd f hpc =>
    have hchild : (s.proc p).pc.child = some (np, fd.val) := by rw [hpc]; rfl
    obtain ⟨hnp, hnone⟩ := h.family.child p np fd hchild
    refine h.family.keep₂ rfl hchild (by rw [hnp]; rfl) ?_
    intro np' j hnew
    cases hnew
    refine ⟨rfl, hnp, ?_⟩
    intro fd' hlt
    have hother : fd' ≠ fd := by
      rintro rfl
      omega
    exact (update_of_ne hother ..).trans (hnone fd' (by omega))
  | forkSkip p np fd hpc =>
    refine h.family.keep rfl (by simp [hpc]) ?_
    intro np' i hchild
    cases hchild
    exact ⟨fd, Nat.le_succ _, by rw [hpc]; rfl⟩
  | forked p np i hpc hi =>
    have hchild : (s.proc p).pc.child = some (np, i) := by rw [hpc]; rfl
    exact h.family.keep₂ rfl hchild rfl (by simp [Pc.child])
  | wait p np hpc hnp => exact h.family.keep rfl (by simp [hnp]) (by simp [Pc.child])
  | _ => exact h.family.keep rfl (by simp [*]) (by simp [Pc.child])

omit [DecidableEq I] [DecidableEq G] in
theorem State.Sound.fresh_keep {p : P} (h : s.Sound)
    (hfile : ∀ f, t.file f = s.file f ∨ (s.file f).ref = 0 ∨ 1 ≤ net f (s.proc p))
    (hother : ∀ q, q ≠ p → (t.proc q).pc.fresh = (s.proc q).pc.fresh)
    (hself : ∀ f ∈ (t.proc p).pc.fresh, (t.file f).ref = 1 ∧ (t.file f).kind = .none)
    (hapart : (t.proc p).pc.fresh.Nodup)
    (hblank : ∀ f, (t.file f).ref = 0 → (t.file f).kind = .none) :
    t.Fresh where
  blank := hblank
  taken := by
    intro q f hf
    by_cases hq : q = p
    · subst hq
      exact hself f hf
    rw [hother q hq] at hf
    obtain hsame | hzero | huse := hfile f
    · rw [hsame]
      exact h.fresh.taken q f hf
    · have hone := (h.fresh.taken q f hf).1
      omega
    · exact absurd (alone_of_fresh h hf huse).symm hq
  apart := by
    intro q
    by_cases hq : q = p
    · subst hq
      exact hapart
    · rw [hother q hq]
      exact h.fresh.apart q

omit [DecidableEq I] [DecidableEq G] in
theorem State.Sound.fresh_take {p : P} {pr : Proc P I G} (h : s.Sound)
    (hf : filealloc s = some f)
    (hpr : pr.pc.fresh = [] ∨ pr.pc.fresh = (s.proc p).pc.fresh ++ [f]) :
    ((s.setFile f { s.file f with ref := 1 }).setProc p pr).Fresh := by
  have hzero := ref_of_filealloc hf
  have hkind := h.fresh.blank f hzero
  have htaken := h.fresh.taken p
  refine h.fresh_keep (p := p) (by grind) (by grind) (by grind) ?_ (by grind [h.fresh.blank])
  rw [setProc_proc, if_pos rfl]
  rcases hpr with hpr | hpr
  · rw [hpr]
    exact List.nodup_nil
  · rw [hpr]
    refine List.nodup_append.mpr ⟨h.fresh.apart p, List.nodup_singleton f, ?_⟩
    grind

omit [DecidableEq I] [DecidableEq G] in
theorem State.Sound.fresh_use {p : P} {pr : Proc P I G} (h : s.Sound)
    (hproc : t.proc = update s.proc p pr) (hpr : pr.pc.fresh = [])
    (hfile : ∀ f, t.file f = s.file f ∨
      1 ≤ net f (s.proc p) ∧ ((t.file f).ref = 0 → (t.file f).kind = .none)) : t.Fresh := by
  have hp : (t.proc p).pc.fresh = [] := by rw [hproc, update_self, hpr]
  refine h.fresh_keep (p := p) ?_ ?_ ?_ ?_ ?_
  · intro f
    exact (hfile f).imp_right fun hf => .inr hf.1
  · intro q hq
    rw [hproc, update_of_ne hq]
  · simp [hp]
  · simp [hp]
  · intro f hzero
    obtain hf | hf := hfile f
    · rw [hf] at hzero ⊢
      exact h.fresh.blank f hzero
    · exact hf.2 hzero

omit [DecidableEq I] [DecidableEq G] in
theorem State.Sound.fresh_fork {p np : P} {pr pr' : Proc P I G} (h : s.Sound)
    (hproc : t.proc = update (update s.proc np pr') p pr)
    (hnew : pr'.pc.fresh = (s.proc np).pc.fresh) (hpr : pr.pc.fresh = [])
    (hfile : ∀ f, t.file f = s.file f ∨ 1 ≤ net f (s.proc p) ∧ 0 < (t.file f).ref) : t.Fresh := by
  have hblank := h.fresh.blank
  have hp : (t.proc p).pc.fresh = [] := by rw [hproc, update_self, hpr]
  refine h.fresh_keep (p := p) (by grind) ?_ (by simp [hp]) (by simp [hp]) (by grind)
  intro q hq
  rw [hproc, update_of_ne hq, update_apply]
  split
  · rename_i heq
    rw [heq, hnew]
  · rfl

omit [Fintype P] [DecidableEq P] [DecidableEq I] [DecidableEq G] in
@[simp, grind =] theorem Rest.fresh_pc (k : Rest) : (k.pc : Pc P I G).fresh = [] := by
  rcases k with ⟨_ | ⟨f, fs⟩⟩ | ⟨fd, f⟩ <;> rfl

omit [DecidableEq I] in
theorem State.Sound.fresh_pipe {p : P} {pr : Proc P I G} {f0 f1 : Fin NFILE} {g : G} (h : s.Sound)
    (hpc : (s.proc p).pc = .pipePage f0 f1) (hpr : pr.pc.fresh = []) :
    ((pipeMade s f0 f1 g).setProc p pr).Fresh := by
  have hmine : ∀ f ∈ [f0, f1], f ∈ (s.proc p).pc.fresh := by simp [hpc, Pc.fresh]
  have hone : ∀ f ∈ [f0, f1], (s.file f).ref = 1 :=
    fun f hf => (h.fresh.taken p f (hmine f hf)).1
  have huse : ∀ f ∈ [f0, f1], 1 ≤ net f (s.proc p) :=
    fun f hf => net_of_fresh (h.fits p) (hmine f hf)
  exact h.fresh_use rfl hpr (by grind [pipeFile])

theorem fresh_step (h : s.Sound) (hstep : step s l = some t) : t.Fresh := by
  cases h.move hstep with
  | same => exact h.fresh
  | opened p ip omode f fd hpc hf hfd => exact h.fresh_take hf (.inr (by simp [hpc, Pc.fresh]))
  | openFull p ip omode f hpc hf => exact h.fresh_take hf (.inl rfl)
  | pipeFirst p f0 hpc hf => exact h.fresh_take hf (.inr (by simp [hpc, Pc.fresh]))
  | pipeSecond p f0 f1 hpc hf => exact h.fresh_take hf (.inr (by simp [hpc, Pc.fresh]))
  | typed p ip omode f hpc =>
    have hmine : f ∈ (s.proc p).pc.fresh := by simp [hpc, Pc.fresh]
    have hone := (h.fresh.taken p f hmine).1
    have huse := net_of_fresh (h.fits p) hmine
    exact h.fresh_use rfl rfl (by grind [openedFile])
  | filedup p f hpc href =>
    have huse := net_of_dups (h.fits p) (.dup hpc)
    exact h.fresh_use rfl rfl (by grind)
  | shared p f k hclose href =>
    have huse := net_of_closes hclose
    exact h.fresh_use rfl k.fresh_pc (by grind)
  | last p f k hclose href hobj =>
    have huse := net_of_closes hclose
    exact h.fresh_use rfl k.fresh_pc (by grind)
  | lastOf p f k o hclose href hobj =>
    have huse := net_of_closes hclose
    exact h.fresh_use rfl rfl (by grind)
  | pipeFull p f0 f1 g hpc hg => exact h.fresh_pipe hpc rfl
  | piped p f0 f1 g fd0 fd1 hpc hg hfd0 hfd1 => exact h.fresh_pipe hpc rfl
  | fork p np hpc hnp => exact h.fresh_fork rfl (by simp [hnp, Pc.fresh]) rfl (by grind)
  | forkFail p np hpc =>
    have hnp := (h.family.child p np 0 (by rw [hpc]; rfl)).1
    exact h.fresh_fork rfl (by simp [hnp, Pc.fresh]) rfl (by grind)
  | forkDup p np fd f hpc hf href =>
    have huse := net_of_dups (h.fits p) (.fork np fd hpc hf)
    exact h.fresh_fork rfl rfl rfl (by grind)
  | forked p np i hpc hi =>
    have hnp := (h.family.child p np i (by rw [hpc]; rfl)).1
    exact h.fresh_fork rfl (by simp [hnp, Pc.fresh]) rfl (by grind)
  | _ => exact h.fresh_use rfl (by grind [Pc.fresh]) fun f => .inl rfl

theorem sound_step (h : s.Sound) (hstep : step s l = some t) :
    t.Sound where
  fits := fits_step h hstep
  family := family_step h hstep
  counted := counted_step h hstep
  fresh := fresh_step h hstep

omit [DecidableEq I] [DecidableEq G] in
theorem sound_boot (init : P) :
    (boot init : State P I G).Sound where
  fits := by
    intro p
    by_cases hp : p = init
    · simp [boot, hp, Proc.Fits]
    · simp [boot, hp, Proc.Fits]
  family := by
    have hnone : ∀ p, ((boot init : State P I G).proc p).pc.child = none := by
      intro p
      by_cases hp : p = init
      · simp [boot, hp, Pc.child]
      · simp [boot, hp, Pc.child]
    constructor
    · intro p np i hchild
      rw [hnone] at hchild
      cases hchild
    · intro p q np i j hchild
      rw [hnone] at hchild
      cases hchild
  counted := by
    intro f
    have hnet : ∀ p, net f ((boot init : State P I G).proc p) = 0 := by
      intro p
      by_cases hp : p = init
      · simp [boot, hp, net, Pc.holds, Pc.owes, slots, total]
      · simp [boot, hp, net, Pc.holds, Pc.owes, slots, total]
    simp [total, hnet]
    rfl
  fresh := by
    have hnone : ∀ p, ((boot init : State P I G).proc p).pc.fresh = [] := by
      intro p
      by_cases hp : p = init
      · simp [boot, hp, Pc.fresh]
      · simp [boot, hp, Pc.fresh]
    constructor
    · intro f _
      rfl
    · intro p f hf
      rw [hnone] at hf
      cases hf
    · intro p
      rw [hnone]
      exact List.nodup_nil

end Xv6.Ftable
