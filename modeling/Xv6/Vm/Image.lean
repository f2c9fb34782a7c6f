import Xv6.Vm.Bytes
import Xv6.Vm.Copy
import Xv6.Vm.Exec

/-!
# Building an image

What `loaduvm`, `clearpteu` and `copyout` do in one page: what they write, and that an
address space stays one.
-/

namespace Xv6.Vm

open Lib Lib.Prog Function

variable {K : Symbols} {A : Pool K} {m m' m1 : Mem} {R : Multiset Nat} {D sz v f w va T n : Nat}
variable {buf : List UInt8} {l : List Nat} {ip : File}

theorem Space.setUser (p : Page) (h : Space A m D sz R) (hv : v < userPages)
    (hf : m.frameAt D v = some f) :
    Space A (m.setPage f p) D sz R ∧ Keeps R m (m.setPage f p) ∧ (m.setPage f p).pte D = m.pte D ∧
      ∀ u < userPages, (m.setPage f p).content D u = if u = v then p else m.content D u := by
  have huser := mem_users hv hf
  have hD : (m.setPage f p).page D = m.page D :=
    setPage_page_of_ne _ (h.dir.user_ne_dir huser).symm
  have htable := table_congr hD
  have hpte : (m.setPage f p).pte D = m.pte D :=
    pte_congr hD fun T hT => setPage_page_of_ne _ (h.dir.user_ne_table huser hT).symm
  have hown : (m.setPage f p).own D = m.own D := by
    unfold Mem.own
    rw [tables_congr htable, users_congr fun u _ => congrFun hpte u]
  refine ⟨⟨⟨?_, ?_⟩, h.size, ?_, ?_, ?_⟩, ?_, hpte, ?_⟩
  · rw [hown]
    exact h.dir.uses
  · intro i hi hP
    have hword : (m.setPage f p).word D i = m.word D i := by
      unfold Mem.word
      rw [hD]
    rw [hword] at hP ⊢
    exact h.dir.flags i hi hP
  · rw [hpte]
    exact h.below
  · rw [hpte]
    exact h.rights
  · rw [hpte]
    exact h.kernel
  · intro g hg
    refine setPage_page_of_ne _ ?_
    rintro rfl
    exact h.dir.notMem_own hg (by simp [Mem.own, huser])
  intro u hu
  by_cases huv : u = v
  · rw [if_pos huv, huv, content_of_frame ((frameAt_congr (congrFun hpte v)).trans hf),
      setPage_page_self]
  rw [if_neg huv]
  refine content_congr (congrFun hpte u) ?_
  intro g hg
  refine setPage_page_of_ne _ ?_
  rintro rfl
  have hnodup := (Multiset.nodup_add.mp (Multiset.nodup_cons.mp h.dir.nodup_own).2).2.1
  exact huv (eq_of_nodup_collect hnodup hu hv hg hf)

theorem Space.patch {p : Page} {w : Nat → UInt8} (h : Space A m D sz R) (hv : v < userPages)
    (hf : m.frameAt D v = some f) (i j : Nat) (hj : j ≤ 4096)
    (hp : ∀ t : Fin PGSIZE, p t = if i ≤ t.val ∧ t.val < j then w (4096 * v + t) else m.page f t) :
    Patched m (m.setPage f p) D (4096 * v + i) (4096 * v + j) w := by
  obtain ⟨_, _, _, hcontent⟩ := h.setUser p hv hf
  intro a ha
  unfold Mem.byte
  rw [hcontent _ (div_lt_userPages ha)]
  by_cases hav : a / 4096 = v
  · have hmod : a % 4096 < PGSIZE := Nat.mod_lt _ (by decide)
    rw [if_pos hav, hav, content_of_frame hf]
    unfold getByte
    rw [dif_pos hmod, dif_pos hmod, hp]
    simp only
    by_cases hin : i ≤ a % 4096 ∧ a % 4096 < j
    · rw [if_pos hin, if_pos (by omega), show 4096 * v + a % 4096 = a by omega]
    · rw [if_neg hin, if_neg (by omega)]
  · rw [if_neg hav, if_neg (by omega)]

theorem clearU_eq (hw : flag w PTE_U = true) : clearU w = w - 4 ∧ 4 ≤ w % 8 := by
  refine ⟨if_pos hw, ?_⟩
  rw [flag_U, Nat.testBit_eq_decide_div_mod_eq, decide_eq_true_eq] at hw
  omega

theorem clearU_lt (hw : w < 2 ^ 32) : clearU w < 2 ^ 32 := by
  unfold clearU
  split
  · omega
  · exact hw

theorem flag_U_clearU (w : Nat) : flag (clearU w) PTE_U = false := by
  by_cases hU : flag w PTE_U = true
  · obtain ⟨heq, hmod⟩ := clearU_eq hU
    rw [heq, flag_U, Nat.testBit_eq_decide_div_mod_eq, decide_eq_false_iff_not]
    omega
  · unfold clearU
    rw [if_neg hU]
    simpa using hU

theorem flag_P_clearU : flag (clearU w) PTE_P = flag w PTE_P := by
  by_cases hU : flag w PTE_U = true
  · obtain ⟨heq, hmod⟩ := clearU_eq hU
    rw [heq, flag_P, flag_P, Nat.testBit_zero, Nat.testBit_zero, show (w - 4) % 2 = w % 2 by omega]
  · unfold clearU
    rw [if_neg hU]

theorem entryFrame_clearU : entryFrame (clearU w) = entryFrame w := by
  unfold entryFrame
  rw [flag_P_clearU]
  by_cases hU : flag w PTE_U = true
  · obtain ⟨heq, hmod⟩ := clearU_eq hU
    rw [heq, show pteFrame (w - 4) = pteFrame w by unfold pteFrame; omega]
  · unfold clearU
    rw [if_neg hU]

theorem PTE_FLAGS_clearU (hw : PTE_FLAGS w = 7 ∨ PTE_FLAGS w = 3) : PTE_FLAGS (clearU w) = 3 := by
  unfold PTE_FLAGS at hw ⊢
  by_cases hU : flag w PTE_U = true
  · obtain ⟨heq, hmod⟩ := clearU_eq hU
    rw [heq]
    omega
  · have hbit := hU
    rw [flag_U, Nat.testBit_eq_decide_div_mod_eq, decide_eq_true_eq] at hbit
    unfold clearU
    rw [if_neg hU]
    omega

theorem clearpteu_spec (h : Space A m D sz R) (hv : v < userPages) :
    wp (clearpteu D (4096 * v))
      (fun _ m' => Space A m' D sz R ∧ Keeps R m m' ∧
        m'.pte D = update (m.pte D) v (clearU (m.pte D v)) ∧
        m'.free = m.free ∧ m.table D (v / 1024) ≠ none ∧ m'.table D = m.table D ∧
        ∀ u < userPages, m'.content D u = m.content D u)
      (fun e _ => e = .clearpteu ∧ m.table D (v / 1024) = none) m := by
  have hv' : v < 524288 := hv
  have hpdx := PDX_page (v := v) (by omega)
  have hptx := PTX_page v
  unfold clearpteu
  rw [wp_bind, wp_walkpgdir_false, hpdx, hptx]
  cases hT : m.table D (v / 1024) with
  | none => exact ⟨rfl, rfl⟩
  | some T =>
    simp only [Option.map_some, wp_bind, wp_readPte, wp_writePte]
    rw [show m.word T (v % 1024) = m.pte D v from (pte_of_table hT).symm]
    have hpte := pte_setWord h.dir.tree hT (clearU_lt (pte_lt m D v))
    have hext := h.dir.tree.extended_setWord (w := clearU (m.pte D v)) hT
    have husers : (m.setWord T (v % 1024) (clearU (m.pte D v))).users D = m.users D :=
      users_of_same hpte fun _ => entryFrame_clearU
    have hkeeps := hext.keeps h.dir
    refine ⟨⟨hext.dir h.dir (by rw [husers]), h.size, ?_, ?_, ?_⟩, ?_, hpte, rfl, by simp,
      table_setWord h.dir.tree hT, ?_⟩
    · intro u hu hP
      rw [hpte] at hP
      by_cases huv : u = v
      · rw [huv, update_self, flag_P_clearU] at hP
        rw [huv]
        exact h.below v hv hP
      · rw [update_of_ne huv] at hP
        exact h.below u hu hP
    · intro u hu hP
      rw [hpte] at hP ⊢
      by_cases huv : u = v
      · rw [huv, update_self, flag_P_clearU] at hP
        rw [huv, update_self]
        exact .inr (PTE_FLAGS_clearU (h.rights v hv hP))
      · rw [update_of_ne huv] at hP ⊢
        exact h.rights u hu hP
    · intro u hu
      rw [hpte, update_of_ne (by omega)]
      exact h.kernel u hu
    · exact hkeeps.right
    intro u hu
    have hframe : (m.setWord T (v % 1024) (clearU (m.pte D v))).frameAt D u = m.frameAt D u := by
      rw [frameAt_eq, frameAt_eq, hpte]
      by_cases huv : u = v
      · rw [huv, update_self, entryFrame_clearU]
      · rw [update_of_ne huv]
    unfold Mem.content
    rw [hframe]
    cases hf : m.frameAt D u with
    | none => rfl
    | some f => exact hkeeps f (Multiset.mem_add.mpr (.inl (mem_users hu hf)))

theorem uva2ka_cases {Q : Option Nat → Mem → Prop} {E : Stop → Mem → Prop} (hva : va < 2 ^ 32)
    (hnull : m.table D (va / 4096 / 1024) = none → E .nullPte m)
    (hnone : m.table D (va / 4096 / 1024) ≠ none →
      flag (m.pte D (va / 4096)) PTE_P = false ∨ flag (m.pte D (va / 4096)) PTE_U = false →
      Q none m)
    (hsome : flag (m.pte D (va / 4096)) PTE_P = true → flag (m.pte D (va / 4096)) PTE_U = true →
      Q (some (pteFrame (m.pte D (va / 4096)))) m) :
    wp (uva2ka D va) Q E m := by
  unfold uva2ka
  rw [wp_bind, wp_walkpgdir_false, PDX_eq hva, PTX_eq]
  cases hT : m.table D (va / 4096 / 1024) with
  | none => exact hnull hT
  | some T =>
    have hne : m.table D (va / 4096 / 1024) ≠ none := by simp [hT]
    simp only [Option.map_some, wp_bind, wp_readPte, wp_ite, wp_pure]
    rw [show m.word T (va / 4096 % 1024) = m.pte D (va / 4096) from (pte_of_table hT).symm]
    by_cases hP : flag (m.pte D (va / 4096)) PTE_P = false
    · rw [if_pos hP]
      exact hnone hne (.inl hP)
    · rw [if_neg hP]
      by_cases hU : flag (m.pte D (va / 4096)) PTE_U = false
      · rw [if_pos hU]
        exact hnone hne (.inr hU)
      · rw [if_neg hU]
        exact hsome (by simpa using hP) (by simpa using hU)

structure CopiedOut (m : Mem) (D va : Nat) (buf : List UInt8) (m' : Mem) : Prop where
  user : ∀ a, va ≤ a → a < va + buf.length → a < KERNBASE ∧ flag (m.pte D (a / 4096)) PTE_U = true
  bytes : Patched m m' D va (va + buf.length) fun a => buf.getD (a - va) 0

theorem copiedOut_nil (m : Mem) (D va : Nat) :
    CopiedOut m D va [] m where
  user := by
    intro a hlo hhi
    simp only [List.length_nil] at hhi
    omega
  bytes := patched_of_same (Same.refl m D) (by simp)

theorem Space.copyIn (h : Space A m D sz R)
    (hv : va / 4096 < userPages) (hf : m.frameAt D (va / 4096) = some f)
    (hn : n = min (4096 - va % 4096) buf.length) :
    Patched m (m.copyIn f (va % 4096) (buf.take n)) D va (va + n) fun a => buf.getD (a - va) 0 := by
  have hpatch := h.patch (p := fun j => if va % 4096 ≤ j.val then
      (buf.take n).getD (j.val - va % 4096) (m.page f j) else m.page f j)
    (w := fun a => buf.getD (a - va) 0) hv hf (va % 4096) (va % 4096 + n) (by omega) ?_
  · rw [show 4096 * (va / 4096) + va % 4096 = va by omega,
      show 4096 * (va / 4096) + (va % 4096 + n) = va + n by omega] at hpatch
    exact hpatch
  intro t
  by_cases hlo : va % 4096 ≤ t.val
  · rw [if_pos hlo]
    by_cases hhi : t.val < va % 4096 + n
    · have hlt : t.val - va % 4096 < buf.length := by omega
      have htake : t.val - va % 4096 < (buf.take n).length := by
        rw [List.length_take]
        omega
      rw [if_pos ⟨hlo, hhi⟩, show 4096 * (va / 4096) + t.val - va = t.val - va % 4096 by omega,
        List.getD_eq_getElem _ _ htake, List.getD_eq_getElem _ _ hlt, List.getElem_take]
    · rw [if_neg (by omega), List.getD_eq_default]
      rw [List.length_take]
      omega
  · rw [if_neg hlo, if_neg (by omega)]

theorem CopiedOut.next (hv : va / 4096 < userPages)
    (hU : flag (m.pte D (va / 4096)) PTE_U = true) (hn : n = min (4096 - va % 4096) buf.length)
    (hpte : m1.pte D = m.pte D) (hfirst : Patched m m1 D va (va + n) fun a => buf.getD (a - va) 0)
    (h : CopiedOut m1 D ((4096 * (va / 4096) + 4096) % 2 ^ 32) (buf.drop n) m') :
    CopiedOut m D va buf m' := by
  unfold userPages at hv
  rw [show (4096 * (va / 4096) + 4096) % 2 ^ 32 = 4096 * (va / 4096) + 4096 by omega] at h
  -- if bytes are left, they start on the next page
  have hnext : n < buf.length → 4096 * (va / 4096) + 4096 = va + n := by omega
  refine ⟨?_, ?_⟩
  · intro a hlo hhi
    by_cases ha : a < va + n
    · rw [show a / 4096 = va / 4096 by omega]
      refine ⟨?_, hU⟩
      unfold KERNBASE
      omega
    · rw [← hpte]
      refine h.user a (by omega) ?_
      rw [List.length_drop]
      omega
  refine hfirst.append (h.bytes.congr ?_) ?_
  swap
  · intro a
    rw [List.length_drop]
    omega
  · intro a hlo hhi
    rw [List.length_drop] at hhi
    rw [List.getD_eq_getElem?_getD, List.getD_eq_getElem?_getD, List.getElem?_drop,
      show n + (a - (4096 * (va / 4096) + 4096)) = a - va by omega]

theorem Walked.space (hw : Walked A m D va R T m1) (h : Space A m D sz R) : Space A m1 D sz R := by
  refine ⟨hw.dir, h.size, ?_, ?_, ?_⟩
  · rw [hw.pte]
    exact h.below
  · rw [hw.pte]
    exact h.rights
  · rw [hw.pte]
    exact h.kernel

theorem Walked.same (hw : Walked A m D va R T m1) : Same m m1 D := by
  intro u hu
  have hpte := congrFun hw.pte u
  refine ⟨content_congr hpte ?_, guarded_congr hpte⟩
  intro f hf
  exact hw.keeps f (Multiset.mem_add.mpr (.inl (mem_users hu hf)))

section
variable (hw : Walked A m D (4096 * v) R T m1) (h : Space A m D sz R) (hv : v < pages sz)
include hw h hv

theorem Walked.take (habsent : flag (m.pte D v) PTE_P = false) (hfree : m1.free = f :: l) :
    Mapped A (Mem.setPage { m1 with free := l } f fun _ => 0) D v (mkPte f 7)
      ((Mem.setPage { m1 with free := l } f fun _ => 0).users D + f ::ₘ R) R
      ((Mem.setPage { m1 with free := l } f fun _ => 0).setWord T (PTX (4096 * v))
        (mkPte f 7)) := by
  have hvu : v < userPages := lt_of_lt_of_le hv (pages_le h.size)
  obtain ⟨hspace, hkeeps⟩ := (hw.space h).take (fun _ => 0) hfree
  have hown : Keeps (m1.own D) m1 _ := hkeeps.left
  obtain ⟨htable, hpte, _⟩ := hown.view
  have hpresent : Walk (Mem.setPage { m1 with free := l } f fun _ => 0) D (4096 * v) T _ :=
    Walk.refl (by rw [htable]; exact hw.table)
  have hnone : (Mem.setPage { m1 with free := l } f fun _ => 0).frameAt D v = none := by
    rw [frameAt_eq, hpte, hw.pte]
    exact entryFrame_of_flag habsent
  exact hpresent.map_user hspace.dir hvu (show 6 < 4096 by decide)
    (hspace.dir.uses.valid (by simp)) hnone

theorem Walked.alloc (habsent : flag (m.pte D v) PTE_P = false) (hfree : m1.free = f :: l) :
    Space A ((Mem.setPage { m1 with free := l } f fun _ => 0).setWord T (PTX (4096 * v))
        (mkPte f 7)) D sz R ∧
      Keeps R m ((Mem.setPage { m1 with free := l } f fun _ => 0).setWord T (PTX (4096 * v))
        (mkPte f 7)) ∧
      Same m ((Mem.setPage { m1 with free := l } f fun _ => 0).setWord T (PTX (4096 * v))
        (mkPte f 7)) D ∧
      ((Mem.setPage { m1 with free := l } f fun _ => 0).setWord T (PTX (4096 * v))
        (mkPte f 7)).frameAt D v = some f := by
  obtain ⟨hspace, hkeeps⟩ := (hw.space h).take (fun _ => 0) hfree
  have hown : Keeps (m1.own D) m1 _ := hkeeps.left
  have hmap := hw.take h hv habsent hfree
  refine ⟨hspace.map (.inl (show 6 ||| PTE_P = 7 from rfl)) hv hmap, ?_, ?_, ?_⟩
  · exact hw.keeps.right.trans (hkeeps.right.trans hmap.keeps.right.tail)
  · refine hw.same.trans (hown.same.trans (hmap.same ?_ (setPage_page_self _)))
    rw [hown.view.2.1, hw.pte]
    exact habsent
  · have hentry := hmap.pte
    rw [frameAt_eq]
    exact (congrArg entryFrame (congrFun hentry v)).trans
      (by rw [update_self]; exact entryFrame_mkPte (show 6 < 4096 by decide))

end

def Loads (m : Mem) (D a k offset filesz : Nat) (ip : File) (m' : Mem) : Prop :=
  Patched m m' D (4096 * (a + k)) (4096 * a + filesz) fun b => ip.data (offset + (b - 4096 * a))

theorem Space.readInto {a k offset filesz : Nat} (h : Space A m D sz R)
    (hv : a + k < userPages) (hf : m.frameAt D (a + k) = some f) (hn : n ≤ 4096)
    (hnext : Loads (m.readInto f ip (offset + 4096 * k) n) D a (k + 1) offset filesz ip m')
    (hend : 4096 * k + n = filesz ∨ n = 4096 ∧ 4096 * k + n ≤ filesz) :
    Loads m D a k offset filesz ip m' := by
  have hpatch := h.patch (p := fun j => if j.val < n then ip.data (offset + 4096 * k + j.val)
      else m.page f j) (w := fun b => ip.data (offset + (b - 4096 * a))) hv hf 0 n hn ?_
  · refine hpatch.append hnext ?_
    intro b
    omega
  · intro t
    by_cases ht : t.val < n
    · rw [if_pos ht, if_pos (by omega),
        show offset + (4096 * (a + k) + t.val - 4096 * a) = offset + 4096 * k + t.val by omega]
    · rw [if_neg ht, if_neg (by omega)]

theorem readi_eq_some {off cnt : Nat} (h : readi ip off n = some cnt) :
    off + n < 2 ^ 32 ∧ cnt ≤ n := by
  unfold readi at h
  by_cases hbad : ip.size < off ∨ 2 ^ 32 ≤ off + n
  · rw [if_pos hbad] at h
    cases h
  · rw [if_neg hbad] at h
    split at h
    · cases h
      omega
    · cases h
      omega

end Xv6.Vm
