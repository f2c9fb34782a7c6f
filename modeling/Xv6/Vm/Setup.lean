import Xv6.Vm.Unmap

/-!
# The kernel part of an address space

The specification of `setupkvm`: either a new directory that maps the ranges of
`kmap` and nothing below `KERNBASE`, or no change to the frames in use.  It fails
only when the free list runs empty, and then there were few free pages.
-/

namespace Xv6.Vm

open Lib Lib.Prog Multiset

variable {K : Symbols} {A : Pool K} {m m' m1 : Mem} {D v n p lo i v' n' p' u lo' x w f perm : Nat}
variable {k : Kmap} {ks : List Kmap} {R U U' : Multiset Nat} {Q : Option Nat → Mem → Prop}
variable {E : Stop → Mem → Prop}

/-- The writable part of the kernel starts at a page above its first page and below `PHYSTOP`. -/
structure Symbols.Placed (K : Symbols) : Prop where
  aligned : K.kdata % PGSIZE = 0
  above : KERNLINK < K.kdata
  below : K.kdata < KERNBASE + PHYSTOP

/-- The size that `setupkvm` passes to `mappages`. -/
def Kmap.size (k : Kmap) : Nat :=
  (k.physEnd + 2 ^ 32 - k.physStart) % 2 ^ 32

/-- An entry of `kmap`, in pages: from `v` to `v + n`, mapped to the frames from `p` on. -/
structure Kmap.Range (k : Kmap) (v n p : Nat) : Prop where
  virt : k.virt = 4096 * v
  phys : k.physStart = p * 4096
  size : k.size = 4096 * (n + 1)
  kernel : userPages ≤ v
  virt_end : v + n < 1048576
  phys_end : p + n < 1048576
  perm : k.perm < 4

def Ascending : Nat → List Kmap → Prop
  | _, [] => True
  | lo, k :: ks => ∃ v n p, k.Range v n p ∧ lo ≤ v ∧ Ascending (v + n + 1) ks

def kernelTables : Finset Nat :=
  Finset.Ico 512 568 ∪ Finset.Ico 1016 1024

/-- The frames that `setupkvm` takes: the directory and its page tables. -/
def kernelFrames : Nat :=
  65

theorem mem_kernelTables : i ∈ kernelTables ↔ 512 ≤ i ∧ i < 568 ∨ 1016 ≤ i ∧ i < 1024 := by
  simp [kernelTables]

theorem card_kernelTables : kernelTables.card = 64 := by
  decide +kernel

def Within (ks : List Kmap) : Prop :=
  ∀ k ∈ ks, ∀ v n p, k.Range v n p → ∀ i, v / 1024 ≤ i → i ≤ (v + n) / 1024 → i ∈ kernelTables

/-- An address space with page tables for the kernel only and without user access. -/
structure Fresh {K : Symbols} (A : Pool K) (m : Mem) (D : Nat) (R : Multiset Nat) : Prop where
  dir : Dir A m D R
  tables : ∀ i, (m.table D i).isSome = true → i ∈ kernelTables
  noUser : ∀ u, flag (m.pte D u) PTE_U = false

theorem Kmap.Range.unique (h : k.Range v n p) (h' : k.Range v' n' p') :
    v = v' ∧ n = n' ∧ p = p' := by
  have h1 := h.virt.symm.trans h'.virt
  have h2 := h.phys.symm.trans h'.phys
  have h3 := h.size.symm.trans h'.size
  omega

theorem Symbols.Ok.placed (hK : K.Ok) : K.Placed := by
  obtain ⟨haligned, hpos, hend, hsmall⟩ := hK
  refine ⟨haligned, hpos, ?_⟩
  unfold KERNBASE at hsmall
  unfold KERNBASE PHYSTOP
  omega

theorem kmap_ascending (hK : K.Placed) : Ascending userPages (kmap K) := by
  obtain ⟨haligned, hpos, hend⟩ := hK
  unfold PGSIZE at haligned
  unfold KERNLINK EXTMEM KERNBASE at hpos
  unfold KERNBASE PHYSTOP at hend
  -- the read-only part of the kernel ends where `data` starts
  obtain ⟨d, hd⟩ : ∃ d, K.kdata = 4096 * (524288 + 256 + d + 1) :=
    ⟨K.kdata / 4096 - 524545, by omega⟩
  refine ⟨524288, 255, 0, ⟨by decide, by decide, by decide, le_rfl, by omega, by omega, by decide⟩,
    le_rfl, ?_⟩
  refine ⟨524288 + 256, d, 256, ⟨show KERNLINK = _ by decide,
    show KERNLINK - KERNBASE = _ by decide, ?_, ?_, by omega, by omega,
    show 0 < 4 by decide⟩, by omega, ?_⟩
  · unfold Kmap.size
    simp only [hd]
    unfold KERNLINK KERNBASE EXTMEM
    omega
  · unfold userPages
    omega
  refine ⟨524288 + 256 + d + 1, 57344 - (256 + d + 1) - 1, 256 + d + 1,
    ⟨hd, ?_, ?_, ?_, by omega, by omega, show PTE_W < 4 by decide⟩, by omega, ?_⟩
  · simp only [hd]
    unfold KERNBASE
    omega
  · unfold Kmap.size
    simp only [hd]
    unfold KERNBASE PHYSTOP
    omega
  · unfold userPages
    omega
  exact ⟨1040384, 8191, 1040384, ⟨by decide, by decide, by decide, by decide, by omega, by omega,
    by decide⟩, by omega, trivial⟩

theorem kmap_within (hK : K.Placed) : Within (kmap K) := by
  obtain ⟨haligned, hpos, hend⟩ := hK
  unfold KERNLINK EXTMEM KERNBASE at hpos
  unfold KERNBASE PHYSTOP at hend
  intro k hk v n p hrange i hlo hhi
  have h1 := hrange.virt
  have h2 := hrange.size
  have h3 := hrange.virt_end
  unfold Kmap.size at h2
  unfold kmap KERNLINK DEVSPACE PHYSTOP KERNBASE EXTMEM at hk
  simp only [List.mem_cons, List.not_mem_nil, or_false] at hk
  rw [mem_kernelTables]
  rcases hk with rfl | rfl | rfl | rfl
  · simp only at h1 h2
    omega
  · simp only at h1 h2
    omega
  · simp only at h1 h2
    omega
  · simp only at h1 h2
    omega

section
variable (h : Fresh A m D R)
include h

theorem Fresh.lower (hi : i < 512) : m.table D i = none := by
  rw [← Option.not_isSome_iff_eq_none]
  intro hsome
  have := mem_kernelTables.mp (h.tables i hsome)
  omega

theorem Fresh.pte_eq_zero (hu : u < userPages) : m.pte D u = 0 := by
  have hu' : u < 524288 := hu
  exact pte_of_table_none (h.lower (by omega))

theorem Fresh.users_eq_zero : m.users D = 0 := by
  refine collect_eq_zero ?_
  intro u hu
  rw [frameAt_eq, h.pte_eq_zero hu]
  rfl

theorem Fresh.card_own_le : (m.own D).card ≤ 513 := by
  have htables : (m.tables D).card ≤ 1024 - 512 := card_collect_le fun _ hi => h.lower hi
  unfold Mem.own
  rw [h.users_eq_zero, add_zero, card_cons]
  omega

theorem Fresh.card_own_lt (hi : i ∈ kernelTables)
    (hnone : m.table D i = none) : (m.own D).card < kernelFrames := by
  have hsub : (Finset.range 1024).filter (fun i => (m.table D i).isSome = true) ⊆
      kernelTables.erase i := by
    intro j hj
    obtain ⟨_, hsome⟩ := Finset.mem_filter.mp hj
    refine Finset.mem_erase.mpr ⟨?_, h.tables j hsome⟩
    rintro rfl
    rw [hnone] at hsome
    cases hsome
  have hcard := Finset.card_le_card hsub
  rw [Finset.card_erase_of_mem hi, card_kernelTables] at hcard
  unfold Mem.own Mem.tables kernelFrames
  rw [h.users_eq_zero, add_zero, card_cons, card_collect, show NPDENTRIES = 1024 from rfl]
  omega

end

theorem Uses.card_eq (h : Uses A m (U + R)) (h' : Uses A m' (U' + R)) :
    m.free.length + U.card = m'.free.length + U'.card := by
  have heq := congrArg Multiset.card (show _ = _ from h.trans (show _ = _ from h').symm)
  simp only [card_add, coe_card] at heq
  omega

/-- What the loop of `setupkvm` has done to a directory, from page `lo` on. -/
structure KernelPart (m : Mem) (D lo : Nat) (m' : Mem) : Prop where
  extended : Extended m D m'
  tables : ∀ i, (m'.table D i).isSome = true → (m.table D i).isSome = true ∨ i ∈ kernelTables
  below : ∀ u < lo, m'.pte D u = m.pte D u
  noUser : ∀ u, flag (m.pte D u) PTE_U = false → flag (m'.pte D u) PTE_U = false

structure SetUp (m : Mem) (D lo : Nat) (ks : List Kmap) (m' : Mem) : Prop extends
    KernelPart m D lo m' where
  kernel : ∀ k ∈ ks, ∀ v n p, k.Range v n p → ∀ u, v ≤ u → u ≤ v + n →
    m'.pte D u = mkPte (p + (u - v)) (k.perm ||| PTE_P)
  oom : m'.oom = m.oom

/-- The page table for a range is missing and no frame is left. -/
structure Full (m : Mem) (D lo : Nat) (m' : Mem) : Prop extends KernelPart m D lo m' where
  oom : m.oom < m'.oom
  free : m'.free = []
  missing : ∃ i ∈ kernelTables, m'.table D i = none

theorem Ranged.kernelPart (h : Ranged m D v n p k.perm m') (hrange : k.Range v n p) (hlo : lo ≤ v)
    (htables : ∀ i, v / 1024 ≤ i → i ≤ (v + n) / 1024 → i ∈ kernelTables) :
    KernelPart m D lo m' := by
  refine ⟨h.extended, ?_, fun u hu => h.outside (by omega), h.noUser hrange.perm⟩
  intro i hi
  exact (h.tables i hi).imp_right fun hi => htables i hi.1 hi.2

theorem KernelPart.trans (h : KernelPart m D lo m1)
    (h' : KernelPart m1 D lo' m') (hlo : lo ≤ lo') : KernelPart m D lo m' := by
  refine ⟨h.extended.trans h'.extended, ?_, ?_, fun u hu => h'.noUser u (h.noUser u hu)⟩
  · intro i hi
    rcases h'.tables i hi with hi | hi
    · exact h.tables i hi
    · exact .inr hi
  · intro u hu
    rw [h'.below u (by omega), h.below u hu]

theorem setupLoop_spec (h : Extensible m D)
    (hasc : Ascending lo ks) (habsent : ∀ u, lo ≤ u → flag (m.pte D u) PTE_P = false)
    (hwithin : Within ks)
    (hfull : ∀ m1, Full m D lo m1 → wp (freevm K (some D)) (fun _ => Q none) E m1)
    (hdone : ∀ m', SetUp m D lo ks m' → Q (some D) m') : wp (setupLoop K D ks) Q E m := by
  induction ks generalizing m lo with
  | nil =>
    exact hdone m ⟨⟨Extended.refl m D, fun _ => Or.inl, fun _ _ => rfl, fun _ => id⟩, by simp, rfl⟩
  | cons k ks ih =>
    obtain ⟨v, n, p, hrange, hlo, hasc⟩ := hasc
    have htables := hwithin k (List.mem_cons_self ..) v n p hrange
    have hsize := hrange.size
    have hv := hrange.virt
    have hend := hrange.virt_end
    have hp := hrange.phys_end
    have hperm := hrange.perm
    have hva : k.virt / 4096 = v := by omega
    have hpages : wp (mappages D k.virt k.size (p * 4096) k.perm) _ _ m :=
      mappages_spec h (by omega) (by omega) (by omega) (by omega)
        (show k.virt / 4096 + n = _ by omega) fun u hu _ => habsent u (by omega)
    rw [hva] at hpages
    unfold setupLoop
    rw [wp_bind, show (k.physEnd + 2 ^ 32 - k.physStart) % 2 ^ 32 = k.size from rfl, hrange.phys]
    refine wp_mono hpages ?_ fun _ _ he => he.elim
    rintro r m1 ⟨hm1, hr⟩
    have hpart := hm1.kernelPart hrange hlo htables
    rw [wp_ite]
    rcases hr with ⟨rfl, hoom, hpte⟩ | ⟨rfl, hoom, hfree, i, hge, hle, hnone⟩
    · rw [if_neg (by omega)]
      refine ih (h.extended hm1.extended) hasc ?_ ?_ ?_ ?_
      · intro u hu
        rw [hm1.outside (Or.inr (by omega))]
        exact habsent u (by omega)
      · exact fun k' hk' => hwithin k' (List.mem_cons_of_mem _ hk')
      · intro m' hm'
        exact hfull m' ⟨hpart.trans hm'.toKernelPart (by omega), by have := hm'.oom; omega,
          hm'.free, hm'.missing⟩
      intro m' hm'
      refine hdone m' ⟨hpart.trans hm'.toKernelPart (by omega), ?_, hm'.oom.trans hoom⟩
      intro k' hk' v' n' p' hrange' u hu hu'
      rcases List.mem_cons.mp hk' with rfl | hk'
      · obtain ⟨rfl, rfl, rfl⟩ := hrange.unique hrange'
        rw [hm'.below u (by omega), hpte u hu hu', Nat.mod_eq_of_lt (by omega)]
      · exact hm'.kernel k' hk' v' n' p' hrange' u hu hu'
    · rw [if_pos (by omega)]
      refine wp_seq (hfull m1 ⟨hpart, by omega, hfree, i, htables i hge hle, hnone⟩) ?_
      exact fun _ _ hm => hm

theorem fresh_of_zero (huses : Uses A m (D ::ₘ R)) (h : m.page D = fun _ => 0) :
    Fresh A m D R ∧ m.own D = {D} := by
  have htable := table_of_zero h
  have hpte : ∀ u, m.pte D u = 0 := fun u => pte_of_table_none (htable _)
  have hown : m.own D = {D} := by
    unfold Mem.own Mem.tables Mem.users
    rw [collect_eq_zero fun i _ => htable i, collect_eq_zero]
    · rfl
    · intro u _
      rw [frameAt_eq, hpte]
      rfl
  refine ⟨⟨⟨?_, ?_⟩, ?_, ?_⟩, hown⟩
  · rw [hown, singleton_add]
    exact huses
  · intro i _ hP
    have := htable i
    unfold Mem.table at this
    rw [if_pos hP] at this
    cases this
  · intro i hi
    rw [htable] at hi
    cases hi
  · intro u
    rw [hpte, flag_zero]

theorem KernelPart.fresh (h : KernelPart m D userPages m') (hfresh : Fresh A m D R) :
    Fresh A m' D R := by
  have husers : m'.users D = m.users D := users_congr h.below
  refine ⟨h.extended.dir hfresh.dir (by rw [husers]), ?_, fun u => h.noUser u (hfresh.noUser u)⟩
  intro i hi
  exact (h.tables i hi).elim (hfresh.tables i) id

def newDir (m : Mem) (D : Nat) (l : List Nat) : Mem :=
  Mem.setPage { m with free := l } D fun _ => 0

theorem setupkvm_wp (hK : K.Placed) (hnodup : m.free.Nodup) (hsmall : ∀ f ∈ m.free, f < 1048576)
    (hnone : m.free = [] → Q none { m with oom := m.oom + 1 })
    (hfull : ∀ D l m1, m.free = D :: l → Full (newDir m D l) D userPages m1 →
      wp (freevm K (some D)) (fun _ => Q none) E m1)
    (hdone : ∀ D l m', m.free = D :: l → SetUp (newDir m D l) D userPages (kmap K) m' →
      Q (some D) m') : wp (setupkvm K) Q E m := by
  unfold setupkvm
  rw [wp_bind]
  refine wp_kalloc hnone ?_
  intro D l hfree
  have hzero : (newDir m D l).page D = fun _ => 0 := setPage_page_self _
  simp only [wp_bind, memset, wp_modify, wp_ite]
  rw [if_neg (by decide)]
  rw [hfree] at hnodup hsmall
  refine setupLoop_spec (m := newDir m D l) (extensible_of_zero hzero hnodup ?_)
    (kmap_ascending hK) ?_ (kmap_within hK) (fun m1 => hfull D l m1 hfree)
    fun m' => hdone D l m' hfree
  · exact fun f hf => hsmall f (List.mem_cons_of_mem D hf)
  · intro u _
    rw [pte_of_table_none (table_of_zero hzero _), flag_zero]

theorem setupkvm_spec (h : Uses A m R) :
    wp (setupkvm K)
      (fun r m' => (∃ D, r = some D ∧ D ∈ m.free ∧ Fresh A m' D R ∧ Keeps R m m' ∧ m'.oom = m.oom ∧
          ∀ k ∈ kmap K, ∀ v n p, k.Range v n p → ∀ u, v ≤ u → u ≤ v + n →
            m'.pte D u = mkPte (p + (u - v)) (k.perm ||| PTE_P)) ∨
        r = none ∧ Uses A m' R ∧ Keeps R m m' ∧ m.oom < m'.oom ∧ m.free.length < kernelFrames)
      (fun _ _ => False) m := by
  have hnew : ∀ D l, m.free = D :: l →
      Fresh A (newDir m D l) D R ∧ Keeps R m (newDir m D l) ∧ (newDir m D l).own D = {D} := by
    intro D l hfree
    have huses : Uses A (newDir m D l) (D ::ₘ R) := h.alloc hfree rfl
    obtain ⟨hfresh, hown⟩ := fresh_of_zero huses (setPage_page_self _)
    refine ⟨hfresh, ?_, hown⟩
    intro f hf
    refine setPage_page_of_ne (m := { m with free := l }) _ ?_
    rintro rfl
    exact h.notMem_free hf (by simp [hfree])
  refine setupkvm_wp A.ok.placed (coe_nodup.mp (nodup_add.mp h.nodup).1)
    (fun f hf => (h.valid_of_free hf).lt) ?_ ?_ ?_
  · intro hfree
    have hlen : m.free.length = 0 := by rw [hfree]; rfl
    exact .inr ⟨rfl, h, Keeps.refl _ m, Nat.lt_succ_self _, by unfold kernelFrames; omega⟩
  · intro D l m1 hfree hfull
    obtain ⟨hfresh, hkeeps, hown⟩ := hnew D l hfree
    have hfresh1 := hfull.toKernelPart.fresh hfresh
    obtain ⟨i, hi, hnone⟩ := hfull.missing
    -- a page table of the kernel is missing
    have hlt := hfresh1.card_own_lt hi hnone
    have hcard := hfresh.dir.uses.card_eq hfresh1.dir.uses
    rw [hfull.free, hown, card_singleton, List.length_nil] at hcard
    have hlen : m.free.length = (newDir m D l).free.length + 1 := by rw [hfree]; rfl
    have hoom : m.oom < m1.oom := hfull.oom
    refine wp_post (freevm_spec hfresh1.dir) ?_
    rintro _ m' ⟨huses, hkeeps', hoom'⟩
    exact .inr ⟨rfl, huses, hkeeps.trans ((hfull.extended.keeps hfresh.dir).right.trans hkeeps'),
      by omega, by omega⟩
  · intro D l m' hfree hset
    obtain ⟨hfresh, hkeeps, _⟩ := hnew D l hfree
    exact .inl ⟨D, rfl, by simp [hfree], hset.toKernelPart.fresh hfresh,
      hkeeps.trans (hset.extended.keeps hfresh.dir).right, hset.oom, hset.kernel⟩

def target (w : Nat) : Option (Nat × Nat) :=
  if flag w PTE_P then some (4096 * pteFrame w, PTE_FLAGS w) else none

/-- Looking up an address through `walkpgdir`. -/
def lookup (pgdir va : Nat) : M (Option (Nat × Nat)) := do
  match ← walkpgdir pgdir va false with
  | none => pure none
  | some pte =>
    let w ← readPte pte
    pure (target w)

/-- An address in a page of the range that `mappages` is asked to map. -/
def InPages (va size x : Nat) : Prop :=
  va / 4096 ≤ x / 4096 ∧ x / 4096 ≤ (va + size - 1) / 4096

theorem lookup_eq (hx : x < 2 ^ 32) : (lookup D x m).1 = .ok (target (m.pte D (x / 4096))) := by
  have hlook : wp (lookup D x) (fun r _ => r = target (m.pte D (x / 4096)))
      (fun _ _ => False) m := by
    unfold lookup
    rw [wp_bind, wp_walkpgdir_false, PDX_eq hx, PTX_eq]
    cases hT : m.table D (x / 4096 / 1024) with
    | none =>
      rw [pte_of_table_none hT]
      rfl
    | some T =>
      rw [pte_of_table hT]
      rfl
  obtain ⟨r, m', hrun, rfl⟩ := exists_ok hlook fun _ _ he => he
  rw [hrun]

theorem target_eq_none : target w = none ↔ flag w PTE_P = false := by
  simp [target]

theorem target_mkPte (hperm : perm < 4096) :
    target (mkPte f (perm ||| PTE_P)) = some (4096 * f, perm ||| PTE_P) := by
  have hlt := or_P_lt hperm
  unfold target
  rw [if_pos (flag_or_P hperm), pteFrame_mkPte hlt, PTE_FLAGS_mkPte hlt]

theorem Ascending.exists_range (h : Ascending lo ks) (hk : k ∈ ks) : ∃ v n p, k.Range v n p := by
  induction ks generalizing lo with
  | nil => cases hk
  | cons k' ks ih =>
    obtain ⟨v, n, p, hrange, _, h⟩ := h
    rcases List.mem_cons.mp hk with rfl | hk
    · exact ⟨v, n, p, hrange⟩
    · exact ih h hk

/-- `mappages` for any page table, range and physical address: it returns; the addresses outside the
pages of the range are translated as before, and if it returns 0 those inside are translated as
asked.  Every directory that `setupkvm` returns translates the ranges of `kmap` in the same way and
nothing below `KERNBASE`. -/
theorem mappages_maps :
    (∀ (m : Mem) (D va size pa perm : Nat), Extensible m D → 0 < size → va + size ≤ 2 ^ 32 →
      pa < 2 ^ 32 → pa % 4096 = 0 → perm < 4096 →
      (∀ x < 2 ^ 32, InPages va size x → (lookup D x m).1 = .ok none) →
      ∃ r m', mappages D va size pa perm m = (.ok r, m') ∧ (r = 0 ∨ r = -1) ∧
        (r = 0 → ∀ x < 2 ^ 32, InPages va size x → (lookup D x m').1 =
          .ok (some ((pa + (PGROUNDDOWN x - PGROUNDDOWN va)) % 2 ^ 32, perm ||| PTE_P))) ∧
        ∀ x < 2 ^ 32, ¬InPages va size x → (lookup D x m').1 = (lookup D x m).1) ∧
    ∀ (K : Symbols) (m m' : Mem) (D : Nat), K.Placed → m.free.Nodup →
      (∀ f ∈ m.free, f < 1048576) → setupkvm K m = (.ok (some D), m') →
      (∀ k ∈ kmap K, ∀ x, k.virt ≤ x → x < k.virt + k.size → (lookup D x m').1 =
        .ok (some (k.physStart + (PGROUNDDOWN x - k.virt), k.perm ||| PTE_P))) ∧
      ∀ x < KERNBASE, (lookup D x m').1 = .ok none := by
  constructor
  · intro m D va size pa perm h hsize hend hpa halign hperm habsent
    obtain ⟨p, rfl⟩ : ∃ p, pa = p * 4096 := ⟨pa / 4096, by omega⟩
    obtain ⟨n, hn⟩ : ∃ n, va / 4096 + n = (va + size - 1) / 4096 :=
      ⟨(va + size - 1) / 4096 - va / 4096, by omega⟩
    have habsent' : ∀ u, va / 4096 ≤ u → u ≤ va / 4096 + n → flag (m.pte D u) PTE_P = false := by
      intro u hlo hhi
      have hx := habsent (4096 * u) (by omega) ⟨by omega, by omega⟩
      rw [lookup_eq (by omega), Nat.mul_div_cancel_left u (by decide)] at hx
      exact target_eq_none.mp (Except.ok.inj hx)
    have hp : p < 1048576 := by omega
    obtain ⟨r, m', hrun, hranged, hres⟩ :=
      exists_ok (mappages_spec h hsize hend hp hperm hn habsent') fun _ _ he => he
    refine ⟨r, m', hrun, hres.imp (fun hr => hr.1) fun hr => hr.1, ?_, ?_⟩
    · intro hr x hx hin
      obtain ⟨hlo, hhi⟩ := hin
      rcases hres with ⟨_, _, hpte⟩ | ⟨hr', _⟩
      · rw [lookup_eq hx, hpte _ hlo (by omega), target_mkPte hperm]
        unfold PGROUNDDOWN
        rw [show 4096 * ((p + (x / 4096 - va / 4096)) % 1048576) =
          (p * 4096 + (x / 4096 * 4096 - va / 4096 * 4096)) % 2 ^ 32 by omega]
      · omega
    · intro x hx hout
      unfold InPages at hout
      rw [lookup_eq hx, lookup_eq hx, hranged.outside (by omega)]
  intro K m m' D hK hnodup hsmall hrun
  have hset : wp (setupkvm K) (fun r m' => ∀ D, r = some D → ∃ l,
      SetUp (newDir m D l) D userPages (kmap K) m') (fun _ _ => True) m := by
    refine setupkvm_wp hK hnodup hsmall (fun _ => nofun) ?_ ?_
    · intro D l m1 _ _
      exact wp_mono (wp_true _) (fun _ _ _ => nofun) fun _ _ _ => trivial
    · rintro D l m' _ hset _ ⟨⟩
      exact ⟨l, hset⟩
  obtain ⟨l, hset⟩ := wp_ok hset hrun D rfl
  constructor
  · intro k hk x hlo hhi
    obtain ⟨v, n, p, hrange⟩ := (kmap_ascending hK).exists_range hk
    have hv := hrange.virt
    have hsize := hrange.size
    have hend := hrange.virt_end
    rw [lookup_eq (by omega), hset.kernel k hk v n p hrange _ (by omega) (by omega),
      target_mkPte (lt_trans hrange.perm (by decide)), hrange.phys]
    unfold PGROUNDDOWN
    rw [show 4096 * (p + (x / 4096 - v)) = p * 4096 + (x / 4096 * 4096 - k.virt) by omega]
  · intro x hx
    unfold KERNBASE at hx
    have htable := table_of_zero (m := newDir m D l) (D := D) (setPage_page_self _)
    rw [lookup_eq (by omega), hset.below _ (by unfold userPages; omega),
      pte_of_table_none (htable _)]
    rfl

/-- The last page is mapped, and `setupkvm` gets as many pages as it needs. -/
theorem mappages_maps_zeros :
    (∃ r m', mappages 1 (2 ^ 32 - 4096) 4096 0 2 ⟨fun _ _ => 0, [2], 0⟩ = (.ok r, m') ∧
      (r = 0 ∨ r = -1)) ∧
    ∃ m D m', setupkvm ⟨KERNLINK + 32768, KERNBASE + 0x400000⟩ m = (.ok (some D), m') ∧
      ∀ x < KERNBASE, (lookup D x m').1 = .ok none := by
  constructor
  · obtain ⟨r, m', hrun, hr, _⟩ := mappages_maps.1 ⟨fun _ _ => 0, [2], 0⟩ 1 (2 ^ 32 - 4096) 4096 0 2
      (extensible_of_zero rfl (by decide) (by decide)) (by decide) (by decide) (by decide) rfl
      (by decide) fun x hx _ => by rw [lookup_eq hx, pte_of_table_none (table_of_zero rfl _)]; rfl
    exact ⟨r, m', hrun, hr⟩
  have hok : Symbols.Ok ⟨KERNLINK + 32768, KERNBASE + 0x400000⟩ := by constructor <;> decide
  obtain ⟨l, hnodup, hvalid, hlen⟩ : ∃ l : List Nat, l.Nodup ∧
      (∀ f ∈ l, Symbols.Valid ⟨KERNLINK + 32768, KERNBASE + 0x400000⟩ f) ∧ l.length = 65 :=
    ⟨List.range' 1024 65, List.nodup_range', by decide, rfl⟩
  have hspec := setupkvm_spec (A := ⟨hok, l, coe_nodup.mpr hnodup, hvalid⟩) (R := 0)
    (m := ⟨fun _ _ => 0, l, 0⟩) (add_zero _)
  obtain ⟨r, m', hrun, hr⟩ := exists_ok hspec fun _ _ he => he
  rcases hr with ⟨D, rfl, _⟩ | ⟨_, _, _, _, hshort⟩
  · exact ⟨_, D, m', hrun,
      (mappages_maps.2 _ _ m' D hok.placed hnodup (fun f hf => (hvalid f hf).lt) hrun).2⟩
  · exact absurd (hlen ▸ hshort) (by decide)

end Xv6.Vm
