import Xv6.Vm.Image

/-!
# The image of a program

What `exec` builds.  Each LOAD segment overwrites what the segments before it have
left, so a byte comes from the last segment that covers it.  The argument strings,
the array of pointers to them and the first frame lie on one page: `copyout` refuses
the page below it, whose user bit has been cleared, and no string is long enough to
step over that page without touching it.
-/

namespace Xv6.Vm

open Lib Lib.Prog List

variable {K : Symbols} {A : Pool K} {m m1 m' m2 : Mem}
variable {D sz off n a g va i sp sp' esp sz' sz1 j len lo sp1 p : Nat} {R : Multiset Nat}
variable {ip : File} {old : UInt8} {segs segs' : List Proghdr} {ws qs : List Nat}
variable {buf arg : List UInt8} {argv : List (List UInt8)} {elf : Elfhdr} {img : Image}

def File.segments (ip : File) (off n : Nat) : List Proghdr :=
  ((List.range' off n proghdrSize).map ip.proghdr).filter fun ph => ph.type = ELF_PROG_LOAD

def topOf : List Proghdr → Nat
  | [] => 0
  | ph :: segs => max (ph.vaddr + ph.memsz) (topOf segs)

def Proghdr.Covers (ph : Proghdr) (a : Nat) : Prop :=
  ph.vaddr ≤ a ∧ a < ph.vaddr + ph.filesz

instance (ph : Proghdr) (a : Nat) : Decidable (ph.Covers a) :=
  inferInstanceAs (Decidable (_ ∧ _))

def File.prescribed (ip : File) (a : Nat) (old : UInt8) (segs : List Proghdr) : UInt8 :=
  match (segs.filter fun ph => ph.Covers a).getLast? with
  | none => old
  | some ph => ip.data (ph.off + (a - ph.vaddr))

theorem segments_one (ip : File) (off : Nat) :
    ip.segments off 1 =
      if (ip.proghdr off).type = ELF_PROG_LOAD then [ip.proghdr off] else [] := by
  unfold File.segments
  rw [List.range'_one, map_singleton, filter_singleton]
  simp

theorem segments_succ (ip : File) (off n : Nat) :
    ip.segments off (n + 1) = ip.segments off 1 ++ ip.segments (off + proghdrSize) n := by
  unfold File.segments
  rw [← filter_append, ← map_append, List.range'_one, List.range'_succ, singleton_append]

theorem topOf_append (segs segs' : List Proghdr) :
    topOf (segs ++ segs') = max (topOf segs) (topOf segs') := by
  induction segs with
  | nil =>
    rw [nil_append]
    exact (Nat.zero_max _).symm
  | cons ph segs ih =>
    simp only [cons_append, topOf]
    rw [ih, Nat.max_assoc]

theorem prescribed_append (ip : File) (a : Nat) (old : UInt8) (segs segs' : List Proghdr) :
    ip.prescribed a old (segs ++ segs') = ip.prescribed a (ip.prescribed a old segs) segs' := by
  unfold File.prescribed
  rw [filter_append, List.getLast?_append]
  cases (segs'.filter fun ph => ph.Covers a).getLast? with
  | none => rw [Option.none_or]
  | some ph => rw [Option.some_or]

theorem prescribed_one (ip : File) (ph : Proghdr) (a : Nat) (old : UInt8) :
    ip.prescribed a old [ph] =
      if ph.vaddr ≤ a ∧ a < ph.vaddr + ph.filesz then
        ip.data (ph.off + (a - ph.vaddr)) else old := by
  unfold File.prescribed
  rw [filter_singleton]
  by_cases h : ph.vaddr ≤ a ∧ a < ph.vaddr + ph.filesz
  · have hc : ph.Covers a := h
    simp [hc, h]
  · have hc : ¬ph.Covers a := h
    simp [hc, h]

/-- The address space while the segments are loaded, and the size if the loop goes on. -/
structure Loading (A : Pool K) (m : Mem) (D : Nat) (R : Multiset Nat) (ip : File)
    (segs : List Proghdr) (sz : Nat) (r : Option Nat) (m' : Mem) : Prop where
  space : ∃ sz', Space A m' D sz' R ∧ (r = none ∨ r = some sz')
  keeps : Keeps R m m'
  image : ∀ sz', r = some sz' → sz' = max sz (topOf segs) ∧
    ∀ a < KERNBASE, m'.byte D a = ip.prescribed a (m.byte D a) segs

theorem Loading.bad (h : Space A m' D sz' R)
    (hkeeps : Keeps R m m') : Loading A m D R ip segs sz none m' :=
  ⟨⟨sz', h, .inl rfl⟩, hkeeps, by simp⟩

theorem Loading.none (ip : File) (h : Space A m D sz R) :
    Loading A m D R ip [] sz (some sz) m where
  space := ⟨sz, h, .inr rfl⟩
  keeps := Keeps.refl _ m
  image := by
    rintro sz' ⟨⟩
    exact ⟨(Nat.max_zero _).symm, fun _ _ => rfl⟩

theorem Loading.append {r : Option Nat}
    (h : Loading A m D R ip segs sz (some sz1) m1) (h' : Loading A m1 D R ip segs' sz1 r m') :
    Loading A m D R ip (segs ++ segs') sz r m' where
  space := h'.space
  keeps := h.keeps.trans h'.keeps
  image := by
    intro sz' hr
    obtain ⟨hsz1, hbytes1⟩ := h.image sz1 rfl
    obtain ⟨hsz', hbytes'⟩ := h'.image sz' hr
    refine ⟨?_, ?_⟩
    · rw [hsz', hsz1, topOf_append, Nat.max_assoc]
    · intro a ha
      rw [hbytes' a ha, hbytes1 a ha, prescribed_append]

theorem File.u32_lt (ip : File) (off : Nat) : ip.u32 off < 2 ^ 32 := by
  have hbyte : ∀ i, (ip.data i).toNat < 256 := fun i => UInt8.toNat_lt _
  have h0 := hbyte off
  have h1 := hbyte (off + 1)
  have h2 := hbyte (off + 2)
  have h3 := hbyte (off + 2 + 1)
  unfold File.u32 File.u16
  omega

def Mem.uint (m : Mem) (D a : Nat) : Nat :=
  (m.byte D a).toNat + 256 * (m.byte D (a + 1)).toNat + 65536 * (m.byte D (a + 2)).toNat +
    16777216 * (m.byte D (a + 3)).toNat

def Mem.Holds (m : Mem) (D a : Nat) (bytes : List UInt8) : Prop :=
  ∀ i < bytes.length, m.byte D (a + i) = bytes.getD i 0

theorem length_flatMap_wordBytes (ws : List Nat) :
    (ws.flatMap wordBytes).length = 4 * ws.length := by
  induction ws with
  | nil => rfl
  | cons w ws ih =>
    rw [flatMap_cons, length_append, ih, length_cons]
    simp only [wordBytes, length_cons, length_nil]
    omega

theorem getD_flatMap_wordBytes (hi : i < ws.length) (hj : j < 4) :
    (ws.flatMap wordBytes).getD (4 * i + j) 0 = (wordBytes (ws.getD i 0)).getD j 0 := by
  induction ws generalizing i with
  | nil => cases hi
  | cons w ws ih =>
    have hlen : (wordBytes w).length = 4 := rfl
    rw [flatMap_cons]
    cases i with
    | zero => rw [getD_append _ _ _ _ (by omega), getD_cons_zero, Nat.mul_zero, Nat.zero_add]
    | succ i =>
      rw [getD_append_right _ _ _ _ (by omega), hlen, getD_cons_succ,
        show 4 * (i + 1) + j - 4 = 4 * i + j by omega]
      exact ih (Nat.lt_of_succ_lt_succ hi)

theorem Mem.Holds.uint
    (h : m.Holds D a (ws.flatMap wordBytes)) (hi : i < ws.length) (hw : ws.getD i 0 < 2 ^ 32) :
    m.uint D (a + 4 * i) = ws.getD i 0 := by
  have hbyte : ∀ j < 4, m.byte D (a + 4 * i + j) = (wordBytes (ws.getD i 0)).getD j 0 := by
    intro j hj
    have hlt : 4 * i + j < (ws.flatMap wordBytes).length := by
      rw [length_flatMap_wordBytes]
      omega
    rw [Nat.add_assoc, h _ hlt, getD_flatMap_wordBytes hi hj]
  have h0 := hbyte 0 (by decide)
  rw [Nat.add_zero] at h0
  unfold Mem.uint
  rw [h0, hbyte 1 (by decide), hbyte 2 (by decide), hbyte 3 (by decide)]
  generalize ws.getD i 0 = w at hw
  simp only [wordBytes, getD_cons_zero, getD_cons_succ, UInt8.toNat_ofNat']
  omega

theorem CopiedOut.holds (h : CopiedOut m D va buf m') : m'.Holds D va buf := by
  intro i hi
  have hlt := (h.user (va + i) (by omega) (by omega)).1
  rw [h.bytes _ hlt, if_pos (by omega)]
  simp only [Nat.add_sub_cancel_left]

theorem Mem.Holds.keep {bytes : List UInt8} (h : m.Holds D a bytes)
    (hkeep : ∀ b, a ≤ b → b < a + bytes.length → m'.byte D b = m.byte D b) :
    m'.Holds D a bytes := by
  intro i hi
  rw [hkeep (a + i) (by omega) (by omega)]
  exact h i hi

theorem CopiedOut.above_guard (h : CopiedOut m D va buf m')
    (hguard : flag (m.pte D g) PTE_U = false) (hlast : 4096 * g < va + buf.length)
    (hpos : 0 < buf.length) : 4096 * (g + 1) ≤ va := by
  by_contra hlt
  -- the first byte on the guard page or above it
  obtain ⟨_, hU⟩ := h.user (max va (4096 * g)) (by omega) (by omega)
  rw [show max va (4096 * g) / 4096 = g by omega, hguard] at hU
  cases hU

theorem CopiedOut.pushed (h : CopiedOut m D ((sp + 2 ^ 32 - len % 2 ^ 32) % 2 ^ 32 / 4 * 4) buf m')
    (hlen : buf.length = len) (hpos : 0 < len) (hguard : flag (m.pte D g) PTE_U = false)
    (hlo : 4096 * (g + 1) ≤ sp) (hhi : sp ≤ KERNBASE) :
    4096 * (g + 1) ≤ (sp + 2 ^ 32 - len % 2 ^ 32) % 2 ^ 32 / 4 * 4 ∧
      (sp + 2 ^ 32 - len % 2 ^ 32) % 2 ^ 32 / 4 * 4 + len ≤ sp ∧
      sp < (sp + 2 ^ 32 - len % 2 ^ 32) % 2 ^ 32 / 4 * 4 + len + 4 := by
  generalize hva : (sp + 2 ^ 32 - len % 2 ^ 32) % 2 ^ 32 / 4 * 4 = va at h
  have hlast := (h.user (va + len - 1) (by omega) (by omega)).1
  unfold KERNBASE at hhi hlast
  have hle : len ≤ sp := by omega
  have hsp : va = (sp - len) / 4 * 4 := by omega
  exact ⟨h.above_guard hguard (by omega) (by omega), by omega, by omega⟩

structure Pushed (m : Mem) (D lo sp : Nat) (argv : List (List UInt8)) (qs : List Nat) (sp' : Nat)
    (m' : Mem) : Prop where
  low : lo ≤ sp'
  high : sp' ≤ sp
  aligned : sp' % 4 = 0
  strings : List.Forall₂ (fun q arg => m'.Holds D q (arg ++ [0]) ∧ sp' ≤ q ∧
    q + arg.length + 1 ≤ sp) qs argv
  others : ∀ a < KERNBASE, a < sp' ∨ sp ≤ a → m'.byte D a = m.byte D a

theorem Pushed.cons
    (hcopied : CopiedOut m D sp1 (arg ++ [0]) m1) (hsp1 : sp1 + (arg.length + 1) ≤ sp)
    (hsp : sp ≤ KERNBASE) (h : Pushed m1 D lo sp1 argv qs sp' m') :
    Pushed m D lo sp (arg :: argv) (sp1 :: qs) sp' m' where
  low := h.low
  high := by
    have := h.high
    omega
  aligned := h.aligned
  strings := by
    refine List.Forall₂.cons ⟨?_, h.high, by omega⟩ (h.strings.imp ?_)
    · refine hcopied.holds.keep ?_
      intro b hlo hhi
      rw [length_append, length_singleton] at hhi
      exact h.others b (by omega) (.inr hlo)
    · rintro q arg' ⟨hholds, hlo, hhi⟩
      exact ⟨hholds, hlo, by omega⟩
  others := by
    intro a ha hout
    have hhigh := h.high
    rw [h.others a ha (by omega), hcopied.bytes a ha, if_neg]
    rw [length_append, length_singleton]
    omega

structure StackPage (m : Mem) (D sz esp : Nat) (argv : List (List UInt8)) : Prop where
  frame : sz - 4096 ≤ esp ∧ esp + 12 ≤ sz
  ret : m.uint D esp = 0xffffffff
  argc : m.uint D (esp + 4) = argv.length
  array : sz - 4096 ≤ m.uint D (esp + 8) ∧ m.uint D (esp + 8) + 4 * (argv.length + 1) ≤ sz
  string : ∀ i < argv.length,
    m.Holds D (m.uint D (m.uint D (esp + 8) + 4 * i)) (argv.getD i [] ++ [0]) ∧
    sz - 4096 ≤ m.uint D (m.uint D (esp + 8) + 4 * i) ∧
    m.uint D (m.uint D (esp + 8) + 4 * i) + (argv.getD i []).length + 1 ≤ sz
  null : m.uint D (m.uint D (esp + 8) + 4 * argv.length) = 0

theorem length_ustack (sp : Nat) (ptrs : List Nat) :
    ((ustack sp ptrs).flatMap wordBytes).length = (3 + ptrs.length + 1) * 4 := by
  rw [length_flatMap_wordBytes, ustack]
  simp only [length_append, length_cons, length_nil]
  omega

structure UstackWords (m : Mem) (D esp : Nat) (qs : List Nat) : Prop where
  ret : m.uint D esp = 0xffffffff
  argc : m.uint D (esp + 4) = qs.length
  array : m.uint D (esp + 8) = esp + 12
  ptr : ∀ i < qs.length, m.uint D (esp + 12 + 4 * i) = qs.getD i 0
  null : m.uint D (esp + 12 + 4 * qs.length) = 0

theorem ustackWords_of_holds (h : m.Holds D esp ((ustack sp qs).flatMap wordBytes))
    (hesp : sp = esp + (3 + qs.length + 1) * 4) (hsp : sp < 2 ^ 32) (hqs : ∀ q ∈ qs, q < 2 ^ 32) :
    UstackWords m D esp qs := by
  have harray : (sp + 2 ^ 32 - (qs.length + 1) * 4) % 2 ^ 32 = esp + 12 := by omega
  have hwords : ustack sp qs = 0xffffffff :: qs.length :: (esp + 12) :: (qs ++ [0]) := by
    unfold ustack
    rw [harray]
    simp
  have hlength : (ustack sp qs).length = qs.length + 4 := by
    rw [hwords]
    simp
  -- the word with a given index
  have hword : ∀ i w, i < qs.length + 4 → (ustack sp qs).getD i 0 = w → w < 2 ^ 32 →
      m.uint D (esp + 4 * i) = w := by
    intro i w hi hw hlt
    rw [← hw] at hlt ⊢
    exact h.uint (by omega) hlt
  have hget : ∀ i, (ustack sp qs).getD (i + 3) 0 = (qs ++ [0]).getD i 0 := by
    intro i
    rw [hwords, getD_cons_succ, getD_cons_succ, getD_cons_succ]
  refine ⟨hword 0 _ (by omega) (by rw [hwords, getD_cons_zero]) (by omega),
    hword 1 _ (by omega) (by rw [hwords, getD_cons_succ, getD_cons_zero]) (by omega),
    hword 2 _ (by omega) (by
      rw [hwords, getD_cons_succ, getD_cons_succ, getD_cons_zero]) (by omega), ?_, ?_⟩
  · intro i hi
    rw [show esp + 12 + 4 * i = esp + 4 * (i + 3) by omega]
    refine hword (i + 3) _ (by omega) ?_ ?_
    · rw [hget, getD_append _ _ _ _ hi]
    · rw [getD_eq_getElem _ _ hi]
      exact hqs _ (getElem_mem hi)
  · rw [show esp + 12 + 4 * qs.length = esp + 4 * (qs.length + 3) by omega]
    refine hword (qs.length + 3) 0 (by omega) ?_ (by omega)
    rw [hget, getD_append_right _ _ _ _ (le_refl _), Nat.sub_self, getD_cons_zero]

theorem Pushed.stackPage
    (h : Pushed m D (4096 * (g + 1)) sp argv qs sp' m1) (hsp : sp = 4096 * (g + 1) + 4096)
    (hKB : sp ≤ KERNBASE) (hesp : sp' = esp + (3 + qs.length + 1) * 4) (hlo : 4096 * (g + 1) ≤ esp)
    (hcopied : CopiedOut m1 D esp ((ustack sp' qs).flatMap wordBytes) m') :
    StackPage m' D sp esp argv := by
  have hhigh := h.high
  have hlen : qs.length = argv.length := h.strings.length_eq
  unfold KERNBASE at hKB
  have hstring : ∀ i < argv.length, m'.Holds D (qs.getD i 0) (argv.getD i [] ++ [0]) ∧
      sp' ≤ qs.getD i 0 ∧ qs.getD i 0 + (argv.getD i []).length + 1 ≤ sp := by
    intro i hi
    obtain ⟨hholds, h1, h2⟩ := (forall₂_iff_get.mp h.strings).2 i (by omega) hi
    rw [getD_eq_getElem _ _ (show i < qs.length by omega), getD_eq_getElem _ _ hi]
    refine ⟨hholds.keep ?_, h1, h2⟩
    intro b hlo hhi
    rw [length_append, length_singleton] at hhi
    rw [hcopied.bytes b (by unfold KERNBASE; omega), if_neg]
    rw [length_ustack]
    omega
  have hqs : ∀ q ∈ qs, q < 2 ^ 32 := by
    intro q hq
    obtain ⟨i, hi, rfl⟩ := getElem_of_mem hq
    have hs := hstring i (by omega)
    rw [getD_eq_getElem _ _ hi] at hs
    omega
  have hwords := ustackWords_of_holds hcopied.holds hesp (by omega) hqs
  refine ⟨by omega, hwords.ret, hlen ▸ hwords.argc, ?_, ?_, ?_⟩
  · rw [hwords.array]
    omega
  · intro i hi
    rw [hwords.array, hwords.ptr i (by omega)]
    obtain ⟨h1, h2, h3⟩ := hstring i hi
    exact ⟨h1, by omega, h3⟩
  · rw [hwords.array, ← hlen]
    exact hwords.null

def Building (A : Pool K) (m : Mem) (D : Nat) (R : Multiset Nat) (r : Option Image) (m' : Mem) :
    Prop :=
  (∃ sz, Space A m' D sz R ∧ ∀ img, r = some img → img.pgdir = D ∧ img.sz = sz) ∧ Keeps R m m'

structure Stacked (m : Mem) (D top entry : Nat) (argv : List (List UInt8)) (img : Image)
    (m' : Mem) :
    Prop where
  sz : img.sz = top + 8192
  eip : img.eip = entry
  below : ∀ a < top, m'.byte D a = m.byte D a
  guard : flag (m'.pte D (top / 4096)) PTE_U = false
  present : Eager top (top + 8192) → flag (m'.pte D (top / 4096)) PTE_P = true
  stack : StackPage m' D img.sz img.esp argv

theorem Pushed.stacked {top entry : Nat}
    (h : Pushed m2 D (4096 * (p + 1)) sp argv qs sp' m1) (htop : top = 4096 * p)
    (hsp : sp = top + 8192) (hKB : sp ≤ KERNBASE)
    (hesp : esp = (sp' + 2 ^ 32 - (3 + qs.length + 1) * 4) % 2 ^ 32)
    (hsame : ∀ a < top, m2.byte D a = m.byte D a) (hguard : flag (m1.pte D p) PTE_U = false)
    (hpresent : Eager top (top + 8192) → flag (m1.pte D p) PTE_P = true)
    (hpte : m'.pte D = m1.pte D)
    (hcopied : CopiedOut m1 D esp ((ustack sp' qs).flatMap wordBytes) m') :
    Stacked m D top entry argv { pgdir := D, sz := sp, eip := entry, esp := esp } m' := by
  have hlow := h.low
  have hhigh := h.high
  have haligned := h.aligned
  have hlen := length_ustack sp' qs
  have hlast := (hcopied.user (esp + (3 + qs.length + 1) * 4 - 1) (by omega) (by omega)).1
  have hKB' := hKB
  unfold KERNBASE at hKB' hlast
  have hlo := hcopied.above_guard hguard (by omega) (by omega)
  have hstack : StackPage m' D sp esp argv := h.stackPage (by omega) hKB (by omega) hlo hcopied
  have hpage : m'.pte D (top / 4096) = m1.pte D p := by
    rw [hpte, htop, Nat.mul_div_cancel_left _ (by decide)]
  refine ⟨hsp, rfl, ?_, hpage ▸ hguard, hpage ▸ hpresent, hstack⟩
  intro a ha
  have hlt : a < KERNBASE := by omega
  rw [hcopied.bytes a hlt, if_neg (by omega), h.others a hlt (by omega), hsame a ha]

/-- The image of a file with the ELF header `elf`, ready to run. -/
structure Ready (m : Mem) (ip : File) (elf : Elfhdr) (argv : List (List UInt8)) (img : Image) :
    Prop where
  sz : img.sz = PGROUNDUP (topOf (ip.segments elf.phoff elf.phnum)) + 8192
  eip : img.eip = elf.entry
  bytes : ∀ a < PGROUNDUP (topOf (ip.segments elf.phoff elf.phnum)), m.byte img.pgdir a =
    ip.prescribed a 0 (ip.segments elf.phoff elf.phnum)
  above : ∀ u < userPages, img.sz ≤ 4096 * u → flag (m.pte img.pgdir u) PTE_P = false
  guard : flag (m.pte img.pgdir ((img.sz - 2 * 4096) / 4096)) PTE_U = false
  stack : StackPage m img.pgdir img.sz img.esp argv

theorem uint_congr (h : Same m m' D) (ha : a + 4 ≤ KERNBASE) : m'.uint D a = m.uint D a := by
  unfold Mem.uint
  rw [h.byte (by omega), h.byte (show a + 1 < KERNBASE by omega),
    h.byte (show a + 2 < KERNBASE by omega), h.byte (show a + 3 < KERNBASE by omega)]

theorem StackPage.congr {sz : Nat} (h : StackPage m D sz esp argv)
    (hsame : Same m m' D) (hsz : sz ≤ KERNBASE) : StackPage m' D sz esp argv := by
  have hframe := h.frame
  have harray := h.array
  have hret := uint_congr (a := esp) hsame (by omega)
  have hargc := uint_congr (a := esp + 4) hsame (by omega)
  have harr := uint_congr (a := esp + 8) hsame (by omega)
  have hptr : ∀ i ≤ argv.length,
      m'.uint D (m.uint D (esp + 8) + 4 * i) = m.uint D (m.uint D (esp + 8) + 4 * i) :=
    fun i hi => uint_congr hsame (by omega)
  refine ⟨hframe, hret.trans h.ret, hargc.trans h.argc, ?_, ?_, ?_⟩
  · rw [harr]
    exact harray
  · intro i hi
    rw [harr, hptr i (le_of_lt hi)]
    obtain ⟨hholds, hin⟩ := h.string i hi
    refine ⟨hholds.keep ?_, hin⟩
    intro b hlo hhi
    rw [length_append, length_singleton] at hhi
    exact hsame.byte (by omega)
  · rw [harr, hptr _ le_rfl]
    exact h.null

theorem Ready.congr (h : Ready m ip elf argv img) (hkeeps : Keeps (m.own img.pgdir) m m')
    (hsz : img.sz ≤ KERNBASE) : Ready m' ip elf argv img := by
  have hsame := hkeeps.same
  have hpte := hkeeps.view.2.1
  have hsum := h.sz
  refine ⟨hsum, h.eip, ?_, ?_, ?_, h.stack.congr hsame hsz⟩
  · intro a ha
    rw [hsame.byte (by omega)]
    exact h.bytes a ha
  · rw [hpte]
    exact h.above
  · rw [hpte]
    exact h.guard

theorem Loading.ready (h : Space A m D 0 R)
    (hload : Loading A m D R ip (ip.segments elf.phoff elf.phnum) 0 (some sz) m1)
    (hstack : Stacked m1 D (PGROUNDUP sz) elf.entry argv img m') (hspace : Space A m' D img.sz R)
    (hD : img.pgdir = D) : Ready m' ip elf argv img := by
  obtain ⟨hsz, hbytes⟩ := hload.image sz rfl
  rw [Nat.zero_max] at hsz
  subst hsz hD
  have hsize := hspace.size
  have hsum := hstack.sz
  refine ⟨hsum, hstack.eip, ?_, ?_, ?_, hstack.stack⟩
  · intro a ha
    have hlt : a < KERNBASE := by omega
    have hzero : m.byte img.pgdir a = 0 := by
      unfold Mem.byte
      rw [content_of_absent (h.absent (div_lt_userPages hlt) (Nat.zero_le _))]
      unfold getByte
      split
      · rfl
      · rfl
    rw [hstack.below a ha, hbytes a hlt, hzero]
  · intro u hu hle
    refine hspace.absent hu ?_
    unfold pages
    omega
  · rw [hsum, Nat.add_sub_cancel]
    exact hstack.guard

theorem exec_eq_some (h : exec K ip argv m = (.ok (some img), m')) :
    ∃ pgdir m1 sz m2, setupkvm K m = (.ok (some pgdir), m1) ∧
      loadSegments K pgdir ip ip.elfhdr.phnum ip.elfhdr.phoff 0 m1 = (.ok (some sz), m2) ∧
      buildStack K pgdir ip.elfhdr.entry argv (PGROUNDUP sz) m2 = (.ok (some img), m') := by
  unfold exec at h
  split at h
  · cases h
  split at h
  · cases h
  obtain ⟨pgdir, m1, hsetup, h⟩ := bind_eq_ok h
  cases pgdir with
  | none => cases h
  | some pgdir =>
    obtain ⟨r, m3, hbuild, h⟩ := bind_eq_ok h
    cases r with
    | none =>
      obtain ⟨_, _, _, h⟩ := bind_eq_ok h
      cases h
    | some img' =>
      cases h
      unfold buildImage at hbuild
      obtain ⟨sz, m2, hload, hstack⟩ := bind_eq_ok hbuild
      cases sz with
      | none => cases hstack
      | some sz => exact ⟨pgdir, m1, sz, m2, hsetup, hload, hstack⟩

end Xv6.Vm
