import Xv6.Log.LogInv

/-!
# The writes of the log

Which blocks `commit` and `recover_from_log` write, in which order and with which
contents.
-/

namespace Xv6.Log

open Lib Lib.Prog Function

variable {L : LogState} {pre d : Disk} {new : Addr → Option Block} {s t : State} {tail : Nat}
variable {c head : Block} {k : Addr}

/-- A header that fits in the log and names blocks outside it. -/
structure Fits (L : LogState) : Prop where
  dev : L.dev ≠ 0
  nonneg : 0 ≤ L.lh.n
  max : L.lh.n ≤ LOGSIZE
  room : L.lh.n < L.size
  word : ∀ tail < L.lh.n.toNat, L.lh.block tail < 2 ^ 32
  away : ∀ tail < L.lh.n.toNat, ¬Region L.toLayout (homeBlock L tail)

theorem Fits.region_headBlock (hL : Fits L) : Region L.toLayout (headBlock L.toLayout) := by
  have h1 := hL.nonneg
  have h2 := hL.room
  exact ⟨rfl, le_rfl, by simp only [headBlock]; omega⟩

theorem Fits.region_logBlock (hL : Fits L) (htail : tail < L.lh.n.toNat) :
    Region L.toLayout (logBlock L.toLayout tail) := by
  have h2 := hL.room
  refine ⟨rfl, ?_, ?_⟩
  · simp only [logBlock]
    omega
  · simp only [logBlock]
    omega

theorem logBlock_ne_headBlock : logBlock L.toLayout tail ≠ headBlock L.toLayout := by
  intro h
  simp only [logBlock, headBlock, Prod.mk.injEq] at h
  omega

theorem logBlock_injective : Injective (logBlock L.toLayout) := by
  intro i j h
  simp only [logBlock, Prod.mk.injEq] at h
  omega

section
variable (hL : Fits L) (htail : tail < L.lh.n.toNat) (h : Inv L pre new s)
include hL htail h

theorem installOne_spec :
    wp (installOne tail)
      (fun _ u => Wrote L pre new (homeBlock L tail) (s.disk (logBlock L.toLayout tail)) s u)
      (fun _ u => u.trace = s.trace ∧ ¬Calm s) s := by
  have hreg := hL.region_logBlock htail
  have hkl : logBlock L.toLayout tail ≠ homeBlock L tail := by
    intro heq
    exact hL.away tail htail (heq ▸ hreg)
  unfold installOne
  rw [wp_bind, wp_get, h.log]
  refine wp_bread_bread h (k := logBlock L.toLayout tail) (l := homeBlock L tail) hL.dev hL.dev
    hkl ?_
  intro lbuf dbuf u hu hheld
  have hdata : (u.buf lbuf).data = s.disk (logBlock L.toLayout tail) := by
    have := (hu.region lbuf (by rw [hheld.key_fst]; exact hreg) hheld.valid_fst).2
    rwa [hheld.key_fst, hheld.disk] at this
  rw [wp_bind, wp_get, hdata]
  exact wp_store_release hu hheld.symm hL.dev

theorem writeOne_spec (hc : new (homeBlock L tail) = some c) :
    wp (writeOne tail)
      (fun _ u => Wrote L pre new (logBlock L.toLayout tail) c s u)
      (fun _ u => u.trace = s.trace ∧ ¬Calm s) s := by
  have hreg := hL.region_logBlock htail
  have hkl : logBlock L.toLayout tail ≠ homeBlock L tail := by
    intro heq
    exact hL.away tail htail (heq ▸ hreg)
  unfold writeOne
  rw [wp_bind, wp_get, h.log]
  refine wp_bread_bread h (k := logBlock L.toLayout tail) (l := homeBlock L tail) hL.dev hL.dev
    hkl ?_
  intro toBuf fromBuf u hu hheld
  have hdata : (u.buf fromBuf).data = c :=
    hu.home fromBuf c (by rw [hheld.key_snd]; exact hc) hheld.valid_snd
  rw [wp_bind, wp_get, hdata]
  exact wp_store_release hu hheld hL.dev

end

section
variable (hdev : L.dev ≠ 0) (hhead : Region L.toLayout (headBlock L.toLayout)) (h : Inv L pre new s)
include hdev hhead h

theorem writeHead_spec : wp writeHead
      (fun _ u =>
        Wrote L pre new (headBlock L.toLayout)
          (encodeHeader L.lh (s.disk (headBlock L.toLayout))) s u)
      (fun _ u => u.trace = s.trace ∧ ¬Calm s) s := by
  unfold writeHead
  rw [wp_bind, wp_get, h.log]
  refine wp_bread h (k := headBlock L.toLayout) hdev ?_
  intro buf t ht hf
  have hbdev : (t.buf buf).dev ≠ 0 := by
    have := congrArg Prod.fst hf.key
    simp only [Buf.key, headBlock] at this
    rwa [this]
  rw [wp_bind, wp_get, hf.data_eq ht hhead, ht.log]
  refine wp_setData_bwrite _ hf.locked ?_
  refine wp_brelse (by simpa using hf.locked) ?_
  refine ⟨?_, ?_, ?_, ?_⟩
  · have hst := ht.stored hbdev (encodeHeader L.lh (s.disk (headBlock L.toLayout)))
    rw [hf.key] at hst
    exact hst.released buf
  · simp [stored, setBuf, hf.key, hf.frame.trace]
  · simp [stored, setBuf, hf.key, hf.frame.disk]
  intro hs j
  obtain ⟨hfree, href, _⟩ := hf.of_calm hs
  by_cases hj : j = buf
  · subst hj
    simp [Buf.Free, href]
  · rw [released_buf_of_ne hj, stored_buf_of_ne _ hj]
    exact hfree j hj

theorem readHead_spec (hmax : headerCount (s.disk (headBlock L.toLayout)) ≤ LOGSIZE) :
    wp readHead
      (fun _ u =>
        Inv { L with lh := decodeHeader (s.disk (headBlock L.toLayout)) L.lh } pre new u ∧
          u.trace = s.trace ∧ u.disk = s.disk ∧ (Calm s → Calm u))
      (fun _ u => u.trace = s.trace ∧ ¬Calm s) s := by
  unfold readHead
  rw [wp_bind, wp_get, h.log]
  refine wp_bread h (k := headBlock L.toLayout) hdev ?_
  intro buf t ht hf
  rw [wp_bind, wp_get, hf.data_eq ht hhead, ht.log, wp_ite]
  rw [if_neg (by simpa [decodeHeader] using hmax), wp_bind, wp_modify]
  refine wp_brelse hf.locked ?_
  refine ⟨(ht.setLh _).released buf, ?_, ?_, ?_⟩
  · rw [released_trace, setLh_trace, hf.frame.trace]
  · rw [released_disk, setLh_disk, hf.frame.disk]
  intro hs j
  obtain ⟨hfree, href, hclean⟩ := hf.of_calm hs
  by_cases hj : j = buf
  · subst hj
    simp [Buf.Free, setLh, href, hclean]
  · rw [released_buf_of_ne hj]
    exact hfree j hj

end

theorem emits_of_wrote (Φ Ψ : Disk → Prop) {m : M Unit} {data : Block}
    (hm : ∀ s, Inv L pre new s → Φ s.disk → wp m (fun _ u => Wrote L pre new k data s u)
        (fun _ u => u.trace = s.trace ∧ ¬Calm s) s)
    (hΦ : ∀ d, Φ d → Ψ (update d k data)) :
    Emits State.trace Calm (fun s => Inv L pre new s ∧ Φ s.disk) m [(k, data)]
      (fun _ s => Inv L pre (update new k none) s ∧ Ψ s.disk) := by
  rintro s ⟨hinv, hs⟩
  refine wp_mono (hm s hinv hs) ?_ ?_
  · intro _ u hu
    exact ⟨hu.trace, ⟨hu.inv, by rw [hu.disk]; exact hΦ _ hs⟩, hu.calm⟩
  · rintro e u ⟨htrace, hcalm⟩
    exact ⟨⟨[], List.nil_prefix, by simpa using htrace⟩, hcalm⟩

def logWrites (L : LogState) (content : Nat → Block) : List (Addr × Block) :=
  (List.range L.lh.n.toNat).map fun tail => (logBlock L.toLayout tail, content tail)

def homeWrites (L : LogState) (content : Nat → Block) : List (Addr × Block) :=
  (List.range L.lh.n.toNat).map fun tail => (homeBlock L tail, content tail)

def LogHolds (L : LogState) (m : Nat) (content : Nat → Block) (head : Block) (d : Disk) : Prop :=
  d (headBlock L.toLayout) = head ∧ ∀ tail < m, d (logBlock L.toLayout tail) = content tail

theorem update_none_of_region (hsep : ∀ k c, new k = some c → ¬Region L.toLayout k)
    (hk : Region L.toLayout k) : update new k none = new := by
  rw [update_eq_self_iff]
  cases hc : new k with
  | none => rfl
  | some c => exact absurd hk (hsep k c hc)

theorem emits_writeLog (hL : Fits L) (hsep : ∀ k c, new k = some c → ¬Region L.toLayout k)
    {content : Nat → Block}
    (hcontent : ∀ tail < L.lh.n.toNat, new (homeBlock L tail) = some (content tail)) :
    Emits State.trace Calm
      (fun s => Inv L pre new s ∧ LogHolds L 0 content head s.disk)
      writeLog (logWrites L content)
      (fun _ s => Inv L pre new s ∧ LogHolds L L.lh.n.toNat content head s.disk) := by
  unfold writeLog
  refine emits_get_bind fun s hs => ?_
  rw [hs.1.log, logWrites, List.map_eq_flatMap]
  refine emits_forEach (I := fun i s => Inv L pre new s ∧ LogHolds L i content head s.disk) ?_
  intro i hi
  have hnone := update_none_of_region hsep (hL.region_logBlock hi)
  have hone := emits_of_wrote (LogHolds L i content head) (LogHolds L (i + 1) content head)
    (fun s (h : Inv L pre new s) _ => writeOne_spec hL hi h (hcontent i hi)) ?_
  · rwa [hnone] at hone
  rintro d ⟨hhead, hlog⟩
  refine ⟨?_, ?_⟩
  · rw [update_of_ne logBlock_ne_headBlock.symm, hhead]
  · intro tail htail
    by_cases heq : tail = i
    · rw [heq, update_self]
    · rw [update_of_ne (fun h => heq (logBlock_injective h))]
      exact hlog tail (by omega)

def remaining (L : LogState) (new : Addr → Option Block) (m : Nat) : Addr → Option Block :=
  fun k => if ∃ tail < m, k = homeBlock L tail then none else new k

theorem remaining_zero (L : LogState) (new : Addr → Option Block) : remaining L new 0 = new := by
  funext k
  simp [remaining]

theorem remaining_succ (m : Nat) :
    remaining L new (m + 1) = update (remaining L new m) (homeBlock L m) none := by
  funext k
  by_cases hk : k = homeBlock L m
  · subst hk
    rw [update_self]
    exact if_pos ⟨m, by omega, rfl⟩
  rw [update_of_ne hk]
  unfold remaining
  congr 1
  refine propext ⟨?_, ?_⟩
  · rintro ⟨tail, htail, heq⟩
    have hne : tail ≠ m := by
      rintro rfl
      exact hk heq
    exact ⟨tail, by omega, heq⟩
  · rintro ⟨tail, htail, heq⟩
    exact ⟨tail, by omega, heq⟩

theorem eq_some_of_remaining {m : Nat} (h : remaining L new m k = some c) : new k = some c := by
  unfold remaining at h
  split at h
  · cases h
  · exact h

theorem remaining_none (m : Nat) : remaining L (fun _ => none) m = fun _ => none := by
  funext k
  simp [remaining]

theorem emits_installTrans (hL : Fits L) {content : Nat → Block} :
    Emits State.trace Calm
      (fun s => Inv L pre new s ∧ LogHolds L L.lh.n.toNat content head s.disk)
      installTrans (homeWrites L content)
      (fun _ s => Inv L pre (remaining L new L.lh.n.toNat) s ∧
        LogHolds L L.lh.n.toNat content head s.disk) := by
  unfold installTrans
  refine emits_get_bind fun s hs => ?_
  rw [hs.1.log, homeWrites, List.map_eq_flatMap, ← remaining_zero L new]
  refine emits_forEach
    (I := fun i s =>
      Inv L pre (remaining L new i) s ∧ LogHolds L L.lh.n.toNat content head s.disk) ?_
  intro i hi
  rw [remaining_succ]
  refine emits_of_wrote (LogHolds L L.lh.n.toNat content head)
    (LogHolds L L.lh.n.toNat content head) ?_ ?_
  · intro s h hlog
    have hone := installOne_spec hL hi h
    rwa [hlog.2 i hi] at hone
  rintro d ⟨hhead, hlog⟩
  refine ⟨?_, ?_⟩
  · rw [update_of_ne, hhead]
    exact fun h => hL.away i hi (h ▸ hL.region_headBlock)
  · intro tail htail
    rw [update_of_ne, hlog tail htail]
    exact fun h => hL.away i hi (h ▸ hL.region_logBlock htail)

theorem emits_writeHead (hdev : L.dev ≠ 0) (hhead : Region L.toLayout (headBlock L.toLayout))
    (hsep : ∀ k c, new k = some c → ¬Region L.toLayout k)
    (m : Nat) (content : Nat → Block) (head : Block) :
    Emits State.trace Calm
      (fun s => Inv L pre new s ∧ LogHolds L m content head s.disk)
      writeHead [(headBlock L.toLayout, encodeHeader L.lh head)]
      (fun _ s => Inv L pre new s ∧
        LogHolds L m content (encodeHeader L.lh head) s.disk) := by
  have hwrote : ∀ s, Inv L pre new s → LogHolds L m content head s.disk →
      wp writeHead (fun _ u => Wrote L pre new (headBlock L.toLayout) (encodeHeader L.lh head) s u)
        (fun _ u => u.trace = s.trace ∧ ¬Calm s) s := by
    intro s h hlog
    have hwrite := writeHead_spec hdev hhead h
    rwa [hlog.1] at hwrite
  have hemits := emits_of_wrote (LogHolds L m content head)
    (LogHolds L m content (encodeHeader L.lh head)) hwrote ?_
  · rwa [update_none_of_region hsep hhead] at hemits
  · rintro d ⟨_, hlog⟩
    refine ⟨by rw [update_self], ?_⟩
    intro tail htail
    rw [update_of_ne logBlock_ne_headBlock]
    exact hlog tail htail

theorem encodeHeader_of_zero (lh : LogHeader) (b : Block) (h : lh.n = 0) :
    encodeHeader lh b = writeWord b 0 0 := by
  simp [encodeHeader, h]

theorem headerCount_cleared (b : Block) : headerCount (writeWord b 0 0) = 0 := by
  have hB := BSIZE_eq
  unfold headerCount
  rw [readWord_writeWord (by omega) (by omega)]
  rfl

theorem emits_clear (hdev : L.dev ≠ 0) (hhead : Region L.toLayout (headBlock L.toLayout))
    (hsep : ∀ k c, new k = some c → ¬Region L.toLayout k)
    (m : Nat) (content : Nat → Block) (head : Block) :
    Emits State.trace Calm
      (fun s => Inv L pre new s ∧ LogHolds L m content head s.disk)
      (clearLh >>= fun _ => writeHead) [(headBlock L.toLayout, writeWord head 0 0)]
      (fun _ s => Inv (emptied L) pre new s ∧
        LogHolds L m content (writeWord head 0 0) s.disk) := by
  have hset : Emits State.trace Calm
      (fun s => Inv L pre new s ∧ LogHolds L m content head s.disk) clearLh []
      (fun _ s => Inv (emptied L) pre new s ∧ LogHolds (emptied L) m content head s.disk) := by
    refine emits_modify (fun _ => rfl) (fun _ hs => hs) ?_
    rintro s ⟨hinv, hlog⟩
    refine ⟨?_, hlog⟩
    rw [hinv.log]
    exact hinv.setLh { L.lh with n := 0 }
  refine hset.bind fun _ => ?_
  rw [← encodeHeader_of_zero (emptied L).lh head rfl]
  exact emits_writeHead (L := emptied L) hdev hhead hsep m content head

def commitWrites (L : LogState) (content : Nat → Block) (head : Block) : List (Addr × Block) :=
  logWrites L content ++ ([(headBlock L.toLayout, encodeHeader L.lh head)] ++
    (homeWrites L content ++ [(headBlock L.toLayout, writeWord (encodeHeader L.lh head) 0 0)]))

theorem emits_commit (hL : Fits L) (hpos : 0 < L.lh.n)
    (hsep : ∀ k c, new k = some c → ¬Region L.toLayout k) {content : Nat → Block}
    (hcontent : ∀ tail < L.lh.n.toNat, new (homeBlock L tail) = some (content tail)) :
    Emits State.trace Calm
      (fun s => Inv L pre new s ∧ LogHolds L 0 content head s.disk)
      commit (commitWrites L content head)
      (fun _ s => Inv (emptied L) pre (remaining L new L.lh.n.toNat) s ∧
        s.disk (headBlock L.toLayout) = writeWord (encodeHeader L.lh head) 0 0) := by
  unfold commit
  refine emits_get_bind fun s hs => ?_
  rw [hs.1.log, if_pos hpos]
  have hreg := hL.region_headBlock
  refine (emits_writeLog hL hsep hcontent).bind fun _ => ?_
  refine (emits_writeHead hL.dev hreg hsep _ content head).bind fun _ => ?_
  refine (emits_installTrans hL).bind fun _ => ?_
  refine (emits_clear hL.dev hreg ?_ _ content _).conseq (fun _ h => h)
    fun _ _ h => ⟨h.1, h.2.1⟩
  intro k c hc
  exact hsep k c (eq_some_of_remaining hc)

def loaded (L : LogState) (d : Disk) : LogState :=
  { L with lh := decodeHeader (d (headBlock L.toLayout)) L.lh }

@[simp] theorem loaded_n (d : Disk) :
    (loaded L d).lh.n = headerCount (d (headBlock L.toLayout)) := by
  unfold loaded decodeHeader
  rfl

@[simp] theorem loaded_toLayout (d : Disk) : (loaded L d).toLayout = L.toLayout := by
  unfold loaded
  rfl

def recoverWrites (L : LogState) (d : Disk) : List (Addr × Block) :=
  homeWrites (loaded L d) (fun tail => d (logBlock L.toLayout tail)) ++
    [(headBlock L.toLayout, writeWord (d (headBlock L.toLayout)) 0 0)]

theorem emits_readHead (hdev : L.dev ≠ 0) (hhead : Region L.toLayout (headBlock L.toLayout))
    (hmax : headerCount (d (headBlock L.toLayout)) ≤ LOGSIZE) :
    Emits State.trace Calm
      (fun s => Inv L pre new s ∧ s.disk = d) readHead []
      (fun _ s => Inv (loaded L d) pre new s ∧
        LogHolds (loaded L d) (loaded L d).lh.n.toNat (fun tail => d (logBlock L.toLayout tail))
          (d (headBlock L.toLayout)) s.disk) := by
  rintro s ⟨hinv, hd⟩
  have hspec := readHead_spec hdev hhead hinv (by rw [hd]; exact hmax)
  rw [hd] at hspec
  refine wp_mono hspec ?_ ?_
  · rintro _ u ⟨hu, htrace, hdisk, hcalm⟩
    refine ⟨by simpa using htrace, ⟨hu, ?_⟩, hcalm⟩
    rw [hdisk]
    exact ⟨by rw [loaded_toLayout], fun tail _ => by rw [loaded_toLayout]⟩
  · rintro e u ⟨htrace, hcalm⟩
    exact ⟨⟨[], List.nil_prefix, by simpa using htrace⟩, hcalm⟩

theorem emits_recoverFromLog (hdev : L.dev ≠ 0) (hsize : 0 < L.size)
    (hcount : headerCount (d (headBlock L.toLayout)) ≤ 0 ∨ Fits (loaded L d)) :
    Emits State.trace Calm
      (fun s => Inv L pre (fun _ => none) s ∧ s.disk = d)
      recoverFromLog (recoverWrites L d)
      (fun _ s => Inv (emptied (loaded L d)) pre (fun _ => none) s ∧
        s.disk (headBlock L.toLayout) = writeWord (d (headBlock L.toLayout)) 0 0) := by
  have hhead : Region L.toLayout (headBlock L.toLayout) := by
    refine ⟨rfl, le_rfl, ?_⟩
    simp only [headBlock]
    omega
  have hmax : headerCount (d (headBlock L.toLayout)) ≤ LOGSIZE := by
    rcases hcount with h | h
    · exact h.trans (by decide)
    · rw [← loaded_n]
      exact h.max
  have hinstall : Emits State.trace Calm
      (fun s => Inv (loaded L d) pre (fun _ => none) s ∧
        LogHolds (loaded L d) (loaded L d).lh.n.toNat (fun tail => d (logBlock L.toLayout tail))
          (d (headBlock L.toLayout)) s.disk)
      installTrans (homeWrites (loaded L d) fun tail => d (logBlock L.toLayout tail))
      (fun _ s => Inv (loaded L d) pre (fun _ => none) s ∧
        LogHolds (loaded L d) (loaded L d).lh.n.toNat (fun tail => d (logBlock L.toLayout tail))
          (d (headBlock L.toLayout)) s.disk) := by
    rcases hcount with h | h
    · -- nothing to install
      unfold installTrans
      refine emits_get_bind fun s hs => ?_
      have hzero : (loaded L d).lh.n.toNat = 0 := by
        rw [loaded_n]
        exact Int.toNat_eq_zero.mpr h
      rw [hs.1.log, homeWrites, hzero]
      exact emits_pure fun _ hs => hs
    · refine (emits_installTrans h).conseq (fun _ hs => hs) ?_
      intro _ s hs
      rwa [remaining_none] at hs
  have hhead' : Region (loaded L d).toLayout (headBlock (loaded L d).toLayout) := by
    rw [loaded_toLayout]
    exact hhead
  have hall := (emits_readHead hdev hhead hmax).bind fun _ => hinstall.bind fun _ =>
      emits_clear (by rw [loaded_toLayout]; exact hdev) hhead' (by intro k c hc; cases hc) _ _ _
  rw [List.nil_append, loaded_toLayout] at hall
  refine hall.conseq (fun _ h => h) ?_
  rintro _ s ⟨hinv, hlog, _⟩
  rw [loaded_toLayout] at hlog
  exact ⟨hinv, hlog⟩

end Xv6.Log
