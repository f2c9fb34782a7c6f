import Xv6.Log.Log

/-!
# What the log and the cache keep

Three facts about the cache are kept by every step of `commit` and of
`recover_from_log`: the cached log blocks agree with the disk, a cached block of
the transaction holds the transaction's content, and such a block is either dirty
in the cache, so that `bget` does not recycle its buffer, or already on disk.
-/

namespace Xv6.Log

open Lib Lib.Prog Function

variable {L : LogState} {pre : Disk} {new : Addr → Option Block} {s t : State} {i a b : Fin NBUF}
variable {k l : Addr} {Q : Unit → State → Prop}

/-- The blocks of the log: the header and the slots after it. -/
def Region (P : Layout) (k : Addr) : Prop :=
  k.1 = P.dev ∧ P.start ≤ k.2 ∧ k.2 < P.start + P.size

def headBlock (P : Layout) : Addr :=
  (P.dev, P.start)

def logBlock (P : Layout) (tail : Nat) : Addr :=
  (P.dev, P.start + tail + 1)

def homeBlock (L : LogState) (tail : Nat) : Addr :=
  (L.dev, L.lh.block tail)

/--
The invariant of the block layer.  `pre` is the disk before the first write of
the trace; `new` gives the content of the blocks of the transaction that are not
yet installed.
-/
structure Inv (L : LogState) (pre : Disk) (new : Addr → Option Block) (s : State) : Prop where
  cache : CacheInv s
  log : s.log = L
  disk : s.disk = applyWrites pre s.trace
  region : ∀ i, Region L.toLayout (s.buf i).key → (s.buf i).valid = true →
    (s.buf i).dirty = false ∧ (s.buf i).data = s.disk (s.buf i).key
  home : ∀ i c, new (s.buf i).key = some c → (s.buf i).valid = true → (s.buf i).data = c
  pinned : ∀ k c, new k = some c → (∃ i, (s.buf i).key = k ∧ (s.buf i).dirty = true) ∨ s.disk k = c
  logged : ∀ i, (s.buf i).dirty = true → new (s.buf i).key ≠ none

def Buf.Free (b : Buf) : Prop :=
  b.refcnt = 0 ∧ b.locked = false ∧ b.dirty = false

def Calm (s : State) : Prop :=
  ∀ i, (s.buf i).Free

theorem CacheInv.fetched (h : CacheInv s) (hk : k.1 ≠ 0) (hf : Fetched s k i t) : CacheInv t := by
  -- another buffer with this block would have been a hit
  have hother : ∀ j, j ≠ i → (s.buf j).key ≠ k := by
    intro j hj hjk
    have hjdev : (s.buf j).dev ≠ 0 := by
      rw [← hjk] at hk
      exact hk
    cases hf.source with
    | hit hkey => exact hj (h.inj j i hjdev (hjk.trans hkey.symm))
    | fill hkey => exact hj (h.inj j i hjdev (hjk.trans hkey.symm))
    | miss hkey => exact hkey j hjk
  refine ⟨?_, ?_, ?_⟩
  · intro j
    rw [hf.frame.order]
    exact h.cover j
  · intro j l hdev hjl
    by_cases hj : j = i
    · by_cases hl : l = i
      · rw [hj, hl]
      · rw [hj, hf.key, hf.frame.buf l hl] at hjl
        exact absurd hjl.symm (hother l hl)
    · by_cases hl : l = i
      · rw [hl, hf.key, hf.frame.buf j hj] at hjl
        exact absurd hjl (hother j hj)
      · rw [hf.frame.buf j hj] at hdev hjl
        rw [hf.frame.buf l hl] at hjl
        exact h.inj j l hdev hjl
  · intro j hd
    by_cases hj : j = i
    · rw [hj]
      exact hf.valid
    · rw [hf.frame.buf j hj] at hd ⊢
      exact h.dirty_valid j hd

theorem Fetched.dirty_stays (h : CacheInv s) (hf : Fetched s k i t) {j : Fin NBUF}
    (hd : (s.buf j).dirty = true) : (t.buf j).key = (s.buf j).key ∧ (t.buf j).dirty = true := by
  by_cases hj : j = i
  · subst hj
    rw [hf.key]
    cases hf.source with
    | hit hkey hvalid hdata hdirty => exact ⟨hkey.symm, hdirty.trans hd⟩
    | fill hkey hvalid hdata hdirty =>
      rw [h.dirty_valid j hd] at hvalid
      cases hvalid
    | miss hkey hfree hclean hdata hdirty =>
      rw [hd] at hclean
      cases hclean
  · rw [hf.frame.buf j hj]
    exact ⟨rfl, hd⟩

theorem Inv.disk_of_not_hit (h : Inv L pre new s) {c : Block} (hc : new k = some c)
    (hnot : ∀ j, (s.buf j).key = k → (s.buf j).valid = false) : s.disk k = c := by
  rcases h.pinned k c hc with ⟨j, hjk, hd⟩ | hdisk
  · have hv := h.cache.dirty_valid j hd
    rw [hnot j hjk] at hv
    cases hv
  · exact hdisk

theorem Inv.fetched (h : Inv L pre new s) (hk : k.1 ≠ 0) (hf : Fetched s k i t) :
    Inv L pre new t := by
  refine ⟨h.cache.fetched hk hf, hf.frame.log.trans h.log, ?_, ?_, ?_, ?_, ?_⟩
  · rw [hf.frame.disk, hf.frame.trace]
    exact h.disk
  · intro j hreg hv
    rw [hf.frame.disk]
    by_cases hj : j = i
    · subst hj
      rw [hf.key] at hreg ⊢
      cases hf.source with
      | hit hkey hvalid hdata hdirty =>
        rw [hdata, hdirty, ← hkey]
        exact h.region j (by rw [hkey]; exact hreg) hvalid
      | fill hkey hvalid hdata hdirty => exact ⟨hdirty, hdata⟩
      | miss hkey hfree hclean hdata hdirty => exact ⟨hdirty, hdata⟩
    · rw [hf.frame.buf j hj] at hreg hv ⊢
      exact h.region j hreg hv
  · intro j c hc hv
    by_cases hj : j = i
    · subst hj
      rw [hf.key] at hc
      cases hf.source with
      | hit hkey hvalid hdata hdirty =>
        rw [hdata]
        exact h.home j c (by rw [hkey]; exact hc) hvalid
      | fill hkey hvalid hdata hdirty =>
        rw [hdata]
        refine h.disk_of_not_hit hc ?_
        intro l hl
        have hdev : (s.buf l).dev ≠ 0 := by
          rw [← hl] at hk
          exact hk
        rw [h.cache.inj l j hdev (hl.trans hkey.symm)]
        exact hvalid
      | miss hkey hfree hclean hdata hdirty =>
        rw [hdata]
        exact h.disk_of_not_hit hc fun l hl => absurd hl (hkey l)
    · rw [hf.frame.buf j hj] at hc hv ⊢
      exact h.home j c hc hv
  · intro l c hc
    rw [hf.frame.disk]
    refine (h.pinned l c hc).imp_left ?_
    rintro ⟨j, hjl, hd⟩
    have hstay := hf.dirty_stays h.cache hd
    exact ⟨j, hstay.1.trans hjl, hstay.2⟩
  intro j hd
  by_cases hj : j = i
  · subst hj
    rw [hf.key]
    cases hf.source with
    | hit hkey hvalid hdata hdirty =>
      rw [hdirty] at hd
      rw [← hkey]
      exact h.logged j hd
    | fill hkey hvalid hdata hdirty =>
      rw [hd] at hdirty
      cases hdirty
    | miss hkey hfree hclean hdata hdirty =>
      rw [hd] at hdirty
      cases hdirty
  · rw [hf.frame.buf j hj] at hd ⊢
    exact h.logged j hd

theorem stored_key (data : Block) (j : Fin NBUF) :
    ((stored i data s).buf j).key = (s.buf j).key := by
  by_cases hj : j = i
  · subst hj
    simp [Buf.key]
  · rw [stored_buf_of_ne data hj]

theorem Inv.stored (h : Inv L pre new s) (hdev : (s.buf i).dev ≠ 0) (data : Block) :
    Inv L pre (update new (s.buf i).key none) (stored i data s) := by
  have hother : ∀ j, j ≠ i → (s.buf j).key ≠ (s.buf i).key := by
    intro j hj hjk
    exact hj (h.cache.inj i j hdev hjk.symm).symm
  refine ⟨⟨h.cache.cover, ?_, ?_⟩, h.log, ?_, ?_, ?_, ?_, ?_⟩
  · intro j l hjdev hjl
    rw [stored_key, stored_key] at hjl
    refine h.cache.inj j l ?_ hjl
    have := congrArg Prod.fst (stored_key (s := s) (i := i) data j)
    simp only [Buf.key] at this
    rwa [this] at hjdev
  · intro j hd
    by_cases hj : j = i
    · subst hj
      simp at hd
    · rw [stored_buf_of_ne data hj] at hd ⊢
      exact h.cache.dirty_valid j hd
  · simp only [Log.stored, setBuf]
    rw [applyWrites_append, ← h.disk, applyWrites_singleton]
  · intro j hreg hv
    by_cases hj : j = i
    · subst hj
      rw [stored_key]
      simp [Log.stored, setBuf]
    · rw [stored_buf_of_ne data hj] at hreg hv ⊢
      simp only [Log.stored, setBuf]
      rw [update_of_ne (hother j hj)]
      exact h.region j hreg hv
  · intro j c hc hv
    rw [stored_key] at hc
    by_cases hj : j = i
    · subst hj
      simp at hc
    · rw [update_of_ne (hother j hj)] at hc
      rw [stored_buf_of_ne data hj] at hv ⊢
      exact h.home j c hc hv
  · intro l c hc
    by_cases hl : l = (s.buf i).key
    · subst hl
      simp at hc
    rw [update_of_ne hl] at hc
    rcases h.pinned l c hc with ⟨j, hjl, hd⟩ | hdisk
    · left
      have hj : j ≠ i := by
        rintro rfl
        exact hl hjl.symm
      refine ⟨j, ?_⟩
      rw [stored_buf_of_ne data hj]
      exact ⟨hjl, hd⟩
    · right
      simp only [Log.stored, setBuf]
      rw [update_of_ne hl]
      exact hdisk
  intro j hd
  rw [stored_key]
  by_cases hj : j = i
  · subst hj
    simp at hd
  · rw [stored_buf_of_ne data hj] at hd
    rw [update_of_ne (hother j hj)]
    exact h.logged j hd

theorem Inv.released (h : Inv L pre new s) (i : Fin NBUF) : Inv L pre new (released i s) := by
  have hkey : ∀ j, ((Log.released i s).buf j).key = (s.buf j).key :=
    fun j => (released_buf i s j).1
  have hvalid : ∀ j, ((Log.released i s).buf j).valid = (s.buf j).valid :=
    fun j => (released_buf i s j).2.1
  have hdirty : ∀ j, ((Log.released i s).buf j).dirty = (s.buf j).dirty :=
    fun j => (released_buf i s j).2.2.1
  have hdata : ∀ j, ((Log.released i s).buf j).data = (s.buf j).data :=
    fun j => (released_buf i s j).2.2.2
  refine ⟨⟨?_, ?_, ?_⟩, ?_, ?_, ?_, ?_, ?_, ?_⟩
  · intro j
    obtain ⟨order, heq, hmem⟩ := released_eq i s
    rw [heq]
    exact hmem j (h.cache.cover j)
  · intro j l hdev hjl
    rw [hkey, hkey] at hjl
    refine h.cache.inj j l ?_ hjl
    have := congrArg Prod.fst (hkey j)
    simp only [Buf.key] at this
    rwa [this] at hdev
  · intro j
    rw [hdirty, hvalid]
    exact h.cache.dirty_valid j
  · rw [released_log]
    exact h.log
  · rw [released_disk, released_trace]
    exact h.disk
  · intro j
    rw [hkey, hvalid, hdirty, hdata, released_disk]
    exact h.region j
  · intro j c
    rw [hkey, hvalid, hdata]
    exact h.home j c
  · intro l c hc
    rw [released_disk]
    refine (h.pinned l c hc).imp_left ?_
    rintro ⟨j, hj⟩
    refine ⟨j, ?_⟩
    rw [hkey, hdirty]
    exact hj
  · intro j
    rw [hkey, hdirty]
    exact h.logged j

@[simp] theorem setLh_trace (lh : LogHeader) (s : State) : (setLh lh s).trace = s.trace := by
  rfl

@[simp] theorem setLh_disk (lh : LogHeader) (s : State) : (setLh lh s).disk = s.disk := by
  rfl

theorem Inv.setLh (h : Inv L pre new s) (lh : LogHeader) :
    Inv { L with lh := lh } pre new (setLh lh s) where
  cache := ⟨h.cache.cover, h.cache.inj, h.cache.dirty_valid⟩
  log := by simp [Log.setLh, h.log]
  disk := h.disk
  region := h.region
  home := h.home
  pinned := h.pinned
  logged := h.logged

structure Wrote (L : LogState) (pre : Disk) (new : Addr → Option Block)
    (k : Addr) (data : Block) (s u : State) : Prop where
  inv : Inv L pre (update new k none) u
  trace : u.trace = s.trace ++ [(k, data)]
  disk : u.disk = update s.disk k data
  calm : Calm s → Calm u

structure Held (s t : State) (k l : Addr) (a b : Fin NBUF) : Prop where
  ne : a ≠ b
  key_fst : (t.buf a).key = k
  key_snd : (t.buf b).key = l
  valid_fst : (t.buf a).valid = true
  valid_snd : (t.buf b).valid = true
  locked_fst : (t.buf a).locked = true
  locked_snd : (t.buf b).locked = true
  trace : t.trace = s.trace
  disk : t.disk = s.disk
  calm : Calm s → (∀ j, j ≠ a → j ≠ b → (t.buf j).Free) ∧
      (t.buf a).refcnt = 1 ∧ (t.buf b).refcnt = 1 ∧
      (t.buf a).dirty = false ∧ (t.buf b).dirty = false

theorem Held.symm (h : Held s t k l a b) :
    Held s t l k b a where
  ne := h.ne.symm
  key_fst := h.key_snd
  key_snd := h.key_fst
  valid_fst := h.valid_snd
  valid_snd := h.valid_fst
  locked_fst := h.locked_snd
  locked_snd := h.locked_fst
  trace := h.trace
  disk := h.disk
  calm := by
    intro hs
    obtain ⟨hfree, ha, hb, hda, hdb⟩ := h.calm hs
    exact ⟨fun j hb ha => hfree j ha hb, hb, ha, hdb, hda⟩

theorem not_noRoom_of_calm (hs : Calm s) : ¬NoRoom s k := by
  rintro (hall | ⟨j, hlock, _⟩)
  · rcases hall 0 with h | h
    · exact h (hs 0).1
    · rw [(hs 0).2.2] at h
      cases h
  · rw [(hs j).2.1] at hlock
    cases hlock

theorem Fetched.of_calm (hf : Fetched s k a t) (hs : Calm s) :
    (∀ j, j ≠ a → (t.buf j).Free) ∧ (t.buf a).refcnt = 1 ∧ (t.buf a).dirty = false := by
  refine ⟨?_, ?_, ?_⟩
  · intro j hj
    rw [hf.frame.buf j hj]
    exact hs j
  · rw [hf.refcnt, (hs a).1]
  · cases hf.source with
    | hit hkey hvalid hdata hdirty => exact hdirty.trans (hs a).2.2
    | fill hkey hvalid hdata hdirty => exact hdirty
    | miss hkey hfree hclean hdata hdirty => exact hdirty

theorem not_noRoom_of_one (hfree : ∀ j, j ≠ a → (t.buf j).Free) (hkey : (t.buf a).key ≠ l)
    (href : (t.buf a).refcnt ≠ 0) : ¬NoRoom t l := by
  rintro (hall | ⟨j, hlock, hj⟩)
  · obtain ⟨j, hj⟩ : ∃ j, j ≠ a := exists_ne a
    rcases hall j with h | h
    · exact h (hfree j hj).1
    · rw [(hfree j hj).2.2] at h
      cases h
  by_cases hja : j = a
  · subst hja
    rcases hj with hj | hj
    · exact hkey hj
    · exact href hj
  · rw [(hfree j hja).2.1] at hlock
    cases hlock

theorem Held.of_fetched {u : State} (hkl : k ≠ l) (ht : Fetched s k a t) (hu : Fetched t l b u) :
    Held s u k l a b := by
  have hne : a ≠ b := by
    rintro rfl
    cases hu.source with
    | hit hkey => exact hkl (ht.key.symm.trans hkey)
    | fill hkey => exact hkl (ht.key.symm.trans hkey)
    | miss hkey hfree =>
      rw [ht.refcnt] at hfree
      omega
  have hua : u.buf a = t.buf a := hu.frame.buf a hne
  refine ⟨hne, by rw [hua, ht.key], hu.key, by rw [hua, ht.valid], hu.valid,
    by rw [hua, ht.locked], hu.locked, hu.frame.trace.trans ht.frame.trace,
    hu.frame.disk.trans ht.frame.disk, ?_⟩
  intro hs
  obtain ⟨hfree, href, hclean⟩ := ht.of_calm hs
  have hb := hfree b hne.symm
  refine ⟨?_, by rw [hua, href], by rw [hu.refcnt, hb.1], by rw [hua, hclean], ?_⟩
  · intro j hja hjb
    rw [hu.frame.buf j hjb]
    exact hfree j hja
  · cases hu.source with
    | hit hkey hvalid hdata hdirty => exact hdirty.trans hb.2.2
    | fill hkey hvalid hdata hdirty => exact hdirty
    | miss hkey hfree hclean hdata hdirty => exact hdirty

theorem wp_bread_bread {rest : Fin NBUF → Fin NBUF → M Unit} (h : Inv L pre new s) (hk : k.1 ≠ 0)
    (hl : l.1 ≠ 0) (hkl : k ≠ l) (hrest : ∀ a b u, Inv L pre new u → Held s u k l a b →
      wp (rest a b) Q (fun _ t => t.trace = s.trace ∧ ¬Calm s) u) :
    wp (bread k.1 k.2 >>= fun a => bread l.1 l.2 >>= fun b => rest a b) Q
      (fun _ t => t.trace = s.trace ∧ ¬Calm s) s := by
  rw [wp_bind]
  refine wp_mono (bread_spec h.cache k.1 k.2) ?_ ?_
  · intro a t ht
    have hit : Inv L pre new t := h.fetched hk ht
    rw [wp_bind]
    refine wp_mono (bread_spec hit.cache l.1 l.2) ?_ ?_
    · intro b u hu
      exact hrest a b u (hit.fetched hl hu) (Held.of_fetched hkl ht hu)
    · rintro e u ⟨htrace, hroom⟩
      refine ⟨htrace.trans ht.frame.trace, ?_⟩
      intro hs
      obtain ⟨hfree, href, _⟩ := ht.of_calm hs
      exact not_noRoom_of_one hfree (by rw [ht.key]; exact hkl) (by omega) hroom
  · rintro e t ⟨htrace, hroom⟩
    exact ⟨htrace, fun hs => not_noRoom_of_calm hs hroom⟩

theorem wp_store_release {data : Block} {E : Stop → State → Prop} (h : Inv L pre new t)
    (hheld : Held s t k l a b) (hk : k.1 ≠ 0) :
    wp (setData a data >>= fun _ => bwrite a >>= fun _ => brelse b >>= fun _ => brelse a)
      (fun _ u => Wrote L pre new k data s u) E t := by
  have hdev : (t.buf a).dev ≠ 0 := by
    rw [← hheld.key_fst] at hk
    exact hk
  have hne := hheld.ne
  refine wp_setData_bwrite data hheld.locked_fst ?_
  rw [wp_bind]
  refine wp_brelse (by rw [stored_buf_of_ne data hne.symm]; exact hheld.locked_snd) ?_
  refine wp_brelse (by rw [released_buf_of_ne hne]; simpa using hheld.locked_fst) ?_
  refine ⟨?_, ?_, ?_, ?_⟩
  · have hst := h.stored hdev data
    rw [hheld.key_fst] at hst
    exact (hst.released b).released a
  · simp [stored, setBuf, hheld.key_fst, hheld.trace]
  · simp [stored, setBuf, hheld.key_fst, hheld.disk]
  intro hs j
  obtain ⟨hfree, ha, hb, hda, hdb⟩ := hheld.calm hs
  by_cases hja : j = a
  · subst hja
    rw [released_buf_self, released_buf_of_ne hne]
    simp [Buf.Free, ha]
  rw [released_buf_of_ne hja]
  by_cases hjb : j = b
  · subst hjb
    rw [released_buf_self, stored_buf_of_ne data hja]
    simp [Buf.Free, hb, hdb]
  · rw [released_buf_of_ne hjb, stored_buf_of_ne data hja]
    exact hfree j hja hjb

theorem wp_bread {rest : Fin NBUF → M Unit} (h : Inv L pre new s) (hk : k.1 ≠ 0)
    (hrest : ∀ a t, Inv L pre new t → Fetched s k a t →
      wp (rest a) Q (fun _ t => t.trace = s.trace ∧ ¬Calm s) t) :
    wp (bread k.1 k.2 >>= rest) Q (fun _ t => t.trace = s.trace ∧ ¬Calm s) s := by
  rw [wp_bind]
  refine wp_mono (bread_spec h.cache k.1 k.2) ?_ ?_
  · intro a t ht
    exact hrest a t (h.fetched hk ht) ht
  · rintro e t ⟨htrace, hroom⟩
    exact ⟨htrace, fun hs => not_noRoom_of_calm hs hroom⟩

theorem Fetched.data_eq (h : Inv L pre new t) (hf : Fetched s k a t) (hreg : Region L.toLayout k) :
    (t.buf a).data = s.disk k := by
  have := (h.region a (by rw [hf.key]; exact hreg) hf.valid).2
  rwa [hf.key, hf.frame.disk] at this

end Xv6.Log
