import Xv6.Exec.Exec
import Xv6.Fs.Safety
import Xv6.Kernel.Reach

/-!
# How `exec` ends

`exec` returns -1 and leaves everything as it was, or returns 0 and the process has the
image of the file.  Before the commit it touches only pages that were free, references
and locks of inodes that it gives back, and the count of operations.
-/

namespace Xv6.Exec

open Lib Lib.Prog Ptable

variable {p : Slot} {path : Fs.Str} {ip b : Fs.Ino} {K : Vm.Symbols} {A : Vm.Pool K}
variable {argv : List (List UInt8)} {D : Frame} {t t' : Fs.State} {m m' : Vm.Mem} {sz : Nat}
variable {R U : Multiset Nat} {E : Stop → State → Prop} {elf : List UInt8} {s' : State} {α : Type}
variable {a : α}

variable {s : State}

section Files

variable {s : Fs.State}

structure Opened (s : Fs.State) (ip : Fs.Ino) (t : Fs.State) : Prop where
  inv : Fs.In t {ip} {ip} ∅
  frame : Fs.Frame 0 s.begun t
  node : t.node = s.node

structure Closed (s t : Fs.State) : Prop where
  ref : ∀ a, (t.icache a).ref = (s.icache a).ref
  locked : ∀ a, (t.icache a).locked = false
  inum : ∀ a, 0 < (s.icache a).ref → (t.icache a).inum = (s.icache a).inum
  outstanding : t.outstanding = s.outstanding

theorem closed_of_frame (hs : Fs.In s 0 ∅ ∅) (ht : Fs.In t 0 ∅ ∅) (hf : Fs.Frame 0 s.begun t) :
    Closed s t.ended where
  ref := by
    intro a
    have h1 := hs.refs a
    have h2 := ht.refs a
    rw [hf.holders] at h2
    rw [Multiset.count_zero] at h1 h2
    exact h2.trans h1.symm
  locked := by
    intro a
    have h := (ht.locks a).not.mpr (Finset.notMem_empty a)
    exact Bool.not_eq_true _ ▸ h
  inum := by
    intro a ha
    have h1 := hs.refs a
    exact hf.inum a (by rw [← show s.holders a = s.begun.holders a from rfl]; omega)
  outstanding := by
    change t.outstanding - 1 = s.outstanding
    rw [hf.outstanding]
    exact Nat.add_sub_cancel _ _

structure Found (s : Fs.State) (p : Slot) (path : Fs.Str) (ip : Fs.Ino) (elf : List UInt8)
    (t : Fs.State) : Prop where
  opened : Opened s ip t
  resolved : ∃ name, s.resolve p false path = some ((t.icache ip).inum, name)
  header : (s.node (t.icache ip).inum).type ≠ Fs.T_DEV →
    elf = (s.node (t.icache ip).inum).data.take Vm.elfhdrSize

theorem elfhdr_take {elf data : List UInt8} (helf : elf = data.take Vm.elfhdrSize) :
    (fileOf elf).elfhdr = (fileOf data).elfhdr := by
  have hbyte : ∀ i, i < Vm.elfhdrSize → (fileOf elf).data i = (fileOf data).data i := by
    intro i hi
    unfold fileOf
    simp only
    rw [helf, List.getD_eq_getElem?_getD, List.getD_eq_getElem?_getD, List.getElem?_take, if_pos hi]
  have hu16 : ∀ i, i + 2 ≤ Vm.elfhdrSize → (fileOf elf).u16 i = (fileOf data).u16 i := by
    intro i hi
    unfold Vm.File.u16
    rw [hbyte i (by omega), hbyte (i + 1) (by omega)]
  have hu32 : ∀ i, i + 4 ≤ Vm.elfhdrSize → (fileOf elf).u32 i = (fileOf data).u32 i := by
    intro i hi
    unfold Vm.File.u32
    rw [hu16 i (by omega), hu16 (i + 2) (by omega)]
  unfold Vm.File.elfhdr
  rw [hu32 0 (by decide), hu32 24 (by decide), hu32 28 (by decide), hu16 44 (by decide)]

theorem openProgram_spec (h : Fs.In s 0 ∅ ∅) (hcwd : (s.proc p).cwd = some b) :
    wp (openProgram p path)
      (fun r t => match r with
        | none => Closed s t
        | some (ip, elf) => Found s p path ip elf t)
      (fun _ _ => True) s := by
  unfold openProgram
  rw [wp_bind, Fs.wp_beginOp, wp_bind]
  refine wp_mono (Fs.namex_spec false path h.begun (Fs.pinned_empty _ _) hcwd) ?_
    fun _ _ _ => trivial
  intro r t1 hw
  cases r with
  | none =>
    rw [wp_bind, Fs.wp_endOp]
    exact closed_of_frame h hw.inv hw.quiet.frame
  | some x =>
    obtain ⟨ip, name⟩ := x
    simp only
    rw [wp_bind]
    refine wp_mono hw.ilock ?_ fun _ _ _ => trivial
    rintro _ t2 ⟨hinv2, hq2, hinum2, _⟩
    have hnode2 : t2.node = s.node := hq2.node_eq
    have hheader : wp (Fs.readi ip 0 Vm.elfhdrSize)
        (fun r _ => (t2.node (t2.icache ip).inum).type ≠ Fs.T_DEV →
          r.getD [] = (t2.node (t2.icache ip).inum).data.take Vm.elfhdrSize)
        (fun _ _ => True) t2 := by
      by_cases hdev : (t2.node (t2.icache ip).inum).type ≠ Fs.T_DEV
      · refine wp_post (Fs.readi_spec hinv2 (Finset.mem_insert_self ip ∅) hdev 0 _) ?_
        rintro r _ ⟨_, rfl⟩ _
        rw [if_neg (by simp), List.drop_zero, Option.getD_some]
      · exact wp_post (wp_true _) fun _ _ _ hc => absurd hc hdev
    have hstill := Fs.readi_still (L := ∅) (E := fun _ _ => True) hinv2 (Finset.notMem_empty ip) 0
      Vm.elfhdrSize
    rw [wp_bind]
    refine wp_mono (wp_and hstill hheader) ?_ fun _ _ _ => trivial
    rintro elf t3 ⟨⟨hinv3, hstill3, hinum3⟩, helf⟩
    rw [← hinum3, hnode2] at helf
    refine ⟨⟨hinv3, ?_, hstill3.node.trans hnode2⟩, ⟨name, ?_⟩, helf⟩
    · exact hq2.frame.trans hstill3.frame (Multiset.zero_le _)
    · rw [hinum3, hinum2]
      exact hw.found.symm

theorem closeProgram_spec (h : Fs.In s 0 ∅ ∅) (ht : Opened s ip t) :
    wp (closeProgram ip) (fun _ t' => Closed s t') (fun _ _ => True) t := by
  unfold closeProgram
  rw [wp_bind]
  refine wp_mono (Fs.iunlockput_last (R := 0) (L := ∅) (Y := ∅) ht.inv (Finset.notMem_empty ip) rfl
    ?_ (Multiset.count_zero ip) fun _ _ hm => hm) ?_ fun _ _ _ => trivial
  · rw [ht.frame.outstanding]
    exact Nat.succ_pos _
  · rintro _ t' ⟨hinv, hf, _⟩
    exact closed_of_frame h hinv (ht.frame.trans hf le_rfl)

end Files

def State.put (s : State) (t : Fs.State) (m : Vm.Mem) : State :=
  { s with fs := t, kernel := { s.kernel with mem := m } }

/-- What a failed `exec` of process `p`, with page directory `D`, leaves as it is. -/
structure Unchanged (D : Frame) (s s' : State) : Prop where
  procs : s'.kernel.proc = s.kernel.proc
  mappings : s'.kernel.mem.pte D = s.kernel.mem.pte D
  pages : ∀ u < Vm.userPages, s'.kernel.mem.content D u = s.kernel.mem.content D u
  tf : s'.tf = s.tf
  name : s'.name = s.name
  free : s'.kernel.mem.free.Perm s.kernel.mem.free
  fs : Closed s.fs s'.fs

/-- The process runs the program at `path`. -/
def Installed (p : Slot) (path : Fs.Str) (argv : List (List UInt8)) (s s' : State) : Prop :=
  ∃ n name D, s.fs.resolve p false path = some (n, name) ∧ (s'.kernel.proc p).pgdir = some D ∧
    ((s.fs.node n).type ≠ Fs.T_DEV →
      Vm.Ready s'.kernel.mem (fileOf (s.fs.node n).data) (fileOf (s.fs.node n).data).elfhdr argv
        { pgdir := D, sz := (s'.kernel.proc p).sz, eip := (s'.tf p).eip, esp := (s'.tf p).esp })

theorem wp_onFs {Q : α → State → Prop} (x : Fs.FM α) :
    wp (onFs x) Q E (s.put t m) ↔
      wp x (fun a t' => Q a (s.put t' m)) (fun e t' => E (.fs e) (s.put t' m)) t := by
  unfold onFs
  rw [wp_zoom, wp_mapError]
  rfl

theorem wp_onMem {Q : α → State → Prop} (x : Vm.M α) :
    wp (onMem x) Q E (s.put t m) ↔
      wp x (fun a m' => Q a (s.put t m')) (fun e m' => E (.mem e) (s.put t m')) m := by
  unfold onMem
  rw [wp_zoom, wp_mapError]
  rfl

def Back (A : Vm.Pool K) (U : Multiset Nat) (s s' : State) : Prop :=
  ∃ t m, s' = s.put t m ∧ Closed s.fs t ∧ Vm.Uses A m U ∧ Vm.Keeps U s.kernel.mem m

def Holding (A : Vm.Pool K) (U : Multiset Nat) (m : Vm.Mem) : Option Frame → Prop
  | none => Vm.Uses A m U
  | some pgdir => Vm.Dir A m pgdir U

def Pending (s t : Fs.State) : Option Fs.Ino → Prop
  | none => Closed s t
  | some ip => Opened s ip t

theorem bad_spec {pgdir : Option Frame} {ip : Option Fs.Ino} {Q : Int → State → Prop}
    (h : Fs.In s.fs 0 ∅ ∅) (hpgdir : Holding A U m pgdir) (hkeeps : Vm.Keeps U s.kernel.mem m)
    (hip : Pending s.fs t ip) (hQ : ∀ s', Back A U s s' → Q (-1) s') :
    wp (bad K pgdir ip) Q (fun _ _ => True) (s.put t m) := by
  have hput : ∀ m', Vm.Uses A m' U → Vm.Keeps U s.kernel.mem m' →
      wp (do putInode ip; pure (-1) : XM Int) Q (fun _ _ => True) (s.put t m') := by
    intro m' huses hkeeps'
    rw [wp_bind]
    cases ip with
    | none => exact hQ _ ⟨t, m', rfl, hip, huses, hkeeps'⟩
    | some ip =>
      unfold putInode
      rw [wp_onFs]
      refine wp_mono (closeProgram_spec h hip) ?_ fun _ _ _ => trivial
      intro _ t' ht'
      exact hQ _ ⟨t', m', rfl, ht', huses, hkeeps'⟩
  unfold bad
  rw [wp_bind]
  cases pgdir with
  | none => exact hput m hpgdir hkeeps
  | some pgdir =>
    unfold freePgdir
    rw [wp_onMem]
    refine wp_mono (Vm.freevm_spec hpgdir) ?_ fun _ _ _ => trivial
    rintro _ m' ⟨huses, hkeeps', _⟩
    exact hput m' huses (hkeeps.trans hkeeps')

theorem Back.unchanged (h : Back A (s.kernel.mem.own D + R) s s')
    (hspace : Vm.Space A s.kernel.mem D sz R) : Unchanged D s s' := by
  obtain ⟨t, m, rfl, hclosed, huses, hkeeps⟩ := h
  have hown : Vm.Keeps (s.kernel.mem.own D) s.kernel.mem m :=
    hkeeps.left
  refine ⟨rfl, hown.view.2.1, fun u hu => (hown.same u hu).1, rfl, rfl, ?_, hclosed⟩
  have hboth : (m.free : Multiset Nat) + (s.kernel.mem.own D + R) =
      (s.kernel.mem.free : Multiset Nat) + (s.kernel.mem.own D + R) :=
    Eq.trans huses hspace.dir.uses.symm
  exact Multiset.coe_eq_coe.mp (add_right_cancel hboth)

theorem commit_spec {img : Vm.Image} {ip : Vm.File} {elf : Vm.Elfhdr}
    (hspace : Vm.Space A s.kernel.mem D sz R) (hD : (s.kernel.proc p).pgdir = some D)
    (hkeeps : Vm.Keeps (s.kernel.mem.own D + R) s.kernel.mem m)
    (hnew : Vm.Space A m img.pgdir img.sz (s.kernel.mem.own D + R))
    (hready : Vm.Ready m ip elf argv img) :
    wp (commit K p path img)
      (fun r s' => r = 0 ∧ (s'.kernel.proc p).pgdir = some img.pgdir ∧
        Vm.Ready s'.kernel.mem ip elf argv
          { pgdir := img.pgdir, sz := (s'.kernel.proc p).sz, eip := (s'.tf p).eip,
            esp := (s'.tf p).esp })
      E (s.put t m) := by
  have hown : Vm.Keeps (s.kernel.mem.own D) s.kernel.mem m :=
    hkeeps.left
  have hold := Kernel.beside_new hspace hown hnew
  unfold commit
  rw [wp_bind, wp_get, wp_bind, wp_modify, wp_bind,
    show (s.put t m).install p path img = (s.install p path img).put t m from rfl, wp_onMem,
    show ((s.put t m).kernel.proc p).pgdir = some D from hD]
  refine wp_mono (Vm.freevm_spec hold.dir) ?_ fun _ _ he => he.elim
  rintro _ m' ⟨_, hkeeps', _⟩
  have hready' := hready.congr
    hkeeps'.left (le_of_lt hnew.size)
  simp only [wp_pure, State.put, State.install, set_self, Function.update_self]
  exact ⟨trivial, trivial, hready'⟩

theorem execImage_spec {elf : Vm.Elfhdr} (h : Fs.In s.fs 0 ∅ ∅)
    (hspace : Vm.Space A s.kernel.mem D sz R) (hD : (s.kernel.proc p).pgdir = some D)
    (hopen : Opened s.fs ip t) :
    wp (execImage K p path argv ip elf)
      (fun r s' => r = -1 ∧ Back A (s.kernel.mem.own D + R) s s' ∨
        r = 0 ∧ ∃ D', (s'.kernel.proc p).pgdir = some D' ∧
          Vm.Ready s'.kernel.mem (contents t ip) elf argv
            { pgdir := D', sz := (s'.kernel.proc p).sz, eip := (s'.tf p).eip,
              esp := (s'.tf p).esp })
      (fun _ _ => True) (s.put t s.kernel.mem) := by
  unfold execImage
  rw [wp_bind, wp_onMem]
  refine wp_mono (Vm.setupkvm_laid hspace.dir.uses) ?_ fun _ _ he => he.elim
  rintro r m1 ⟨hkeeps1, ⟨pgdir, rfl, hlaid, _⟩ | ⟨rfl, huses, _⟩⟩
  · simp only
    rw [wp_bind, wp_get, wp_bind, wp_onMem]
    refine wp_mono (Vm.loadSegments_spec hlaid) ?_ fun _ _ _ => trivial
    rintro r m2 ⟨hload, hr⟩
    have hkeeps2 := hkeeps1.trans hload.keeps
    rcases hr with ⟨rfl, _⟩ | ⟨sz2, S, rfl, _, hlaid2⟩
    · obtain ⟨_, hspace2, _⟩ := hload.space
      exact bad_spec h hspace2.dir hkeeps2 hopen fun _ hb => .inl ⟨rfl, hb⟩
    simp only
    rw [wp_bind, wp_onFs]
    refine wp_mono (closeProgram_spec h hopen) ?_ fun _ _ _ => trivial
    intro _ t' hclosed
    rw [wp_bind, wp_onMem]
    refine wp_mono (Vm.buildStack_spec hlaid2) ?_ fun _ _ _ => trivial
    rintro r m3 ⟨⟨⟨sz3, hspace3, hr⟩, hkeeps3⟩, _, hstack⟩
    cases r with
    | none =>
      exact bad_spec h hspace3.dir (hkeeps2.trans hkeeps3) hclosed fun _ hb => .inl ⟨rfl, hb⟩
    | some img =>
      obtain ⟨rfl, rfl⟩ := hr img rfl
      have hready := hload.ready hlaid.space (hstack img rfl) hspace3 rfl
      refine wp_post (commit_spec hspace hD (hkeeps2.trans hkeeps3) hspace3 hready) ?_
      rintro r s' ⟨rfl, hpgdir, hready'⟩
      exact .inr ⟨rfl, img.pgdir, hpgdir, hready'⟩
  · exact bad_spec h huses hkeeps1 hopen fun _ hb => .inl ⟨rfl, hb⟩

theorem exec_spec (h : Fs.In s.fs 0 ∅ ∅) (hcwd : (s.fs.proc p).cwd = some b)
    (hspace : Vm.Space A s.kernel.mem D sz R) (hD : (s.kernel.proc p).pgdir = some D) :
    wp (exec K p path argv)
      (fun r s' => r = -1 ∧ Unchanged D s s' ∨ r = 0 ∧ Installed p path argv s s')
      (fun _ _ => True) s := by
  have hback : ∀ s', Back A (s.kernel.mem.own D + R) s s' →
      (-1 : Int) = -1 ∧ Unchanged D s s' ∨ (-1 : Int) = 0 ∧ Installed p path argv s s' :=
    fun s' hb => .inl ⟨rfl, hb.unchanged hspace⟩
  change wp (exec K p path argv) _ _ (s.put s.fs s.kernel.mem)
  unfold exec
  rw [wp_bind, wp_onFs]
  refine wp_mono (openProgram_spec h hcwd) ?_ fun _ _ _ => trivial
  intro r t hr
  cases r with
  | none => exact hback _ ⟨t, _, rfl, hr, hspace.dir.uses, Vm.Keeps.refl _ _⟩
  | some x =>
    obtain ⟨ip, elf⟩ := x
    simp only [wp_ite]
    by_cases hlen : elf.length ≠ Vm.elfhdrSize
    · rw [if_pos hlen]
      exact bad_spec h hspace.dir.uses (Vm.Keeps.refl _ _) hr.opened hback
    rw [if_neg hlen]
    by_cases hmagic : (fileOf elf).elfhdr.magic ≠ Vm.ELF_MAGIC
    · rw [if_pos hmagic]
      exact bad_spec h hspace.dir.uses (Vm.Keeps.refl _ _) hr.opened hback
    rw [if_neg hmagic]
    refine wp_post (execImage_spec h hspace hD hr.opened) ?_
    rintro r s' (⟨rfl, hb⟩ | ⟨rfl, D', hD', hready⟩)
    · exact hback s' hb
    obtain ⟨name, hname⟩ := hr.resolved
    refine .inr ⟨rfl, _, name, D', hname, hD', ?_⟩
    intro hdev
    have hcontents : contents t ip = fileOf (s.fs.node (t.icache ip).inum).data := by
      unfold contents
      rw [hr.opened.inv.image_eq (Finset.mem_singleton_self ip), hr.opened.node]
    have helf := elfhdr_take (hr.header hdev)
    rw [hcontents, helf] at hready
    exact hready

theorem onFs_ok {x : Fs.FM α} (h : x t = (.ok a, t')) :
    onFs x (s.put t m) = (.ok a, s.put t' m) := by
  unfold onFs zoom mapError
  simp only [State.put, h]

theorem onMem_ok {x : Vm.M α} (h : x m = (.ok a, m')) :
    onMem x (s.put t m) = (.ok a, s.put t m') := by
  unfold onMem zoom mapError
  simp only [State.put, h]

section
variable (hopen : openProgram p path s.fs = (.ok (some (ip, elf)), t))
include hopen

theorem exec_refused (helf : elf.length ≠ Vm.elfhdrSize ∨ (fileOf elf).elfhdr.magic ≠ Vm.ELF_MAGIC)
    (hclose : closeProgram ip t = (.ok (), t')) :
    exec K p path argv s = (.ok (-1), s.put t' s.kernel.mem) := by
  have hbad : bad K none (some ip) (s.put t s.kernel.mem) = (.ok (-1), s.put t' s.kernel.mem) :=
    bind_ok (onFs_ok hclose)
  change exec K p path argv (s.put s.fs s.kernel.mem) = _
  unfold exec
  rw [bind_ok (onFs_ok hopen)]
  simp only
  by_cases hlen : elf.length ≠ Vm.elfhdrSize
  · rw [if_pos hlen]
    exact hbad
  · rw [if_neg hlen, if_pos (helf.resolve_left hlen)]
    exact hbad

theorem exec_refines {k : Kernel.State}
    (hlen : elf.length = Vm.elfhdrSize) (hmagic : (fileOf elf).elfhdr.magic = Vm.ELF_MAGIC)
    (helf : (fileOf elf).elfhdr = (contents t ip).elfhdr)
    (hclose : closeProgram ip t = (.ok (), t'))
    (hexec : Kernel.execFile K p (some (contents t ip)) argv s.kernel = (.ok 0, k)) :
    ∃ s', exec K p path argv s = (.ok 0, s') ∧ s'.kernel = k := by
  obtain ⟨_, _, hget, hexec⟩ := bind_eq_ok hexec
  cases hget
  obtain ⟨r, k1, hvm, hexec⟩ := bind_eq_ok hexec
  obtain ⟨m, hrun, rfl⟩ := zoom_eq_ok hvm
  cases r with
  | none => cases hexec
  | some img =>
    obtain ⟨pgdir, m1, sz, m2, hsetup, hload, hstack⟩ := Vm.exec_eq_some hrun
    obtain ⟨_, _, hupd, hexec⟩ := bind_eq_ok hexec
    cases hupd
    obtain ⟨_, k2, hfree, hexec⟩ := bind_eq_ok hexec
    cases hexec
    obtain ⟨m', hfreed, rfl⟩ := zoom_eq_ok hfree
    change ∃ s', exec K p path argv (s.put s.fs s.kernel.mem) = _ ∧ _
    unfold exec execImage
    rw [bind_ok (onFs_ok hopen)]
    simp only
    rw [if_neg (not_not.mpr hlen), if_neg (not_not.mpr hmagic), helf, bind_ok (onMem_ok hsetup)]
    simp only
    rw [bind_ok (show Prog.get (s.put t m1) = _ from rfl), show (s.put t m1).fs = t from rfl,
      bind_ok (onMem_ok hload)]
    simp only
    rw [bind_ok (onFs_ok hclose), bind_ok (onMem_ok hstack)]
    have hcommit : onMem (Vm.freevm K (s.kernel.proc p).pgdir) ((s.install p path img).put t' m) =
        _ := onMem_ok hfreed
    exact ⟨_, bind_ok hcommit, rfl⟩

end

section Results

variable {s : State}

/-- An `exec` that returns -1 has changed nothing. -/
theorem failed_exec_changes_nothing (hkernel : Kernel.Inv A s.kernel) (hfs : Fs.In s.fs 0 ∅ ∅)
    (hp : (s.kernel.proc p).state = .runnable) (hcwd : (s.fs.proc p).cwd = some b)
    (hD : (s.kernel.proc p).pgdir = some D) (hrun : exec K p path argv s = (.ok (-1), s')) :
    Unchanged D s s' := by
  obtain ⟨D', hD', hspace⟩ := hkernel.toSpace (Kernel.alive_of_runnable hp)
  obtain rfl : D = D' := Option.some.inj (hD.symm.trans hD')
  rcases wp_ok (exec_spec hfs hcwd hspace hD) hrun with ⟨_, h⟩ | ⟨h, _⟩
  · exact h
  · cases h

def programTest (path : Fs.Str) (test : List UInt8 → List UInt8 → Bool) (s : Fs.State) : Bool :=
  match openProgram 0 path s with
  | (.ok (some (ip, elf)), t) =>
    (s.proc 0).cwd.isSome && test elf (t.image ip).data &&
      match closeProgram ip t with
      | (.ok _, _) => true
      | _ => false
  | _ => false

theorem runs_of_programTest {test : List UInt8 → List UInt8 → Bool}
    (h : programTest path test t = true) :
    ∃ b ip elf t1 t2, (t.proc 0).cwd = some b ∧
      openProgram 0 path t = (.ok (some (ip, elf)), t1) ∧ test elf (t1.image ip).data = true ∧
      closeProgram ip t1 = (.ok (), t2) := by
  unfold programTest at h
  split at h
  · rename_i ip elf t1 hopen
    split at h
    · rename_i _ t2 hclose
      simp only [Bool.and_true, Bool.and_eq_true] at h
      obtain ⟨b, hb⟩ := Option.isSome_iff_exists.mp h.1
      exact ⟨b, ip, elf, t1, t2, hb, hopen, h.2, hclose⟩
    · simp at h
  · cases h

def sample (k : Kernel.State) (t : Fs.State) : State where
  kernel := k
  fs := t
  tf := fun _ => ⟨0, 0⟩
  name := fun _ => []

/-- The root directory is not a program. -/
theorem exec_of_directory :
    ∃ s s' D, (s.kernel.proc 0).pgdir = some D ∧
      exec Kernel.sampleSymbols 0 [47] [] s = (.ok (-1), s') ∧ Unchanged D s s' := by
  obtain ⟨k, hboot⟩ := Kernel.exists_booted Kernel.sampleSymbols_ok Kernel.sampleSymbols_room
  obtain ⟨hinv, hp, _⟩ := hboot.facts Kernel.sampleSymbols_ok
  obtain ⟨D, hD, _⟩ := hinv.toSpace (Kernel.alive_of_runnable hp)
  have htest : programTest [47] (fun elf _ => decide ((fileOf elf).elfhdr.magic ≠ Vm.ELF_MAGIC))
      (Fs.boot Fs.freshImage []) = true := by
    decide +kernel
  obtain ⟨b, ip, elf, t1, t2, hcwd, hopen, helf, hclose⟩ := runs_of_programTest htest
  have hrun : exec Kernel.sampleSymbols 0 [47] [] (sample k (Fs.boot Fs.freshImage [])) = _ :=
    exec_refused hopen (.inr (of_decide_eq_true helf)) hclose
  exact ⟨_, _, D, hD, hrun, failed_exec_changes_nothing hinv
    (Fs.settled_of_reachable Fs.consistent_freshImage (Reachable.init _)).inv hp hcwd hD hrun⟩

/-- An `exec` that returns 0 has installed the image that the file describes. -/
theorem exec_installs_image (hkernel : Kernel.Inv A s.kernel) (hfs : Fs.In s.fs 0 ∅ ∅)
    (hp : (s.kernel.proc p).state = .runnable) (hcwd : (s.fs.proc p).cwd = some b)
    (hrun : exec K p path argv s = (.ok 0, s')) : Installed p path argv s s' := by
  obtain ⟨D, hD, hspace⟩ := hkernel.toSpace (Kernel.alive_of_runnable hp)
  rcases wp_ok (exec_spec hfs hcwd hspace hD) hrun with ⟨h, _⟩ | ⟨_, h⟩
  · cases h
  · exact h

/-- A program of one page of zeros. -/
theorem exec_of_bss :
    ∃ s s', exec Kernel.sampleSymbols 0 [120] [] s = (.ok 0, s') ∧
      Installed 0 [120] [] s s' := by
  obtain ⟨k, hboot⟩ := Kernel.exists_booted Kernel.sampleSymbols_ok Kernel.sampleSymbols_room
  obtain ⟨hinv, hp, hfree⟩ := hboot.facts Kernel.sampleSymbols_ok
  obtain ⟨t, hsteps, htest⟩ := exists_of_run_map Fs.step (Fs.boot Fs.freshImage [])
    [(0, .openf (some [120]) 514), (0, .write 0 Kernel.bssBytes)]
    (programTest [120] fun elf data =>
      decide (elf = Kernel.bssBytes.take 52 ∧ data = Kernel.bssBytes))
    (by decide +kernel)
  obtain ⟨b, ip, elf, t1, t2, hcwd, hopen, helf, hclose⟩ := runs_of_programTest htest
  obtain ⟨rfl, hdata⟩ := of_decide_eq_true helf
  have hcontents : contents t1 ip = Kernel.bssFile := by
    unfold contents
    rw [hdata]
    rfl
  obtain ⟨k', hexec, _⟩ := Kernel.execFile_starts hinv hp
    (Kernel.bssFile_plan (show 78 ≤ k.mem.free.length by omega))
  obtain ⟨s', hrun, _⟩ := exec_refines (s := sample k t) hopen (by decide) (by decide)
    (by rw [hcontents]; exact elfhdr_take rfl) hclose (by rw [hcontents]; exact hexec)
  exact ⟨_, s', hrun, exec_installs_image hinv
    (Fs.settled_of_reachable Fs.consistent_freshImage ⟨_, hsteps⟩).inv hp hcwd hrun⟩

end Results

end Xv6.Exec
