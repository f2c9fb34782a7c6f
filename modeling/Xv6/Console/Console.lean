import Xv6.Kernel.Trap

/-!
# The console

console.c on one processor, with the page faults that copying to and from user memory
raises.  The state has the spinlocks that the processor holds, so that taking one of them
again, the panic of `acquire`, can be seen.

A lock that another processor holds is waited for, which is not modelled; neither is the
waiting in `begin_op` and `ilock`, which go on when they can, nor the commit in `end_op`,
which holds no spinlock.  While a reader sleeps, something happens: keys are typed, or the
reader is killed.
-/

namespace Xv6.Console

open Lib Lib.Prog Ptable Vm

def INPUT_BUF : Nat :=
  128

structure Input where
  buf : Fin INPUT_BUF → UInt8
  r : UInt32
  w : UInt32
  e : UInt32

/-- `i % INPUT_BUF`. -/
def slot (i : UInt32) : Fin INPUT_BUF :=
  ⟨i.toNat % INPUT_BUF, Nat.mod_lt _ (by decide)⟩

/-- `C(x)`. -/
def C (x : Char) : UInt8 :=
  x.toUInt8 - '@'.toUInt8

def newline : UInt8 :=
  '\n'.toUInt8

def BACKSPACE : Nat :=
  0x100

/-- What a key does: the buffer, what is echoed, and whether readers are woken. -/
structure Echo where
  input : Input
  out : List Nat
  wake : Bool

def killLine : Nat → Input → List Nat → Echo
  | 0, i, out => ⟨i, out, false⟩
  | n + 1, i, out =>
    if i.e ≠ i.w ∧ i.buf (slot (i.e - 1)) ≠ newline then
      killLine n { i with e := i.e - 1 } (out ++ [BACKSPACE])
    else ⟨i, out, false⟩

def insertChar (i : Input) (c : UInt8) : Echo :=
  if c ≠ 0 ∧ (i.e - i.r).toNat < INPUT_BUF then
    let c := if c = '\r'.toUInt8 then newline else c
    let i := { i with buf := Function.update i.buf (slot i.e) c, e := i.e + 1 }
    if c = newline ∨ c = C 'D' ∨ i.e = i.r + INPUT_BUF.toUInt32 then
      ⟨{ i with w := i.e }, [c.toNat], true⟩
    else ⟨i, [c.toNat], false⟩
  else ⟨i, [], false⟩

/-- One turn of the loop of `consoleintr`. -/
def key (i : Input) (c : UInt8) : Echo :=
  -- the process listing is printed after the loop
  if c = C 'P' then ⟨i, [], false⟩
  else if c = C 'U' then killLine (i.e - i.w).toNat i []
  else if c = C 'H' ∨ c = 0x7f then
    if i.e ≠ i.w then ⟨{ i with e := i.e - 1 }, [BACKSPACE], false⟩ else ⟨i, [], false⟩
  else insertChar i c

inductive Lock where
  | cons
  | kmem
  | ptable
  | log
  /-- the one inside the sleep-lock of the inode -/
  | inode
deriving DecidableEq, Repr

inductive Halt where
  /-- `acquire` of a lock that the processor holds -/
  | acquire (l : Lock)
  | release (l : Lock)
  | iunlock
  | shortFilewrite
  /-- in the memory of the process -/
  | kernel (e : Stop)
  /-- nothing happens any more that would wake the reader -/
  | asleep
  /-- the process has been killed and exits -/
  | exited
deriving DecidableEq

/-- What happens while a reader sleeps. -/
inductive Event where
  | typed (cs : List UInt8)
  | kill

structure State where
  kernel : Kernel.State
  held : Lock → Bool
  /-- `cons.locking` -/
  locking : Bool
  /-- whether the calling process holds the sleep-lock of the inode -/
  ipLocked : Bool
  outstanding : Nat
  input : Input
  out : List Nat
  events : List Event

abbrev CM := Prog State Halt

def onKernel {α : Type} (x : Kernel.KM α) : CM α := fun s =>
  match x s.kernel with
  | (.ok a, k) => (.ok a, { s with kernel := k })
  | (.error e, k) => (.error (.kernel e), { s with kernel := k })

def setHeld (l : Lock) (b : Bool) : CM Unit :=
  modify fun s => { s with held := Function.update s.held l b }

def acquire (l : Lock) : CM Unit := do
  let s ← get
  if s.held l then throw (.acquire l) else setHeld l true

def release (l : Lock) : CM Unit := do
  let s ← get
  if s.held l then setHeld l false else throw (.release l)

def wakeup : CM Unit := do
  acquire .ptable
  release .ptable

/-- `sleep` with a lock.  The scheduler lets go of `ptable.lock` while `x` happens. -/
def sleep (l : Lock) (x : CM Unit) : CM Unit := do
  acquire .ptable
  release l
  release .ptable
  x
  acquire .ptable
  release .ptable
  acquire l

def consputc (c : Nat) : CM Unit :=
  modify fun s => { s with out := s.out ++ [c] }

inductive Arg where
  | word (x : Int)
  | str (s : String)

def bytes (s : String) : List Nat :=
  s.toUTF8.toList.map UInt8.toNat

def printint (xx : Int) (base : Nat) (sign : Bool) : List Nat :=
  let minus := sign ∧ xx < 0
  let x := (if minus then -xx else xx) % 2 ^ 32
  (if minus then bytes "-" else []) ++ (Nat.toDigits base x.toNat).map Char.toNat

def convert (c : Nat) (args : List Arg) : List Nat × List Arg :=
  if c = 'd'.toNat then
    match args with
    | .word x :: args => (printint x 10 true, args)
    | args => ([], args)
  else if c = 'x'.toNat ∨ c = 'p'.toNat then
    match args with
    | .word x :: args => (printint x 16 false, args)
    | args => ([], args)
  else if c = 's'.toNat then
    match args with
    | .str s :: args => (bytes s, args)
    | args => ([], args)
  else if c = '%'.toNat then (['%'.toNat], args)
  else (['%'.toNat, c], args)

def format : List Nat → List Arg → List Nat
  | [], _ => []
  | [c], _ => if c = '%'.toNat then [] else [c]
  | c :: c' :: fmt, args =>
    if c = '%'.toNat then (convert c' args).1 ++ format fmt (convert c' args).2
    else c :: format (c' :: fmt) args

def print (cs : List Nat) : CM Unit :=
  modify fun s => { s with out := s.out ++ cs }

def cprintf (fmt : String) (args : List Arg) : CM Unit := do
  let s ← get
  if s.locking then do
    acquire .cons
    print (format (bytes fmt) args)
    release .cons
  else print (format (bytes fmt) args)

def kalloc : CM (Option Frame) := do
  acquire .kmem
  let r ← onKernel (Kernel.onMem Vm.kalloc)
  release .kmem
  pure r

def kfree (K : Symbols) (f : Frame) : CM Unit := do
  acquire .kmem
  onKernel (Kernel.onMem (Vm.kfree K f))
  release .kmem

/-- The lock that `walkpgdir` takes in `kalloc` if the page table is missing. -/
def walkLock (D a : Nat) : CM Unit := do
  let s ← get
  if (s.kernel.mem.table D (PDX a)).isSome then pure ()
  else do
    acquire .kmem
    release .kmem

/-- `mappages` of one page for the user. -/
def mappages (D a mem : Nat) : CM Int := do
  walkLock D a
  onKernel (Kernel.onMem (Vm.mappages D a PGSIZE (mem * 4096) (PTE_W ||| PTE_U)))

/-- `handle_lazy_allocation`, with the locks and the messages. -/
def handleLazyAllocation (K : Symbols) (p : Slot) (D faultaddr : Nat) : CM Int := do
  let s ← get
  let sz := (s.kernel.proc p).sz
  if sz ≤ faultaddr then do
    cprintf "[LAZY] handle_lazy_allocation: faultaddr 0x%x fuera de rango (sz=%d)\n"
      [.word faultaddr, .word sz]
    pure (-1)
  else if faultaddr < PGSIZE then do
    cprintf "[LAZY] handle_lazy_allocation: acceso a NULL pointer\n" []
    pure (-1)
  else do
    match ← kalloc with
    | none => do
      cprintf "[LAZY] handle_lazy_allocation: sin memoria disponible\n" []
      pure (-1)
    | some mem => do
      onKernel (Kernel.onMem (memset mem 0))
      let r ← mappages D (PGROUNDDOWN faultaddr) mem
      if r < 0 then do
        cprintf "[LAZY] handle_lazy_allocation: mappages falló\n" []
        kfree K mem
        pure (-1)
      else do
        cprintf "[LAZY] Página asignada: addr=0x%x pid=%d\n"
          [.word (PGROUNDDOWN faultaddr), .word (s.kernel.proc p).pid]
        pure 0

def pageFault (K : Symbols) (p : Slot) (D faultaddr : Nat) : CM Unit := do
  let s ← get
  let r ← handleLazyAllocation K p D faultaddr
  if r = 0 then pure ()
  else do
    cprintf "pid %d: page fault at 0x%x - invalid memory access\n"
      [.word (s.kernel.proc p).pid, .word faultaddr]
    onKernel (Kernel.updProc p fun v => { v with killed := true })

def access (K : Symbols) (p : Slot) (write : Bool) (a : Nat) : CM Frame := do
  let D ← onKernel (Kernel.pgdirOf p)
  let s ← get
  match s.kernel.mem.translate D false write a with
  | some f => pure f
  | none => do
    pageFault K p D a
    let s ← get
    match s.kernel.mem.translate D false write a with
    | some f => pure f
    | none => throw (.kernel .refault)

def load (K : Symbols) (p : Slot) (a : Nat) : CM UInt8 := do
  let f ← access K p false a
  let s ← get
  pure (Kernel.byteAt s.kernel.mem f a)

def store (K : Symbols) (p : Slot) (a : Nat) (b : UInt8) : CM Unit := do
  let f ← access K p true a
  onKernel (modify fun k => { k with mem := Kernel.setByteAt k.mem f a b })

/-- `ilock` of an inode that is in use. -/
def ilock : CM Unit := do
  acquire .inode
  modify fun s => { s with ipLocked := true }
  release .inode

/-- `iunlock`, with `holdingsleep` and `releasesleep`. -/
def iunlock : CM Unit := do
  acquire .inode
  release .inode
  let s ← get
  if s.ipLocked then do
    acquire .inode
    modify fun s => { s with ipLocked := false }
    wakeup
    release .inode
  else throw .iunlock

def typeKey (c : UInt8) : CM Unit := do
  let s ← get
  let k := key s.input c
  modify fun s => { s with input := k.input, out := s.out ++ k.out }
  if k.wake then wakeup else pure ()

def consoleintr (cs : List UInt8) : CM Unit := do
  acquire .cons
  forEach cs typeKey
  release .cons

def happen (p : Slot) : CM Unit := do
  let s ← get
  match s.events with
  | [] => throw .asleep
  | .typed cs :: rest => do
    modify fun s => { s with events := rest }
    consoleintr cs
  | .kill :: rest => do
    modify fun s => { s with events := rest }
    onKernel (Kernel.updProc p fun v => { v with killed := true })

/-- The inner loop of `consoleread`; `false` if the reader has been killed. -/
def waitInput (p : Slot) : Nat → CM Bool
  | 0 => throw .asleep
  | n + 1 => do
    let s ← get
    if s.input.r = s.input.w then
      if (s.kernel.proc p).killed then pure false
      else do
        sleep .cons (happen p)
        waitInput p n
    else pure true

/-- `input.buf[input.r++ % INPUT_BUF]`. -/
def nextChar : CM UInt8 := do
  let s ← get
  modify fun s => { s with input := { s.input with r := s.input.r + 1 } }
  pure (s.input.buf (slot s.input.r))

/-- `^D` is saved for the next read if this one has data. -/
def unread (b : Bool) : CM Unit :=
  if b then modify fun s => { s with input := { s.input with r := s.input.r - 1 } } else pure ()

/-- The outer loop of `consoleread`: what is left of `n`, or `none` if the reader is killed. -/
def readLoop (K : Symbols) (p : Slot) (target : Nat) : Nat → Nat → CM (Option Nat)
  | 0, _ => pure (some 0)
  | n + 1, dst => do
    let s ← get
    -- every turn of the inner loop takes an event
    let ready ← waitInput p (s.events.length + 1)
    if ready then do
      let c ← nextChar
      if c = C 'D' then do
        unread (decide (n + 1 < target))
        pure (some (n + 1))
      else do
        store K p dst c
        if c = newline then pure (some n) else readLoop K p target n (dst + 1)
    else pure none

def consoleread (K : Symbols) (p : Slot) (dst n : Nat) : CM Int := do
  iunlock
  acquire .cons
  let left ← readLoop K p n n dst
  release .cons
  ilock
  match left with
  | none => pure (-1)
  | some left => pure ((n : Int) - left)

def consolewrite (K : Symbols) (p : Slot) (buf n : Nat) : CM Int := do
  iunlock
  acquire .cons
  forEach (List.range n) fun i => do
    let c ← load K p (buf + i)
    consputc c.toNat
  release .cons
  ilock
  pure n

def beginOp : CM Unit := do
  acquire .log
  modify fun s => { s with outstanding := s.outstanding + 1 }
  release .log

def endOp : CM Unit := do
  acquire .log
  modify fun s => { s with outstanding := s.outstanding - 1 }
  let s ← get
  if s.outstanding = 0 then do
    release .log
    acquire .log
    wakeup
    release .log
  else do
    wakeup
    release .log

def fileread (K : Symbols) (p : Slot) (addr n : Nat) : CM Int := do
  ilock
  let r ← consoleread K p addr n
  iunlock
  pure r

def maxChunk : Nat :=
  (10 - 1 - 1 - 2) / 2 * 512

def writeLoop (K : Symbols) (p : Slot) (addr n : Nat) : Nat → Nat → CM Int
  | 0, _ => throw (.kernel .fuel)
  | fuel + 1, i =>
    if i < n then do
      let n1 := min (n - i) maxChunk
      beginOp
      ilock
      let r ← consolewrite K p (addr + i) n1
      iunlock
      endOp
      if r ≠ n1 then throw .shortFilewrite else writeLoop K p addr n fuel (i + n1)
    else pure n

def filewrite (K : Symbols) (p : Slot) (addr n : Nat) : CM Int :=
  writeLoop K p addr n (n + 1) 0

/-- `argptr` for a buffer of `n` bytes. -/
def argptr (sz addr : Nat) (n : Int) : Bool :=
  decide (0 ≤ n ∧ addr < sz ∧ (addr + n.toNat) % 2 ^ 32 ≤ sz)

/-- `sys_read` of the console. -/
def sysRead (K : Symbols) (p : Slot) (addr : Nat) (n : Int) : CM Int := do
  let s ← get
  if argptr (s.kernel.proc p).sz addr n then fileread K p addr n.toNat else pure (-1)

/-- `sys_write` of the console. -/
def sysWrite (K : Symbols) (p : Slot) (addr : Nat) (n : Int) : CM Int := do
  let s ← get
  if argptr (s.kernel.proc p).sz addr n then filewrite K p addr n.toNat else pure (-1)

/-- `trap` for T_SYSCALL, which lets a process that has been killed exit. -/
def trapSyscall (p : Slot) (x : CM Int) : CM Int := do
  let s ← get
  if (s.kernel.proc p).killed then throw .exited
  else do
    let r ← x
    let s ← get
    if (s.kernel.proc p).killed then throw .exited else pure r

end Xv6.Console
