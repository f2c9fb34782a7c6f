import Mathlib.Tactic

/-!
# The parser of the shell

`gettoken`, `peek`, the `parse` functions and `nulterminate` (sh.c).  The input is
the list of bytes before the first NUL; a `char*` into the buffer is an offset, and
`es` is the length of the list.  The recursive functions have fuel; a panic stops
the parser with its message.

In `parseexec` the node of the command is filled in while `parseredirs` wraps it.
Here `parseredirs` returns the redirections that it has read, and `wrap` puts them
around the finished node, the first one innermost.
-/

namespace Xv6.User

def whitespace : List UInt8 :=
  [32, 9, 13, 10, 11]

/-- `symbols`: `<|>&;()`. -/
def symbols : List UInt8 :=
  [60, 124, 62, 38, 59, 40, 41]

def isSpace (c : UInt8) : Bool :=
  whitespace.contains c

def isWord (c : UInt8) : Bool :=
  !whitespace.contains c && !symbols.contains c

/-- What `gettoken` returns: 0, a symbol, `'+'` for `>>`, and `'a'` for a word. -/
inductive Tok where
  | eof
  | bar
  | lpar
  | rpar
  | semi
  | amp
  | lt
  | gt
  | gtgt
  | word
deriving DecidableEq, Repr

inductive Panic where
  | leftovers
  | syntaxError
  | missingFile
  | missingParen
  | parseblock
  | tooManyArgs
deriving DecidableEq, Repr

inductive Halt where
  | panic (p : Panic)
  | fuel
deriving DecidableEq, Repr

/-- `struct redircmd` without the command: `file`, `efile`, `mode` and `fd`. -/
structure Redir where
  file : Nat
  efile : Nat
  mode : Nat
  fd : Nat
deriving DecidableEq, Repr

/-- `struct cmd`; the arguments are pairs of `argv` and `eargv`. -/
inductive Cmd where
  | exec (argv : List (Nat × Nat))
  | redir (cmd : Cmd) (r : Redir)
  | pipe (left right : Cmd)
  | list (left right : Cmd)
  | back (cmd : Cmd)
deriving DecidableEq, Repr

abbrev MAXARGS : Nat := 10
abbrev O_RDONLY : Nat := 0
abbrev O_WRONLY : Nat := 1
abbrev O_CREATE : Nat := 512

def wrap (cmd : Cmd) (rs : List Redir) : Cmd :=
  rs.foldl Cmd.redir cmd

section Parser

variable (buf : List UInt8)

/-- `*s`; the byte at `es` is NUL. -/
def charAt (s : Nat) : UInt8 :=
  buf.getD s 0

/-- `while(s < es && strchr(whitespace, *s)) s++;` -/
def skip (s : Nat) : Nat :=
  s + ((buf.drop s).takeWhile isSpace).length

def scan (s : Nat) : Tok × Nat :=
  if charAt buf s = 0 then (.eof, s)
  else if charAt buf s = 124 then (.bar, s + 1)
  else if charAt buf s = 40 then (.lpar, s + 1)
  else if charAt buf s = 41 then (.rpar, s + 1)
  else if charAt buf s = 59 then (.semi, s + 1)
  else if charAt buf s = 38 then (.amp, s + 1)
  else if charAt buf s = 60 then (.lt, s + 1)
  else if charAt buf s = 62 then
    if charAt buf (s + 1) = 62 then (.gtgt, s + 2) else (.gt, s + 1)
  else (.word, s + ((buf.drop s).takeWhile isWord).length)

/-- What `gettoken` leaves in `*q`, `*eq` and `*ps`, and the token. -/
structure Got where
  tok : Tok
  q : Nat
  eq : Nat
  ps : Nat

def gettoken (s : Nat) : Got where
  tok := (scan buf (skip buf s)).1
  q := skip buf s
  eq := (scan buf (skip buf s)).2
  ps := skip buf (scan buf (skip buf s)).2

/-- `peek`: what it returns; it leaves `skip buf s` in `*ps`. -/
def peek (s : Nat) (toks : List UInt8) : Bool :=
  charAt buf (skip buf s) ≠ 0 && toks.contains (charAt buf (skip buf s))

def redirOf (tok : Tok) (q eq : Nat) : Redir :=
  if tok = .lt then ⟨q, eq, O_RDONLY, 0⟩ else ⟨q, eq, O_WRONLY ||| O_CREATE, 1⟩

def parseredirs : Nat → Nat → Except Halt (List Redir × Nat)
  | 0, _ => .error .fuel
  | fuel + 1, s =>
    if peek buf s [60, 62] = true then
      let op := gettoken buf (skip buf s)
      let file := gettoken buf op.ps
      if file.tok ≠ .word then .error (.panic .missingFile)
      else
        match parseredirs fuel file.ps with
        | .error e => .error e
        | .ok (rs, s') => .ok (redirOf op.tok file.q file.eq :: rs, s')
    else .ok ([], skip buf s)

def parseargs : Nat → Nat → Nat → Except Halt ((List (Nat × Nat) × List Redir) × Nat)
  | 0, _, _ => .error .fuel
  | fuel + 1, argc, s =>
    if peek buf s [124, 41, 38, 59] = true then .ok (([], []), skip buf s)
    else
      let got := gettoken buf (skip buf s)
      if got.tok = .eof then .ok (([], []), got.ps)
      else if got.tok ≠ .word then .error (.panic .syntaxError)
      else if argc + 1 ≥ MAXARGS then .error (.panic .tooManyArgs)
      else
        match parseredirs buf fuel got.ps with
        | .error e => .error e
        | .ok (rs, s') =>
          match parseargs fuel (argc + 1) s' with
          | .error e => .error e
          | .ok ((args, rs'), s'') => .ok (((got.q, got.eq) :: args, rs ++ rs'), s'')

/-- The loop over `&` in `parseline`. -/
def parsebacks : Nat → Cmd → Nat → Except Halt (Cmd × Nat)
  | 0, _, _ => .error .fuel
  | fuel + 1, cmd, s =>
    if peek buf s [38] = true then parsebacks fuel (.back cmd) (gettoken buf (skip buf s)).ps
    else .ok (cmd, skip buf s)

mutual

def parseline : Nat → Nat → Except Halt (Cmd × Nat)
  | 0, _ => .error .fuel
  | fuel + 1, s =>
    match parsepipe fuel s with
    | .error e => .error e
    | .ok (cmd, s) =>
      match parsebacks buf fuel cmd s with
      | .error e => .error e
      | .ok (cmd, s) =>
        if peek buf s [59] = true then
          match parseline fuel (gettoken buf (skip buf s)).ps with
          | .error e => .error e
          | .ok (right, s) => .ok (.list cmd right, s)
        else .ok (cmd, skip buf s)

def parsepipe : Nat → Nat → Except Halt (Cmd × Nat)
  | 0, _ => .error .fuel
  | fuel + 1, s =>
    match parseexec fuel s with
    | .error e => .error e
    | .ok (cmd, s) =>
      if peek buf s [124] = true then
        match parsepipe fuel (gettoken buf (skip buf s)).ps with
        | .error e => .error e
        | .ok (right, s) => .ok (.pipe cmd right, s)
      else .ok (cmd, skip buf s)

def parseexec : Nat → Nat → Except Halt (Cmd × Nat)
  | 0, _ => .error .fuel
  | fuel + 1, s =>
    if peek buf s [40] = true then parseblock fuel (skip buf s)
    else
      match parseredirs buf fuel (skip buf s) with
      | .error e => .error e
      | .ok (rs, s) =>
        match parseargs buf fuel 0 s with
        | .error e => .error e
        | .ok ((args, rs'), s) => .ok (wrap (.exec args) (rs ++ rs'), s)

def parseblock : Nat → Nat → Except Halt (Cmd × Nat)
  | 0, _ => .error .fuel
  | fuel + 1, s =>
    if peek buf s [40] = true then
      match parseline fuel (gettoken buf (skip buf s)).ps with
      | .error e => .error e
      | .ok (cmd, s) =>
        if peek buf s [41] = true then
          match parseredirs buf fuel (gettoken buf (skip buf s)).ps with
          | .error e => .error e
          | .ok (rs, s) => .ok (wrap cmd rs, s)
        else .error (.panic .missingParen)
    else .error (.panic .parseblock)

end

/-- The buffer, as memory. -/
def memory : Nat → UInt8 :=
  charAt buf

end Parser

/-- `*p = 0;` for each of the pointers. -/
def setNul (mem : Nat → UInt8) (ps : List Nat) : Nat → UInt8 :=
  ps.foldl (fun m p => Function.update m p 0) mem

def nulterminate (mem : Nat → UInt8) : Cmd → Nat → UInt8
  | .exec argv => setNul mem (argv.map Prod.snd)
  | .redir cmd r => setNul (nulterminate mem cmd) [r.efile]
  | .pipe left right => nulterminate (nulterminate mem left) right
  | .list left right => nulterminate (nulterminate mem left) right
  | .back cmd => nulterminate mem cmd

def parseFuel (buf : List UInt8) : Nat :=
  4 * buf.length + 5

/-- `parsecmd`: the tree, and the memory after `nulterminate`. -/
def parsecmd (buf : List UInt8) : Except Halt (Cmd × (Nat → UInt8)) :=
  match parseline buf (parseFuel buf) 0 with
  | .error e => .error e
  | .ok (cmd, s) =>
    if skip buf s ≠ buf.length then .error (.panic .leftovers)
    else .ok (cmd, nulterminate (memory buf) cmd)

end Xv6.User
