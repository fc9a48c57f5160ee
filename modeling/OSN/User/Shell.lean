import Mathlib.Tactic.Common

/-!
# The parser of the shell

`parsecmd` takes a line of text to a tree of commands by recursive descent, with `peek` and
`gettoken` over the text itself.  The tree points into the line; at last `nulterminate` ends
each of its strings there.

A pointer into the line is the text from there to the end of the line.  The parsing functions
call each other as deep as the text has parentheses, and take that depth and more as fuel.
-/

namespace Sh

/-- A pointer into the line: what it points to, up to the NUL at the end. -/
abbrev Ptr := List UInt8

/-- A string in the line, from `q` up to `eq`. -/
structure Str where
  q : Ptr
  eq : Ptr
  deriving DecidableEq

/-- `struct cmd`, over what stands for its strings. -/
inductive Cmd (α : Type) where
  | exec (argv : List α)
  | redir (cmd : Cmd α) (file : α) (mode : Nat) (fd : Nat)
  | pipe (left right : Cmd α)
  | list (left right : Cmd α)
  | back (cmd : Cmd α)
  deriving DecidableEq

/-- How the parser stops. -/
inductive Stop where
  /-- `panic`, with its text. -/
  | panic (text : String)
  /-- The fuel is used up. -/
  | fuel
  deriving DecidableEq

def MAXARGS : Nat := 10

def O_RDONLY : Nat := 0x000
def O_WRONLY : Nat := 0x001
def O_CREATE : Nat := 0x200
def O_TRUNC : Nat := 0x400

/-- The characters of a string literal. -/
def bytes (text : String) : List UInt8 := text.toUTF8.data.toList

def whitespace : List UInt8 := bytes " \t\r\n" ++ [11]

def symbols : List UInt8 := bytes "<|>&;()"

/-- `while(s < es && strchr(whitespace, *s)) s++`. -/
def skip (s : Ptr) : Ptr := s.dropWhile (· ∈ whitespace)

/-- What `gettoken` returns, sets and moves. -/
structure Token where
  ret : UInt8
  str : Str
  ps : Ptr
  deriving DecidableEq

/-- The `switch` of `gettoken`: what is returned, and the pointer after the token. -/
def gettokenAt : Ptr → UInt8 × Ptr
  | [] => (0, [])
  | c :: s =>
      if c ∈ bytes "|();&<" then (c, s)
      else if c = '>'.toUInt8 then
        match s with
        | [] => (c, [])
        | d :: s => if d = '>'.toUInt8 then ('+'.toUInt8, s) else (c, d :: s)
      else ('a'.toUInt8, (c :: s).dropWhile fun b => b ∉ whitespace ∧ b ∉ symbols)

/-- `gettoken`. -/
def gettoken (ps : Ptr) : Token :=
  let q := skip ps
  let found := gettokenAt q
  { ret := found.1, str := ⟨q, found.2⟩, ps := skip found.2 }

/-- What `peek` returns when the pointer is past the whitespace. -/
def startsWith (toks : String) : Ptr → Bool
  | [] => false
  | c :: _ => c ∈ bytes toks

/-- `peek`: it moves the pointer past the whitespace. -/
def peek (ps : Ptr) (toks : String) : Ptr × Bool :=
  (skip ps, startsWith toks (skip ps))

/-- What `redircmd` puts around a command. -/
structure Redir (α : Type) where
  file : α
  mode : Nat
  fd : Nat
  deriving DecidableEq

/-- Commands are put around a command, the last one outermost. -/
def Cmd.redirect {α : Type} (cmd : Cmd α) (redirs : List (Redir α)) : Cmd α :=
  redirs.foldl (fun cmd r => .redir cmd r.file r.mode r.fd) cmd

/-- The `switch` of `parseredirs`. -/
def redirOf {α : Type} (tok : UInt8) (file : α) : Redir α :=
  if tok = '<'.toUInt8 then ⟨file, O_RDONLY, 0⟩
  else if tok = '>'.toUInt8 then ⟨file, O_WRONLY ||| O_CREATE ||| O_TRUNC, 1⟩
  else ⟨file, O_WRONLY ||| O_CREATE, 1⟩

/-- `parseredirs`, with what it puts around its command after `redirs`. -/
def parseredirs : Nat → List (Redir Str) → Ptr → Except Stop (List (Redir Str) × Ptr)
  | 0, _, _ => .error .fuel
  | fuel + 1, redirs, ps =>
      let seen := peek ps "<>"
      if seen.2 then
        let tok := gettoken seen.1
        let file := gettoken tok.ps
        if file.ret ≠ 'a'.toUInt8 then .error (.panic "missing file for redirection")
        else parseredirs fuel (redirs ++ [redirOf tok.ret file.str]) file.ps
      else .ok (redirs, seen.1)

/-- The loop of `parseexec`.  It fills `argv` of a command that `redirs` are around already. -/
def parseargs : Nat → List Str → List (Redir Str) → Ptr →
    Except Stop (List Str × List (Redir Str) × Ptr)
  | 0, _, _, _ => .error .fuel
  | fuel + 1, argv, redirs, ps =>
      let seen := peek ps "|)&;"
      if seen.2 then .ok (argv, redirs, seen.1)
      else
        let tok := gettoken seen.1
        if tok.ret = 0 then .ok (argv, redirs, tok.ps)
        else if tok.ret ≠ 'a'.toUInt8 then .error (.panic "syntax")
        else if (argv ++ [tok.str]).length ≥ MAXARGS then .error (.panic "too many args")
        else
          match parseredirs fuel redirs tok.ps with
          | .error e => .error e
          | .ok (redirs, ps) => parseargs fuel (argv ++ [tok.str]) redirs ps

/-- The loop of `parseline` over `&`. -/
def parsebacks : Nat → Cmd Str → Ptr → Except Stop (Cmd Str × Ptr)
  | 0, _, _ => .error .fuel
  | fuel + 1, cmd, ps =>
      let seen := peek ps "&"
      if seen.2 then parsebacks fuel (.back cmd) (gettoken seen.1).ps else .ok (cmd, seen.1)

mutual

def parseline : Nat → Ptr → Except Stop (Cmd Str × Ptr)
  | 0, _ => .error .fuel
  | fuel + 1, ps => do
      let (cmd, ps) ← parsepipe fuel ps
      let (cmd, ps) ← parsebacks fuel cmd ps
      let seen := peek ps ";"
      if seen.2 then
        let (right, ps) ← parseline fuel (gettoken seen.1).ps
        .ok (.list cmd right, ps)
      else .ok (cmd, seen.1)

def parsepipe : Nat → Ptr → Except Stop (Cmd Str × Ptr)
  | 0, _ => .error .fuel
  | fuel + 1, ps => do
      let (cmd, ps) ← parseexec fuel ps
      let seen := peek ps "|"
      if seen.2 then
        let (right, ps) ← parsepipe fuel (gettoken seen.1).ps
        .ok (.pipe cmd right, ps)
      else .ok (cmd, seen.1)

def parseblock : Nat → Ptr → Except Stop (Cmd Str × Ptr)
  | 0, _ => .error .fuel
  | fuel + 1, ps => do
      let seen := peek ps "("
      if !seen.2 then .error (.panic "parseblock")
      else
        let (cmd, ps) ← parseline fuel (gettoken seen.1).ps
        let seen := peek ps ")"
        if !seen.2 then .error (.panic "syntax - missing )")
        else
          let (redirs, ps) ← parseredirs fuel [] (gettoken seen.1).ps
          .ok (cmd.redirect redirs, ps)

def parseexec : Nat → Ptr → Except Stop (Cmd Str × Ptr)
  | 0, _ => .error .fuel
  | fuel + 1, ps => do
      let seen := peek ps "("
      if seen.2 then parseblock fuel seen.1
      else
        let (redirs, ps) ← parseredirs fuel [] seen.1
        let (argv, redirs, ps) ← parseargs fuel [] redirs ps
        .ok ((Cmd.exec argv).redirect redirs, ps)

end

/-- Where a pointer points in a line. -/
def Ptr.index (text : List UInt8) (s : Ptr) : Nat := text.length - s.length

/-- `*eq = 0`.  The line ends with a NUL anyway. -/
def nul (text buf : List UInt8) (eq : Ptr) : List UInt8 := buf.set (eq.index text) 0

/-- `nulterminate`, over the contents of the line's buffer. -/
def nulterminate (text : List UInt8) : Cmd Str → List UInt8 → List UInt8
  | .exec argv, buf => argv.foldl (fun buf arg => nul text buf arg.eq) buf
  | .redir cmd file _ _, buf => nul text (nulterminate text cmd buf) file.eq
  | .pipe left right, buf => nulterminate text right (nulterminate text left buf)
  | .list left right, buf => nulterminate text right (nulterminate text left buf)
  | .back cmd, buf => nulterminate text cmd buf

/-- `parsecmd`: the tree, and what the line's buffer holds then. -/
def parsecmd (text : List UInt8) : Except Stop (Cmd Str × List UInt8) :=
  match parseline (4 * text.length + 4) text with
  | .error e => .error e
  | .ok (cmd, ps) =>
      if (peek ps "").1 ≠ [] then .error (.panic "syntax")
      else .ok (cmd, nulterminate text cmd text)

/-- The string at a pointer into a buffer. -/
def cString (text buf : List UInt8) (s : Ptr) : List UInt8 :=
  (buf.drop (s.index text)).takeWhile (· ≠ 0)

def Cmd.map {α β : Type} (f : α → β) : Cmd α → Cmd β
  | .exec argv => .exec (argv.map f)
  | .redir cmd file mode fd => .redir (cmd.map f) (f file) mode fd
  | .pipe left right => .pipe (left.map f) (right.map f)
  | .list left right => .list (left.map f) (right.map f)
  | .back cmd => .back (cmd.map f)

/-- What `runcmd` finds: the tree with its strings as they are in the buffer. -/
def strings (text buf : List UInt8) (cmd : Cmd Str) : Cmd (List UInt8) :=
  cmd.map fun s => cString text buf s.q

end Sh
