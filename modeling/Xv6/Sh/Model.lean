import Xv6.Param

/-!
# The Shell Parser

The parser of `user/sh.c`: from a line of text to a tree of commands.

The text is a list of bytes without NUL, which in memory one NUL follows. A pointer
into it is a number, and `es` is its length. Five functions share the cursor `*ps`;
each takes it and returns it moved. Where the source calls `panic`, the process exits
with a message, which is a panic here too. A call or an iteration of a loop costs one
unit of fuel, and `wait` means that it ran out.

The nodes of the tree hold pointers to the first byte of a word and past its last
one. `parseexec` keeps a pointer to the `EXEC` node while redirections are put around
it, and adds arguments through it; `Cmd.addArg` is that assignment.

## Main definitions

* `Fault`: The ways to fail.
* `Cmd`: A tree of commands, over any kind of words.
* `gettoken`, `peek`: The two functions that look at the text.
* `parseline`, `parsepipe`, `parseexec`, `parseblock`, `parseredirs`: The parser.
* `nulterminate`: The words are made into strings.
* `parsecmd`: All of it.
-/

namespace Xv6.Sh

def MAXARGS : Nat := 10

/-- The calls of `panic`. -/
inductive Fault where
  -- With the message "syntax" for the first two.
  | leftovers
  | unexpected
  | missingFile
  | parseblock
  | missingParen
  | tooManyArgs
  deriving DecidableEq, Repr

/-- `struct cmd`, with words of type `W`. -/
inductive Cmd (W : Type) where
  | exec (argv : List W)
  | redir (cmd : Cmd W) (file : W) (mode : BitVec 32) (fd : Nat)
  | pipe (left right : Cmd W)
  | list (left right : Cmd W)
  | back (cmd : Cmd W)
  deriving DecidableEq

/-- A word of the text: `q` and `eq`. -/
abbrev Span := Nat × Nat

/-- An argument is added to the `EXEC` node under redirections. -/
def Cmd.addArg {W : Type} (w : W) : Cmd W → Cmd W
  | exec argv => exec (argv ++ [w])
  | redir cmd file mode fd => redir (cmd.addArg w) file mode fd
  | cmd => cmd

def chr (c : Char) : Byte := BitVec.ofNat 8 c.toNat

-- `" \t\r\n\v"` and `"<|>&;()"`.
def whitespace : List Byte := [chr ' ', chr '\t', chr '\r', chr '\n', 11]
def symbols : List Byte := [chr '<', chr '|', chr '>', chr '&', chr ';', chr '(', chr ')']

/-- `strchr`, as a test. -/
def strchr (l : List Byte) (c : Byte) : Bool := decide (c ∈ l)

def isWhite (c : Byte) : Bool := strchr whitespace c

/-- A byte of a word. -/
def isWord (c : Byte) : Bool := !strchr whitespace c && !strchr symbols c

/-- `while(s < es && p(*s)) s++`. -/
def scan (p : Byte → Bool) (s : List Byte) (i : Nat) : Nat :=
  i + ((s.drop i).takeWhile p).length

/-- What `gettoken` returns: its value, and the pointers it stores. -/
structure Lexeme where
  tok : Byte
  span : Span
  ps : Nat

def gettoken (s : List Byte) (ps : Nat) : Lexeme :=
  let q := scan isWhite s ps
  let c := s.getD q 0
  let r : Byte × Nat :=
    if c = 0 then (c, q)
    else if strchr [chr '|', chr '(', chr ')', chr ';', chr '&', chr '<'] c then (c, q + 1)
    else if c = chr '>' then
      if s.getD (q + 1) 0 = chr '>' then (chr '+', q + 2) else (c, q + 1)
    else (chr 'a', scan isWord s q)
  { tok := r.1, span := (q, r.2), ps := scan isWhite s r.2 }

/-- `peek`: the result, and where the cursor is then. -/
def peek (s : List Byte) (ps : Nat) (toks : List Byte) : Bool × Nat :=
  let p := scan isWhite s ps
  (decide (s.getD p 0 ≠ 0) && strchr toks (s.getD p 0), p)

section Parser

variable (s : List Byte)

/-- The redirection a token stands for. -/
def redircmd (cmd : Cmd Span) (tok : Byte) (w : Span) : Cmd Span :=
  if tok = chr '<' then .redir cmd w O_RDONLY 0
  else if tok = chr '>' then .redir cmd w (O_WRONLY ||| O_CREATE ||| O_TRUNC) 1
  else if tok = chr '+' then .redir cmd w (O_WRONLY ||| O_CREATE) 1
  else cmd

def parseredirs : Nat → Cmd Span → Nat → Outcome Fault (Cmd Span × Nat)
  | 0, _, _ => .wait
  | fuel + 1, cmd, ps =>
    let k := peek s ps [chr '<', chr '>']
    if k.1 then
      let t := gettoken s k.2
      let w := gettoken s t.ps
      if w.tok ≠ chr 'a' then .panic .missingFile
      else parseredirs fuel (redircmd cmd t.tok w.span) w.ps
    else .done (cmd, k.2)

/-- The loop of `parseexec`. -/
def parseargs : Nat → Nat → Cmd Span → Nat → Outcome Fault (Cmd Span × Nat)
  | 0, _, _, _ => .wait
  | fuel + 1, argc, ret, ps =>
    let k := peek s ps [chr '|', chr ')', chr '&', chr ';']
    if k.1 then .done (ret, k.2)
    else
      let t := gettoken s k.2
      if t.tok = 0 then .done (ret, t.ps)
      else if t.tok ≠ chr 'a' then .panic .unexpected
      else if MAXARGS ≤ argc + 1 then .panic .tooManyArgs
      else do
        let r ← parseredirs s fuel (ret.addArg t.span) t.ps
        parseargs fuel (argc + 1) r.1 r.2

/-- The loop of `parseline`. -/
def parsebacks : Nat → Cmd Span → Nat → Outcome Fault (Cmd Span × Nat)
  | 0, _, _ => .wait
  | fuel + 1, cmd, ps =>
    let k := peek s ps [chr '&']
    if k.1 then parsebacks fuel (.back cmd) (gettoken s k.2).ps else .done (cmd, k.2)

mutual

def parseline : Nat → Nat → Outcome Fault (Cmd Span × Nat)
  | 0, _ => .wait
  | fuel + 1, ps => do
    let r ← parsepipe fuel ps
    let b ← parsebacks s fuel r.1 r.2
    let k := peek s b.2 [chr ';']
    if k.1 then
      let l ← parseline fuel (gettoken s k.2).ps
      return (.list b.1 l.1, l.2)
    else return (b.1, k.2)

def parsepipe : Nat → Nat → Outcome Fault (Cmd Span × Nat)
  | 0, _ => .wait
  | fuel + 1, ps => do
    let r ← parseexec fuel ps
    let k := peek s r.2 [chr '|']
    if k.1 then
      let p ← parsepipe fuel (gettoken s k.2).ps
      return (.pipe r.1 p.1, p.2)
    else return (r.1, k.2)

def parseblock : Nat → Nat → Outcome Fault (Cmd Span × Nat)
  | 0, _ => .wait
  | fuel + 1, ps =>
    let k := peek s ps [chr '(']
    if !k.1 then .panic .parseblock
    else do
      let l ← parseline fuel (gettoken s k.2).ps
      let k := peek s l.2 [chr ')']
      if !k.1 then .panic .missingParen
      else parseredirs s fuel l.1 (gettoken s k.2).ps

def parseexec : Nat → Nat → Outcome Fault (Cmd Span × Nat)
  | 0, _ => .wait
  | fuel + 1, ps =>
    let k := peek s ps [chr '(']
    if k.1 then parseblock fuel k.2
    else do
      let r ← parseredirs s fuel (.exec []) k.2
      parseargs s fuel 0 r.1 r.2

end

end Parser

/-- `nulterminate`, on the memory that holds the text. -/
def nulterminate : Cmd Span → List Byte → List Byte
  | .exec argv, mem => argv.foldl (fun mem w => mem.set w.2 0) mem
  | .redir cmd file _ _, mem => (nulterminate cmd mem).set file.2 0
  | .pipe left right, mem => nulterminate right (nulterminate left mem)
  | .list left right, mem => nulterminate right (nulterminate left mem)
  | .back cmd, mem => nulterminate cmd mem

/-- `parsecmd`: the tree, and the memory its pointers go to. -/
def parsecmd (fuel : Nat) (s : List Byte) : Outcome Fault (Cmd Span × List Byte) := do
  let r ← parseline s fuel 0
  let k := peek s r.2 []
  if k.2 ≠ s.length then .panic .leftovers
  else return (r.1, nulterminate r.1 (s ++ [0]))

/-- The string a pointer points to. -/
def cstring (mem : List Byte) (p : Nat) : List Byte := (mem.drop p).takeWhile (fun c => c ≠ 0)

def Cmd.map {W W' : Type} (f : W → W') : Cmd W → Cmd W'
  | exec argv => exec (argv.map f)
  | redir cmd file mode fd => redir (cmd.map f) (f file) mode fd
  | pipe left right => pipe (left.map f) (right.map f)
  | list left right => list (left.map f) (right.map f)
  | back cmd => back (cmd.map f)

/-- The tree as it will be run: `argv` and `file` are strings. -/
def Cmd.strings (mem : List Byte) (cmd : Cmd Span) : Cmd (List Byte) :=
  cmd.map (fun w => cstring mem w.1)

end Xv6.Sh
