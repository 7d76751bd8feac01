import Xv6.Lib.Outcome

/-!
# User/Shell — the command parser of `sh.c`

A pointer into the command line is the rest of the line from there on, and a counted string (`q` to `eq`)
is its characters: `nulterminate` makes a C string of it in place.  `panic` ends the shell with a message.
The procedures run on fuel; `parsecmd` gives them enough.

`parseexec` fills in the words of its EXEC node after it has put REDIR nodes around it.  Here it collects
the words and the redirections, and builds the tree at the end.
-/

namespace Xv6

open Outcome

/-- `whitespace`. -/
def whitespace : List Char := [' ', '\t', '\r', '\n', Char.ofNat 11]

/-- `symbols`. -/
def symbols : List Char := ['<', '|', '>', '&', ';', '(', ')']

/-- `MAXARGS`. -/
def maxArgs : ℕ := 10

/-- `struct cmd` and its kinds. -/
inductive Cmd where
  | exec (argv : List (List Char))
  | redir (cmd : Cmd) (file : List Char) (mode fd : ℕ)
  | pipe (left right : Cmd)
  | list (left right : Cmd)
  | back (cmd : Cmd)
  deriving DecidableEq

/-- A `panic` of the shell, or no more fuel. -/
inductive ShError where
  | panic (msg : String)
  | fuel
  deriving DecidableEq

/-- A token: the value of `gettoken` and the string it counts. -/
inductive Tok where
  | eof
  | sym (c : Char)
  | append
  | word (w : List Char)
  deriving DecidableEq

/-- The characters of a word. -/
def wordChar (c : Char) : Bool := !whitespace.contains c && !symbols.contains c

/-- The loops over whitespace. -/
def skip (s : List Char) : List Char := s.dropWhile whitespace.contains

/-- The token that a `>` starts. -/
def tokenGt : List Char → Tok × List Char
  | '>' :: s => (.append, s)
  | s => (.sym '>', s)

/-- The next token and what follows it; at the end of the line the token is `0`. -/
def tokenAt : List Char → Tok × List Char
  | [] => (.eof, [])
  | c :: s =>
    if ['|', '(', ')', ';', '&', '<'].contains c then (.sym c, s)
    else if c = '>' then tokenGt s
    else (.word ((c :: s).takeWhile wordChar), (c :: s).dropWhile wordChar)

/-- `gettoken`. -/
def gettoken (s : List Char) : Tok × List Char := ((tokenAt (skip s)).1, skip (tokenAt (skip s)).2)

/-- `peek`; it leaves the pointer at `skip s`. -/
def peek (toks : List Char) (s : List Char) : Bool :=
  match skip s with
  | [] => false
  | c :: _ => toks.contains c

/-- A redirection: what `redircmd` gets besides the command. -/
structure Redir where
  file : List Char
  mode : ℕ
  fd : ℕ
  deriving DecidableEq

/-- The `switch` of `parseredirs`; modes are `O_RDONLY` and `O_WRONLY|O_CREATE`. -/
def redirOf (tok : Tok) (file : List Char) : List Redir :=
  match tok with
  | .sym '<' => [⟨file, 0, 0⟩]
  | .sym '>' => [⟨file, 0x201, 1⟩]
  | .append => [⟨file, 0x201, 1⟩]
  | _ => []

/-- The redirections around a command, the first inside. -/
def Cmd.wrap (cmd : Cmd) (rs : List Redir) : Cmd := rs.foldl (fun c r => .redir c r.file r.mode r.fd) cmd

/-- The loop of `parseredirs`. -/
def parseredirs : ℕ → List Char → Except ShError (List Redir × List Char)
  | 0, _ => .error .fuel
  | n + 1, s =>
    if peek ['<', '>'] s then
      match gettoken (gettoken s).2 with
      | (.word file, s') => do
        let (rs, s') ← parseredirs n s'
        .ok (redirOf (gettoken s).1 file ++ rs, s')
      | _ => .error (.panic "missing file for redirection")
    else .ok ([], skip s)

/-- The loop of `parseexec`, with the words and the redirections so far. -/
def parseargs : ℕ → List (List Char) → List Redir → List Char →
    Except ShError (List (List Char) × List Redir × List Char)
  | 0, _, _, _ => .error .fuel
  | n + 1, argv, rs, s =>
    if peek ['|', ')', '&', ';'] s then .ok (argv, rs, skip s)
    else
      match gettoken s with
      | (.eof, s) => .ok (argv, rs, s)
      | (.word w, s) =>
        if argv.length + 1 ≥ maxArgs then .error (.panic "too many args")
        else do
          let (rs', s) ← parseredirs n s
          parseargs n (argv ++ [w]) (rs ++ rs') s
      | _ => .error (.panic "syntax")

/-- The loop of `parseline` over `&`. -/
def parsebacks : ℕ → Cmd → List Char → Except ShError (Cmd × List Char)
  | 0, _, _ => .error .fuel
  | n + 1, cmd, s => if peek ['&'] s then parsebacks n (.back cmd) (gettoken s).2 else .ok (cmd, skip s)

mutual

/-- `parseline`. -/
def parseline : ℕ → List Char → Except ShError (Cmd × List Char)
  | 0, _ => .error .fuel
  | n + 1, s => do
    let (cmd, s) ← parsepipe n s
    let (cmd, s) ← parsebacks n cmd s
    if peek [';'] s then
      let (right, s) ← parseline n (gettoken s).2
      .ok (.list cmd right, s)
    else .ok (cmd, skip s)

/-- `parsepipe`. -/
def parsepipe : ℕ → List Char → Except ShError (Cmd × List Char)
  | 0, _ => .error .fuel
  | n + 1, s => do
    let (cmd, s) ← parseexec n s
    if peek ['|'] s then
      let (right, s) ← parsepipe n (gettoken s).2
      .ok (.pipe cmd right, s)
    else .ok (cmd, skip s)

/-- `parseblock`. -/
def parseblock : ℕ → List Char → Except ShError (Cmd × List Char)
  | 0, _ => .error .fuel
  | n + 1, s =>
    if peek ['('] s then do
      let (cmd, s) ← parseline n (gettoken s).2
      if peek [')'] s then
        let (rs, s) ← parseredirs n (gettoken s).2
        .ok (cmd.wrap rs, s)
      else .error (.panic "syntax - missing )")
    else .error (.panic "parseblock")

/-- `parseexec`. -/
def parseexec : ℕ → List Char → Except ShError (Cmd × List Char)
  | 0, _ => .error .fuel
  | n + 1, s =>
    if peek ['('] s then parseblock n s
    else do
      let (rs, s) ← parseredirs n s
      let (argv, rs, s) ← parseargs n [] rs s
      .ok ((Cmd.exec argv).wrap rs, s)

end

/-- Fuel that is enough for a line. -/
def lineFuel (s : List Char) : ℕ := 4 * s.length + 4

/-- **`parsecmd`.**  The line ends at the first NUL. -/
def parsecmd (line : List Char) : Except ShError Cmd :=
  let s := line.takeWhile (· ≠ Char.ofNat 0)
  do
    let (cmd, rest) ← parseline (lineFuel s) s
    if skip rest = [] then .ok cmd else .error (.panic "syntax")

end Xv6
