import Xv6.User.Parse

/-!
# User/Counted — the counted strings of the parser, and `nulterminate`

The nodes of the shell's tree do not hold words but pointers into the line, `q` and `eq`, as `gettoken` set
them.  Here the procedures build that tree; its words are those of `User/Shell` (`parse_text`).  Every counted
string is a word of the line up to its end (`Token`), and so what `nulterminate` overwrites, the character
behind a word, is in no word: the C strings it leaves are the words.

Each turn of a loop and each call in a cycle of calls has read a token, so with fuel for the length of the line
no procedure runs out of it: it returns a tree and a rest of the line, or reports an error (`parse_ends`).
-/

namespace Xv6

open Outcome List

namespace Counted

/-- A counted string: what `gettoken` stores through `q` and `eq`. -/
structure Span where
  q : List Char
  eq : List Char
  deriving DecidableEq

/-- Its characters. -/
def Span.text (a : Span) : List Char := a.q.take (a.q.length - a.eq.length)

/-- The pointers `gettoken` stores. -/
def span (s : List Char) : Span := ⟨skip s, (tokenAt (skip s)).2⟩

/-- `struct cmd` and its kinds, with their pointers. -/
inductive Node where
  | exec (argv : List Span)
  | redir (cmd : Node) (file : Span) (mode fd : ℕ)
  | pipe (left right : Node)
  | list (left right : Node)
  | back (cmd : Node)
  deriving DecidableEq

/-- The tree with its strings, as they are read at the pointers. -/
def Node.strings (read : Span → List Char) : Node → Cmd
  | .exec argv => .exec (argv.map read)
  | .redir c file mode fd => .redir (c.strings read) (read file) mode fd
  | .pipe l r => .pipe (l.strings read) (r.strings read)
  | .list l r => .list (l.strings read) (r.strings read)
  | .back c => .back (c.strings read)

/-! ## The procedures -/

/-- What `redircmd` gets besides the command. -/
structure Redirect where
  file : Span
  mode : ℕ
  fd : ℕ

def redirOf (tok : Tok) (file : Span) : List Redirect :=
  match tok with
  | .sym '<' => [⟨file, 0, 0⟩]
  | .sym '>' => [⟨file, 0x201, 1⟩]
  | .append => [⟨file, 0x201, 1⟩]
  | _ => []

def Node.wrap (cmd : Node) (rs : List Redirect) : Node := rs.foldl (fun c r => .redir c r.file r.mode r.fd) cmd

/-- The loop of `parseredirs`. -/
def parseredirs : ℕ → List Char → Except ShError (List Redirect × List Char)
  | 0, _ => .error .fuel
  | n + 1, s =>
    if peek ['<', '>'] s then
      match gettoken (gettoken s).2 with
      | (.word _, s') => do
        let (rs, s') ← parseredirs n s'
        .ok (redirOf (gettoken s).1 (span (gettoken s).2) ++ rs, s')
      | _ => .error (.panic "missing file for redirection")
    else .ok ([], skip s)

/-- The loop of `parseexec`. -/
def parseargs : ℕ → List Span → List Redirect → List Char →
    Except ShError (List Span × List Redirect × List Char)
  | 0, _, _, _ => .error .fuel
  | n + 1, argv, rs, s =>
    if peek ['|', ')', '&', ';'] s then .ok (argv, rs, skip s)
    else
      match gettoken s with
      | (.eof, s) => .ok (argv, rs, s)
      | (.word _, s') =>
        if argv.length + 1 ≥ maxArgs then .error (.panic "too many args")
        else do
          let (rs', s') ← parseredirs n s'
          parseargs n (argv ++ [span s]) (rs ++ rs') s'
      | _ => .error (.panic "syntax")

/-- The loop of `parseline` over `&`. -/
def parsebacks : ℕ → Node → List Char → Except ShError (Node × List Char)
  | 0, _, _ => .error .fuel
  | n + 1, cmd, s => if peek ['&'] s then parsebacks n (.back cmd) (gettoken s).2 else .ok (cmd, skip s)

mutual

/-- `parseline`. -/
def parseline : ℕ → List Char → Except ShError (Node × List Char)
  | 0, _ => .error .fuel
  | n + 1, s => do
    let (cmd, s) ← parsepipe n s
    let (cmd, s) ← parsebacks n cmd s
    if peek [';'] s then
      let (right, s) ← parseline n (gettoken s).2
      .ok (.list cmd right, s)
    else .ok (cmd, skip s)

/-- `parsepipe`. -/
def parsepipe : ℕ → List Char → Except ShError (Node × List Char)
  | 0, _ => .error .fuel
  | n + 1, s => do
    let (cmd, s) ← parseexec n s
    if peek ['|'] s then
      let (right, s) ← parsepipe n (gettoken s).2
      .ok (.pipe cmd right, s)
    else .ok (cmd, skip s)

/-- `parseblock`. -/
def parseblock : ℕ → List Char → Except ShError (Node × List Char)
  | 0, _ => .error .fuel
  | n + 1, s =>
    if peek ['('] s then do
      let (cmd, s) ← parseline n (gettoken s).2
      if peek [')'] s then
        let (rs, s) ← parseredirs n (gettoken s).2
        .ok (cmd.wrap rs, s)
      else .error (.panic "syntax - missing )")
    else .error (.panic "parseblock")

/-- `parseexec`. -/
def parseexec : ℕ → List Char → Except ShError (Node × List Char)
  | 0, _ => .error .fuel
  | n + 1, s =>
    if peek ['('] s then parseblock n s
    else do
      let (rs, s) ← parseredirs n s
      let (argv, rs, s) ← parseargs n [] rs s
      .ok ((Node.exec argv).wrap rs, s)

end

/-! ## The words are those of the line -/

/-- The characters of the token that `gettoken` counts. -/
theorem text_span {s s' w : List Char} (h : gettoken s = (.word w, s')) :
    (span s).text = w ∧ (span s).q = w ++ (span s).eq ∧ w ≠ [] ∧ (∀ c ∈ w, wordChar c) ∧
      ∀ c t, (span s).eq = c :: t → wordChar c = false := by
  have htok : (tokenAt (skip s)).1 = .word w := congrArg Prod.fst h
  rw [span, Span.text]
  cases hs : skip s with
  | nil =>
    rw [hs] at htok
    cases htok
  | cons c t =>
    rw [hs, tokenAt] at htok
    rw [tokenAt]
    split at htok
    · cases htok
    · split at htok
      · unfold tokenGt at htok
        split at htok <;> cases htok
      · rename_i h1 h2
        rw [if_neg h1, if_neg h2]
        cases htok
        have hsplit : c :: t = (c :: t).takeWhile wordChar ++ (c :: t).dropWhile wordChar :=
          takeWhile_append_dropWhile.symm
        have hlen := congrArg List.length hsplit
        rw [length_append] at hlen
        refine ⟨?_, hsplit, ?_, fun d hd => mem_takeWhile_imp hd, fun d u hd => ?_⟩
        · dsimp only
          rw [hlen, Nat.add_sub_cancel]
          exact (prefix_iff_eq_take.mp <| takeWhile_prefix _).symm
        · rw [takeWhile_cons, if_pos (wordChar_of_not (skip_head hs) h1 h2)]
          exact cons_ne_nil _ _
        · have hnot := List.head?_dropWhile_not wordChar (c :: t)
          rw [show (c :: t).dropWhile wordChar = d :: u from hd] at hnot
          simpa using hnot

def Redirect.text (r : Redirect) : Redir := ⟨r.file.text, r.mode, r.fd⟩

/-- The words of the tree. -/
abbrev Node.words : Node → Cmd := Node.strings Span.text

theorem redirOf_text (tok : Tok) (file : Span) :
    Xv6.redirOf tok file.text = (redirOf tok file).map Redirect.text := by
  unfold redirOf Xv6.redirOf
  split <;> simp_all [Redirect.text]

theorem words_wrap : ∀ (rs : List Redirect) (c : Node), (c.wrap rs).words = c.words.wrap (rs.map Redirect.text)
  | [], _ => rfl
  | r :: rs, c => words_wrap rs (.redir c r.file r.mode r.fd)

theorem parseredirs_text : ∀ (n : ℕ) (s : List Char), Xv6.parseredirs n s =
    (fun r => (r.1.map Redirect.text, r.2)) <$> parseredirs n s
  | 0, _ => rfl
  | n + 1, s => by
    rw [parseredirs, Xv6.parseredirs]
    split
    · rcases hs' : gettoken (gettoken s).2 with ⟨_ | _ | _ | file, s'⟩
      case word =>
        simp only [← (text_span hs').1, parseredirs_text n s', redirOf_text, map_bind, bind_map_left]
        exact bind_congr fun r => by rw [← map_append]; rfl
      all_goals rfl
    · rfl

theorem parseargs_text : ∀ (n : ℕ) (argv : List Span) (rs : List Redirect) (s : List Char),
    Xv6.parseargs n (argv.map Span.text) (rs.map Redirect.text) s =
      (fun r => (r.1.map Span.text, r.2.1.map Redirect.text, r.2.2)) <$> parseargs n argv rs s
  | 0, _, _, _ => rfl
  | n + 1, argv, rs, s => by
    rw [parseargs, Xv6.parseargs]
    split
    · rfl
    · rcases hs' : gettoken s with ⟨_ | _ | _ | w, s'⟩
      case word =>
        simp only [length_map]
        split
        · rfl
        · simp only [parseredirs_text n s', map_bind, bind_map_left]
          refine bind_congr fun r => ?_
          rw [← parseargs_text n (argv ++ [span s]), map_append, map_append, map_singleton,
            (text_span hs').1]
      all_goals rfl

theorem parsebacks_text : ∀ (n : ℕ) (c : Node) (s : List Char), Xv6.parsebacks n c.words s =
    (fun r => (r.1.words, r.2)) <$> parsebacks n c s
  | 0, _, _ => rfl
  | n + 1, c, s => by
    rw [parsebacks, Xv6.parsebacks]
    split
    · exact parsebacks_text n (.back c) _
    · rfl

/-- **The procedures build the same tree**, with words for counted strings. -/
theorem parse_text (n : ℕ) : (∀ s, Xv6.parseline n s = (fun r => (r.1.words, r.2)) <$> parseline n s) ∧
    (∀ s, Xv6.parsepipe n s = (fun r => (r.1.words, r.2)) <$> parsepipe n s) ∧
    (∀ s, Xv6.parseblock n s = (fun r => (r.1.words, r.2)) <$> parseblock n s) ∧
    ∀ s, Xv6.parseexec n s = (fun r => (r.1.words, r.2)) <$> parseexec n s := by
  induction n with
  | zero => exact ⟨fun _ => rfl, fun _ => rfl, fun _ => rfl, fun _ => rfl⟩
  | succ n ih =>
    obtain ⟨ihl, ihp, ihb, ihe⟩ := ih
    refine ⟨fun s => ?_, fun s => ?_, fun s => ?_, fun s => ?_⟩
    · rw [Xv6.parseline, parseline]
      simp only [ihp, parsebacks_text, ihl, map_bind, bind_map_left]
      refine bind_congr fun r => bind_congr fun r' => ?_
      split
      · simp only [map_bind]
        rfl
      · rfl
    · rw [Xv6.parsepipe, parsepipe]
      simp only [ihe, ihp, map_bind, bind_map_left]
      refine bind_congr fun r => ?_
      split
      · simp only [map_bind]
        rfl
      · rfl
    · rw [Xv6.parseblock, parseblock]
      split
      · simp only [ihl, parseredirs_text, map_bind, bind_map_left]
        refine bind_congr fun r => ?_
        split
        · simp only [map_bind]
          exact bind_congr fun r' => by rw [← words_wrap]; rfl
        · rfl
      · rfl
    · rw [Xv6.parseexec, parseexec]
      split
      · exact ihb s
      · simp only [parseredirs_text, map_bind, bind_map_left]
        refine bind_congr fun r => ?_
        rw [show ([] : List (List Char)) = [].map Span.text from rfl]
        simp only [parseargs_text, bind_map_left]
        exact bind_congr fun r' => by
          rw [show Cmd.exec (r'.1.map Span.text) = (Node.exec r'.1).words from rfl, ← words_wrap]
          rfl

/-! ## Every counted string is a word -/

/-- **A word of the line**, up to its end. -/
structure Token (line : List Char) (a : Span) : Prop where
  suffix : a.q <:+ line
  split : a.q = a.text ++ a.eq
  ne_nil : a.text ≠ []
  word : ∀ c ∈ a.text, wordChar c
  stop : ∀ c t, a.eq = c :: t → wordChar c = false

theorem token_span {line s s' w : List Char} (hs : s <:+ line) (h : gettoken s = (.word w, s')) :
    Token line (span s) := by
  obtain ⟨rfl, hsplit, hne, hword, hstop⟩ := text_span h
  exact ⟨(skip_suffix s).trans hs, hsplit, hne, hword, hstop⟩

/-- A redirection that `parseredirs` can make. -/
def Redirect.Formed (line : List Char) (r : Redirect) : Prop :=
  Token line r.file ∧ (r.mode = 0 ∧ r.fd = 0 ∨ r.mode = 0x201 ∧ r.fd = 1)

/-- **The trees of a line**: words to an EXEC node, at most `MAXARGS - 1`, and to a REDIR node. -/
def Node.Formed (line : List Char) : Node → Prop
  | .exec argv => (∀ a ∈ argv, Token line a) ∧ argv.length + 1 ≤ maxArgs
  | .redir c file mode fd => c.Formed line ∧ Redirect.Formed line ⟨file, mode, fd⟩
  | .pipe l r => l.Formed line ∧ r.Formed line
  | .list l r => l.Formed line ∧ r.Formed line
  | .back c => c.Formed line

section Ends

variable {α : Type} {P : α → Prop} {line s s' : List Char} {x : Except ShError (α × List Char)}

theorem redirOf_formed {tok : Tok} {file : Span} (h : Token line file) :
    ∀ r ∈ redirOf tok file, r.Formed line := by
  intro r hr
  unfold redirOf at hr
  split at hr
  · exact mem_singleton.1 hr ▸ ⟨h, .inl ⟨rfl, rfl⟩⟩
  · exact mem_singleton.1 hr ▸ ⟨h, .inr ⟨rfl, rfl⟩⟩
  · exact mem_singleton.1 hr ▸ ⟨h, .inr ⟨rfl, rfl⟩⟩
  · cases hr

theorem wrap_formed : ∀ {rs : List Redirect} {c : Node}, c.Formed line → (∀ r ∈ rs, r.Formed line) →
    (c.wrap rs).Formed line
  | [], _, hc, _ => hc
  | r :: _, c, hc, h => wrap_formed (c := .redir c r.file r.mode r.fd) ⟨hc, h r mem_cons_self⟩
      fun r hr => h r (mem_cons_of_mem _ hr)

/-- The procedure returns a value that satisfies `P` and a rest of the line, or an error that is reported. -/
def Ends (P : α → Prop) (s : List Char) (x : Except ShError (α × List Char)) : Prop :=
  Runs x ShError.Reported fun r => P r.1 ∧ r.2 <:+ s

theorem Ends.mono (h : Ends P s' x) (hs : s' <:+ s) : Ends P s x :=
  Runs.mono h (fun _ h => h) fun _ h => ⟨h.1, h.2.trans hs⟩

theorem ends_panic {msg : String} : Ends P s (.error (.panic msg) : Except ShError (α × List Char)) :=
  runs_error.2 ⟨msg, rfl⟩

theorem ends_ok {a : α} (ha : P a) (hs : s' <:+ s) : Ends P s (.ok (a, s')) := runs_ok.2 ⟨ha, hs⟩

theorem parseredirs_ends : ∀ {n : ℕ} {s : List Char}, s <:+ line → s.length < n →
    Ends (fun rs => ∀ r ∈ rs, Redirect.Formed line r) s (parseredirs n s)
  | n + 1, s, hs, hn => by
    rw [parseredirs]
    split
    · rename_i hp
      have hlt := length_gettoken_lt (skip_ne_nil_of_peek hp)
      have hle := length_gettoken_le (gettoken s).2
      have hs1 := gettoken_suffix s
      have hs2 := gettoken_suffix (gettoken s).2
      split
      · rename_i file s' hs'
        rw [hs'] at hs2 hle
        dsimp only at hle
        refine Runs.bind (parseredirs_ends (n := n) ((hs2.trans hs1).trans hs) (by omega)) fun r hr => ?_
        refine runs_ok.2 ⟨fun r' hr' => ?_, (hr.2.trans hs2).trans hs1⟩
        rcases mem_append.1 hr' with hr' | hr'
        · exact redirOf_formed (token_span (hs1.trans hs) hs') r' hr'
        · exact hr.1 r' hr'
      · exact ends_panic
    · exact ends_ok nofun (skip_suffix s)

theorem parseargs_ends : ∀ {n : ℕ} {argv : List Span} {rs : List Redirect} {s : List Char}, s <:+ line →
    s.length < n → (Node.exec argv).Formed line → (∀ r ∈ rs, r.Formed line) →
    Runs (parseargs n argv rs s) ShError.Reported fun r =>
      (Node.exec r.1).Formed line ∧ (∀ x ∈ r.2.1, x.Formed line) ∧ r.2.2 <:+ s
  | n + 1, argv, rs, s, hs, hn, hargv, hrs => by
    rw [parseargs]
    split
    · exact runs_ok.2 ⟨hargv, hrs, skip_suffix s⟩
    · have hsuf := gettoken_suffix s
      split
      · rename_i s' hs'
        rw [hs'] at hsuf
        exact runs_ok.2 ⟨hargv, hrs, hsuf⟩
      · rename_i w s' hs'
        have hlt := length_gettoken_lt (skip_ne_nil_of_word (s := s) (by rw [hs']; nofun))
        rw [hs'] at hlt hsuf
        dsimp only at hlt
        split
        · exact runs_error.2 ⟨_, rfl⟩
        · rename_i hmax
          refine Runs.bind (parseredirs_ends (n := n) (hsuf.trans hs) (by omega)) fun r hr => ?_
          have hle := hr.2.length_le
          have hs2 := hr.2.trans hsuf
          refine (parseargs_ends (n := n) (hs2.trans hs) (by omega) ⟨fun a ha => ?_, ?_⟩
            fun r' hr' => ?_).mono (fun _ h => h) fun r' hr' => ⟨hr'.1, hr'.2.1, hr'.2.2.trans hs2⟩
          · rcases mem_append.1 ha with ha | ha
            · exact hargv.1 a ha
            · exact mem_singleton.1 ha ▸ token_span hs hs'
          · rw [length_append, length_singleton]
            omega
          · rcases mem_append.1 hr' with hr' | hr'
            · exact hrs r' hr'
            · exact hr.1 r' hr'
      · exact runs_error.2 ⟨_, rfl⟩

theorem parsebacks_ends : ∀ {n : ℕ} {c : Node} {s : List Char}, s.length < n → c.Formed line →
    Ends (Node.Formed line) s (parsebacks n c s)
  | n + 1, c, s, hn, hc => by
    rw [parsebacks]
    split
    · have hlt := length_gettoken_lt (skip_ne_nil_of_peek ‹_›)
      exact (parsebacks_ends (n := n) (c := .back c) (by omega) hc).mono (gettoken_suffix s)
    · exact ends_ok hc (skip_suffix s)

/-- **Every procedure ends**, with fuel for the tokens of the line, and its tree is one of the line. -/
theorem parse_ends (n : ℕ) :
    (∀ s, s <:+ line → 4 * s.length + 4 ≤ n → Ends (Node.Formed line) s (parseline n s)) ∧
    (∀ s, s <:+ line → 4 * s.length + 3 ≤ n → Ends (Node.Formed line) s (parsepipe n s)) ∧
    (∀ s, s <:+ line → peek ['('] s → 4 * s.length + 1 ≤ n → Ends (Node.Formed line) s (parseblock n s)) ∧
    ∀ s, s <:+ line → 4 * s.length + 2 ≤ n → Ends (Node.Formed line) s (parseexec n s) := by
  induction n with
  | zero => exact ⟨fun s _ h => by omega, fun s _ h => by omega, fun s _ _ h => by omega, fun s _ h => by omega⟩
  | succ n ih =>
    obtain ⟨ihl, ihp, ihb, ihe⟩ := ih
    refine ⟨fun s hs hn => ?_, fun s hs hn => ?_, fun s hs hp hn => ?_, fun s hs hn => ?_⟩
    · rw [parseline]
      refine Runs.bind (ihp s hs (by omega)) fun r h1 => ?_
      have hle1 := h1.2.length_le
      refine Runs.bind (parsebacks_ends (n := n) (by omega) h1.1) fun r' h2 => ?_
      have hs2 := h2.2.trans h1.2
      have hle2 := hs2.length_le
      dsimp only
      split
      · have hlt := length_gettoken_lt (skip_ne_nil_of_peek ‹_›)
        have hs3 := (gettoken_suffix r'.2).trans hs2
        exact Runs.bind (ihl _ (hs3.trans hs) (by omega)) fun r hr => ends_ok ⟨h2.1, hr.1⟩ (hr.2.trans hs3)
      · exact ends_ok h2.1 ((skip_suffix _).trans hs2)
    · rw [parsepipe]
      refine Runs.bind (ihe s hs (by omega)) fun r h1 => ?_
      have hle1 := h1.2.length_le
      dsimp only
      split
      · have hlt := length_gettoken_lt (skip_ne_nil_of_peek ‹_›)
        have hs2 := (gettoken_suffix r.2).trans h1.2
        exact Runs.bind (ihp _ (hs2.trans hs) (by omega)) fun r hr => ends_ok ⟨h1.1, hr.1⟩ (hr.2.trans hs2)
      · exact ends_ok h1.1 ((skip_suffix _).trans h1.2)
    · rw [parseblock, if_pos hp]
      have hlt := length_gettoken_lt (skip_ne_nil_of_peek hp)
      have hs1 := gettoken_suffix s
      refine Runs.bind (ihl _ (hs1.trans hs) (by omega)) fun r h1 => ?_
      have hle1 := h1.2.length_le
      dsimp only
      split
      · have hlt2 := length_gettoken_lt (skip_ne_nil_of_peek ‹_›)
        have hs2 := ((gettoken_suffix r.2).trans h1.2).trans hs1
        exact Runs.bind (parseredirs_ends (n := n) (hs2.trans hs) (by omega)) fun r hr =>
          ends_ok (wrap_formed h1.1 hr.1) (hr.2.trans hs2)
      · exact ends_panic
    · rw [parseexec]
      split
      · exact ihb s hs ‹_› (by omega)
      · refine Runs.bind (parseredirs_ends (n := n) hs (by omega)) fun r h1 => ?_
        have hle1 := h1.2.length_le
        refine Runs.bind (parseargs_ends (n := n) (h1.2.trans hs) (by omega) ⟨nofun, by decide⟩ h1.1)
          fun r' h2 => ?_
        exact ends_ok (wrap_formed h2.1 h2.2.1) (h2.2.2.trans h1.2)

end Ends

/-! ## `nulterminate` -/

/-- Where a pointer points to: the buffer holds the line and its NUL. -/
def index (buf p : List Char) : ℕ := buf.length - 1 - p.length

/-- The string at `q`, up to its NUL. -/
def cstring (buf : List Char) (a : Span) : List Char :=
  (buf.drop (index buf a.q)).takeWhile (· ≠ Char.ofNat 0)

/-- The NUL at `eq`. -/
def cut (buf : List Char) (a : Span) : List Char := buf.set (index buf a.eq) (Char.ofNat 0)

/-- `nulterminate`. -/
def nulterminate : Node → List Char → List Char
  | .exec argv, buf => argv.foldl cut buf
  | .redir c file _ _, buf => cut (nulterminate c buf) file
  | .pipe l r, buf => nulterminate r (nulterminate l buf)
  | .list l r, buf => nulterminate r (nulterminate l buf)
  | .back c, buf => nulterminate c buf

/-- **`parsecmd`**, with the buffer as it leaves it. -/
def parsecmd (line : List Char) : Except ShError (Node × List Char) :=
  let s := line.takeWhile (· ≠ Char.ofNat 0)
  do
    let (cmd, rest) ← parseline (lineFuel s) s
    if skip rest = [] then .ok (cmd, nulterminate cmd (s ++ [Char.ofNat 0])) else .error (.panic "syntax")

/-- The counted strings of a tree, in the order of `nulterminate`. -/
def Node.spans : Node → List Span
  | .exec argv => argv
  | .redir c file _ _ => c.spans ++ [file]
  | .pipe l r => l.spans ++ r.spans
  | .list l r => l.spans ++ r.spans
  | .back c => c.spans

theorem nulterminate_eq (c : Node) (buf : List Char) : nulterminate c buf = c.spans.foldl cut buf := by
  induction c generalizing buf with
  | exec argv => rfl
  | redir c file mode fd ih => rw [nulterminate, ih, Node.spans, foldl_append]; rfl
  | pipe l r ihl ihr => rw [nulterminate, ihl, ihr, Node.spans, foldl_append]
  | list l r ihl ihr => rw [nulterminate, ihl, ihr, Node.spans, foldl_append]
  | back c ih => exact ih buf

theorem Node.Formed.spans {line : List Char} {c : Node} (h : c.Formed line) : ∀ a ∈ c.spans, Token line a := by
  induction c with
  | exec argv => exact h.1
  | redir c file mode fd ih => exact forall_mem_append.2 ⟨ih h.1, forall_mem_singleton.2 h.2.1⟩
  | pipe l r ihl ihr => exact forall_mem_append.2 ⟨ihl h.1, ihr h.2⟩
  | list l r ihl ihr => exact forall_mem_append.2 ⟨ihl h.1, ihr h.2⟩
  | back c ih => exact ih h

theorem strings_congr {f g : Span → List Char} {c : Node} (h : ∀ a ∈ c.spans, f a = g a) :
    c.strings f = c.strings g := by
  induction c with
  | exec argv => exact congrArg Cmd.exec (map_congr_left h)
  | redir c file mode fd ih =>
    obtain ⟨hc, hfile⟩ := forall_mem_append.1 h
    rw [Node.strings, Node.strings, ih hc, hfile file mem_cons_self]
  | pipe l r ihl ihr =>
    obtain ⟨hl, hr⟩ := forall_mem_append.1 h
    rw [Node.strings, Node.strings, ihl hl, ihr hr]
  | list l r ihl ihr =>
    obtain ⟨hl, hr⟩ := forall_mem_append.1 h
    rw [Node.strings, Node.strings, ihl hl, ihr hr]
  | back c ih => rw [Node.strings, Node.strings, ih h]

/-- **The buffer behind the cuts**: NUL at their places, and the other characters as before. -/
theorem getElem?_cuts : ∀ (as : List Span) (buf : List Char) (i : ℕ), i < buf.length →
    (as.foldl cut buf)[i]? = if ∃ a ∈ as, index buf a.eq = i then some (Char.ofNat 0) else buf[i]?
  | [], _, _, _ => by rw [if_neg (by simp)]; rfl
  | a :: as, buf, i, hi => by
    have hlen : (cut buf a).length = buf.length := length_set
    rw [foldl_cons, getElem?_cuts as _ i (hlen ▸ hi)]
    have hindex : ∀ p, index (cut buf a) p = index buf p := fun p => by rw [index, hlen, index]
    simp only [hindex, exists_mem_cons_iff]
    by_cases has : ∃ x ∈ as, index buf x.eq = i
    · rw [if_pos has, if_pos (.inr has)]
    · rw [if_neg has, cut, List.getElem?_set]
      by_cases ha : index buf a.eq = i
      · rw [if_pos ha, if_pos (Or.inl ha), if_pos (ha ▸ hi)]
      · rw [if_neg ha, if_neg (not_or.2 ⟨ha, has⟩)]

theorem takeWhile_eq : ∀ {w u : List Char}, (∀ c ∈ w, c ≠ Char.ofNat 0) → (∀ i < w.length, u[i]? = w[i]?) →
    u[w.length]? = some (Char.ofNat 0) → u.takeWhile (· ≠ Char.ofNat 0) = w
  | [], c :: u, _, _, hend => by
    cases Option.some.inj hend
    rfl
  | c :: w, [], _, h, _ => nomatch h 0 (Nat.succ_pos _)
  | c :: w, d :: u, hw, h, hend => by
    cases Option.some.inj (h 0 (Nat.succ_pos _))
    rw [takeWhile_cons, if_pos (by simpa using hw c mem_cons_self)]
    exact congrArg (c :: ·) (takeWhile_eq (fun x hx => hw x (mem_cons_of_mem _ hx))
      (fun i hi => h (i + 1) (Nat.succ_lt_succ hi)) hend)

/-- **The C strings are the words**: the character behind a word is in no word. -/
theorem cstring_cuts {line : List Char} {as : List Span} {a : Span} (hnul : ∀ c ∈ line, c ≠ Char.ofNat 0)
    (has : ∀ a ∈ as, Token line a) (ha : a ∈ as) :
    cstring (as.foldl cut (line ++ [Char.ofNat 0])) a = a.text := by
  have hlen : ∀ (as : List Span) (buf : List Char), (as.foldl cut buf).length = buf.length := fun as buf =>
    List.foldlRecOn (motive := fun b => b.length = buf.length) as cut rfl fun _ h _ _ => length_set.trans h
  have hindex : ∀ p, index (line ++ [Char.ofNat 0]) p = line.length - p.length := fun p => by
    rw [index, length_append, length_singleton, Nat.add_sub_cancel]
  obtain ⟨⟨pre, hpre⟩, hsplit, -, hword, -⟩ := has a ha
  have hline : line = pre ++ (a.text ++ a.eq) := by rw [← hpre, ← hsplit]
  have hsum := congrArg List.length hline
  have hq := congrArg List.length hsplit
  simp only [length_append] at hsum hq
  have hstart : index (as.foldl cut (line ++ [Char.ofNat 0])) a.q = pre.length := by
    rw [index, hlen, ← index, hindex]
    omega
  rw [cstring, hstart]
  refine takeWhile_eq (fun c hc => hnul c ?_) (fun i hi => ?_) ?_
  · rw [hline]
    exact mem_append_right _ (mem_append_left _ hc)
  · have hget : (line)[pre.length + i]? = a.text[i]? := by
      rw [hline, List.getElem?_append_right (by omega), Nat.add_sub_cancel_left, List.getElem?_append_left hi]
    rw [List.getElem?_drop, getElem?_cuts _ _ _ (by rw [length_append]; omega), if_neg,
      List.getElem?_append_left (by omega), hget]
    -- a cut is at the end of the line or at a character that ends a word
    rintro ⟨b, hb, hbi⟩
    obtain ⟨⟨pre', hpre'⟩, hsplit', -, -, hstop⟩ := has b hb
    have hline' : line = pre' ++ b.text ++ b.eq := by rw [append_assoc, ← hsplit', hpre']
    have hsum' := congrArg List.length hline'
    rw [length_append] at hsum'
    rw [hindex] at hbi
    have hhead : b.eq[0]? = some (a.text[i]) := by
      rw [← List.getElem?_eq_getElem hi, ← hget, hline', List.getElem?_append_right (by omega),
        show pre.length + i - (pre' ++ b.text).length = 0 by omega]
    cases heq : b.eq with
    | nil =>
      rw [heq] at hhead
      cases hhead
    | cons c t =>
      rw [heq] at hhead
      have hc : c = a.text[i] := Option.some.inj hhead
      have hno := hstop c t heq
      rw [hc, hword _ (getElem_mem hi)] at hno
      cases hno
  · have hend : index (line ++ [Char.ofNat 0]) a.eq = pre.length + a.text.length := by
      rw [hindex]
      omega
    rw [List.getElem?_drop, getElem?_cuts _ _ _ (by rw [length_append, length_singleton]; omega),
      if_pos ⟨a, ha, hend⟩]

/-- **`nulterminate` isolates the words.**  Where `parsecmd` accepts a line, the C strings at the pointers of
all nodes of the tree are the words that `gettoken` delimited for them. -/
theorem nulterminate_isolates {line : List Char} {cmd : Cmd} (h : Xv6.parsecmd line = .ok cmd) :
    Returns (parsecmd line) fun r => r.1.words = cmd ∧ r.1.strings (cstring r.2) = cmd := by
  have hnul : ∀ c ∈ line.takeWhile (· ≠ Char.ofNat 0), c ≠ Char.ofNat 0 := fun c hc => by
    simpa using List.mem_takeWhile_imp hc
  unfold Xv6.parsecmd at h
  unfold parsecmd
  dsimp only at h ⊢
  generalize line.takeWhile (· ≠ Char.ofNat 0) = s at h hnul
  rw [(parse_text (lineFuel s)).1 s] at h
  have hends := (parse_ends (lineFuel s)).1 s (List.suffix_refl s) (Nat.le_refl _)
  cases hp : parseline (lineFuel s) s with
  | error e =>
    rw [hp] at h
    cases h
  | ok r =>
    rw [hp] at h hends
    obtain ⟨c, rest⟩ := r
    have hspans := (runs_ok.1 hends).1.spans
    have h : (if skip rest = [] then Except.ok c.words else .error (ShError.panic "syntax")) = .ok cmd := h
    rw [ok_bind]
    by_cases hrest : skip rest = []
    · rw [if_pos hrest] at h
      cases h
      refine ⟨_, if_pos hrest, rfl, strings_congr fun a ha => ?_⟩
      rw [nulterminate_eq]
      exact cstring_cuts hnul hspans ha
    · rw [if_neg hrest] at h
      cases h

theorem nulterminate_isolates_run : Returns (parsecmd "(ls|wc>f)&".toList) fun r =>
    r.1.strings (cstring r.2) =
      .back (.pipe (.exec [['l', 's']]) (.redir (.exec [['w', 'c']]) ['f'] 0x201 1)) :=
  Returns.mono (nulterminate_isolates (by decide +kernel)) fun _ _ h => h.2

end Counted

end Xv6
