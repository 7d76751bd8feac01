import Xv6.User.Parse

/-!
# User/Render — the parser inverts printing

A command in print is a tree of the grammar (`Src.Line`, `Src.Pipe`, `Src.Exec`): it has tokens, and it
stands for a command tree.  `Spaced ts s` says that the line `s` has the tokens `ts`, with any whitespace
between them.  On such a line each procedure returns the tree and stops after its tokens, where what follows
is nothing that it would read on.
-/

namespace Xv6

open Outcome List

/-! ## Commands in print -/

namespace Src

/-- The redirection operators `<`, `>` and `>>`. -/
inductive Op where
  | input
  | output
  | append

/-- A redirection in print. -/
structure Rd where
  op : Op
  file : List Char

mutual

/-- A pipeline with its `&`s, alone or before `;` and another line. -/
inductive Line where
  | single (p : Pipe) (amps : ℕ)
  | list (p : Pipe) (amps : ℕ) (l : Line)

/-- Commands between `|`. -/
inductive Pipe where
  | single (e : Exec)
  | pipe (e : Exec) (p : Pipe)

/-- Redirections and words, or a line in parentheses with redirections. -/
inductive Exec where
  | simple (rs : List Rd) (args : List (List Char × List Rd))
  | block (l : Line) (rs : List Rd)

end

/-- The token of an operator. -/
def Op.tok : Op → Tok
  | .input => .sym '<'
  | .output => .sym '>'
  | .append => .append

/-- The tokens of redirections. -/
def redirTokens (rs : List Rd) : List Tok := rs.flatMap fun r => [r.op.tok, .word r.file]

/-- The tokens of words, each with redirections after it. -/
def argTokens (args : List (List Char × List Rd)) : List Tok :=
  args.flatMap fun a => .word a.1 :: redirTokens a.2

mutual

/-- The tokens of a line. -/
def Line.tokens : Line → List Tok
  | .single p k => p.tokens ++ List.replicate k (.sym '&')
  | .list p k l => p.tokens ++ List.replicate k (.sym '&') ++ .sym ';' :: l.tokens

/-- The tokens of a pipeline. -/
def Pipe.tokens : Pipe → List Tok
  | .single e => e.tokens
  | .pipe e p => e.tokens ++ .sym '|' :: p.tokens

/-- The tokens of a command. -/
def Exec.tokens : Exec → List Tok
  | .simple rs args => redirTokens rs ++ argTokens args
  | .block l rs => .sym '(' :: l.tokens ++ .sym ')' :: redirTokens rs

end

/-- The node of a redirection. -/
def Rd.redir (r : Rd) : Redir :=
  match r.op with
  | .input => ⟨r.file, 0, 0⟩
  | .output => ⟨r.file, 0x201, 1⟩
  | .append => ⟨r.file, 0x201, 1⟩

/-- `k` BACK nodes. -/
def backs : ℕ → Cmd → Cmd
  | 0, c => c
  | k + 1, c => backs k (.back c)

mutual

/-- The command tree of a line. -/
def Line.tree : Line → Cmd
  | .single p k => backs k p.tree
  | .list p k l => .list (backs k p.tree) l.tree

/-- The command tree of a pipeline. -/
def Pipe.tree : Pipe → Cmd
  | .single e => e.tree
  | .pipe e p => .pipe e.tree p.tree

/-- The command tree of a command. -/
def Exec.tree : Exec → Cmd
  | .simple rs args =>
    (Cmd.exec (args.map Prod.fst)).wrap ((rs ++ args.flatMap Prod.snd).map Rd.redir)
  | .block l rs => l.tree.wrap (rs.map Rd.redir)

end

/-- A word: a nonempty string without whitespace and symbols. -/
def IsWord (w : List Char) : Prop := w ≠ [] ∧ ∀ c ∈ w, wordChar c ∧ c ≠ Char.ofNat 0

/-- Files are words. -/
def RdsValid (rs : List Rd) : Prop := ∀ r ∈ rs, IsWord r.file

mutual

/-- Words are words, and there are at most `MAXARGS - 1` to a command. -/
def Line.Valid : Line → Prop
  | .single p _ => p.Valid
  | .list p _ l => p.Valid ∧ l.Valid

/-- … in a pipeline. -/
def Pipe.Valid : Pipe → Prop
  | .single e => e.Valid
  | .pipe e p => e.Valid ∧ p.Valid

/-- … in a command. -/
def Exec.Valid : Exec → Prop
  | .simple rs args => RdsValid rs ∧ (∀ a ∈ args, IsWord a.1 ∧ RdsValid a.2) ∧ args.length + 1 ≤ maxArgs
  | .block l rs => l.Valid ∧ RdsValid rs

end

end Src

/-! ## Lines of text -/

/-- The characters of a token. -/
def Tok.text : Tok → List Char
  | .eof => []
  | .sym c => [c]
  | .append => ['>', '>']
  | .word w => w

/-- A token that can be in a line. -/
def Tok.Valid : Tok → Prop
  | .eof => False
  | .sym c => symbols.contains c
  | .append => True
  | .word w => Src.IsWord w

/-- **The line has these tokens**, with whitespace between them: any amount, and some between two words. -/
inductive Spaced : List Tok → List Char → Prop where
  | nil {ws : List Char} (hws : ∀ c ∈ ws, whitespace.contains c) : Spaced [] ws
  | cons {t : Tok} {ts : List Tok} {ws s : List Char} (hws : ∀ c ∈ ws, whitespace.contains c) (ht : t.Valid)
      (hsep : ∀ w c s', t = .word w → s = c :: s' → wordChar c = false) (h : Spaced ts s) :
      Spaced (t :: ts) (ws ++ t.text ++ s)

/-- The first character of the first token. -/
def firstChar : List Tok → Option Char
  | [] => none
  | t :: _ => t.text.head?

section Lexing

variable {t : Tok} {ts : List Tok} {s : List Char}

theorem skip_append {ws : List Char} (h : ∀ c ∈ ws, whitespace.contains c) (s : List Char) :
    skip (ws ++ s) = skip s := by
  induction ws with
  | nil => rfl
  | cons c ws ih =>
    rw [cons_append, skip, dropWhile_cons, if_pos (h c mem_cons_self)]
    exact ih fun c hc => h c (mem_cons_of_mem _ hc)

/-- A token starts with a character that is no whitespace. -/
theorem Tok.Valid.text_eq (h : t.Valid) : ∃ c u, t.text = c :: u ∧ whitespace.contains c = false := by
  cases t with
  | eof => cases h
  | sym c =>
    refine ⟨c, [], rfl, ?_⟩
    have : ∀ c ∈ symbols, whitespace.contains c = false := by simp [symbols, whitespace]
    exact this c (by simpa [Tok.Valid] using h)
  | append => exact ⟨'>', ['>'], rfl, by decide⟩
  | word w =>
    obtain ⟨hne, hw⟩ := h
    cases w with
    | nil => exact absurd rfl hne
    | cons c u =>
      have := (hw c mem_cons_self).1
      simp only [wordChar, Bool.and_eq_true, Bool.not_eq_true'] at this
      exact ⟨c, u, rfl, this.1⟩

theorem skip_of_head {c : Char} {u : List Char} (h : whitespace.contains c = false) : skip (c :: u) = c :: u := by
  rw [skip, dropWhile_cons, if_neg (by rw [h]; exact Bool.false_ne_true)]

theorem Spaced.skip_nil (h : Spaced [] s) : skip s = [] := by
  cases h with
  | nil hws =>
    have := skip_append hws []
    rwa [append_nil] at this

/-- After whitespace, the first token. -/
theorem Spaced.skip_cons (h : Spaced (t :: ts) s) : ∃ s', skip s = t.text ++ s' ∧ t.Valid ∧
    (∀ w c s'', t = .word w → s' = c :: s'' → wordChar c = false) ∧ Spaced ts s' := by
  cases h with
  | @cons _ _ ws s' hws ht hsep h =>
    refine ⟨s', ?_, ht, hsep, h⟩
    obtain ⟨c, u, htext, hc⟩ := ht.text_eq
    rw [append_assoc, skip_append hws, htext, cons_append, skip_of_head hc]

theorem Spaced.skip (h : Spaced ts s) : Spaced ts (Xv6.skip s) := by
  cases ts with
  | nil =>
    rw [h.skip_nil]
    exact .nil nofun
  | cons t ts =>
    obtain ⟨s', hs, ht, hsep, h'⟩ := h.skip_cons
    rw [hs, ← nil_append (t.text ++ s'), ← append_assoc]
    exact .cons nofun ht hsep h'

/-- **`peek` sees the first character of the first token.** -/
theorem Spaced.peek (h : Spaced ts s) (toks : List Char) :
    Xv6.peek toks s = (firstChar ts).any toks.contains := by
  cases ts with
  | nil =>
    rw [Xv6.peek, h.skip_nil]
    rfl
  | cons t ts =>
    obtain ⟨s', hs, ht, -, -⟩ := h.skip_cons
    obtain ⟨c, u, htext, -⟩ := ht.text_eq
    rw [Xv6.peek, hs, htext]
    simp [firstChar, htext]

theorem takeWhile_word {w s : List Char} (hw : ∀ c ∈ w, wordChar c)
    (hs : ∀ c s', s = c :: s' → wordChar c = false) :
    (w ++ s).takeWhile wordChar = w ∧ (w ++ s).dropWhile wordChar = s := by
  induction w with
  | nil =>
    cases s with
    | nil => exact ⟨rfl, rfl⟩
    | cons c s => simp [hs c s rfl]
  | cons c w ih =>
    have hc := hw c mem_cons_self
    obtain ⟨h1, h2⟩ := ih fun c hc => hw c (mem_cons_of_mem _ hc)
    simp [hc, h1, h2]

/-- **`gettoken` reads the first token**; a `>` is one of its own where no `>` follows. -/
theorem Spaced.gettoken (h : Spaced (t :: ts) s)
    (hgt : t = .sym '>' → ∀ s', Spaced ts s' → ∀ u, s' ≠ '>' :: u) :
    ∃ s', Xv6.gettoken s = (t, s') ∧ Spaced ts s' ∧ s'.length < s.length := by
  obtain ⟨s', hs, ht, hsep, h'⟩ := h.skip_cons
  have hlt := length_gettoken_lt (s := s) (by obtain ⟨c, u, hc, -⟩ := ht.text_eq; rw [hs, hc]; nofun)
  have htok : tokenAt (Xv6.skip s) = (t, s') := by
    rw [hs]
    cases t with
    | eof => cases ht
    | sym c =>
      by_cases hc : c = '>'
      · subst hc
        have hno := hgt rfl s' h'
        have : tokenGt s' = (.sym '>', s') := by
          unfold tokenGt
          split
          · exact absurd rfl (hno _)
          · rfl
        simpa [Tok.text, tokenAt] using this
      · have : ∀ c ∈ symbols, c ≠ '>' → ['|', '(', ')', ';', '&', '<'].contains c = true := by
          simp [symbols]
        simp only [Tok.text, cons_append, nil_append, tokenAt]
        rw [if_pos (this c (by simpa [Tok.Valid] using ht) hc)]
    | append => rfl
    | word w =>
      obtain ⟨hne, hw⟩ := ht
      cases w with
      | nil => exact absurd rfl hne
      | cons c u =>
        have hc := (hw c mem_cons_self).1
        have hsym : symbols.contains c = false := by
          simp only [wordChar, Bool.and_eq_true, Bool.not_eq_true'] at hc
          exact hc.2
        have h1 : ¬ ['|', '(', ')', ';', '&', '<'].contains c := by
          intro hin
          have : ∀ c ∈ ['|', '(', ')', ';', '&', '<'], symbols.contains c = true := by simp [symbols]
          rw [this c (by simpa using hin)] at hsym
          cases hsym
        have h2 : c ≠ '>' := by
          rintro rfl
          exact absurd hsym (by decide)
        obtain ⟨e1, e2⟩ := takeWhile_word (fun c hc => (hw c hc).1) fun c s'' => hsep _ c s'' rfl
        rw [Tok.text, cons_append, tokenAt, if_neg h1, if_neg h2, ← cons_append, e1, e2]
  rw [Xv6.gettoken, htok] at hlt ⊢
  exact ⟨Xv6.skip s', rfl, h'.skip, hlt⟩

end Lexing

/-! ## The procedures -/

section Procedures

open Src

variable {ts : List Tok} {s : List Char} {n : ℕ}

/-- What follows starts with one of these characters, if anything follows. -/
def Follows (cs : List Char) (ts : List Tok) : Prop := ∀ c, firstChar ts = some c → c ∈ cs

theorem Follows.peek {cs : List Char} (hf : Follows cs ts) (h : Spaced ts s) (toks : List Char)
    (hno : ∀ c ∈ cs, toks.contains c = false) : Xv6.peek toks s = false := by
  rw [h.peek]
  cases hc : firstChar ts with
  | none => rfl
  | some c => exact hno c (hf c hc)

theorem firstChar_word {w : List Char} (h : IsWord w) (ts : List Tok) :
    ∃ c, firstChar (.word w :: ts) = some c ∧ wordChar c := by
  obtain ⟨hne, hw⟩ := h
  cases w with
  | nil => exact absurd rfl hne
  | cons c u => exact ⟨c, rfl, (hw c mem_cons_self).1⟩

/-- No procedure looks for a character of a word. -/
theorem peek_word {w : List Char} (toks : List Char) (h : Spaced (.word w :: ts) s)
    (htoks : ∀ c ∈ toks, symbols.contains c) : Xv6.peek toks s = false := by
  obtain ⟨-, -, ht, -, -⟩ := h.skip_cons
  obtain ⟨c, hc, hw⟩ := firstChar_word ht ts
  rw [h.peek, hc, Option.any_some]
  by_contra hno
  have := htoks c (by simpa using hno)
  simp only [wordChar, this, Bool.not_true, Bool.and_false] at hw
  cases hw

/-- The file comes after the operator; a `>` is not taken for `>>`. -/
theorem not_gt_of_word {w : List Char} {s' : List Char} (h : Spaced (.word w :: ts) s') (u : List Char) :
    s' ≠ '>' :: u := by
  rintro rfl
  obtain ⟨s'', hs, ht, -, -⟩ := h.skip_cons
  obtain ⟨c, hc, hw⟩ := firstChar_word ht []
  rw [skip_of_head (by decide)] at hs
  cases w with
  | nil => cases hc
  | cons a w =>
    cases hc
    cases hs
    exact absurd hw (by decide)

/-- **The procedure returns `a` and stops before the tokens `ts`**, on a line that goes on from `s`. -/
def Reads {α : Type} (ts : List Tok) (s : List Char) (x : Except ShError (α × List Char)) (a : α) : Prop :=
  ∃ s', x = .ok (a, s') ∧ Spaced ts s' ∧ s'.length ≤ s.length

/-- **`parseredirs`** reads all redirections. -/
theorem parseredirs_render : ∀ {rs : List Rd} {s : List Char} {n : ℕ}, Spaced (redirTokens rs ++ ts) s →
    (∀ c, firstChar ts = some c → c ≠ '<' ∧ c ≠ '>') → s.length < n →
    Reads ts s (parseredirs n s) (rs.map Rd.redir)
  | [], s, n + 1, h, hf, _ => by
    have h : Spaced ts s := h
    have hp : peek ['<', '>'] s = false := by
      rw [h.peek]
      cases hc : firstChar ts with
      | none => rfl
      | some c =>
        have := hf c hc
        simp [this]
    exact ⟨skip s, by rw [parseredirs, hp]; rfl, h.skip, length_skip_le s⟩
  | r :: rs, s, n + 1, h, hf, hn => by
    have h : Spaced (r.op.tok :: .word r.file :: (redirTokens rs ++ ts)) s := h
    have hp : peek ['<', '>'] s = true := by
      rw [h.peek]
      cases r.op <;> rfl
    obtain ⟨s1, hs1, h1, hlt1⟩ := h.gettoken fun _ s' h' => not_gt_of_word h'
    obtain ⟨s2, hs2, h2, hlt2⟩ := h1.gettoken nofun
    obtain ⟨s3, hs3, h3, hle3⟩ := parseredirs_render (n := n) h2 hf (by omega)
    refine ⟨s3, ?_, h3, by omega⟩
    simp only [parseredirs, if_pos hp, hs1, hs2, hs3, ok_bind, map_cons]
    unfold Rd.redir Op.tok
    cases r.op <;> rfl

/-- Words and what follows a command start with no redirection and no parenthesis. -/
theorem firstChar_args {args : List (List Char × List Rd)} (hv : ∀ a ∈ args, IsWord a.1)
    (hf : Follows ['|', '&', ';', ')'] ts) (c : Char) (hc : firstChar (argTokens args ++ ts) = some c) :
    c ≠ '<' ∧ c ≠ '>' ∧ c ≠ '(' := by
  cases args with
  | nil =>
    have : ∀ c ∈ ['|', '&', ';', ')'], c ≠ '<' ∧ c ≠ '>' ∧ c ≠ '(' := by simp
    exact this c (hf c hc)
  | cons a args =>
    obtain ⟨c', hc', hw⟩ := firstChar_word (hv a mem_cons_self)
      (redirTokens a.2 ++ (argTokens args ++ ts))
    have hc : firstChar (.word a.1 :: (redirTokens a.2 ++ (argTokens args ++ ts))) = some c := by
      simpa [argTokens] using hc
    rw [hc'] at hc
    cases hc
    refine ⟨?_, ?_, ?_⟩ <;> rintro rfl <;> exact absurd hw (by decide)

/-- **The loop of `parseexec`** reads all words and redirections. -/
theorem parseargs_render : ∀ {args : List (List Char × List Rd)} (argv : List (List Char)) (rs : List Redir)
    {s : List Char} {n : ℕ}, Spaced (argTokens args ++ ts) s → (∀ a ∈ args, IsWord a.1) →
    Follows ['|', '&', ';', ')'] ts → argv.length + args.length + 1 ≤ maxArgs → s.length < n →
    ∃ s', parseargs n argv rs s =
      .ok (argv ++ args.map Prod.fst, rs ++ (args.flatMap Prod.snd).map Rd.redir, s') ∧ Spaced ts s' ∧
        s'.length ≤ s.length
  | [], argv, rs, s, n + 1, h, _, hf, _, _ => by
    have h : Spaced ts s := h
    refine ⟨skip s, ?_, h.skip, length_skip_le s⟩
    rw [parseargs]
    simp only [map_nil, append_nil, flatMap_nil]
    cases ts with
    | nil => rw [h.peek, gettoken_of_skip_eq_nil h.skip_nil, h.skip_nil]; rfl
    | cons t ts =>
      have hp : peek ['|', ')', '&', ';'] s = true := by
        obtain ⟨-, -, ht, -, -⟩ := h.skip_cons
        obtain ⟨c, u, htext, -⟩ := ht.text_eq
        have hc : firstChar (t :: ts) = some c := by rw [firstChar, htext]; rfl
        have := hf c hc
        rw [h.peek, hc]
        simp only [mem_cons, not_mem_nil, or_false] at this
        rcases this with rfl | rfl | rfl | rfl <;> rfl
      rw [if_pos hp]
  | (w, rds) :: args, argv, rs, s, n + 1, h, hv, hf, hlen, hn => by
    have h : Spaced (.word w :: (redirTokens rds ++ (argTokens args ++ ts))) s := by
      simpa [argTokens] using h
    have hp := peek_word ['|', ')', '&', ';'] h (by simp [symbols])
    obtain ⟨s1, hs1, h1, hlt1⟩ := h.gettoken fun h => by cases h
    simp only [length_cons] at hlen
    have hfr := firstChar_args (fun a ha => hv a (mem_cons_of_mem _ ha)) hf
    obtain ⟨s2, hs2, h2, hle2⟩ := parseredirs_render (n := n) h1 (fun c hc => ⟨(hfr c hc).1, (hfr c hc).2.1⟩)
      (by omega)
    obtain ⟨s3, hs3, h3, hle3⟩ := parseargs_render (argv ++ [w]) (rs ++ rds.map Rd.redir) (n := n) h2
      (fun a ha => hv a (mem_cons_of_mem _ ha)) hf
      (by rw [length_append, length_singleton]; omega) (by omega)
    refine ⟨s3, ?_, h3, by omega⟩
    simp only [parseargs, hp, Bool.false_eq_true, if_false, hs1, hs2, ok_bind, hs3]
    rw [if_neg (by omega)]
    simp

/-- The loop over `&` reads all of them. -/
theorem parsebacks_render : ∀ {k : ℕ} (cmd : Cmd) {s : List Char} {n : ℕ},
    Spaced (List.replicate k (.sym '&') ++ ts) s → Follows [';', ')'] ts → s.length < n →
    Reads ts s (parsebacks n cmd s) (backs k cmd)
  | 0, cmd, s, n + 1, h, hf, _ => by
    have h : Spaced ts s := h
    refine ⟨skip s, ?_, h.skip, length_skip_le s⟩
    rw [parsebacks, hf.peek h _ (by simp)]
    rfl
  | k + 1, cmd, s, n + 1, h, hf, hn => by
    have h : Spaced (.sym '&' :: (List.replicate k (.sym '&') ++ ts)) s := h
    obtain ⟨s1, hs1, h1, hlt1⟩ := h.gettoken nofun
    obtain ⟨s2, hs2, h2, hle2⟩ := parsebacks_render (.back cmd) (n := n) h1 hf (by omega)
    refine ⟨s2, ?_, h2, by omega⟩
    rw [parsebacks, if_pos (show peek ['&'] s = true from h.peek _), hs1]
    exact hs2

theorem Follows.mono {cs cs' : List Char} (h : Follows cs ts) (hs : ∀ c ∈ cs, c ∈ cs') : Follows cs' ts :=
  fun c hc => hs c (h c hc)

theorem follows_amps {k : ℕ} {cs : List Char} (h : Follows cs ts) :
    Follows ('&' :: cs) (List.replicate k (.sym '&') ++ ts) := by
  cases k with
  | zero => exact h.mono fun c hc => mem_cons_of_mem _ hc
  | succ k =>
    intro c hc
    cases hc
    exact mem_cons_self

theorem follows_sym (c : Char) (ts : List Tok) : Follows [c] (.sym c :: ts) := fun d hd => by
  cases hd
  exact mem_cons_self

mutual

/-- **`parseline`** returns the tree of the line. -/
theorem parseline_render : ∀ (l : Src.Line) {ts : List Tok} {s : List Char} {n : ℕ}, l.Valid →
    Spaced (l.tokens ++ ts) s → Follows [')'] ts → 4 * s.length + 4 ≤ n → Reads ts s (parseline n s) l.tree
  | .single p k, ts, s, n + 1, hv, h, hf, hn => by
    rw [Line.tokens, append_assoc] at h
    obtain ⟨s1, hs1, h1, hle1⟩ := parsepipe_render p (n := n) hv h ((follows_amps hf).mono (by simp))
      (by omega)
    obtain ⟨s2, hs2, h2, hle2⟩ := parsebacks_render p.tree (n := n) h1 (hf.mono (by simp)) (by omega)
    refine ⟨skip s2, ?_, h2.skip, by have := length_skip_le s2; omega⟩
    simp only [parseline, hs1, hs2, ok_bind, hf.peek h2 [';'] (by simp)]
    rfl
  | .list p k l, ts, s, n + 1, hv, h, hf, hn => by
    rw [Line.tokens, append_assoc, append_assoc] at h
    have hsemi : Follows [';'] (.sym ';' :: l.tokens ++ ts) := follows_sym _ _
    obtain ⟨s1, hs1, h1, hle1⟩ := parsepipe_render p (n := n) hv.1 h ((follows_amps hsemi).mono (by simp))
      (by omega)
    obtain ⟨s2, hs2, h2, hle2⟩ := parsebacks_render p.tree (n := n) h1 (hsemi.mono (by simp)) (by omega)
    obtain ⟨s3, hs3, h3, hlt3⟩ := h2.gettoken nofun
    obtain ⟨s4, hs4, h4, hle4⟩ := parseline_render l (n := n) hv.2 h3 hf (by omega)
    refine ⟨s4, ?_, h4, by omega⟩
    simp only [parseline, hs1, hs2, ok_bind, show peek [';'] s2 = true from h2.peek _, if_true, hs3, hs4]
    rfl

/-- **`parsepipe`** returns the tree of the pipeline. -/
theorem parsepipe_render : ∀ (p : Src.Pipe) {ts : List Tok} {s : List Char} {n : ℕ}, p.Valid →
    Spaced (p.tokens ++ ts) s → Follows ['&', ';', ')'] ts → 4 * s.length + 3 ≤ n →
    Reads ts s (parsepipe n s) p.tree
  | .single e, ts, s, n + 1, hv, h, hf, hn => by
    obtain ⟨s1, hs1, h1, hle1⟩ := parseexec_render e (n := n) hv h (hf.mono (by simp)) (by omega)
    refine ⟨skip s1, ?_, h1.skip, by have := length_skip_le s1; omega⟩
    simp only [parsepipe, hs1, ok_bind, hf.peek h1 ['|'] (by simp)]
    rfl
  | .pipe e p, ts, s, n + 1, hv, h, hf, hn => by
    rw [Pipe.tokens, append_assoc] at h
    obtain ⟨s1, hs1, h1, hle1⟩ := parseexec_render e (n := n) hv.1 h ((follows_sym '|' _).mono (by simp))
      (by omega)
    obtain ⟨s2, hs2, h2, hlt2⟩ := Spaced.gettoken h1 nofun
    obtain ⟨s3, hs3, h3, hle3⟩ := parsepipe_render p (n := n) hv.2 h2 hf (by omega)
    refine ⟨s3, ?_, h3, by omega⟩
    simp only [parsepipe, hs1, ok_bind, show peek ['|'] s1 = true from h1.peek _, if_true, hs2, hs3]
    rfl

/-- **`parseexec`** returns the tree of the command. -/
theorem parseexec_render : ∀ (e : Exec) {ts : List Tok} {s : List Char} {n : ℕ}, e.Valid →
    Spaced (e.tokens ++ ts) s → Follows ['|', '&', ';', ')'] ts → 4 * s.length + 2 ≤ n →
    Reads ts s (parseexec n s) e.tree
  | .simple rs args, ts, s, n + 1, hv, h, hf, hn => by
    rw [Exec.tokens, append_assoc] at h
    have hfa := firstChar_args (fun a ha => (hv.2.1 a ha).1) hf
    have hp : peek ['('] s = false := by
      rw [h.peek]
      cases rs with
      | nil =>
        rw [redirTokens, flatMap_nil, nil_append]
        cases hc : firstChar (argTokens args ++ ts) with
        | none => rfl
        | some c => simp [(hfa c hc).2.2]
      | cons r rs =>
        change (r.op.tok.text.head?).any _ = false
        cases r.op <;> rfl
    obtain ⟨s1, hs1, h1, hle1⟩ := parseredirs_render (n := n) h (fun c hc => ⟨(hfa c hc).1, (hfa c hc).2.1⟩)
      (by omega)
    obtain ⟨s2, hs2, h2, hle2⟩ := parseargs_render [] (rs.map Rd.redir) (n := n) h1
      (fun a ha => (hv.2.1 a ha).1) hf (by simpa using hv.2.2) (by omega)
    refine ⟨s2, ?_, h2, by omega⟩
    simp [parseexec, hp, hs1, hs2, ok_bind, Exec.tree]
  | .block l rs, ts, s, n + 2, hv, h, hf, hn => by
    have h : Spaced (.sym '(' :: (l.tokens ++ .sym ')' :: (redirTokens rs ++ ts))) s := by
      simpa [Exec.tokens] using h
    have hp : peek ['('] s = true := h.peek _
    obtain ⟨s1, hs1, h1, hlt1⟩ := h.gettoken nofun
    obtain ⟨s2, hs2, h2, hle2⟩ := parseline_render l (n := n) hv.1 h1 (follows_sym _ _) (by omega)
    have hp2 : peek [')'] s2 = true := h2.peek _
    obtain ⟨s3, hs3, h3, hlt3⟩ := h2.gettoken nofun
    obtain ⟨s4, hs4, h4, hle4⟩ := parseredirs_render (n := n) h3
      (fun c hc => by
        have : ∀ c ∈ ['|', '&', ';', ')'], c ≠ '<' ∧ c ≠ '>' := by simp
        exact this c (hf c hc)) (by omega)
    refine ⟨s4, ?_, h4, by omega⟩
    simp only [parseexec, parseblock, hp, hp2, if_true, hs1, hs2, hs3, hs4, ok_bind]
    rfl

end

end Procedures

end Xv6
