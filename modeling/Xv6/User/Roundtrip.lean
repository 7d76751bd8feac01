import Xv6.User.Counted
import Xv6.User.Render

/-!
# User/Roundtrip — the shell reads back what is printed

Every command tree of the shell has a printed line, and every text of that line is read back as the tree.
The other way round the procedures build such trees only, from words of the line, and `parsecmd` returns one
only when nothing but whitespace is left.
-/

namespace Xv6

open Outcome List

/-! ## Command trees -/

namespace Src

/-- A command in parentheses. -/
def Exec.paren (p : Pipe) (k : ℕ) (rs : List Rd) : Exec := .block (.single p k) rs

/-- A rendering of a command tree, with every node but EXEC in parentheses. -/
def render : Cmd → Exec
  | .exec argv => .simple [] (argv.map fun w => (w, []))
  | .redir c file mode _ => .paren (.single (render c)) 0 [⟨if mode = 0 then .input else .output, file⟩]
  | .pipe l r => .paren (.pipe (render l) (.single (render r))) 0 []
  | .list l r => .block (.list (.single (render l)) 0 (.single (.single (render r)) 0)) []
  | .back c => .paren (.single (render c)) 1 []

end Src

/-- The command trees of the shell: words are words, at most `MAXARGS - 1` to an EXEC node, and a REDIR
node reads standard input or writes standard output. -/
def Cmd.Valid : Cmd → Prop
  | .exec argv => (∀ w ∈ argv, Src.IsWord w) ∧ argv.length + 1 ≤ maxArgs
  | .redir c file mode fd => c.Valid ∧ Src.IsWord file ∧ (mode = 0 ∧ fd = 0 ∨ mode = 0x201 ∧ fd = 1)
  | .pipe l r => l.Valid ∧ r.Valid
  | .list l r => l.Valid ∧ r.Valid
  | .back c => c.Valid

section Trees

open Src

theorem rdsValid_nil : RdsValid [] := nofun

/-- Every command tree has a rendering. -/
theorem render_spec : ∀ {c : Cmd}, c.Valid → (render c).Valid ∧ (render c).tree = c
  | .exec argv, h => by
    refine ⟨⟨rdsValid_nil, fun a ha => ?_, by simpa using h.2⟩, ?_⟩
    · obtain ⟨w, hw, rfl⟩ := mem_map.1 ha
      exact ⟨h.1 w hw, rdsValid_nil⟩
    · have hw : (argv.map fun w => (w, ([] : List Rd))).map Prod.fst = argv := by simp [Function.comp_def]
      have hr : (argv.map fun w => (w, ([] : List Rd))).flatMap Prod.snd = [] := by simp
      rw [render, Exec.tree, hw, hr]
      rfl
  | .redir c file mode fd, h => by
    obtain ⟨hv, ht⟩ := render_spec h.1
    refine ⟨⟨hv, fun r hr => ?_⟩, ?_⟩
    · rw [mem_singleton.1 hr]
      exact h.2.1
    · rw [render, Exec.paren, Exec.tree, Line.tree, Pipe.tree, ht]
      rcases h.2.2 with ⟨rfl, rfl⟩ | ⟨rfl, rfl⟩ <;> rfl
  | .pipe l r, h => by
    obtain ⟨hl, htl⟩ := render_spec h.1
    obtain ⟨hr, htr⟩ := render_spec h.2
    refine ⟨⟨⟨hl, hr⟩, rdsValid_nil⟩, ?_⟩
    rw [render, Exec.paren, Exec.tree, Line.tree, Pipe.tree, Pipe.tree, htl, htr]
    rfl
  | .list l r, h => by
    obtain ⟨hl, htl⟩ := render_spec h.1
    obtain ⟨hr, htr⟩ := render_spec h.2
    refine ⟨⟨⟨hl, hr⟩, rdsValid_nil⟩, ?_⟩
    rw [render, Exec.tree, Line.tree, Line.tree, Pipe.tree, Pipe.tree, htl, htr]
    rfl
  | .back c, h => by
    obtain ⟨hv, ht⟩ := render_spec (c := c) h
    refine ⟨⟨hv, rdsValid_nil⟩, ?_⟩
    rw [render, Exec.paren, Exec.tree, Line.tree, Pipe.tree, ht]
    rfl

/-! ### Tokens of a command -/

theorem Src.Op.tok_valid (o : Op) : o.tok.Valid := by cases o <;> first | rfl | trivial

theorem redirTokens_valid {rs : List Rd} (h : RdsValid rs) : ∀ t ∈ redirTokens rs, t.Valid := by
  intro t ht
  obtain ⟨r, hr, ht⟩ := mem_flatMap.1 ht
  simp only [mem_cons, not_mem_nil, or_false] at ht
  rcases ht with rfl | rfl
  · exact r.op.tok_valid
  · exact h r hr

theorem argTokens_valid {args : List (List Char × List Rd)} (h : ∀ a ∈ args, IsWord a.1 ∧ RdsValid a.2) :
    ∀ t ∈ argTokens args, t.Valid := by
  intro t ht
  obtain ⟨a, ha, ht⟩ := mem_flatMap.1 ht
  rcases mem_cons.1 ht with rfl | ht
  · exact (h a ha).1
  · exact redirTokens_valid (h a ha).2 t ht

mutual

theorem Src.Line.tokens_valid : ∀ (l : Line), l.Valid → ∀ t ∈ l.tokens, t.Valid
  | .single p k, h, t, ht => by
    rcases mem_append.1 ht with ht | ht
    · exact p.tokens_valid h t ht
    · rw [eq_of_mem_replicate ht]
      rfl
  | .list p k l, h, t, ht => by
    rcases mem_append.1 ht with ht | ht
    · rcases mem_append.1 ht with ht | ht
      · exact p.tokens_valid h.1 t ht
      · rw [eq_of_mem_replicate ht]
        rfl
    · rcases mem_cons.1 ht with rfl | ht
      · rfl
      · exact l.tokens_valid h.2 t ht

theorem Src.Pipe.tokens_valid : ∀ (p : Pipe), p.Valid → ∀ t ∈ p.tokens, t.Valid
  | .single e, h, t, ht => e.tokens_valid h t ht
  | .pipe e p, h, t, ht => by
    rcases mem_append.1 ht with ht | ht
    · exact e.tokens_valid h.1 t ht
    · rcases mem_cons.1 ht with rfl | ht
      · rfl
      · exact p.tokens_valid h.2 t ht

theorem Src.Exec.tokens_valid : ∀ (e : Exec), e.Valid → ∀ t ∈ e.tokens, t.Valid
  | .simple rs args, h, t, ht => by
    rcases mem_append.1 ht with ht | ht
    · exact redirTokens_valid h.1 t ht
    · exact argTokens_valid h.2.1 t ht
  | .block l rs, h, t, ht => by
    rcases mem_append.1 ht with ht | ht
    · rcases mem_cons.1 ht with rfl | ht
      · rfl
      · exact l.tokens_valid h.1 t ht
    · rcases mem_cons.1 ht with rfl | ht
      · rfl
      · exact redirTokens_valid h.2 t ht

end

/-- Tokens make a line of text: with a blank before each. -/
theorem exists_spaced : ∀ {ts : List Tok}, (∀ t ∈ ts, t.Valid) →
    ∃ s, Spaced ts s ∧ ∀ c s', s = c :: s' → c = ' '
  | [], _ => ⟨[], .nil nofun, nofun⟩
  | t :: ts, h => by
    obtain ⟨s, hs, hb⟩ := exists_spaced fun t ht => h t (mem_cons_of_mem _ ht)
    refine ⟨[' '] ++ t.text ++ s, .cons (by simp [whitespace]) (h t mem_cons_self) ?_ hs, ?_⟩
    · intro w c s' _ hc
      rw [hb c s' hc]
      decide
    · intro c s' hc
      cases hc
      rfl

end Trees

/-! ## What the parser builds -/

section Builds

open Src

/-- No NUL is in the text. -/
def NoNul (s : List Char) : Prop := ∀ c ∈ s, c ≠ Char.ofNat 0

theorem isWord_text {line : List Char} {a : Counted.Span} (h : NoNul line) (ha : Counted.Token line a) :
    IsWord a.text :=
  ⟨ha.ne_nil, fun c hc => ⟨ha.word c hc, h c (ha.suffix.mem (ha.split ▸ mem_append_left _ hc))⟩⟩

/-- **The words of a tree of the line** make a command tree of the shell. -/
theorem words_valid {line : List Char} (h : NoNul line) {c : Counted.Node} (hc : c.Formed line) :
    c.words.Valid := by
  induction c with
  | exec argv => exact ⟨forall_mem_map.2 fun a ha => isWord_text h (hc.1 a ha), by simpa using hc.2⟩
  | redir c file mode fd ih => exact ⟨ih hc.1, isWord_text h hc.2.1, hc.2.2⟩
  | pipe l r ihl ihr => exact ⟨ihl hc.1, ihr hc.2⟩
  | list l r ihl ihr => exact ⟨ihl hc.1, ihr hc.2⟩
  | back c ih => exact ih hc

theorem parseline_runs {s : List Char} (h : NoNul s) : Runs (parseline (lineFuel s) s) ShError.Reported fun r =>
    r.1.Valid ∧ r.2 <:+ s := by
  rw [(Counted.parse_text _).1, map_eq_pure_bind]
  exact Runs.bind ((Counted.parse_ends _).1 s (suffix_refl s) (Nat.le_refl _)) fun r hr =>
    runs_ok.2 ⟨words_valid h hr.1, hr.2⟩

end Builds

/-! ## `parsecmd` -/

section Parsecmd

open Src

/-- The line up to its NUL. -/
def upToNul (line : List Char) : List Char := line.takeWhile (· ≠ Char.ofNat 0)

theorem noNul_upToNul (line : List Char) : NoNul (upToNul line) := fun c hc => by
  simpa using mem_takeWhile_imp hc

theorem upToNul_of_noNul {s : List Char} (h : NoNul s) : upToNul s = s :=
  takeWhile_eq_self_iff.2 fun c hc => by simpa using h c hc

theorem noNul_of_subset {s : List Char} (cs : List Char) (h : ∀ c ∈ s, cs.contains c)
    (hcs : ∀ c ∈ cs, c ≠ Char.ofNat 0) : NoNul s := fun c hc => hcs c (by simpa using h c hc)

theorem Tok.Valid.noNul {t : Tok} (h : t.Valid) : NoNul t.text := by
  cases t with
  | eof => cases h
  | sym c => exact noNul_of_subset symbols (fun d hd => by rwa [mem_singleton.1 hd]) (by simp [symbols])
  | append => exact noNul_of_subset symbols (by simp [symbols, Tok.text]) (by simp [symbols])
  | word w => exact fun c hc => (h.2 c hc).2

theorem Spaced.noNul {ts : List Tok} {s : List Char} (h : Spaced ts s) : NoNul s := by
  have hblank : ∀ c ∈ whitespace, c ≠ Char.ofNat 0 := by simp [whitespace]
  induction h with
  | nil hws => exact noNul_of_subset whitespace hws hblank
  | cons hws ht _ _ ih =>
    intro c hc
    rcases mem_append.1 hc with hc | hc
    · rcases mem_append.1 hc with hc | hc
      · exact noNul_of_subset whitespace hws hblank c hc
      · exact ht.noNul c hc
    · exact ih c hc

/-- A printed line is read back. -/
theorem parsecmd_of_spaced {l : Src.Line} {s : List Char} (hv : l.Valid) (h : Spaced l.tokens s) :
    parsecmd s = .ok l.tree := by
  have hnil : Spaced (l.tokens ++ []) s := by rwa [append_nil]
  obtain ⟨s', hs', h', -⟩ := parseline_render l hv hnil nofun (Nat.le_refl _)
  have hu : s.takeWhile (· ≠ Char.ofNat 0) = s := upToNul_of_noNul h.noNul
  unfold parsecmd
  rw [hu]
  dsimp only
  rw [lineFuel, hs', ok_bind]
  dsimp only
  rw [if_pos h'.skip_nil]

/-- What `parsecmd` returns is a command tree of the shell, made of all of the line. -/
theorem parsecmd_runs (line : List Char) : Runs (parsecmd line) ShError.Reported fun c => c.Valid ∧
    ∃ text rest, upToNul line = text ++ rest ∧ (∀ d ∈ rest, whitespace.contains d) ∧
      parseline (lineFuel (upToNul line)) (upToNul line) = .ok (c, rest) := by
  have hruns := parseline_runs (noNul_upToNul line)
  unfold parsecmd
  dsimp only
  rw [← upToNul]
  cases hp : parseline (lineFuel (upToNul line)) (upToNul line) with
  | error e =>
    rw [hp] at hruns
    exact runs_error.2 (runs_error.1 hruns)
  | ok r =>
    obtain ⟨c, rest⟩ := r
    rw [hp] at hruns
    obtain ⟨hc, text, htext⟩ := runs_ok.1 hruns
    rw [ok_bind]
    dsimp only
    split
    · rename_i hskip
      refine runs_ok.2 ⟨hc, text, rest, htext.symm, fun d hd => ?_, rfl⟩
      exact dropWhile_eq_nil_iff.1 hskip d hd
    · exact runs_error.2 ⟨_, rfl⟩

/-- **Shell parsing inverts printing.**  Every command tree of the shell is the tree of a printed line,
and `parsecmd` returns it for each text of that line; on every input `parsecmd` returns a command tree made
of the whole line, or reports an error. -/
theorem parsecmd_inverts_printing :
    (∀ c : Cmd, c.Valid ↔ ∃ s, parsecmd s = .ok c) ∧
    (∀ c : Cmd, c.Valid → ∃ l : Src.Line, l.Valid ∧ l.tree = c ∧ ∃ s, Spaced l.tokens s) ∧
    (∀ (l : Src.Line) (s : List Char), l.Valid → Spaced l.tokens s → parsecmd s = .ok l.tree) ∧
    ∀ line : List Char, Runs (parsecmd line) ShError.Reported fun c => c.Valid ∧
      ∃ text rest, upToNul line = text ++ rest ∧ (∀ d ∈ rest, whitespace.contains d) ∧
        parseline (lineFuel (upToNul line)) (upToNul line) = .ok (c, rest) := by
  have hline : ∀ c : Cmd, c.Valid → ∃ l : Src.Line, l.Valid ∧ l.tree = c ∧ ∃ s, Spaced l.tokens s := by
    intro c hc
    obtain ⟨hv, ht⟩ := render_spec hc
    have hl : (Line.single (.single (render c)) 0).Valid := hv
    obtain ⟨s, hs, -⟩ := exists_spaced (Line.tokens_valid _ hl)
    exact ⟨_, hl, ht, s, hs⟩
  refine ⟨fun c => ⟨fun hc => ?_, fun ⟨s, hs⟩ => ?_⟩, hline, fun l s => parsecmd_of_spaced, parsecmd_runs⟩
  · obtain ⟨l, hv, rfl, s, hs⟩ := hline c hc
    exact ⟨s, parsecmd_of_spaced hv hs⟩
  · exact ((parsecmd_runs s).of_ok hs).1

/-- The line `(ls|wc>f)&` as it is printed. -/
def lsWc : Src.Line := .single (.single (.block (.single (.pipe (.simple [] [(['l', 's'], [])])
  (.single (.simple [] [(['w', 'c'], [⟨.output, ['f']⟩])]))) 0) [])) 1

theorem parsecmd_inverts_printing_lsWc : parsecmd "(ls |wc> f)&".toList =
    .ok (.back (.pipe (.exec [['l', 's']]) (.redir (.exec [['w', 'c']]) ['f'] 0x201 1))) := by
  have hword : ∀ w ∈ [['l', 's'], ['w', 'c'], ['f']], IsWord w := by
    simp [IsWord, wordChar, symbols, whitespace]
  have hv : lsWc.Valid := by
    simp [lsWc, Line.Valid, Pipe.Valid, Exec.Valid, RdsValid, hword, maxArgs]
  have hnil : ∀ c ∈ ([] : List Char), whitespace.contains c := forall_mem_nil _
  have hsym : ∀ d s w c s', Tok.sym d = .word w → s = c :: s' → wordChar c = false :=
    fun _ _ _ _ _ h => by cases h
  have hs : Spaced lsWc.tokens "(ls |wc> f)&".toList := by
    refine @Spaced.cons (.sym '(') _ [] "ls |wc> f)&".toList hnil rfl (hsym _ _) ?_
    refine @Spaced.cons (.word ['l', 's']) _ [] " |wc> f)&".toList hnil (hword _ (by simp)) ?_ ?_
    · exact fun w c s' _ h => by cases h; rfl
    refine @Spaced.cons (.sym '|') _ [' '] "wc> f)&".toList (by simp [whitespace]) rfl (hsym _ _) ?_
    refine @Spaced.cons (.word ['w', 'c']) _ [] "> f)&".toList hnil (hword _ (by simp)) ?_ ?_
    · exact fun w c s' _ h => by cases h; rfl
    refine @Spaced.cons (.sym '>') _ [] " f)&".toList hnil rfl (hsym _ _) ?_
    refine @Spaced.cons (.word ['f']) _ [' '] ")&".toList (by simp [whitespace]) (hword _ (by simp)) ?_ ?_
    · exact fun w c s' _ h => by cases h; rfl
    refine @Spaced.cons (.sym ')') _ [] "&".toList hnil rfl (hsym _ _) ?_
    exact @Spaced.cons (.sym '&') _ [] [] hnil rfl (hsym _ _) (.nil hnil)
  exact parsecmd_inverts_printing.2.2.1 lsWc _ hv hs

end Parsecmd

end Xv6
