import Xv6.Lib.Ring
import Xv6.Mem.Layout

/-!
# Ipc/Console — the input side of `console.c`

`consoleintr` edits the end of a ring of characters and commits lines to it, and `consoleread` takes what is
committed from its front.  Three indices that only count modulo `2 ^ 32` say where a reader goes on, where
the committed characters end and where the line that is being edited ends.

The ring shows a line discipline (`Line`): the characters that are committed and unread, and the line that
is being edited.  Typing a character and reading do to the ring what they do to the line (`Shows`).
-/

namespace Xv6

open List

/-- `INPUT_BUF`. -/
def inputBuf : ℕ := 128

/-- `C('P')`. -/
def ctrlP : UInt8 := 0x10

/-- `C('U')`. -/
def ctrlU : UInt8 := 0x15

/-- `C('H')`. -/
def ctrlH : UInt8 := 0x08

/-- `'\x7f'`. -/
def delete : UInt8 := 0x7f

/-- `C('D')`. -/
def ctrlD : UInt8 := 0x04

/-- `'\n'`. -/
def newline : UInt8 := 0x0a

/-- `'\r'`. -/
def carriageReturn : UInt8 := 0x0d

/-- `a - b` of two `uint`s. -/
def subUint (a b : ℕ) : ℕ := (a + 2 ^ 32 - b) % 2 ^ 32

/-- `input`. -/
structure InputBuf where
  buf : ℕ → UInt8
  r : ℕ
  w : ℕ
  e : ℕ

namespace InputBuf

/-- The loop that kills a line.  Each turn moves `e` towards `w`, so `e - w` turns suffice. -/
def killLine : ℕ → InputBuf → InputBuf
  | 0, s => s
  | turns + 1, s =>
    if s.e ≠ s.w ∧ s.buf (subUint s.e 1 % inputBuf) ≠ newline then
      killLine turns { s with e := subUint s.e 1 }
    else s

/-- `consoleintr` for one character. -/
def consoleintr (c : UInt8) (s : InputBuf) : InputBuf :=
  if c = ctrlP then s
  else if c = ctrlU then killLine (subUint s.e s.w) s
  else if c = ctrlH ∨ c = delete then
    if s.e ≠ s.w then { s with e := subUint s.e 1 } else s
  else if c ≠ 0 ∧ subUint s.e s.r < inputBuf then
    let c := if c = carriageReturn then newline else c
    let s := { s with buf := Function.update s.buf (s.e % inputBuf) c, e := incUint s.e }
    if c = newline ∨ c = ctrlD ∨ s.e = (s.r + inputBuf) % 2 ^ 32 then { s with w := s.e } else s
  else s

/-- How `consoleread` ends up to its next sleep: it returns with `n` bytes left, of its own or at a `^D` that
it consumes; it returns `-1`; or it sleeps with `n` bytes left. -/
inductive ReadEnd where
  | done (n : ℕ)
  | eof (n : ℕ)
  | fail
  | sleep (n : ℕ)

/-- The loop of `consoleread` up to its next sleep: the bytes it moves to `dst`. -/
def consoleread (killed : Bool) (target : ℕ) : ℕ → InputBuf → List UInt8 × ReadEnd × InputBuf
  | 0, s => ([], .done 0, s)
  | n + 1, s =>
    if s.r = s.w then if killed then ([], .fail, s) else ([], .sleep (n + 1), s)
    else
      let c := s.buf (s.r % inputBuf)
      let s := { s with r := incUint s.r }
      if c = ctrlD then
        -- save `^D` for next time
        if n + 1 < target then ([], .done (n + 1), { s with r := subUint s.r 1 }) else ([], .eof (n + 1), s)
      else if c = newline then ([c], .done n, s)
      else
        let rest := consoleread killed target n s
        (c :: rest.1, rest.2)

end InputBuf

/-! ## Runs -/

/-- A process: outside `consoleread`, or asleep in it with `n` of `target` bytes left, after it has got
some. -/
inductive Reader where
  | idle
  | reading (n target : ℕ) (got : List UInt8)

/-- The console and the processes that read from it. -/
structure Console where
  input : InputBuf
  reader : ℕ → Reader

/-- What happens: a character arrives, a process calls `consoleread`, or it wakes up in it. -/
inductive ConsoleEvent where
  | intr (c : UInt8)
  | read (pid : ℕ) (n : ℤ) (killed : Bool)
  | wake (pid : ℕ) (killed : Bool)

/-- What a step does.  A process takes `bs`; then it sleeps, or its call returns `value` and `all` the bytes it
has taken, or it consumes a `^D` and returns, or it fails and `lost` is what it has taken. -/
inductive ConsoleEffect where
  | typed (c : UInt8)
  | sleeps (pid : ℕ) (bs : List UInt8)
  | returns (pid : ℕ) (bs all : List UInt8) (value : ℕ)
  | eof (pid : ℕ) (bs all : List UInt8) (value : ℕ)
  | fails (pid : ℕ) (bs lost : List UInt8)
  | nothing

namespace Console

/-- A process goes on in `consoleread`, after it has got some bytes. -/
def goOn (killed : Bool) (pid n target : ℕ) (got : List UInt8) (s : Console) : ConsoleEffect × Console :=
  let (bs, e, input) := s.input.consoleread killed target n
  match e with
  | .done n => (.returns pid bs (got ++ bs) (target - n), ⟨input, Function.update s.reader pid .idle⟩)
  | .eof n => (.eof pid bs (got ++ bs) (target - n), ⟨input, Function.update s.reader pid .idle⟩)
  | .fail => (.fails pid bs (got ++ bs), ⟨input, Function.update s.reader pid .idle⟩)
  | .sleep n => (.sleeps pid bs, ⟨input, Function.update s.reader pid (.reading n target (got ++ bs))⟩)

/-- **One step**, from one sleep to the next. -/
def step (s : Console) : ConsoleEvent → ConsoleEffect × Console
  | .intr c => (.typed c, { s with input := s.input.consoleintr c })
  | .read pid n killed =>
    match s.reader pid with
    | .idle => s.goOn killed pid n.toNat n.toNat []
    | .reading _ _ _ => (.nothing, s)
  | .wake pid killed =>
    match s.reader pid with
    | .idle => (.nothing, s)
    | .reading n target got => s.goOn killed pid n target got

/-- A run: its effects, and the console after it. -/
def run : List ConsoleEvent → Console → List ConsoleEffect × Console
  | [], s => ([], s)
  | ev :: evs, s => ((s.step ev).1 :: (run evs (s.step ev).2).1, (run evs (s.step ev).2).2)

/-- The console at boot. -/
def init (buf : ℕ → UInt8) : Console := ⟨⟨buf, 0, 0, 0⟩, fun _ => .idle⟩

end Console

/-! ## The line discipline -/

/-- **What is committed and unread, and the line that is being edited.** -/
structure Line where
  unread : List UInt8
  edit : List UInt8

namespace Line

/-- `\r` stands for `\n`. -/
def key (c : UInt8) : UInt8 := if c = carriageReturn then newline else c

/-- The character that is entered, or `none` if it edits the line or there is no room. -/
def enters (c : UInt8) (l : Line) : Option UInt8 :=
  if c = ctrlP ∨ c = ctrlU ∨ c = ctrlH ∨ c = delete ∨ c = 0 then none
  else if (l.unread ++ l.edit).length < inputBuf then some (key c)
  else none

/-- A character commits the line: newline, `^D`, or the last there is room for. -/
def Commits (c : UInt8) (l : Line) : Prop :=
  c = newline ∨ c = ctrlD ∨ (l.unread ++ l.edit).length + 1 = inputBuf

instance (c : UInt8) (l : Line) : Decidable (l.Commits c) := inferInstanceAs (Decidable (_ ∨ _))

/-- What is committed when `c` is typed. -/
def committed (c : UInt8) (l : Line) : List UInt8 :=
  match l.enters c with
  | some c => if l.Commits c then l.edit ++ [c] else []
  | none => []

/-- The line that is being edited after `c` is typed. -/
def edited (c : UInt8) (l : Line) : List UInt8 :=
  match l.enters c with
  | some c => if l.Commits c then [] else l.edit ++ [c]
  | none => if c = ctrlU then [] else if c = ctrlH ∨ c = delete then l.edit.dropLast else l.edit

/-- **A character is typed.** -/
def type (c : UInt8) (l : Line) : Line := ⟨l.unread ++ l.committed c, l.edited c⟩

end Line

namespace ConsoleEffect

/-- The characters that a step takes from the committed ones. -/
def taken : ConsoleEffect → List UInt8
  | .sleeps _ bs | .returns _ bs _ _ | .fails _ bs _ => bs
  | .eof _ bs _ _ => bs ++ [ctrlD]
  | .typed _ | .nothing => []

/-- The line after a step. -/
def follow (l : Line) : ConsoleEffect → Line
  | .typed c => l.type c
  | x => ⟨l.unread.drop x.taken.length, l.edit⟩

/-- What a step commits. -/
def committed (l : Line) : ConsoleEffect → List UInt8
  | .typed c => l.committed c
  | _ => []

/-- The bytes that process `pid` moves to its buffer. -/
def takenBy (pid : ℕ) : ConsoleEffect → List UInt8
  | .sleeps p bs | .returns p bs _ _ | .eof p bs _ _ | .fails p bs _ => if p = pid then bs else []
  | .typed _ | .nothing => []

/-- The bytes that a call of process `pid` returns. -/
def returnedBy (pid : ℕ) : ConsoleEffect → List UInt8
  | .returns p _ all _ | .eof p _ all _ => if p = pid then all else []
  | .typed _ | .sleeps _ _ | .fails _ _ _ | .nothing => []

/-- The bytes that a call of process `pid` has taken and does not return. -/
def lostBy (pid : ℕ) : ConsoleEffect → List UInt8
  | .fails p _ lost => if p = pid then lost else []
  | .typed _ | .sleeps _ _ | .returns _ _ _ _ | .eof _ _ _ _ | .nothing => []

/-- **A `^D` is returned by no read, and consumed by one that returns 0 bytes**; what a call returns is the
number of its bytes. -/
def Proper : ConsoleEffect → Prop
  | .sleeps _ bs => ctrlD ∉ bs
  | .returns _ _ all value => ctrlD ∉ all ∧ value = all.length
  | .eof _ _ all value => all = [] ∧ value = 0
  | .fails _ _ lost => ctrlD ∉ lost
  | .typed _ | .nothing => True

end ConsoleEffect

/-- The line after a run. -/
def lineAfter : List ConsoleEffect → Line → Line
  | [], l => l
  | x :: xs, l => lineAfter xs (x.follow l)

/-- What a run commits. -/
def committedIn : List ConsoleEffect → Line → List UInt8
  | [], _ => []
  | x :: xs, l => x.committed l ++ committedIn xs (x.follow l)

/-- The bytes that a process has got in a call that is not over. -/
def Reader.got : Reader → List UInt8
  | .idle => []
  | .reading _ _ got => got

/-! ## The ring shows the line -/

namespace InputBuf

variable {s : InputBuf} {l : Line} {u d : List UInt8} {c : UInt8} {n target : ℕ}

/-- **The ring holds what is unread, and behind it the line that is being edited.** -/
structure Shows (s : InputBuf) (l : Line) : Prop where
  r_lt : s.r < 2 ^ 32
  w_eq : s.w = (s.r + l.unread.length) % 2 ^ 32
  e_eq : s.e = (s.r + (l.unread ++ l.edit).length) % 2 ^ 32
  length_le : (l.unread ++ l.edit).length ≤ inputBuf
  holds : Ring.Holds inputBuf s.buf s.r (l.unread ++ l.edit)
  no_newline : newline ∉ l.edit

theorem inputBuf_dvd : inputBuf ∣ 2 ^ 32 := ⟨2 ^ 25, rfl⟩

theorem shows_init (buf : ℕ → UInt8) : Shows ⟨buf, 0, 0, 0⟩ ⟨[], []⟩ :=
  ⟨Nat.two_pow_pos 32, rfl, rfl, Nat.zero_le _, Ring.holds_nil _ _ _, nofun⟩

/-- The differences of the indices are the numbers of characters, wherever they have wrapped. -/
theorem Shows.sub_eq (h : s.Shows l) : subUint s.w s.r = l.unread.length ∧
    subUint s.e s.r = (l.unread ++ l.edit).length ∧ subUint s.e s.w = l.edit.length := by
  have h1 := h.r_lt
  have h2 := h.w_eq
  have h3 := h.e_eq
  have h4 := h.length_le
  rw [length_append] at h3 h4 ⊢
  simp only [inputBuf, subUint] at *
  refine ⟨by omega, by omega, by omega⟩

theorem Shows.e_eq_w_iff (h : s.Shows l) : s.e = s.w ↔ l.edit = [] := by
  have h1 := h.r_lt
  have h2 := h.w_eq
  have h3 := h.e_eq
  have h4 := h.length_le
  rw [← length_eq_zero_iff]
  rw [length_append] at h3 h4
  simp only [inputBuf] at *
  omega

theorem Shows.r_eq_w_iff (h : s.Shows l) : s.r = s.w ↔ l.unread = [] := by
  have h1 := h.r_lt
  have h2 := h.w_eq
  have h4 := h.length_le
  rw [← length_eq_zero_iff]
  rw [length_append] at h4
  simp only [inputBuf] at *
  omega

/-- **The last character of the line is erased.** -/
theorem Shows.erase (h : s.Shows ⟨u, d ++ [c]⟩) :
    Shows { s with e := subUint s.e 1 } ⟨u, d⟩ ∧ s.buf (subUint s.e 1 % inputBuf) = c := by
  have h1 := h.r_lt
  have h3 := h.e_eq
  have h4 := h.length_le
  have h5 := h.holds
  simp only [← append_assoc] at h5
  simp only [length_append, length_singleton] at h3 h4
  have he : subUint s.e 1 = (s.r + (u ++ d).length) % 2 ^ 32 := by
    rw [length_append]
    simp only [inputBuf, subUint] at *
    omega
  refine ⟨⟨h1, h.w_eq, he, ?_, h5.of_append, fun hn => h.no_newline (mem_append_left _ hn)⟩, ?_⟩
  · simp only [length_append]
    omega
  · rw [he, Nat.mod_mod_of_dvd _ inputBuf_dvd]
    exact h5.drop.head

/-- **The line is killed**: there is no newline in it to stop at. -/
theorem Shows.killLine : ∀ (n : ℕ) {s : InputBuf} {d : List UInt8}, s.Shows ⟨u, d⟩ → d.length = n →
    Shows (InputBuf.killLine n s) ⟨u, []⟩
  | 0, s, d, h, hn => by
    rw [length_eq_zero_iff] at hn
    exact hn ▸ h
  | n + 1, s, d, h, hn => by
    obtain ⟨d, c, rfl⟩ := eq_nil_or_concat' d |>.resolve_left fun hd => by
      rw [hd] at hn
      cases hn
    obtain ⟨hs, hc⟩ := h.erase
    have hne : s.e ≠ s.w := fun he => append_ne_nil_of_right_ne_nil d (cons_ne_nil c [])
      (h.e_eq_w_iff.mp he)
    have hnl : c ≠ newline := fun he => h.no_newline (by rw [he]; exact mem_append_right _ (.head _))
    rw [InputBuf.killLine, if_pos ⟨hne, hc ▸ hnl⟩]
    exact hs.killLine n (by rw [length_append, length_singleton] at hn; omega)

theorem length_enter (l : Line) (c : UInt8) :
    (l.unread ++ (l.edit ++ [c])).length = (l.unread ++ l.edit).length + 1 := by
  simp only [length_append, length_singleton, Nat.add_assoc]

/-- **A character is entered** behind the line. -/
theorem Shows.enter (h : s.Shows l) (hlen : (l.unread ++ l.edit).length < inputBuf) :
    Ring.Holds inputBuf (Function.update s.buf (s.e % inputBuf) c) s.r (l.unread ++ (l.edit ++ [c])) ∧
      incUint s.e = (s.r + (l.unread ++ (l.edit ++ [c])).length) % 2 ^ 32 := by
  have hcell : s.e % inputBuf = (s.r + (l.unread ++ l.edit).length) % inputBuf := by
    rw [h.e_eq, Nat.mod_mod_of_dvd _ inputBuf_dvd]
  rw [length_enter, hcell, incUint, h.e_eq, Nat.mod_add_mod, Nat.add_assoc, ← append_assoc]
  exact ⟨h.holds.push hlen c, rfl⟩

/-- **`consoleintr` types the character.** -/
theorem Shows.consoleintr (h : s.Shows l) (c : UInt8) : (InputBuf.consoleintr c s).Shows (l.type c) := by
  obtain ⟨-, hsub, hedit⟩ := h.sub_eq
  have hnone : l.enters c = none → l.type c
      = ⟨l.unread, if c = ctrlU then [] else if c = ctrlH ∨ c = delete then l.edit.dropLast else l.edit⟩ :=
    fun hno => by simp only [Line.type, Line.committed, Line.edited, hno, append_nil]
  rw [InputBuf.consoleintr]
  split
  · rename_i hc
    rw [hnone (if_pos (.inl hc)), hc]
    exact h
  · rename_i hP
    split
    · rename_i hc
      rw [hnone (if_pos (.inr (.inl hc))), if_pos hc, hedit]
      exact Shows.killLine _ h rfl
    · rename_i hU
      split
      · rename_i hc
        rw [hnone (if_pos (by tauto)), if_neg hU, if_pos hc]
        split
        · rename_i hne
          obtain ⟨d, x, hd⟩ := eq_nil_or_concat' l.edit |>.resolve_left fun hd => hne (h.e_eq_w_iff.mpr hd)
          rw [hd, dropLast_concat]
          exact (show s.Shows ⟨l.unread, d ++ [x]⟩ from hd ▸ h).erase.1
        · rename_i he
          rw [h.e_eq_w_iff.mp (not_not.mp he), dropLast_nil, ← h.e_eq_w_iff.mp (not_not.mp he)]
          exact h
      · rename_i hH
        split
        · rename_i hroom
          rw [hsub] at hroom
          have hin : l.enters c = some (Line.key c) := by
            rw [Line.enters, if_neg (by tauto), if_pos hroom.2]
          obtain ⟨hholds, he⟩ := h.enter (c := Line.key c) hroom.2
          have hfull : (incUint s.e = (s.r + inputBuf) % 2 ^ 32) ↔
              (l.unread ++ l.edit).length + 1 = inputBuf := by
            have h1 := h.r_lt
            have h2 := hroom.2
            rw [he, length_enter]
            simp only [inputBuf] at *
            omega
          have hlen : (l.unread ++ (l.edit ++ [Line.key c])).length ≤ inputBuf := by
            rw [length_enter]
            exact hroom.2
          simp only [Line.type, Line.committed, Line.edited, hin]
          change Shows (if Line.key c = newline ∨ Line.key c = ctrlD ∨ incUint s.e = _ then _ else _) _
          by_cases hcommit : l.Commits (Line.key c)
          · rw [if_pos (by rwa [hfull]), if_pos hcommit, if_pos hcommit]
            refine ⟨h.r_lt, he, ?_, ?_, ?_, nofun⟩
            all_goals rw [append_nil]
            · exact he
            · exact hlen
            · exact hholds
          · rw [if_neg (by rwa [hfull]), if_neg hcommit, if_neg hcommit, append_nil]
            refine ⟨h.r_lt, h.w_eq, he, hlen, hholds, fun hn => ?_⟩
            rcases mem_append.mp hn with hn | hn
            · exact h.no_newline hn
            · exact hcommit (.inl (mem_singleton.mp hn).symm)
        · rename_i hroom
          have hno : l.enters c = none := by
            rw [Line.enters]
            split
            · rfl
            · rename_i hc
              rw [hsub] at hroom
              exact if_neg fun hlt => hroom ⟨fun h0 => hc (by tauto), hlt⟩
          rw [hnone hno, if_neg hU, if_neg hH]
          exact h

/-! ## Reading -/

/-- The `^D` that a read consumes. -/
def ReadEnd.eofs : ReadEnd → List UInt8
  | .eof _ => [ctrlD]
  | .done _ | .fail | .sleep _ => []

/-- How many bytes are left at the end of a step that began with `n` of `target`; a `^D` is consumed only
where nothing has been read. -/
def ReadEnd.Left (target n : ℕ) (bs : List UInt8) : ReadEnd → Prop
  | .done m | .sleep m => m + bs.length = n
  | .eof m => bs = [] ∧ m = n ∧ n = target
  | .fail => True

/-- **The next character is taken.** -/
theorem Shows.take (h : s.Shows ⟨c :: u, d⟩) :
    s.buf (s.r % inputBuf) = c ∧ Shows { s with r := incUint s.r } ⟨u, d⟩ := by
  have h2 := h.w_eq
  have h3 := h.e_eq
  have h4 := h.length_le
  simp only [cons_append, length_cons] at h2 h3 h4
  refine ⟨h.holds.head, Nat.mod_lt _ (by norm_num), ?_, ?_, by simp only; omega, ?_, h.no_newline⟩
  · rw [h2, incUint, Nat.mod_add_mod, Nat.add_assoc, Nat.add_comm 1]
  · rw [h3, incUint, Nat.mod_add_mod, Nat.add_assoc, Nat.add_comm 1]
  · exact (Ring.holds_mod inputBuf_dvd).mpr h.holds.tail

theorem Shows.untake (h : s.Shows l) : subUint (incUint s.r) 1 = s.r := by
  have := h.r_lt
  simp only [subUint, incUint]
  omega

/-- **A step of `consoleread`** takes the next committed characters, and no `^D` among them. -/
theorem Shows.consoleread (killed : Bool) (target : ℕ) : ∀ (n : ℕ) {s : InputBuf} {u : List UInt8},
    s.Shows ⟨u, d⟩ → n ≤ target →
    ctrlD ∉ (InputBuf.consoleread killed target n s).1 ∧
    (∃ u', u = (InputBuf.consoleread killed target n s).1 ++
        (InputBuf.consoleread killed target n s).2.1.eofs ++ u' ∧
      (InputBuf.consoleread killed target n s).2.2.Shows ⟨u', d⟩) ∧
    (InputBuf.consoleread killed target n s).2.1.Left target n (InputBuf.consoleread killed target n s).1
  | 0, s, u, h, _ => ⟨nofun, ⟨u, rfl, h⟩, rfl⟩
  | n + 1, s, u, h, hn => by
    rw [InputBuf.consoleread]
    split
    · split
      · exact ⟨nofun, ⟨u, rfl, h⟩, trivial⟩
      · exact ⟨nofun, ⟨u, rfl, h⟩, rfl⟩
    · rename_i hne
      obtain ⟨c, u, rfl⟩ := exists_cons_of_ne_nil fun hu => hne (h.r_eq_w_iff.mpr hu)
      obtain ⟨hc, htake⟩ := h.take
      simp only [hc]
      split
      · rename_i hD
        split
        · -- the `^D` is left where it is
          simp only [h.untake]
          exact ⟨nofun, ⟨c :: u, rfl, h⟩, rfl⟩
        · rename_i hlt
          refine ⟨nofun, ⟨u, ?_, htake⟩, rfl, rfl, by omega⟩
          rw [hD]
          rfl
      · rename_i hD
        have hmem : ctrlD ∉ [c] := fun hm => hD (mem_singleton.mp hm).symm
        split
        · exact ⟨hmem, ⟨u, rfl, htake⟩, rfl⟩
        · obtain ⟨hno, ⟨u', hu', hs'⟩, hleft⟩ := Shows.consoleread killed target n htake (by omega)
          refine ⟨fun hm => ?_, ⟨u', by rw [cons_append, cons_append, ← hu'], hs'⟩, ?_⟩
          · rcases mem_cons.mp hm with hm | hm
            · exact hD hm.symm
            · exact hno hm
          · generalize (InputBuf.consoleread killed target n _).2.1 = e at hleft ⊢
            cases e with
            | done m | sleep m =>
              simp only [ReadEnd.Left, length_cons] at hleft ⊢
              omega
            | eof m =>
              -- one byte less is left than was asked for
              simp only [ReadEnd.Left] at hleft
              omega
            | fail => trivial

/-- **When a read fails**: the process is killed, and there is neither enough nor an end of line.  Then it has
taken all there was. -/
theorem Shows.fail_iff (killed : Bool) (target : ℕ) : ∀ (n : ℕ) {s : InputBuf} {u : List UInt8},
    s.Shows ⟨u, d⟩ →
    ((InputBuf.consoleread killed target n s).2.1 = .fail ↔
      killed = true ∧ u.length < n ∧ newline ∉ u ∧ ctrlD ∉ u) ∧
    ((InputBuf.consoleread killed target n s).2.1 = .fail → (InputBuf.consoleread killed target n s).1 = u)
  | 0, s, u, _ => ⟨iff_of_false nofun fun h => absurd h.2.1 (Nat.not_lt_zero _), nofun⟩
  | n + 1, s, u, h => by
    rw [InputBuf.consoleread]
    split
    · rename_i he
      obtain rfl : u = [] := h.r_eq_w_iff.mp he
      cases killed with
      | true => exact ⟨iff_of_true rfl ⟨rfl, Nat.succ_pos n, nofun, nofun⟩, fun _ => rfl⟩
      | false => exact ⟨iff_of_false nofun fun h => Bool.false_ne_true h.1, nofun⟩
    · rename_i hne
      obtain ⟨c, u, rfl⟩ := exists_cons_of_ne_nil fun hu => hne (h.r_eq_w_iff.mpr hu)
      obtain ⟨hc, htake⟩ := h.take
      simp only [hc]
      split
      · rename_i hD
        have hno : ¬ (killed = true ∧ (c :: u).length < n + 1 ∧ newline ∉ c :: u ∧ ctrlD ∉ c :: u) :=
          fun h => h.2.2.2 (hD ▸ mem_cons_self)
        split
        · exact ⟨iff_of_false nofun hno, nofun⟩
        · exact ⟨iff_of_false nofun hno, nofun⟩
      · rename_i hD
        split
        · rename_i hnl
          exact ⟨iff_of_false nofun fun h => h.2.2.1 (hnl ▸ mem_cons_self), nofun⟩
        · rename_i hnl
          obtain ⟨hiff, hall⟩ := Shows.fail_iff killed target n htake
          refine ⟨hiff.trans ?_, fun hf => by rw [hall hf]⟩
          simp only [length_cons, mem_cons, not_or, Nat.add_lt_add_iff_right]
          tauto

end InputBuf

end Xv6
