import Xv6.User.Shell

/-!
# User/Parse — tokens of a line

`peek` and `gettoken` leave a rest of the line.  A token that is not the end of the line takes something off it,
which bounds the loops and the calls of the parser.
-/

namespace Xv6

open Outcome List

/-- An error that the shell reports. -/
def ShError.Reported (e : ShError) : Prop := ∃ msg, e = .panic msg

theorem length_dropWhile_le (p : Char → Bool) (s : List Char) : (s.dropWhile p).length ≤ s.length :=
  (dropWhile_sublist p).length_le

theorem length_skip_le (s : List Char) : (skip s).length ≤ s.length := length_dropWhile_le _ s

/-- What is left after whitespace does not start with whitespace. -/
theorem skip_head {s t : List Char} {c : Char} (h : skip s = c :: t) : whitespace.contains c = false := by
  induction s with
  | nil => cases h
  | cons a s ih =>
    rw [skip, dropWhile_cons] at h
    split at h
    · exact ih h
    · rename_i ha
      cases h
      exact eq_false_of_ne_true ha

/-- A character that starts no symbol and is no whitespace starts a word. -/
theorem wordChar_of_not {c : Char} (hc : whitespace.contains c = false)
    (h1 : ¬ ['|', '(', ')', ';', '&', '<'].contains c) (h2 : c ≠ '>') : wordChar c := by
  simp only [wordChar, hc, Bool.not_false, Bool.true_and, symbols]
  simp only [contains_cons, contains_nil, Bool.or_false] at h1 ⊢
  simp_all

theorem length_tokenAt {c : Char} {s : List Char} (hc : whitespace.contains c = false) :
    (tokenAt (c :: s)).2.length ≤ s.length := by
  rw [tokenAt]
  split
  · exact Nat.le_refl _
  · split
    · unfold tokenGt
      split
      · exact Nat.le_succ _
      · exact Nat.le_refl _
    · rename_i h1 h2
      rw [dropWhile_cons, if_pos (wordChar_of_not hc h1 h2)]
      exact length_dropWhile_le _ s

/-- **A token takes something off the line.** -/
theorem length_gettoken_lt {s : List Char} (h : skip s ≠ []) : (gettoken s).2.length < s.length := by
  cases hc : skip s with
  | nil => exact absurd hc h
  | cons c t =>
    have hs := length_skip_le s
    have hle := length_skip_le (tokenAt (skip s)).2
    have ht := length_tokenAt (s := t) (skip_head hc)
    rw [gettoken]
    rw [hc] at hs hle ⊢
    simp only [length_cons] at hs
    dsimp only
    omega

theorem gettoken_of_skip_eq_nil {s : List Char} (h : skip s = []) : gettoken s = (.eof, []) := by
  rw [gettoken, h]
  rfl

theorem length_gettoken_le (s : List Char) : (gettoken s).2.length ≤ s.length := by
  by_cases h : skip s = []
  · rw [gettoken_of_skip_eq_nil h]
    exact Nat.zero_le _
  · exact Nat.le_of_lt (length_gettoken_lt h)

theorem skip_ne_nil_of_peek {toks s : List Char} (h : peek toks s) : skip s ≠ [] := by
  intro e
  rw [peek, e] at h
  cases h

theorem skip_ne_nil_of_word {s : List Char} (h : (gettoken s).1 ≠ .eof) : skip s ≠ [] := fun e =>
  h (by rw [gettoken_of_skip_eq_nil e])

theorem skip_suffix (s : List Char) : skip s <:+ s := dropWhile_suffix _

theorem tokenAt_suffix (s : List Char) : (tokenAt s).2 <:+ s := by
  cases s with
  | nil => exact suffix_refl _
  | cons c s =>
    rw [tokenAt]
    split
    · exact suffix_cons c s
    · split
      · unfold tokenGt
        split
        · exact (suffix_cons _ _).trans (suffix_cons _ _)
        · exact suffix_cons c s
      · exact dropWhile_suffix _

theorem gettoken_suffix (s : List Char) : (gettoken s).2 <:+ s :=
  ((skip_suffix _).trans (tokenAt_suffix _)).trans (skip_suffix s)

end Xv6
