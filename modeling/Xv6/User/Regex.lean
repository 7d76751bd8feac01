import Mathlib

/-!
# User/Regex — the matcher of `grep.c`

A pointer into a string is the rest of the string from there on; at its end it reads NUL.  The code searches:
`matchhere` tries the pattern at one place, `matchstar` gives a star one more character at a time, and `match`
goes through the text.

The reference is declarative.  `Regex.parse` reads a pattern into its items and its two anchors, each item is a
language, and `Regex.Matches` says that the text has a part in their product, at its ends where the anchors are.
`matchText_iff` says that the search finds one exactly if there is one.
-/

namespace Xv6

namespace Grep

/-! ## The code -/

mutual

/-- `matchhere`: `re` at the beginning of `text`. -/
def matchhere (re text : List Char) : Bool :=
  match re with
  | [] => true
  | c :: re =>
    if re.head? = some '*' then matchstar c re.tail text
    else if c = '$' ∧ re = [] then text.isEmpty
    else match text with
      | [] => false
      | t :: text => (c == '.' || c == t) && matchhere re text
termination_by (re.length, text.length, 0)
decreasing_by
  · exact Prod.Lex.left _ _ (by simp +arith [List.length_tail])
  · exact Prod.Lex.left _ _ (Nat.lt_succ_self _)

/-- `matchstar`: `c*re` at the beginning of `text`. -/
def matchstar (c : Char) (re text : List Char) : Bool :=
  matchhere re text || match text with
    | [] => false
    | t :: text => (t == c || c == '.') && matchstar c re text
termination_by (re.length, text.length, 1)
decreasing_by
  · exact Prod.Lex.right _ (Prod.Lex.right _ Nat.zero_lt_one)
  · exact Prod.Lex.right _ (Prod.Lex.left _ _ (Nat.lt_succ_self _))

end

/-- The loop of `match`: also the empty rest is looked at. -/
def matchAny (re : List Char) : List Char → Bool
  | [] => matchhere re []
  | t :: text => matchhere re (t :: text) || matchAny re text

/-- `match`. -/
def matchText (re text : List Char) : Bool :=
  if re.head? = some '^' then matchhere re.tail text else matchAny re text

end Grep

/-! ## The reference -/

namespace Regex

/-- What a pattern is made of: one character, or as many as there are. -/
inductive Item where
  | char (c : Char)
  | star (c : Char)
  deriving DecidableEq

end Regex

/-- A pattern, read: its items, and whether it is bound to the start and to the end of the text. -/
structure Regex where
  start : Bool
  items : List Regex.Item
  stop : Bool
  deriving DecidableEq

namespace Regex

variable {c : Char} {re text s u v : List Char} {is : List Item}

/-- `.` stands for any character, any other for itself. -/
def Stands (c t : Char) : Prop := c = '.' ∨ c = t

/-- The strings of an item. -/
def Item.lang : Item → Language Char
  | .char c => {s | ∃ t, Stands c t ∧ s = [t]}
  | .star c => {s | ∀ t ∈ s, Stands c t}

/-- The strings of a list of items. -/
def lang (is : List Item) : Language Char := (is.map Item.lang).prod

/-- The items of a pattern behind its `^`, and whether it ends in an anchor: a final `$` that no `*` follows. -/
def body : List Char → List Item × Bool
  | [] => ([], false)
  | [c] => if c = '$' then ([], true) else ([.char c], false)
  | c :: d :: re =>
    if d = '*' then (.star c :: (body re).1, (body re).2)
    else (.char c :: (body (d :: re)).1, (body (d :: re)).2)

/-- The pattern that a string is. -/
def parse (re : List Char) : Regex :=
  if re.head? = some '^' then ⟨true, (body re.tail).1, (body re.tail).2⟩ else ⟨false, (body re).1, (body re).2⟩

/-- **A part of the text matches**, at its ends where the pattern is anchored. -/
def Matches (r : Regex) (text : List Char) : Prop :=
  ∃ pre mid post, text = pre ++ mid ++ post ∧ mid ∈ lang r.items ∧ (r.start = true → pre = []) ∧
    (r.stop = true → post = [])

/-- A beginning of the text matches. -/
def Begins (is : List Item) (stop : Bool) (text : List Char) : Prop :=
  ∃ mid post, text = mid ++ post ∧ mid ∈ lang is ∧ (stop = true → post = [])

/-! ## Beginnings, item by item -/

variable {b : Bool}

theorem mem_lang_cons {i : Item} : s ∈ lang (i :: is) ↔ ∃ u ∈ i.lang, ∃ v ∈ lang is, u ++ v = s := by
  rw [lang, List.map_cons, List.prod_cons, Language.mem_mul]
  rfl

/-- Nothing is left to match. -/
theorem begins_nil : Begins [] b text ↔ (b = true → text = []) := by
  constructor
  · rintro ⟨mid, post, rfl, hmid, hstop⟩ hb
    rw [(Language.mem_one mid).mp hmid, hstop hb, List.append_nil]
  · exact fun h => ⟨[], text, rfl, Language.nil_mem_one, h⟩

theorem begins_char :
    Begins (.char c :: is) b text ↔ ∃ t rest, text = t :: rest ∧ Stands c t ∧ Begins is b rest := by
  constructor
  · rintro ⟨mid, post, rfl, hmid, hstop⟩
    obtain ⟨u, ⟨t, ht, rfl⟩, v, hv, rfl⟩ := mem_lang_cons.mp hmid
    exact ⟨t, v ++ post, rfl, ht, v, post, rfl, hv, hstop⟩
  · rintro ⟨t, rest, rfl, ht, v, post, rfl, hv, hstop⟩
    exact ⟨t :: v, post, rfl, mem_lang_cons.mpr ⟨[t], ⟨t, ht, rfl⟩, v, hv, rfl⟩, hstop⟩

/-- **A star takes no character, or one and then more.** -/
theorem begins_star : Begins (.star c :: is) b text ↔
    Begins is b text ∨ ∃ t rest, text = t :: rest ∧ Stands c t ∧ Begins (.star c :: is) b rest := by
  constructor
  · rintro ⟨mid, post, rfl, hmid, hstop⟩
    obtain ⟨u, hu, v, hv, rfl⟩ := mem_lang_cons.mp hmid
    cases u with
    | nil => exact .inl ⟨v, post, rfl, hv, hstop⟩
    | cons t u =>
      refine .inr ⟨t, u ++ v ++ post, rfl, hu t List.mem_cons_self, u ++ v, post, rfl, ?_, hstop⟩
      exact mem_lang_cons.mpr ⟨u, fun x hx => hu x (List.mem_cons_of_mem t hx), v, hv, rfl⟩
  · rintro (⟨v, post, rfl, hv, hstop⟩ | ⟨t, rest, rfl, ht, mid, post, rfl, hmid, hstop⟩)
    · exact ⟨v, post, rfl, mem_lang_cons.mpr ⟨[], fun _ hx => (List.not_mem_nil hx).elim, v, hv, rfl⟩, hstop⟩
    · obtain ⟨u, hu, v, hv, rfl⟩ := mem_lang_cons.mp hmid
      refine ⟨t :: (u ++ v), post, rfl, mem_lang_cons.mpr ⟨t :: u, ?_, v, hv, rfl⟩, hstop⟩
      exact List.forall_mem_cons.mpr ⟨ht, hu⟩

end Regex

/-! ## The search finds what there is -/

namespace Grep

open Regex

variable {c : Char} {re text : List Char}

theorem matchhere_cons (c : Char) (re text : List Char) : matchhere (c :: re) text =
    if re.head? = some '*' then matchstar c re.tail text
    else if c = '$' ∧ re = [] then text.isEmpty
    else match text with
      | [] => false
      | t :: text => (c == '.' || c == t) && matchhere re text := by
  rw [matchhere.eq_def]

theorem stands_iff {t : Char} : (c == '.' || c == t) = true ↔ Stands c t := by
  rw [Bool.or_eq_true, beq_iff_eq, beq_iff_eq, Stands]

/-- **`matchstar`**, where `matchhere` is right on the rest of the pattern. -/
theorem matchstar_iff (h : ∀ text, matchhere re text = true ↔ Begins (body re).1 (body re).2 text) :
    ∀ text, matchstar c re text = true ↔ Begins (.star c :: (body re).1) (body re).2 text
  | [] => by
    rw [matchstar, Bool.or_false, h, begins_star]
    exact ⟨.inl, fun hs => hs.resolve_right fun ⟨_, _, hnil, _⟩ => nomatch hnil⟩
  | t :: text => by
    rw [matchstar, Bool.or_eq_true, h, Bool.and_eq_true, matchstar_iff h text]
    rw [Bool.or_comm, BEq.comm (a := t), stands_iff]
    refine Iff.trans (or_congr_right ?_) begins_star.symm
    constructor
    · exact fun ⟨ht, hs⟩ => ⟨t, text, rfl, ht, hs⟩
    · rintro ⟨t', rest, heq, ht, hs⟩
      cases heq
      exact ⟨ht, hs⟩

/-- A character that is no anchor, and that no `*` follows. -/
theorem matchhere_char (h : ∀ text, matchhere re text = true ↔ Begins (body re).1 (body re).2 text)
    (hstar : re.head? ≠ some '*') (hstop : ¬ (c = '$' ∧ re = [])) (text : List Char) :
    matchhere (c :: re) text = true ↔ Begins (.char c :: (body re).1) (body re).2 text := by
  rw [matchhere_cons, if_neg hstar, if_neg hstop, begins_char]
  cases text with
  | nil => exact iff_of_false Bool.false_ne_true fun ⟨_, _, hnil, _⟩ => nomatch hnil
  | cons t text =>
    rw [Bool.and_eq_true, h, stands_iff]
    constructor
    · exact fun ⟨ht, hs⟩ => ⟨t, text, rfl, ht, hs⟩
    · rintro ⟨t', rest, heq, ht, hs⟩
      cases heq
      exact ⟨ht, hs⟩

/-- **`matchhere` finds a beginning exactly if there is one.** -/
theorem matchhere_iff : ∀ re text : List Char,
    matchhere re text = true ↔ Begins (body re).1 (body re).2 text
  | [], text => by
    rw [matchhere, body, begins_nil]
    exact iff_of_true rfl nofun
  | [c], text => by
    by_cases hc : c = '$'
    · rw [matchhere_cons, if_neg (by simp), if_pos ⟨hc, rfl⟩, body, if_pos hc, begins_nil, List.isEmpty_iff]
      exact ⟨fun h _ => h, fun h => h rfl⟩
    · rw [body, if_neg hc]
      exact matchhere_char (matchhere_iff []) (by simp) (fun h => hc h.1) text
  | c :: d :: re, text => by
    by_cases hd : d = '*'
    · rw [body, if_pos hd, matchhere_cons, if_pos (by simp [hd]), List.tail_cons]
      exact matchstar_iff (matchhere_iff re) text
    · rw [body, if_neg hd]
      exact matchhere_char (matchhere_iff (d :: re)) (by simp [hd]) (fun h => nomatch h.2) text

/-- The loop of `match` goes through the ends of the text. -/
theorem matchAny_iff : ∀ text : List Char,
    matchAny re text = true ↔ ∃ pre rest, text = pre ++ rest ∧ matchhere re rest = true
  | [] => by
    rw [matchAny]
    refine ⟨fun h => ⟨[], [], rfl, h⟩, fun ⟨pre, rest, heq, h⟩ => ?_⟩
    rwa [(List.append_eq_nil_iff.mp heq.symm).2] at h
  | t :: text => by
    rw [matchAny, Bool.or_eq_true, matchAny_iff text]
    constructor
    · rintro (h | ⟨pre, rest, rfl, h⟩)
      · exact ⟨[], t :: text, rfl, h⟩
      · exact ⟨t :: pre, rest, rfl, h⟩
    · rintro ⟨pre, rest, heq, h⟩
      cases pre with
      | nil => exact .inl (by rwa [heq])
      | cons t' pre => exact .inr ⟨pre, rest, (List.cons.inj heq).2, h⟩

/-- **`match` is right**: it returns 1 exactly if a part of the text matches the pattern. -/
theorem matchText_iff (re text : List Char) : matchText re text = true ↔ (parse re).Matches text := by
  rw [matchText, parse]
  split
  · rw [matchhere_iff]
    constructor
    · rintro ⟨mid, post, rfl, hmid, hstop⟩
      exact ⟨[], mid, post, rfl, hmid, fun _ => rfl, hstop⟩
    · rintro ⟨pre, mid, post, rfl, hmid, hstart, hstop⟩
      rw [hstart rfl]
      exact ⟨mid, post, rfl, hmid, hstop⟩
  · rw [matchAny_iff]
    constructor
    · rintro ⟨pre, rest, rfl, h⟩
      obtain ⟨mid, post, rfl, hmid, hstop⟩ := (matchhere_iff re rest).mp h
      exact ⟨pre, mid, post, (List.append_assoc pre mid post).symm, hmid, nofun, hstop⟩
    · rintro ⟨pre, mid, post, rfl, hmid, -, hstop⟩
      exact ⟨pre, mid ++ post, List.append_assoc pre mid post,
        (matchhere_iff re _).mpr ⟨mid, post, rfl, hmid, hstop⟩⟩

end Grep

end Xv6
