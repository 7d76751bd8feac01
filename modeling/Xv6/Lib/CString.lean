import Mathlib

/-!
# Lib/CString — strings in memory

Memory is a function from offsets to characters.  `copy` writes a list of characters, `text` reads the
string at an offset up to its NUL, looking at no more than `n` characters, and `strncmp` compares two such
strings without reading further than it has to.  It finds them equal exactly if their texts are
(`strncmp_eq_zero_iff`).
-/

namespace CString

open Function List

/-- The end of a string. -/
def nul : Char := Char.ofNat 0

variable {m p q : ℕ → Char} {o n : ℕ} {s : List Char} {c : Char}

/-- Write the characters of `s` from offset `o` on. -/
def copy (m : ℕ → Char) : ℕ → List Char → ℕ → Char
  | _, [] => m
  | o, c :: s => Function.update (copy m (o + 1) s) o c

/-- The string at offset `o`, of which `n` characters are looked at. -/
def text (m : ℕ → Char) : ℕ → ℕ → List Char
  | 0, _ => []
  | n + 1, o => if m o = nul then [] else m o :: text m n (o + 1)

/-- `strncmp` on the strings at offset `o` of two arrays. -/
def strncmp (p q : ℕ → Char) : ℕ → ℕ → ℤ
  | 0, _ => 0
  | n + 1, o =>
    if p o ≠ nul ∧ p o = q o then strncmp p q n (o + 1) else ((p o).toNat : ℤ) - (q o).toNat

/-! ## Copying -/

/-- Nothing is written before the offset. -/
theorem copy_of_lt : ∀ (s : List Char) {o i : ℕ}, i < o → copy m o s i = m i
  | [], _, _, _ => rfl
  | c :: s, o, i, h => by
    rw [copy, update_of_ne h.ne]
    exact copy_of_lt s (Nat.lt_succ_of_lt h)

/-- Nothing is written behind the last character. -/
theorem copy_of_le : ∀ (s : List Char) {o i : ℕ}, o + s.length ≤ i → copy m o s i = m i
  | [], _, _, _ => rfl
  | c :: s, o, i, h => by
    rw [length_cons] at h
    rw [copy, update_of_ne (by omega)]
    exact copy_of_le s (by omega)

theorem copy_append : ∀ (s t : List Char) (o : ℕ),
    copy m o (s ++ t) = copy (copy m (o + s.length) t) o s
  | [], _, _ => rfl
  | c :: s, t, o => by
    rw [cons_append, copy, copy, copy_append s t (o + 1), length_cons]
    congr 3
    omega

/-- A character before the offset may be written later. -/
theorem copy_update_of_lt : ∀ (s : List Char) {o i : ℕ}, i < o →
    copy (update m i c) o s = update (copy m o s) i c
  | [], _, _, _ => rfl
  | d :: s, o, i, h => by
    rw [copy, copy, copy_update_of_lt s (Nat.lt_succ_of_lt h), update_comm h.ne]

/-- **Two strings written one behind the other are one string.** -/
theorem copy_copy : ∀ (s t : List Char) (o : ℕ), copy (copy m o s) (o + s.length) t = copy m o (s ++ t)
  | [], _, _ => rfl
  | c :: s, t, o => by
    rw [copy, copy_update_of_lt t (by simp), cons_append, copy, ← copy_copy s t (o + 1),
      length_cons, show o + (s.length + 1) = o + 1 + s.length by omega]

/-- The last character may be written first. -/
theorem copy_concat (s : List Char) (c : Char) (o : ℕ) :
    copy m o (s ++ [c]) = copy (update m (o + s.length) c) o s :=
  copy_append s [c] o

/-- The character behind the copied ones. -/
theorem copy_length (s : List Char) (c : Char) (o : ℕ) : copy m o (s ++ [c]) (o + s.length) = c := by
  rw [copy_concat, copy_of_le s le_rfl, update_self]

/-! ## Reading -/

/-- Only the memory from the offset on is read. -/
theorem text_congr {m m' : ℕ → Char} : ∀ {n o : ℕ}, (∀ i, o ≤ i → m' i = m i) → text m' n o = text m n o
  | 0, _, _ => rfl
  | n + 1, o, h => by
    rw [text, text, h o le_rfl, text_congr fun i hi => h i (by omega)]

/-- **A copied string is read back**, up to the bound or the NUL behind it. -/
theorem text_copy : ∀ (s : List Char) {n o : ℕ}, (∀ c ∈ s, c ≠ nul) → s.length ≤ n →
    (s.length < n → m (o + s.length) = nul) → text (copy m o s) n o = s
  | [], 0, _, _, _, _ => rfl
  | [], n + 1, o, _, _, hend => by
    have hm : m o = nul := hend (Nat.succ_pos n)
    rw [text, copy, if_pos hm]
  | c :: s, 0, _, _, hle, _ => absurd hle (Nat.not_succ_le_zero _)
  | c :: s, n + 1, o, hs, hle, hend => by
    rw [length_cons] at hle hend
    have hfirst : copy m o (c :: s) o = c := update_self ..
    rw [text, hfirst, if_neg (hs c mem_cons_self)]
    refine congrArg (c :: ·) ?_
    refine (text_congr fun i hi => ?_).trans (text_copy s (o := o + 1)
      (fun x hx => hs x (mem_cons_of_mem _ hx)) (Nat.le_of_succ_le_succ hle) fun hlt => ?_)
    · exact update_of_ne (by omega) ..
    · rw [show o + 1 + s.length = o + (s.length + 1) by omega]
      exact hend (Nat.succ_lt_succ hlt)

/-- **`strncmp` finds two strings equal exactly if they have one text.** -/
theorem strncmp_eq_zero_iff : ∀ (n o : ℕ), strncmp p q n o = 0 ↔ text p n o = text q n o
  | 0, _ => by simp only [strncmp, text]
  | n + 1, o => by
    rw [strncmp, text, text]
    by_cases hpq : p o = q o
    · by_cases hp : p o = nul
      · rw [if_neg fun h => h.1 hp, if_pos hp, if_pos (hpq ▸ hp), hpq]
        simp
      · rw [if_pos ⟨hp, hpq⟩, if_neg hp, if_neg (hpq ▸ hp), strncmp_eq_zero_iff n (o + 1), hpq]
        simp
    · have hne : ((p o).toNat : ℤ) - (q o).toNat ≠ 0 := fun h =>
        hpq (Char.toNat_inj.mp (by omega))
      rw [if_neg fun h => hpq h.2]
      refine iff_of_false hne fun h => hpq ?_
      -- the first characters of the texts differ, or one of them is at its end
      split at h
      · split at h
        · rename_i hp hq
          exact hp.trans hq.symm
        · cases h
      · split at h
        · cases h
        · exact (List.cons.inj h).1

end CString
