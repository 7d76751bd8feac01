import Mathlib

/-!
# Lib/Copy — copying a block cell by cell, in either direction

A store is a function from addresses to contents.  `forward` and `backward` are the two loops that copy `n`
cells, from the first on and from the last on; `moved` is what such a copy is for: the destination holds
what the source held *before*, and every other cell is as it was.

Where the blocks overlap the loop reads cells it has written.  Seen from its last turn
(`forward_succ`) the forward loop reads `src + n`, which by then has been overwritten exactly if it lies in
the destination; so it moves the block exactly if the overwritten cells of the source repeat
(`forward_eq_moved_iff`).
-/

namespace Copy

open Function

variable {α : Type*} {m : ℕ → α} {dst src n a : ℕ}

/-- **The block of `n` cells at `src`, moved to `dst`.** -/
def moved (m : ℕ → α) (dst src n : ℕ) : ℕ → α :=
  fun a => if dst ≤ a ∧ a < dst + n then m (src + (a - dst)) else m a

/-- `n` cells from the first on. -/
def forward : (ℕ → α) → ℕ → ℕ → ℕ → ℕ → α
  | m, _, _, 0 => m
  | m, dst, src, n + 1 => forward (Function.update m dst (m src)) (dst + 1) (src + 1) n

/-- `n` cells from the last on; the addresses are those behind the blocks. -/
def backward : (ℕ → α) → ℕ → ℕ → ℕ → ℕ → α
  | m, _, _, 0 => m
  | m, dst, src, n + 1 => backward (Function.update m (dst - 1) (m (src - 1))) (dst - 1) (src - 1) n

/-- **The last turn of the forward loop.** -/
theorem forward_succ : ∀ (n : ℕ) (m : ℕ → α) (dst src : ℕ), forward m dst src (n + 1) =
    update (forward m dst src n) (dst + n) (forward m dst src n (src + n))
  | 0, _, _, _ => rfl
  | n + 1, m, dst, src => by
    rw [forward, forward_succ n, ← forward, Nat.add_right_comm dst, Nat.add_right_comm src]
    rfl

theorem forward_of_le : ∀ {n : ℕ}, dst + n ≤ a → forward m dst src n a = m a
  | 0, _ => rfl
  | n + 1, h => by rw [forward_succ, update_of_ne (by omega), forward_of_le (by omega)]

theorem moved_of_le (h : dst + n ≤ a) : moved m dst src n a = m a := if_neg (by omega)

/-- The cells of the source that lie in the destination repeat those `dst - src` before them. -/
def Repeats (m : ℕ → α) (dst src n : ℕ) : Prop :=
  ∀ a, dst ≤ a → a < src + n → m a = m (a - (dst - src))

/-- Downwards, or apart, nothing is overwritten before it is read. -/
theorem repeats_of_apart (h : dst ≤ src ∨ src + n ≤ dst) : Repeats m dst src n := by
  intro a h1 h2
  have hsub : a - (dst - src) = a := by omega
  rw [hsub]

theorem repeats_succ : Repeats m dst src (n + 1) ↔
    Repeats m dst src n ∧ (dst ≤ src + n → m (src + n) = m (src + n - (dst - src))) := by
  constructor
  · exact fun h => ⟨fun a h1 h2 => h a h1 (by omega), fun h1 => h _ h1 (by omega)⟩
  · rintro ⟨h, hlast⟩ a h1 h2
    by_cases ha : a = src + n
    · rw [ha] at h1 ⊢
      exact hlast h1
    · exact h a h1 (by omega)

/-- One more cell of a block. -/
theorem moved_succ : moved m dst src (n + 1) =
    update (moved m dst src n) (dst + n) (m (src + n)) := by
  funext a
  by_cases ha : a = dst + n
  · rw [ha, update_self, moved, if_pos (by omega), Nat.add_sub_cancel_left]
  · rw [update_of_ne ha, moved, moved]
    exact if_congr (by omega) rfl rfl

/-- What the last turn reads, if the block has been moved so far. -/
theorem moved_source_iff : moved m dst src n (src + n) = m (src + n) ↔
    (dst ≤ src + n → m (src + n) = m (src + n - (dst - src))) := by
  by_cases hin : dst ≤ src + n ∧ src < dst
  · have hat : src + (src + n - dst) = src + n - (dst - src) := by omega
    rw [moved, if_pos (by omega), hat]
    exact ⟨fun h _ => h.symm, fun h => (h hin.1).symm⟩
  · refine iff_of_true (if_neg (by omega)) fun hle => ?_
    have hsub : src + n - (dst - src) = src + n := by omega
    rw [hsub]

/-- **The forward loop moves the block exactly if the cells it overwrites before reading repeat.** -/
theorem forward_eq_moved_iff : ∀ {n : ℕ}, forward m dst src n = moved m dst src n ↔ Repeats m dst src n
  | 0 => iff_of_true (funext fun a => (if_neg (by omega)).symm) (repeats_of_apart (by omega))
  | n + 1 => by
    rw [repeats_succ, ← forward_eq_moved_iff, ← moved_source_iff, forward_succ, moved_succ]
    constructor
    · intro h
      -- before the last turn the cell it writes is as it was, in both
      have hbefore : forward m dst src n = moved m dst src n := by
        funext a
        by_cases ha : a = dst + n
        · rw [forward_of_le (by omega), moved_of_le (by omega)]
        · have := congrFun h a
          rwa [update_of_ne ha, update_of_ne ha] at this
      have hlast := congrFun h (dst + n)
      rw [update_self, update_self, hbefore] at hlast
      exact ⟨hbefore, hlast⟩
    · rintro ⟨hbefore, hlast⟩
      rw [hbefore, hlast]

/-- **The backward loop moves a block upwards**, whatever the overlap. -/
theorem backward_eq_moved (h : src < dst) : ∀ (n : ℕ) (m : ℕ → α),
    backward m (dst + n) (src + n) n = moved m dst src n
  | 0, m => (funext fun a => if_neg (by omega)).symm
  | n + 1, m => by
    rw [backward, ← Nat.add_assoc, ← Nat.add_assoc, Nat.add_sub_cancel, Nat.add_sub_cancel,
      backward_eq_moved h n, moved_succ]
    funext a
    by_cases hin : dst ≤ a ∧ a < dst + n
    · rw [update_of_ne (by omega), moved, moved, if_pos hin, if_pos hin,
        update_of_ne (by omega)]
    · rw [moved, if_neg hin, update_apply, update_apply, moved, if_neg hin]

end Copy
