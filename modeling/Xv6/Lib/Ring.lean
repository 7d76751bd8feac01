import Mathlib

/-!
# Lib/Ring — a ring buffer with free-running counters

A ring of `N` cells is written at `w % N` and read at `r % N`, where the counters `r` and `w` only ever
grow, modulo some `M` that `N` divides.  `Holds N data r xs` says that the cells from `r` on hold the
list `xs`.  While `xs` is no longer than the ring, a push goes to a cell that holds none of it.
-/

namespace Ring

variable {α : Type*} {N M r : ℕ} {data : ℕ → α} {xs : List α} {x b : α}

/-- **The cells from `r` on hold `xs`.** -/
def Holds (N : ℕ) (data : ℕ → α) (r : ℕ) (xs : List α) : Prop :=
  ∀ i y, xs[i]? = some y → data ((r + i) % N) = y

theorem holds_nil (N : ℕ) (data : ℕ → α) (r : ℕ) : Holds N data r [] := fun _ _ h => by simp at h

/-- The counters count modulo a multiple of the size. -/
theorem holds_mod (hM : N ∣ M) : Holds N data (r % M) xs ↔ Holds N data r xs := by
  have hidx : ∀ i, (r % M + i) % N = (r + i) % N := fun i => by
    rw [Nat.add_mod, Nat.mod_mod_of_dvd r hM, ← Nat.add_mod]
  simp only [Holds, hidx]

/-- **The front of the ring** is the next to be read. -/
theorem Holds.head (h : Holds N data r (x :: xs)) : data (r % N) = x := h 0 x rfl

/-- **A pop** moves the reader. -/
theorem Holds.tail (h : Holds N data r (x :: xs)) : Holds N data (r + 1) xs := by
  intro i y hy
  rw [Nat.add_assoc, Nat.add_comm 1 i]
  exact h (i + 1) y (by simpa using hy)

/-- The front part of what the ring holds. -/
theorem Holds.of_append {ys : List α} (h : Holds N data r (xs ++ ys)) : Holds N data r xs := by
  intro i y hy
  refine h i y ?_
  rwa [List.getElem?_append_left (List.getElem?_eq_some_iff.mp hy).1]

/-- The back part of what the ring holds. -/
theorem Holds.drop {ys : List α} (h : Holds N data r (xs ++ ys)) : Holds N data (r + xs.length) ys := by
  intro i y hy
  rw [Nat.add_assoc]
  refine h (xs.length + i) y ?_
  rwa [List.getElem?_append_right (Nat.le_add_right _ _), Nat.add_sub_cancel_left]

/-- Two cells of a window no longer than the ring are different. -/
theorem add_mod_ne {i j : ℕ} (hij : i < j) (hj : j < i + N) : (r + i) % N ≠ (r + j) % N := by
  intro h
  have hdvd : N ∣ (r + j) - (r + i) := (Nat.modEq_iff_dvd' (by omega)).mp h
  have hle := Nat.le_of_dvd (by omega) hdvd
  omega

/-- **A push** into a ring that is not full. -/
theorem Holds.push (h : Holds N data r xs) (hlen : xs.length < N) (b : α) :
    Holds N (Function.update data ((r + xs.length) % N) b) r (xs ++ [b]) := by
  intro i y hy
  by_cases hi : i < xs.length
  · rw [List.getElem?_append_left hi] at hy
    rw [Function.update_of_ne (add_mod_ne hi (by omega))]
    exact h i y hy
  · rw [List.getElem?_append_right (by omega), List.getElem?_singleton] at hy
    split at hy
    · have hii : i = xs.length := by omega
      rw [hii, Function.update_self]
      exact Option.some.inj hy
    · cases hy

/-- The contents of `n` cells from `r` on. -/
def window (N : ℕ) (data : ℕ → α) (r n : ℕ) : List α :=
  (List.range n).map fun i => data ((r + i) % N)

/-- What the ring holds can be read off. -/
theorem Holds.eq_window (h : Holds N data r xs) : xs = window N data r xs.length := by
  refine List.ext_getElem? fun i => ?_
  by_cases hi : i < xs.length
  · rw [window, List.getElem?_map, List.getElem?_range hi, Option.map_some, List.getElem?_eq_getElem hi,
      h i _ (List.getElem?_eq_getElem hi)]
  · rw [List.getElem?_eq_none (by omega), List.getElem?_eq_none (by simp [window]; omega)]

end Ring
