import Mathlib

/-!
# Lib/Writes — histories of writes to a store

A store is a function from addresses to contents, and a history is a list of writes, oldest first.
`apply d ws` is the store after the history: an address holds the last write to it.  A history that has
been applied in part may therefore be applied again from its start (`apply_apply_take`), which is what
makes redoing a log idempotent.
-/

namespace Writes

open Function

variable {α β : Type*} [DecidableEq α] {d d' : α → β} {ws vs : List (α × β)} {a : α}

/-- **The store after a history of writes.** -/
def apply (d : α → β) : List (α × β) → α → β
  | [] => d
  | w :: ws => apply (Function.update d w.1 w.2) ws

@[simp] theorem apply_nil (d : α → β) : apply d [] = d := rfl

theorem apply_cons (d : α → β) (w : α × β) (ws : List (α × β)) :
    apply d (w :: ws) = apply (update d w.1 w.2) ws := rfl

/-- **A history is applied in halves.** -/
theorem apply_append (d : α → β) (ws vs : List (α × β)) :
    apply d (ws ++ vs) = apply (apply d ws) vs := by
  induction ws generalizing d with
  | nil => rfl
  | cons w ws ih => exact ih _

/-- An address that is not written keeps its contents. -/
theorem apply_of_notMem (h : a ∉ ws.map Prod.fst) : apply d ws a = d a := by
  induction ws generalizing d with
  | nil => rfl
  | cons w ws ih =>
    rw [List.map_cons, List.mem_cons, not_or] at h
    rw [apply_cons, ih h.2, update_of_ne h.1]

/-- **The last write wins**: what a written address held before does not matter. -/
theorem apply_congr (h : a ∉ ws.map Prod.fst → d a = d' a) : apply d ws a = apply d' ws a := by
  induction ws generalizing d d' with
  | nil => exact h (by simp)
  | cons w ws ih =>
    refine ih fun hn => ?_
    rcases eq_or_ne a w.1 with rfl | hne
    · rw [update_self, update_self]
    · rw [update_of_ne hne, update_of_ne hne]
      exact h (by simp [hne, hn])

/-- **A history applied in part may be applied again as a whole.** -/
theorem apply_apply_take (d : α → β) (ws : List (α × β)) (n : ℕ) :
    apply (apply d (ws.take n)) ws = apply d ws := by
  funext a
  refine apply_congr fun hn => apply_of_notMem fun hmem => hn ?_
  rw [List.map_take] at hmem
  exact List.mem_of_mem_take hmem

/-- A history that gives each of some addresses its value under `f`. -/
theorem apply_map (d f : α → β) (as : List α) (a : α) :
    apply d (as.map fun a => (a, f a)) a = if a ∈ as then f a else d a := by
  induction as generalizing d with
  | nil => simp
  | cons b as ih =>
    rw [List.map_cons, apply_cons, ih]
    rcases eq_or_ne a b with rfl | hne
    · simp
    · simp [hne]

end Writes
