import Mathlib

/-!
# Lib/Links — lists linked by a successor function

A list is linked when the successor of each of its elements is the next one; a ring `a :: l` is linked back
to `a`.  A ring can be entered at any of its elements, a search along the successors finds an element to
stop at if the list has one, and links that are written elsewhere do not matter.
-/

namespace Links

open List

variable {α : Type} {next next' : α → α}

/-- Each element points to the one after it. -/
def Linked (next : α → α) (l : List α) : Prop := l.IsChain fun x y => next x = y

@[simp] theorem linked_singleton (a : α) : Linked next [a] := isChain_singleton a

@[simp] theorem linked_cons_cons {a b : α} {l : List α} :
    Linked next (a :: b :: l) ↔ next a = b ∧ Linked next (b :: l) := isChain_cons_cons

/-- A linked list may be cut at any element. -/
theorem linked_split {a : α} {l1 l2 : List α} :
    Linked next (l1 ++ a :: l2) ↔ Linked next (l1 ++ [a]) ∧ Linked next (a :: l2) := isChain_split

/-- Only the links out of the elements matter, and not that of the last. -/
theorem Linked.congr {a : α} : ∀ {l : List α}, (∀ x ∈ l, next' x = next x) → Linked next (l ++ [a]) →
    Linked next' (l ++ [a])
  | [], _, _ => linked_singleton a
  | [x], h, hl => by
    simp only [cons_append, nil_append, linked_cons_cons] at hl ⊢
    exact ⟨(h x mem_cons_self).trans hl.1, linked_singleton a⟩
  | x :: y :: l, h, hl => by
    simp only [cons_append, linked_cons_cons] at hl ⊢
    refine ⟨(h x mem_cons_self).trans hl.1, ?_⟩
    exact Linked.congr (l := y :: l) (fun z hz => h z (mem_cons_of_mem _ hz)) hl.2

/-- Another element may take the place of the first, with its link. -/
theorem Linked.replace_head {a b e : α} {l : List α} (h : Linked next (a :: l ++ [e]))
    (hb : next' b = next a) (hl : ∀ x ∈ l, next' x = next x) : Linked next' (b :: l ++ [e]) := by
  cases l with
  | nil => exact linked_cons_cons.2 ⟨hb.trans (linked_cons_cons.1 h).1, linked_singleton e⟩
  | cons x l =>
    obtain ⟨hx, h⟩ := linked_cons_cons.1 h
    exact linked_cons_cons.2 ⟨hb.trans hx, Linked.congr (l := x :: l) hl h⟩

/-- **A ring may be entered anywhere.** -/
theorem exists_rotation {a x : α} {l : List α} (h : Linked next (a :: l ++ [a])) (hx : x ∈ a :: l) :
    ∃ l', Linked next (x :: l' ++ [x]) ∧ (x :: l').Perm (a :: l) := by
  rcases mem_cons.1 hx with rfl | hx
  · exact ⟨l, h, .refl _⟩
  · obtain ⟨l1, l2, rfl⟩ := append_of_mem hx
    have e : a :: (l1 ++ x :: l2) ++ [a] = (a :: l1) ++ x :: (l2 ++ [a]) := by simp
    rw [e, linked_split] at h
    refine ⟨l2 ++ a :: l1, ?_, ?_⟩
    · have e' : x :: (l2 ++ a :: l1) ++ [x] = (x :: l2) ++ a :: (l1 ++ [x]) := by simp
      rw [e', linked_split]
      exact ⟨h.2, h.1⟩
    · have e' : x :: (l2 ++ a :: l1) = (x :: l2) ++ (a :: l1) := rfl
      have e'' : a :: (l1 ++ x :: l2) = (a :: l1) ++ (x :: l2) := rfl
      rw [e', e'']
      exact perm_append_comm

theorem Linked.left {l1 l2 : List α} (h : Linked next (l1 ++ l2)) : Linked next l1 :=
  List.IsChain.left_of_append h

/-- The successor of an element is the end, or stands right after the element. -/
theorem Linked.exists_next {a x : α} {l : List α} (h : Linked next (l ++ [a])) (hx : x ∈ l) :
    next x = a ∨ ∃ l1 l2, l = l1 ++ x :: next x :: l2 := by
  obtain ⟨l1, l2, rfl⟩ := append_of_mem hx
  rw [append_assoc, cons_append] at h
  have h2 := (linked_split.1 h).2
  cases l2 with
  | nil => exact .inl (linked_cons_cons.1 h2).1
  | cons y l2 => exact .inr ⟨l1, l2, by rw [(linked_cons_cons.1 h2).1]⟩

/-- In an ordered list the successor of an element is the end, or comes later in the order. -/
theorem Linked.next_cases {R : α → α → Prop} {a x : α} {l : List α} (h : Linked next (l ++ [a]))
    (hR : l.Pairwise R) (hx : x ∈ l) : next x = a ∨ R x (next x) ∧ next x ∈ l := by
  rcases h.exists_next hx with e | ⟨l1, l2, e⟩
  · exact .inl e
  · rw [e] at hR ⊢
    have hx := (pairwise_append.1 hR).2.1
    exact .inr ⟨(pairwise_cons.1 hx).1 _ mem_cons_self, by simp⟩

/-! ## Searching -/

/-- Follow the links until `stop`, for at most `n` elements. -/
def seek (next : α → α) (stop : α → Bool) : ℕ → α → Option α
  | 0, _ => none
  | n + 1, x => if stop x then some x else seek next stop n (next x)

/-- **A search along a linked list finds an element to stop at**, if there is one. -/
theorem seek_of_linked {stop : α → Bool} : ∀ {l : List α} {x : α}, Linked next (x :: l) →
    (∃ y ∈ x :: l, stop y) → ∃ z ∈ x :: l, stop z ∧ ∀ n, l.length < n → seek next stop n x = some z := by
  intro l
  induction l with
  | nil =>
    intro x _ ⟨y, hy, hs⟩
    rw [mem_singleton] at hy
    subst hy
    refine ⟨y, mem_singleton_self y, hs, fun n hn => ?_⟩
    obtain ⟨m, rfl⟩ := Nat.exists_eq_add_of_lt hn
    simp only [length_nil, Nat.zero_add, seek, hs, if_true]
  | cons w l ih =>
    intro x hl ⟨y, hy, hs⟩
    obtain ⟨hw, hl⟩ := linked_cons_cons.1 hl
    by_cases hx : stop x
    · refine ⟨x, mem_cons_self, hx, fun n hn => ?_⟩
      obtain ⟨m, rfl⟩ := Nat.exists_eq_succ_of_ne_zero (Nat.ne_of_gt (Nat.zero_lt_of_lt hn))
      simp only [seek, hx, if_true]
    · have hy' : y ∈ w :: l := by
        rcases mem_cons.1 hy with rfl | hy
        · exact absurd hs hx
        · exact hy
      obtain ⟨z, hz, hzs, hseek⟩ := ih hl ⟨y, hy', hs⟩
      refine ⟨z, mem_cons_of_mem _ hz, hzs, fun n hn => ?_⟩
      obtain ⟨m, rfl⟩ := Nat.exists_eq_succ_of_ne_zero (Nat.ne_of_gt (Nat.zero_lt_of_lt hn))
      simp only [seek, hx, hw]
      exact hseek m (by simpa using hn)

end Links
