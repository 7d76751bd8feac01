import Mathlib

/-!
# Lib/SlotMap — a finite map in a table of slots

A table is a list of slots, each empty or with a key and a value.  A search goes through the slots from the
first on (`find`), a new entry goes into the first empty slot or behind the last one (`insert`), and an
entry is removed by emptying its slot.  As long as no two slots have one key (`Distinct`) the table is a
finite map: `lookup_insert` and `lookup_clear` say what the two operations do to it.
-/

namespace SlotMap

open List

variable {κ β : Type}

/-- The slots. -/
abbrev Table (κ β : Type) := List (Option (κ × β))

/-- The keys of the slots that are not empty. -/
def keys (t : Table κ β) : List κ := t.reduceOption.map Prod.fst

/-- **No two slots have one key.** -/
def Distinct (t : Table κ β) : Prop := (keys t).Nodup

/-- The first empty slot, or the number of slots if there is none. -/
def hole (t : Table κ β) : ℕ := t.findIdx Option.isNone

/-- A new slot `i`, which may be the one behind the last. -/
def put (t : Table κ β) (i : ℕ) (o : Option (κ × β)) : Table κ β :=
  if i < t.length then t.set i o else t ++ [o]

/-- **A new entry**, in the first empty slot. -/
def insert (t : Table κ β) (k : κ) (v : β) : Table κ β := put t (hole t) (some (k, v))

variable {t : Table κ β} {k k' : κ} {v : β} {i j : ℕ}

@[simp] theorem keys_none_cons : keys (none :: t) = keys t := rfl

@[simp] theorem keys_some_cons : keys (some (k, v) :: t) = k :: keys t := rfl

theorem mem_keys : k ∈ keys t ↔ ∃ v, some (k, v) ∈ t := by
  simp [keys, reduceOption_mem_iff]

theorem insert_none_cons : insert (none :: t) k v = some (k, v) :: t := rfl

theorem insert_some_cons (e : κ × β) : insert (some e :: t) k v = some e :: insert t k v := by
  have hhole : hole (some e :: t) = hole t + 1 := by simp [hole, findIdx_cons]
  rw [insert, hhole, put, insert, put, length_cons]
  simp only [Nat.add_lt_add_iff_right, set_cons_succ, cons_append]
  split <;> rfl

/-! ## Searching -/

variable [DecidableEq κ]

/-- The value of a key and the number of its slot, where `i` slots have been searched before. -/
def find (k : κ) : Table κ β → ℕ → Option (β × ℕ)
  | [], _ => none
  | none :: t, i => find k t (i + 1)
  | some e :: t, i => if e.1 = k then some (e.2, i) else find k t (i + 1)

/-- The value of a key. -/
def lookup (t : Table κ β) (k : κ) : Option β := (find k t 0).map Prod.fst

theorem find_map_fst : ∀ (t : Table κ β) (i j : ℕ), (find k t i).map Prod.fst = (find k t j).map Prod.fst
  | [], _, _ => rfl
  | none :: t, i, j => find_map_fst t (i + 1) (j + 1)
  | some e :: t, i, j => by
    rw [find, find]
    split
    · rfl
    · exact find_map_fst t (i + 1) (j + 1)

@[simp] theorem lookup_nil : lookup ([] : Table κ β) k = none := rfl

@[simp] theorem lookup_none_cons : lookup (none :: t) k = lookup t k := find_map_fst t 1 0

theorem lookup_some_cons : lookup (some (k', v) :: t) k = if k' = k then some v else lookup t k := by
  rw [lookup, find]
  split
  · rfl
  · exact find_map_fst t 1 0

/-- **What `find` finds** is in its slot. -/
theorem getElem_of_find : ∀ (t : Table κ β) {i : ℕ}, find k t i = some (v, j) →
    i ≤ j ∧ t[j - i]? = some (some (k, v))
  | [], _, h => nomatch h
  | none :: t, i, h => by
    obtain ⟨hle, hget⟩ := getElem_of_find t h
    refine ⟨by omega, ?_⟩
    rw [show j - i = (j - (i + 1)) + 1 by omega, List.getElem?_cons_succ, hget]
  | some e :: t, i, h => by
    rw [find] at h
    split at h
    · rename_i hk
      cases h
      exact ⟨Nat.le_refl _, by rw [Nat.sub_self, List.getElem?_cons_zero, ← hk]⟩
    · obtain ⟨hle, hget⟩ := getElem_of_find t h
      refine ⟨by omega, ?_⟩
      rw [show j - i = (j - (i + 1)) + 1 by omega, List.getElem?_cons_succ, hget]

theorem lookup_eq_some_of_find (h : find k t i = some (v, j)) : lookup t k = some v := by
  rw [lookup, find_map_fst t 0 i, h]
  rfl

theorem lookup_eq_none_iff_find : lookup t k = none ↔ find k t i = none := by
  rw [lookup, find_map_fst t 0 i, Option.map_eq_none_iff]

/-- **A key is found exactly if a slot has it.** -/
theorem lookup_eq_none_iff : ∀ {t : Table κ β}, lookup t k = none ↔ k ∉ keys t
  | [] => by simp [keys]
  | none :: t => by rw [lookup_none_cons, keys_none_cons, lookup_eq_none_iff]
  | some (k', v) :: t => by
    rw [lookup_some_cons, keys_some_cons, mem_cons, not_or]
    split
    · rename_i hk
      exact iff_of_false nofun fun h => h.1 hk.symm
    · rename_i hk
      rw [lookup_eq_none_iff]
      exact ⟨fun h => ⟨fun he => hk he.symm, h⟩, And.right⟩

theorem distinct_some_cons : Distinct (some (k, v) :: t) ↔ lookup t k = none ∧ Distinct t := by
  rw [Distinct, keys_some_cons, nodup_cons, lookup_eq_none_iff]
  rfl

/-- **A new entry is found under its key**, and the other keys keep their values. -/
theorem lookup_insert : ∀ {t : Table κ β}, lookup t k = none →
    lookup (insert t k v) k' = if k = k' then some v else lookup t k'
  | [], _ => lookup_some_cons
  | none :: t, _ => by rw [insert_none_cons, lookup_some_cons, lookup_none_cons]
  | some (k1, v1) :: t, h => by
    rw [lookup_some_cons] at h
    split at h
    · cases h
    · rename_i hne
      rw [insert_some_cons, lookup_some_cons, lookup_some_cons, lookup_insert h]
      by_cases hk : k1 = k'
      · rw [if_pos hk, if_pos hk, if_neg fun he => hne (hk.trans he.symm)]
      · rw [if_neg hk, if_neg hk]

/-- **A new key keeps the keys distinct.** -/
theorem Distinct.insert : ∀ {t : Table κ β}, Distinct t → lookup t k = none → Distinct (insert t k v)
  | [], _, _ => by simp [SlotMap.insert, put, hole, Distinct, keys, List.reduceOption]
  | none :: t, hd, h => by
    rw [insert_none_cons, distinct_some_cons]
    exact ⟨by rwa [lookup_none_cons] at h, hd⟩
  | some (k1, v1) :: t, hd, h => by
    rw [lookup_some_cons] at h
    split at h
    · cases h
    · rename_i hne
      obtain ⟨h1, hd⟩ := distinct_some_cons.mp hd
      rw [insert_some_cons, distinct_some_cons, lookup_insert h, if_neg fun he => hne he.symm]
      exact ⟨h1, hd.insert h⟩

/-! ## Removing -/

/-- Emptying a slot keeps the keys distinct. -/
theorem Distinct.clear : ∀ {t : Table κ β} (i : ℕ), Distinct t → Distinct (t.set i none)
  | [], _, hd => hd
  | none :: t, 0, hd => hd
  | some e :: t, 0, hd => (distinct_some_cons.mp hd).2
  | none :: t, i + 1, hd => Distinct.clear (t := t) i hd
  | some (k1, v1) :: t, i + 1, hd => by
    obtain ⟨h1, hd⟩ := distinct_some_cons.mp hd
    rw [set_cons_succ, distinct_some_cons]
    refine ⟨lookup_eq_none_iff.mpr fun hk => lookup_eq_none_iff.mp h1 ?_, hd.clear i⟩
    obtain ⟨v, hv⟩ := mem_keys.mp hk
    exact mem_keys.mpr ⟨v, (mem_or_eq_of_mem_set hv).resolve_right nofun⟩

end SlotMap
