import Xv6.Lib.Links

/-!
# Lib/Dlist — rings linked in both directions

A ring through a head `h` has two links per node.  `Threads r h l` says that the links of `r` run through `h`
and then the nodes of `l`, once in each direction.  The two stores that take a node out of its place and the
four that put one behind the head are written in the order a program makes them.

Exchanging the links of all nodes turns the list round (`threads_swap`), so that one direction is enough.  A walk
along either link finds a node to stop at, or comes back to the head (`seek_ring`).
-/

/-- The links of a doubly linked list. -/
structure Dlist (α : Type) where
  next : α → α
  prev : α → α

namespace Dlist

open Function List

open Links

variable {α : Type} {r : Dlist α} {h b x : α} {l l1 l2 : List α}

/-- **The links run through the head and the nodes of `l`**, in both directions. -/
structure Threads (r : Dlist α) (h : α) (l : List α) : Prop where
  next : Linked r.next (h :: l ++ [h])
  prev : Linked r.prev (h :: l.reverse ++ [h])

/-- The same nodes, from the other end. -/
def swap (r : Dlist α) : Dlist α := ⟨r.prev, r.next⟩

theorem threads_swap : r.swap.Threads h l.reverse ↔ r.Threads h l :=
  ⟨fun ⟨h1, h2⟩ => ⟨by simpa [swap] using h2, h1⟩, fun ⟨h1, h2⟩ => ⟨h2, by simpa [swap] using h1⟩⟩

/-- An empty ring: the head points to itself. -/
theorem threads_nil (hn : r.next h = h) (hp : r.prev h = h) : r.Threads h [] :=
  ⟨linked_cons_cons.mpr ⟨hn, linked_singleton h⟩, linked_cons_cons.mpr ⟨hp, linked_singleton h⟩⟩

/-- The two neighbours of a place in the ring. -/
theorem Threads.prev_eq {l' : List α} (ht : r.Threads h l) (hl : h :: l ++ [h] = l1 ++ x :: b :: l') :
    r.next x = b ∧ r.prev b = x := by
  have hn := ht.next
  have hp : Linked r.prev (h :: l ++ [h]).reverse := by simpa using ht.prev
  have e : (l1 ++ x :: b :: l').reverse = l'.reverse ++ b :: x :: l1.reverse := by simp
  rw [hl, linked_split] at hn
  rw [hl, e, linked_split] at hp
  exact ⟨(linked_cons_cons.mp hn.2).1, (linked_cons_cons.mp hp.2).1⟩

/-! ## Walking round -/

/-- **A walk from the head** finds a node to stop at, or comes back to the head if there is none. -/
theorem seek_ring {next : α → α} (stop : α → Bool) (hl : Linked next (h :: l ++ [h])) (hh : stop h = true) :
    (∃ x ∈ l, stop x ∧ ∀ n, l.length < n → seek next stop n (next h) = some x) ∨
      (∀ x ∈ l, stop x = false) ∧ ∀ n, l.length < n → seek next stop n (next h) = some h := by
  by_cases hex : ∃ x ∈ l, stop x = true
  · cases l with
    | nil => simp at hex
    | cons y l =>
      obtain ⟨hy, hl⟩ := linked_cons_cons.mp hl
      obtain ⟨z, hz, hs, hseek⟩ := seek_of_linked (show Linked next ((y :: l) ++ [h]) from hl).left hex
      exact .inl ⟨z, hz, hs, fun n hn => hy ▸ hseek n (by simpa using Nat.lt_of_succ_lt hn)⟩
  · simp only [not_exists, not_and, Bool.not_eq_true] at hex
    obtain ⟨y, B, hB⟩ : ∃ y B, l ++ [h] = y :: B := exists_cons_of_ne_nil (by simp)
    rw [cons_append, hB] at hl
    obtain ⟨hy, hl⟩ := linked_cons_cons.mp hl
    have hlen : B.length = l.length := by simpa using (congrArg List.length hB).symm
    obtain ⟨z, hz, hs, hseek⟩ := seek_of_linked hl ⟨h, by rw [← hB]; simp, hh⟩
    have hzh : z = h := by
      rw [← hB, mem_append, mem_singleton] at hz
      exact hz.resolve_left fun hz => by simp [hex z hz] at hs
    exact .inr ⟨hex, fun n hn => hy ▸ hzh ▸ hseek n (hlen ▸ hn)⟩

variable [DecidableEq α]

/-! ## Taking a node out -/

/-- `b->next->prev = b->prev; b->prev->next = b->next;` -/
def unlink (r : Dlist α) (b : α) : Dlist α :=
  let r := { r with prev := Function.update r.prev (r.next b) (r.prev b) }
  { r with next := Function.update r.next (r.prev b) (r.next b) }

/-- The second store reads what the first has left. -/
theorem unlink_eq (hb : b ≠ r.next b) : r.unlink b =
    ⟨update r.next (r.prev b) (r.next b), update r.prev (r.next b) (r.prev b)⟩ := by
  simp [unlink, update_of_ne hb]

/-- Leaving out a node: the one before it gets its link. -/
theorem linked_skip {next : α → α} {c : α} (hl : Linked next (l1 ++ x :: b :: l2 ++ [c]))
    (hnd : (l1 ++ x :: b :: l2).Nodup) :
    Linked (update next x (next b)) (l1 ++ x :: l2 ++ [c]) := by
  have hx1 : ∀ y ∈ l1, y ≠ x := by
    rintro y hy rfl
    exact (nodup_append.mp hnd).2.2 y hy y mem_cons_self rfl
  have hx2 : ∀ y ∈ l2, y ≠ x := by
    rintro y hy rfl
    exact (nodup_cons.mp (nodup_append.mp hnd).2.1).1 (mem_cons_of_mem _ hy)
  have e : l1 ++ x :: b :: l2 ++ [c] = l1 ++ x :: (b :: l2 ++ [c]) := by simp
  have e' : l1 ++ x :: l2 ++ [c] = l1 ++ x :: (l2 ++ [c]) := by simp
  rw [e, linked_split] at hl
  rw [e', linked_split]
  refine ⟨hl.1.congr fun y hy => update_of_ne (hx1 y hy) .., ?_⟩
  exact (linked_cons_cons.mp hl.2).2.replace_head (update_self ..) fun y hy =>
    update_of_ne (hx2 y hy) ..

theorem Threads.skip (ht : r.Threads h (l1 ++ b :: l2)) (hnd : (h :: (l1 ++ b :: l2)).Nodup) :
    Linked (update r.next (r.prev b) (r.next b)) (h :: (l1 ++ l2) ++ [h]) := by
  obtain ⟨A, x, hA⟩ : ∃ A x, h :: l1 = A ++ [x] :=
    ⟨(h :: l1).dropLast, (h :: l1).getLast (by simp), (dropLast_append_getLast _).symm⟩
  have e : h :: (l1 ++ b :: l2) = A ++ x :: b :: l2 := by
    rw [← cons_append, hA, append_assoc, singleton_append]
  have e' : h :: (l1 ++ l2) = A ++ x :: l2 := by
    rw [← cons_append, hA, append_assoc, singleton_append]
  have hprev : r.prev b = x := (ht.prev_eq (show _ = A ++ x :: b :: (l2 ++ [h]) by rw [e]; simp)).2
  rw [hprev, e']
  exact linked_skip (e ▸ ht.next) (e ▸ hnd)

/-- **Taking a node out of the ring.** -/
theorem Threads.unlink (ht : r.Threads h (l1 ++ b :: l2)) (hnd : (h :: (l1 ++ b :: l2)).Nodup) :
    (r.unlink b).Threads h (l1 ++ l2) := by
  have hb : b ≠ r.next b := by
    intro hb
    obtain ⟨y, B, hB⟩ : ∃ y B, l2 ++ [h] = y :: B := exists_cons_of_ne_nil (by simp)
    have e : h :: (l1 ++ b :: l2) ++ [h] = h :: l1 ++ b :: y :: B := by simp [← hB]
    have hy : y = b := ((ht.prev_eq e).1.symm.trans hb.symm)
    have hmem : b ∈ l2 ++ [h] := by rw [hB, hy]; exact mem_cons_self
    simp only [nodup_cons, mem_append, mem_cons, not_or, nodup_append] at hnd
    rcases mem_append.mp hmem with hm | hm
    · exact hnd.2.2.1.1 hm
    · exact hnd.1.2.1 (mem_singleton.mp hm).symm
  have hs : r.swap.Threads h (l2.reverse ++ b :: l1.reverse) := by
    have := threads_swap.mpr ht
    simpa using this
  have hnd' : (h :: (l2.reverse ++ b :: l1.reverse)).Nodup := by
    refine ((List.Perm.cons h ?_).nodup_iff).mp hnd
    have := (reverse_perm (l1 ++ b :: l2)).symm
    simpa using this
  rw [unlink_eq hb]
  refine ⟨ht.skip hnd, ?_⟩
  rw [reverse_append]
  exact hs.skip hnd'

/-! ## Putting a node in front -/

/-- `b->next = h->next; b->prev = h; h->next->prev = b; h->next = b;` -/
def pushFront (r : Dlist α) (h b : α) : Dlist α :=
  let r := { r with next := Function.update r.next b (r.next h) }
  let r := { r with prev := Function.update r.prev b h }
  let r := { r with prev := Function.update r.prev (r.next h) b }
  { r with next := Function.update r.next h b }

/-- **Putting a node behind the head.** -/
theorem Threads.pushFront (ht : r.Threads h l) (hnd : (h :: l).Nodup) (hb : b ∉ h :: l) :
    (r.pushFront h b).Threads h (b :: l) := by
  obtain ⟨hbh, hbl⟩ := ne_and_not_mem_of_not_mem_cons hb
  obtain ⟨hhl, hl⟩ := nodup_cons.mp hnd
  have hne : ∀ x ∈ l, x ≠ b ∧ x ≠ h := fun x hx => ⟨fun e => hbl (e ▸ hx), fun e => hhl (e ▸ hx)⟩
  constructor
  · refine linked_cons_cons.mpr ⟨by simp [Dlist.pushFront], ht.next.replace_head ?_ fun x hx => ?_⟩
    · simp [Dlist.pushFront, hbh]
    · simp [Dlist.pushFront, hne x hx]
  · -- the last node in this direction is the one that was first
    obtain ⟨A, y, hA⟩ : ∃ A y, h :: l.reverse = A ++ [y] :=
      ⟨(h :: l.reverse).dropLast, (h :: l.reverse).getLast (by simp), (dropLast_append_getLast _).symm⟩
    have e : h :: l ++ [h] = [] ++ h :: y :: A.reverse := by
      have := congrArg List.reverse hA
      simp only [reverse_cons, reverse_reverse, reverse_append, reverse_nil, nil_append,
        singleton_append] at this
      simp [this]
    have hy := (ht.prev_eq e).1
    have hperm : (A ++ [y]).Perm (h :: l) := hA ▸ (reverse_perm l).cons h
    have hndA := hperm.nodup_iff.mpr hnd
    have hAy : ∀ x ∈ A, x ≠ y := fun x hx e =>
      (nodup_append.mp hndA).2.2 x hx y (mem_singleton_self y) e
    have hmem : ∀ x ∈ A ++ [y], x ≠ b := fun x hx e => hb (e ▸ hperm.mem_iff.mp hx)
    have e' : h :: (b :: l).reverse ++ [h] = A ++ y :: [b, h] := by
      rw [reverse_cons, ← cons_append, hA]
      simp
    have hp := ht.prev
    rw [hA, append_assoc, singleton_append, linked_split] at hp
    rw [e', linked_split]
    have hnext : update r.next b (r.next h) h = y := by simp [Ne.symm hbh, hy]
    refine ⟨hp.1.congr fun x hx => ?_, linked_cons_cons.mpr ⟨?_, linked_cons_cons.mpr ⟨?_, linked_singleton h⟩⟩⟩
    · simp [Dlist.pushFront, hnext, hAy x hx, hmem x (mem_append_left _ hx)]
    · simp [Dlist.pushFront, hnext]
    · have hby : b ≠ y := Ne.symm (hmem y (by simp))
      simp [Dlist.pushFront, hnext, hby]

end Dlist
