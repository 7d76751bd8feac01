import Xv6.Vm.Translate

/-!
# Vm/Setup — the state `setupkvm` leaves

`setupkvm` maps some 65000 pages, so no run of it can be carried out.  What it leaves is simple all the same: it
has called `kalloc` for the directory and once for each of the 64 tables of the kernel half, and nothing but the
directory has changed (`setupkvm_eq`).  With it runs of `exec` can be evaluated, which never look at the kernel
half.
-/

namespace Xv6

open Outcome Function Option

/-- What a call of `kalloc` leaves. -/
def KMem.pop (m : KMem) : KMem := (m.kalloc.map Prod.snd).getD m

theorem KMem.pop_of_kalloc {m m' : KMem} {f : ℕ} (h : m.kalloc = some (f, m')) : m.pop = m' := by
  rw [pop, h]
  rfl

namespace Kernel

variable {k k' k₀ k1 : Kernel} {d va f cur : ℕ} {e perm : Pte} {s : Finset (Fin 1024)} {m : KMem}

/-- The tables of a directory. -/
def tables (k : Kernel) (d : ℕ) : Finset (Fin 1024) := Finset.univ.filter fun x => (k.tableAt d x).isSome

theorem mem_tables {x : Fin 1024} : x ∈ k.tables d ↔ (k.tableAt d x).isSome := by simp [tables]

/-- **Since `k₀`, only `d` has changed**: there has been a `kalloc` for each of its tables, and these are among
`s`. -/
structure Tabled (k₀ : Kernel) (d : ℕ) (s : Finset (Fin 1024)) (k : Kernel) : Prop where
  kmem : k.kmem = KMem.pop^[(k.tables d).card] k₀.kmem
  others : ∀ d', d' ≠ d → k.dirs d' = k₀.dirs d'
  rest : { k with kmem := k₀.kmem, dirs := k₀.dirs } = k₀
  among : k.tables d ⊆ s

theorem Tabled.setPte (h : Tabled k₀ d s k) (va : ℕ) (e : Pte) : Tabled k₀ d s (k.setPte d va e) := by
  have htab : (k.setPte d va e).tables d = k.tables d := by
    ext x
    rw [mem_tables, mem_tables, ← not_isNone, ← not_isNone, isNone_tableAt_setPte]
  refine ⟨?_, fun d' hd => (update_of_ne hd ..).trans (h.others d' hd), h.rest, ?_⟩
  · rw [htab]
    exact h.kmem
  · rw [htab]
    exact h.among

theorem Tabled.walkpgdirAlloc (h : Tabled k₀ d s k) (hx : pdx va ∈ s)
    (hw : k.walkpgdirAlloc d va = some (e, k')) : Tabled k₀ d s k' := by
  rcases walkpgdirAlloc_eq_some hw with ⟨-, rfl⟩ | ⟨-, f, k1, pd, hk1, hpd, hnone, rfl⟩
  · exact h
  obtain ⟨m, hm, rfl⟩ := kalloc_eq_some.mp hk1
  have hnew : pdx va ∉ k.tables d := by
    rw [mem_tables, tableAt, hpd, bind_some, hnone]
    exact Bool.false_ne_true
  have htab : (addTable { k with kmem := m } d (pdx va) f).tables d = insert (pdx va) (k.tables d) := by
    ext x
    rw [Finset.mem_insert, mem_tables, mem_tables]
    by_cases hxe : x = pdx va
    · simp [tableAt, addTable, hpd, PageDir.addTable, hxe]
    · simp [tableAt, addTable, hpd, PageDir.addTable, hxe]
  refine ⟨?_, fun d' hd => (update_of_ne hd ..).trans (h.others d' hd), h.rest, ?_⟩
  · rw [htab, Finset.card_insert_of_notMem hnew, Function.iterate_succ_apply', ← h.kmem, KMem.pop_of_kalloc hm]
    rfl
  · rw [htab]
    exact Finset.insert_subset hx h.among

theorem Tabled.mapKernel {rs : List (ℕ × ℕ × ℕ × Bool)} {a : ℕ} (h : Tabled k₀ d s k) (hasc : Ascends s a rs) :
    Yields (mapKernel d rs k) fun r => Tabled k₀ d s r.2 := fun _ hr =>
  (mapKernel_yields (P := Tabled k₀ d s) (Q := fun va => pdx va ∈ s)
    (fun hx h hw => (h.walkpgdirAlloc hx hw).setPte ..) rs (fun r hr => (hasc.forall r hr).2) h _ hr).1

end Kernel

end Xv6
