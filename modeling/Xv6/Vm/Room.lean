import Xv6.Vm.Space

/-!
# Vm/Room — when there are enough frames

The lemmas of `Vm/Space` say what a successful call does.  Here are the matching progress lemmas: a
directory under construction takes a frame for every page table it lacks, and `Room` says that the
free list has them.
-/

namespace Xv6

open Outcome

namespace Kernel

variable {k k' : Kernel} {d va cur f m n : ℕ} {s : Finset (Fin 1024)} {e : Pte}

/-- The tables of `s` that directory `d` lacks. -/
def missing (k : Kernel) (d : ℕ) (s : Finset (Fin 1024)) : Finset (Fin 1024) :=
  s.filter fun x => (k.tableAt d x).isNone = true

/-- The free list covers the tables of `s` that `d` lacks, and `n` frames more. -/
structure Room (k : Kernel) (d : ℕ) (s : Finset (Fin 1024)) (n : ℕ) : Prop where
  live : (k.dirs d).isSome
  enough : (k.missing d s).card + n ≤ k.kmem.freelist.length

theorem mem_missing {x : Fin 1024} : x ∈ k.missing d s ↔ x ∈ s ∧ k.tableAt d x = none := by
  simp [missing]

/-- `kalloc` on a nonempty list. -/
theorem exists_kalloc (h : n + 1 ≤ k.kmem.freelist.length) :
    ∃ f k', k.kalloc = some (f, k') ∧ n ≤ k'.kmem.freelist.length := by
  obtain ⟨f, m, hm⟩ := KMem.exists_kalloc (m := k.kmem) fun h0 => by rw [h0] at h; simp at h
  refine ⟨f, _, kalloc_eq_some.mpr ⟨m, hm, rfl⟩, ?_⟩
  have hl := (KMem.kalloc_eq_some.mp hm).1
  rw [hl, List.length_cons] at h
  exact Nat.le_of_succ_le_succ h

/-- One of the spare frames is taken. -/
theorem Room.kalloc (h : k.Room d s (n + 1)) : ∃ f k', k.kalloc = some (f, k') ∧ k'.Room d s n := by
  obtain ⟨f, k', hk, hlen⟩ := exists_kalloc (n := (k.missing d s).card + n) h.enough
  have hdirs := (kalloc_spec hk).2.2.1
  refine ⟨f, k', hk, hdirs ▸ h.live, ?_⟩
  have htab : k'.tableAt d = k.tableAt d := by funext x; rw [tableAt, tableAt, hdirs]
  rwa [missing, htab, ← missing]

theorem Room.setMem (h : k.Room d s n) (f : ℕ) (pg : Page) : (k.setMem f pg).Room d s n :=
  ⟨h.live, h.enough⟩

theorem isNone_tableAt_setPte (k : Kernel) (d d' va : ℕ) (e : Pte) (x : Fin 1024) :
    ((k.setPte d' va e).tableAt d x).isNone = (k.tableAt d x).isNone := by
  unfold tableAt setPte
  by_cases hd : d = d'
  · subst hd
    cases hpd : k.dirs d with
    | none => simp
    | some pd =>
      have h := congrArg Option.isNone (pd.frame_setPte va e x)
      simpa [hpd] using h
  · simp [hd]

theorem Room.setPte (h : k.Room d s n) (d' va : ℕ) (e : Pte) : (k.setPte d' va e).Room d s n := by
  refine ⟨by rw [isSome_dirs_setPte]; exact h.live, ?_⟩
  have hmiss : (k.setPte d' va e).missing d s = k.missing d s := by
    simp only [missing, isNone_tableAt_setPte]
  rw [hmiss]
  exact h.enough

/-- **An allocating walk succeeds** on the tables there is room for. -/
theorem Room.walkpgdirAlloc (h : k.Room d s n) (hx : pdx va ∈ s) :
    ∃ e k', k.walkpgdirAlloc d va = some (e, k') ∧ k'.Room d s n := by
  cases hw : k.walkpgdir d va with
  | some e => exact ⟨e, k, by rw [Kernel.walkpgdirAlloc, hw], h⟩
  | none =>
    obtain ⟨pd, hpd⟩ := Option.isSome_iff_exists.mp h.live
    have hnone : k.tableAt d (pdx va) = none := by
      rw [walkpgdir, hpd, Option.bind_some, PageDir.walk, Option.map_eq_none_iff] at hw
      rw [tableAt, hpd, Option.bind_some, hw]
    have hmem : pdx va ∈ k.missing d s := mem_missing.mpr ⟨hx, hnone⟩
    have hcard := Finset.card_erase_add_one hmem
    have henough := h.enough
    obtain ⟨f, k1, hk1, hlen⟩ := exists_kalloc (k := k)
      (n := ((k.missing d s).erase (pdx va)).card + n) (by omega)
    have hdirs := (kalloc_spec hk1).2.2.1
    have hlive : (k1.dirs d).isSome := hdirs ▸ h.live
    refine ⟨{}, k1.addTable d (pdx va) f, ?_, by rw [isSome_addTable]; exact hlive, ?_⟩
    · rw [Kernel.walkpgdirAlloc, hw]
      simp only [hk1, Option.bind_some]
      rw [walkpgdir_addTable _ _ _ _ _ hlive, if_pos ⟨rfl, rfl⟩, Option.map_some]
    · -- the new table is no longer missing
      have hmiss : (k1.addTable d (pdx va) f).missing d s = (k.missing d s).erase (pdx va) := by
        ext x
        rw [Finset.mem_erase, mem_missing, mem_missing]
        by_cases hxe : x = pdx va
        · subst hxe
          simp [tableAt, addTable, hdirs, hpd, PageDir.addTable]
        · simp [tableAt, addTable, hdirs, hpd, PageDir.addTable, hxe]
      rw [hmiss]
      exact hlen

/-! ## `setupkvm` -/

/-- **The loop of `setupkvm` succeeds** on ascending ranges. -/
theorem Room.mapKernel {rs : List (ℕ × ℕ × ℕ × Bool)} {a : ℕ} (h : k.Room d s m) (hasc : Ascends s a rs)
    (hwhole : ∀ r ∈ rs, WholePages r) (habs : ∀ va, a ≤ va → va < 2 ^ 32 → ¬ k.Present d va) :
    ∃ k', mapKernel d rs k = .ok (true, k') ∧ k'.Room d s m := by
  obtain ⟨⟨b, k'⟩, hk', -⟩ := mapKernel_translates rs a hasc hwhole habs
  obtain ⟨h', hfail⟩ := mapKernel_yields (P := fun k => k.Room d s m) (Q := fun va => pdx va ∈ s)
    (fun hx h hw => by
      obtain ⟨e, k1, hw', h1⟩ := h.walkpgdirAlloc hx
      cases hw.symm.trans hw'
      exact h1.setPte ..) rs (fun r hr => (hasc.forall r hr).2) h _ hk'
  cases b with
  | true => exact ⟨k', hk', h'⟩
  | false =>
    obtain ⟨x, k1, hx, h1, hnone⟩ := hfail rfl
    obtain ⟨e, k2, hw, -⟩ := h1.walkpgdirAlloc hx
    cases hnone.symm.trans hw

theorem card_kernelTables : kernelTables.card = 64 := by decide +kernel

/-- **`setupkvm` succeeds** with a frame for the directory and one for each table. -/
theorem setupkvm_ok (cur : ℕ) (hkd : 0x100000 < k.kdata ∧ k.kdata < physTop ∧ k.kdata % pgSize = 0)
    (hs : kernelTables ⊆ s) (hlen : s.card + n + 1 ≤ k.kmem.freelist.length) :
    ∃ d k', k.setupkvm cur = .ok (some d, k') ∧ k'.Room d s n := by
  obtain ⟨d, k1, hk1, hlen1⟩ := exists_kalloc hlen
  have hroom : (k1.setDir d (some .empty)).Room d s n := by
    refine ⟨by simp [setDir], le_trans (Nat.add_le_add_right ?_ n) hlen1⟩
    exact Finset.card_filter_le ..
  have hkd1 : k1.kdata = k.kdata := by
    obtain ⟨m, -, rfl⟩ := kalloc_eq_some.mp hk1
    rfl
  obtain ⟨k2, hk2, h2⟩ := hroom.mapKernel
    (ascends_kmap hs (by rw [hkd1]; exact hkd)) (wholePages_kmap (by rw [hkd1]; exact hkd)) (by
      rintro va - - ⟨e, he, -⟩
      simp [walkpgdir, setDir] at he)
  refine ⟨d, k2, ?_, h2⟩
  rw [setupkvm, hk1]
  exact bind_eq_ok.mpr ⟨(true, k2), hk2, rfl⟩

end Kernel

end Xv6
