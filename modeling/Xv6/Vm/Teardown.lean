import Xv6.Vm.Resident

/-!
# Vm/Teardown — what freeing an address space leaves of the others

`Spares k k' d`: from `k` to `k'` every directory but `d` keeps its entries and what they show.  The
frames that `freevm` drops are the pages, the tables and the directory itself, each of them through
the site that refers to it, so nothing is lost that another directory still shows.
-/

namespace Xv6

open Outcome

namespace Kernel

variable {k k' k'' : Kernel} {held : Multiset ℕ} {cur d f : ℕ}

/-- **All directories but `d` show what they showed**, and the processes keep directories and sizes. -/
structure Spares (k k' : Kernel) (d : ℕ) : Prop where
  procs : ∀ pid, Option.Rel (fun p p' : Proc => p'.pgdir = p.pgdir ∧ p'.sz = p.sz)
    (k.procs pid) (k'.procs pid)
  walk : ∀ d' va, d' ≠ d → k'.walkpgdir d' va = k.walkpgdir d' va
  pages : ∀ d' v, d' ≠ d → k'.pageAt d' v = k.pageAt d' v

theorem Spares.refl (k : Kernel) (d : ℕ) : k.Spares k d :=
  ⟨fun _ => rel_refl _, fun _ _ _ => rfl, fun _ _ _ => rfl⟩

theorem Spares.trans (h : k.Spares k' d) (h' : k'.Spares k'' d) : k.Spares k'' d where
  procs := rel_trans h.procs h'.procs
  walk d' va hd := (h'.walk d' va hd).trans (h.walk d' va hd)
  pages d' v hd := (h'.pages d' v hd).trans (h.pages d' v hd)

/-- A directory that is missing before and after was not there to be seen. -/
theorem Spares.alike (h : k.Spares k' d) (hd : k.dirs d = none) (hd' : k'.dirs d = none) :
    k.Alike k' := by
  have hwalk : ∀ d' va, k'.walkpgdir d' va = k.walkpgdir d' va := fun d' va => by
    by_cases hdd : d' = d
    · rw [hdd, walkpgdir, walkpgdir, hd, hd']
    · exact h.walk d' va hdd
  refine ⟨⟨h.procs, fun d' va hs => by rwa [hwalk], fun hr d' va e hv he => ?_⟩, fun d' v => ?_⟩
  · rw [hwalk] at he
    exact hr d' va e hv he
  · by_cases hdd : d' = d
    · have hnone : ∀ {k : Kernel}, k.dirs d = none → k.pageAt d v = none := fun hk => by
        rw [pageAt, owner, walkpgdir, hk]
        split <;> rfl
      rw [hdd, hnone hd, hnone hd']
    · exact h.pages d' v hdd

/-- Dropping the frame of a site of `d`, when only `d` changes besides. -/
theorem Frames.spares_kfree {k1 : Kernel} {s : Site} (h : k.Frames held) (hs : k.owner s = some f)
    (hk : k.kfree f = .ok k1) (hne : ∀ d' v, d' ≠ d → s ≠ .pte d' v) : k.Spares k1 d :=
  ⟨(kept_kfree hk).procs, fun d' va _ => walkpgdir_of_kfree hk d' va,
    fun d' v hd => h.pageAt_kfree_site hs hk (hne d' v hd).symm⟩

/-- A change of one directory. -/
theorem spares_dirs {D : ℕ → Option PageDir} (hD : ∀ d', d' ≠ d → D d' = k.dirs d') :
    k.Spares { k with dirs := D } d := by
  have hwalk : ∀ d' va, d' ≠ d → walkpgdir { k with dirs := D } d' va = k.walkpgdir d' va :=
    fun d' va hd => by simp only [walkpgdir, hD d' hd]
  refine ⟨fun _ => rel_refl _, hwalk, fun d' v hd => pageAt_congr ?_ fun _ _ => rfl⟩
  rw [owner, owner, hwalk d' _ hd]

/-! ## `freevm` -/

theorem spares_deallocFrom {n a oldsz : ℕ} (h : k.Inv held) (hd : k.Unowned cur d)
    (hold : oldsz ≤ kernBase) (ha : a % pgSize = 0) (hk : deallocFrom cur d oldsz n a k = .ok k') :
    k.Spares k' d := by
  have hall : k'.Inv held ∧ k'.Unowned cur d ∧ k.Spares k' d := by
    refine deallocFrom_induction (P := fun k' => k'.Inv held ∧ k'.Unowned cur d ∧ k.Spares k' d)
      (fun k0 k1 a e ha hw hep hk ⟨hi, hu, hs⟩ => ?_) n a k k' hold ha ⟨h, hd, .refl k d⟩ hk
    refine ⟨hi.dealloc_page hu ha hw hep hk, (SameDirs.dealloc_page hk cur d a).unowned hu, hs.trans ?_⟩
    refine ⟨(kept_dealloc_page hk cur d a).procs, fun d' va hne => ?_, fun d' v hne => ?_⟩
    · rw [walkpgdir_setPte_of_ne (.inl hne), releaseSlot_walkpgdir, walkpgdir_of_kfree hk]
    · rw [pageAt_dealloc_page hi ha hw hep hk, if_neg fun hc => hne hc.1]
  exact hall.2.2

theorem Leaving.spares_freeTable {x : Fin 1024} (h : k.Leaving held d)
    (hk : Kernel.freeTable d x k = .ok k') : k.Spares k' d := by
  unfold Kernel.freeTable at hk
  split at hk
  · cases hk
    exact .refl k d
  · rename_i t ht
    obtain ⟨k1, hk1, hk⟩ := bind_eq_ok.mp hk
    cases hk
    have hown : k.owner (.table d x) = some t.frame := by rw [owner, ht]; rfl
    exact (h.inv.frames.spares_kfree hown hk1 fun _ _ _ => by simp).trans
      (spares_dirs fun d' hd' => Function.update_of_ne hd' ..)

theorem Leaving.spares_freeTables : ∀ (xs : List (Fin 1024)) {k k' : Kernel}, k.Leaving held d →
    loop (Kernel.freeTable d) xs k = .ok k' → k.Spares k' d
  | [], k, k', _, hk => by
    cases hk
    exact .refl k d
  | x :: xs, k, k', h, hk => by
    obtain ⟨k1, hk1, hk⟩ := bind_eq_ok.mp hk
    exact (h.spares_freeTable hk1).trans (Leaving.spares_freeTables xs (h.freeTable hk1).1 hk)

/-- **`freevm` spares the other address spaces.** -/
theorem Inv.spares_freevm (h : k.Inv held) (halone : ∀ pid p, k.procs pid = some p → p.pgdir ≠ d)
    (hk : k.freevm cur d = .ok k') : k.Spares k' d := by
  obtain ⟨k1, k2, k3, hk1, hk2, hk3, rfl, hleaving⟩ := h.freevm_eq_ok halone hk
  have hown : k2.owner (.dir d) = some d := by
    obtain ⟨pd, hpd⟩ := Option.isSome_iff_exists.mp (hleaving.freeTables _ hk2).1.live
    rw [owner, hpd]
    rfl
  have h1 := spares_deallocFrom h (fun q r hr hrd => absurd hrd (halone q r hr)) le_rfl
    (pgRoundUp_mod 0) hk1
  have h2 := hleaving.spares_freeTables _ hk2
  have h3 := (hleaving.freeTables _ hk2).1.inv.frames.spares_kfree (d := d) hown hk3
    fun _ _ _ => by simp
  exact ((h1.trans h2).trans h3).trans (spares_dirs fun d' hd' => Function.update_of_ne hd' ..)

/-! ## `setupkvm` -/

end Kernel

end Xv6
