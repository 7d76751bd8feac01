import Xv6.Vm.Room

/-!
# Vm/Translate — what `mappages` and `setupkvm` make of a directory

The loops are in `Vm/Mapping`.  A directory that `setupkvm` returns starts empty, so it translates what the ranges
of `kmap` make and nothing else, and agrees with every other directory in the kernel half.
-/

namespace Xv6

open Outcome

namespace Kernel

variable {k k' : Kernel} {d d' va va' f : ℕ} {e : Pte} {perm : Pte}

/-- **A directory of `setupkvm`** translates the ranges of `kmap` and nothing else; no other directory is
touched. -/
theorem setupkvm_translates {cur : ℕ} (hkd : 0x100000 < k.kdata ∧ k.kdata < physTop ∧ k.kdata % pgSize = 0)
    (h : k.setupkvm cur = .ok (some d, k')) :
    (∀ va, va < 2 ^ 32 → k'.translate d va = kmapAt k.kmap va) ∧
      ∀ d' va, d' ≠ d → va < 2 ^ 32 → k'.translate d' va = k.translate d' va := by
  unfold setupkvm at h
  split at h
  · cases h
  · rename_i d0 k1 hk1
    obtain ⟨m, -, rfl⟩ := kalloc_eq_some.mp hk1
    have hempty : ∀ va, (setDir { k with kmem := m } d0 (some .empty)).translate d0 va = none := fun va => by
      simp [translate, walkpgdir, setDir]
    have hother : ∀ d' va, d' ≠ d0 → (setDir { k with kmem := m } d0 (some .empty)).translate d' va =
        k.translate d' va := fun d' va hd => by simp [translate, walkpgdir, setDir, hd]
    obtain ⟨⟨b, k2⟩, hk2, htr⟩ := mapKernel_translates (d := d0) k.kmap kernBase
      (ascends_kmap (Finset.subset_univ _) hkd) (wholePages_kmap hkd)
      fun va _ _ => translate_eq_none.mp (hempty va)
    rw [show kmap { k with kmem := m } = k.kmap from rfl, hk2, ok_bind] at h
    cases b with
    | false =>
      obtain ⟨k3, -, h⟩ := bind_eq_ok.mp h
      cases h
    | true =>
      cases h
      refine ⟨fun va hva => ?_, fun d' va hd hva => ?_⟩
      · rw [htr rfl d va hva, if_pos rfl, hempty, Option.or_none]
      · rw [htr rfl d' va hva, if_neg hd, Option.none_or, hother d' va hd]

/-- No user address is translated. -/
theorem kmapAt_user (hkd : 0x100000 < k.kdata ∧ k.kdata < physTop ∧ k.kdata % pgSize = 0) (h : va < kernBase) :
    kmapAt k.kmap va = none :=
  kmapAt_of_lt (ascends_kmap (Finset.subset_univ _) hkd) h

end Kernel

open Kernel

/-- **`mappages` and `setupkvm` build the intended translation.**  `mappages` ends on every range that does not
wrap and has no page present; when it returns 0, the pages of the range go to the frames from `f` on, and nothing
else has changed.  Every directory that `setupkvm` returns translates the ranges of `kmap` and nothing else, so
no user address; and at the addresses of the kernel it agrees with any directory, such as `kpgdir`, that does. -/
theorem builds_translation :
    (∀ (k : Kernel) (d va size f : ℕ) (perm : Pte), 0 < size → va + size ≤ 2 ^ 32 →
      (∀ a, vpn va ≤ vpn a → vpn a ≤ vpn (va + size - 1) → ¬ k.Present d a) →
      Returns (k.mappages d va size f perm) fun r =>
        r.1 = true → k.Maps r.2 d (vpn va) (vpn (va + size - 1)) f perm) ∧
    ∀ (k k' : Kernel) (cur d : ℕ), 0x100000 < k.kdata ∧ k.kdata < physTop ∧ k.kdata % pgSize = 0 →
      k.setupkvm cur = .ok (some d, k') →
      (∀ va, va < 2 ^ 32 → k'.translate d va = kmapAt k.kmap va) ∧
      (∀ va, va < kernBase → k'.translate d va = none) ∧
      ∀ kpgdir, (∀ va, kernBase ≤ va → va < 2 ^ 32 → k.translate kpgdir va = kmapAt k.kmap va) →
        ∀ va, kernBase ≤ va → va < 2 ^ 32 → k'.translate d va = k'.translate kpgdir va := by
  refine ⟨fun k d va size f perm => mappages_maps, fun k k' cur d hkd h => ?_⟩
  obtain ⟨hnew, hother⟩ := setupkvm_translates hkd h
  refine ⟨hnew, fun va hva => ?_, fun kpgdir hk va hlo hhi => ?_⟩
  · rw [hnew va (by simp only [kernBase] at hva; omega), kmapAt_user hkd hva]
  · by_cases hd : kpgdir = d
    · rw [hd]
    · rw [hnew va hhi, hother kpgdir va hd hhi, hk va hlo hhi]

/-- The last page of the address space, and a directory made with 65 frames. -/
theorem builds_translation_last :
    let k : Kernel := ⟨⟨0x115000, List.range' 1000 65, fun _ => 0, 65⟩, fun _ _ => 0, fun _ => some .empty,
      fun _ => none, fun _ => 0, fun _ => 0, 1, 0x109000⟩
    (Returns (k.mappages 1 0xFFFFF000 4096 7 { w := true }) fun r =>
      r.1 = true → k.Maps r.2 1 (vpn 0xFFFFF000) (vpn (0xFFFFF000 + 4096 - 1)) 7 { w := true }) ∧
    ∃ d k', k.setupkvm 0 = .ok (some d, k') ∧
      k'.translate d 0xFFFFFFFF = some { addr := 0xFFFFF, p := true, w := true } ∧ k'.translate d 0 = none := by
  intro k
  have habs : ∀ a, ¬ k.Present 1 a := fun a => translate_eq_none.mp (by simp [k, Kernel.translate, walkpgdir])
  have hkd : 0x100000 < k.kdata ∧ k.kdata < physTop ∧ k.kdata % pgSize = 0 := ⟨by decide, by decide, by decide⟩
  obtain ⟨d, k', hk, -⟩ := setupkvm_ok (k := k) (n := 0) 0 hkd (Finset.Subset.refl kernelTables) (by
    rw [card_kernelTables]
    decide)
  obtain ⟨hnew, huser, -⟩ := builds_translation.2 k k' 0 d hkd hk
  refine ⟨builds_translation.1 k 1 0xFFFFF000 4096 7 _ (by decide) (by decide) fun a _ _ => habs a, d, k', hk,
    ?_, huser 0 (by decide)⟩
  rw [hnew _ (by decide)]
  decide

end Xv6
