import Xv6.Vm.Mapping
import Xv6.Vm.Shrink

/-!
# Vm/Space — building and freeing address spaces keeps the invariant

`mappages`, `setupkvm`, `allocuvm`, `deallocuvm` and `freevm`.  As in `Vm/Faults`, each function comes
with what it can do and with the lemma that it keeps `Kernel.Inv`.

`freevm` returns the page tables to the allocator without looking into them, so it relies on
`deallocuvm` having left no present user entry.  The skip of `deallocuvm` over a missing table is 4MB
from wherever it stands; started at address 0 it stands at a multiple of 4MB whenever a table is
missing (`deallocFrom_covers`).
-/

namespace Xv6

open Outcome

namespace Kernel

variable {k k' k₀ : Kernel} {held held' : Multiset ℕ} {pid cur d va f oldsz newsz : ℕ} {p : Proc} {e : Pte}
  {i j : Fin maxPsycPages} {pol : Policy} {acc : Access}

/-! ## Mapping one page -/

theorem Present.addTable {d' : ℕ} {pd : PageDir} {x : Fin 1024} (hd : k.dirs d = some pd)
    (hx : pd.table x = none) (h : k.Present d' va) : (k.addTable d x f).Present d' va := by
  obtain ⟨e, he, hp⟩ := h
  refine ⟨e, ?_, hp⟩
  rw [walkpgdir_addTable k x f d' va (by simp [hd]), if_neg, he]
  rintro ⟨rfl, rfl⟩
  simp [walkpgdir, hd, PageDir.walk, hx] at he

theorem isSome_addTable (k : Kernel) (d : ℕ) (x : Fin 1024) (f d' : ℕ) :
    ((k.addTable d x f).dirs d').isSome = (k.dirs d').isSome := by
  by_cases h : d' = d
  · subst h
    simp [addTable]
  · simp [addTable, h]

/-- A table keeps the invariant. -/
theorem Inv.addTable {pd : PageDir} {x : Fin 1024} (h : k.Inv (f ::ₘ held))
    (hd : k.dirs d = some pd) (hx : pd.table x = none) (hc : k.kmem.referencesCount f = 1) :
    (k.addTable d x f).Inv held :=
  h.update (h.frames.addTable hd hx hc) rfl rfl rfl (fun d' hd' => by rwa [isSome_addTable])
    fun _ _ _ hs => .inl (hs.mono fun _ _ hp => hp.addTable hd hx)

theorem Inv.walkpgdirAlloc (h : k.Inv held) (hw : k.walkpgdirAlloc d va = some (e, k')) :
    k'.Inv held := by
  rcases walkpgdirAlloc_eq_some hw with ⟨-, rfl⟩ | ⟨-, f, k1, pd, hk1, hd, hx, rfl⟩
  · exact h
  · have hspec := kalloc_spec hk1
    exact (h.kalloc hk1).addTable (hspec.2.2.1 ▸ hd) hx hspec.1

theorem isSome_alloc (hw : k.walkpgdirAlloc d va = some (e, k')) (d' : ℕ) :
    (k'.dirs d').isSome = (k.dirs d').isSome := by
  rcases walkpgdirAlloc_eq_some hw with ⟨-, rfl⟩ | ⟨-, f, k1, pd, hk1, -, -, rfl⟩
  · rfl
  · rw [isSome_addTable, (kalloc_spec hk1).2.2.1]

/-- An allocating walk counts no frame that has a reference. -/
theorem Frames.count_of_alloc {g : ℕ} (h : k.Frames held)
    (hw : k.walkpgdirAlloc d va = some (e, k')) (hg : k.kmem.referencesCount g ≠ 0) :
    k'.kmem.referencesCount g = k.kmem.referencesCount g := by
  rcases walkpgdirAlloc_eq_some hw with ⟨-, rfl⟩ | ⟨-, f, k1, pd, hk1, -, -, rfl⟩
  · rfl
  · exact (h.count_of_kalloc hk1 hg :)

/-- Apart from the directory, an allocating walk changes the allocator only. -/
theorem alloc_spec (hw : k.walkpgdirAlloc d va = some (e, k')) :
    k'.mem = k.mem ∧ k'.nextpid = k.nextpid ∧ k'.kdata = k.kdata := by
  rcases walkpgdirAlloc_eq_some hw with ⟨-, rfl⟩ | ⟨-, f, k1, pd, hk1, -, -, rfl⟩
  · exact ⟨rfl, rfl, rfl⟩
  · obtain ⟨m, -, rfl⟩ := kalloc_eq_some.mp hk1
    exact ⟨rfl, rfl, rfl⟩

theorem procs_of_alloc (hw : k.walkpgdirAlloc d va = some (e, k')) : k'.procs = k.procs := by
  rcases walkpgdirAlloc_eq_some hw with ⟨-, rfl⟩ | ⟨-, f, k1, pd, hk1, -, -, rfl⟩
  · rfl
  · exact (kalloc_spec hk1).2.2.2

/-- **Mapping one user page.** -/
theorem mappages_page (hva : UserPage va) (perm : Pte) :
    k.mappages d va pgSize f perm = match k.walkpgdirAlloc d va with
      | none => .ok (false, k)
      | some (e, k) =>
        if e.p then .error "remap" else .ok (true, k.setPte d va { perm with addr := f, p := true }) := by
  have hfuel : 2 ^ 20 = 1048575 + 1 := by norm_num
  rw [mappages, pgRoundDown_last hva.1 hva.2, pgRoundDown_of_dvd hva.2, hfuel, mappagesFrom]
  cases k.walkpgdirAlloc d va with
  | none => rfl
  | some x => simp only [if_true]

/-- **What mapping a user page can do.** -/
theorem mappages_eq_ok {perm : Pte} {r : Bool} (hva : UserPage va)
    (h : k.mappages d va pgSize f perm = .ok (r, k')) :
    r = false ∧ k' = k ∨ r = true ∧ ∃ e k1, k.walkpgdirAlloc d va = some (e, k1) ∧ e.p = false ∧
      k' = k1.setPte d va { perm with addr := f, p := true } := by
  rw [mappages_page hva] at h
  split at h
  · cases h
    exact .inl ⟨rfl, rfl⟩
  · rename_i e k1 hw
    split at h
    · cases h
    · rename_i hep
      cases h
      exact .inr ⟨rfl, e, k1, hw, by simpa using hep, rfl⟩

/-- **Mapping a held frame keeps the invariant.** -/
theorem Inv.mapPage (perm : Pte) {k1 : Kernel} (h : k.Inv (f ::ₘ held)) (hva : UserPage va)
    (hw : k.walkpgdirAlloc d va = some (e, k1)) (hep : e.p = false)
    (hfit : perm.w = true ∨ perm.cow = true)
    (hsole : perm.w = true → k.kmem.referencesCount f = 1) :
    (k1.setPte d va { perm with addr := f, p := true }).Inv held := by
  have h1 := h.walkpgdirAlloc hw
  have hv := vpn_lt_of_lt hva.1
  have hw1 := walkpgdir_of_alloc hw
  refine h1.setPte_absent ?_ hw1 hep
  refine Frames.map h1.frames hv hw1 hep rfl hfit fun hpw => ?_
  -- the frame of a new table is another one
  have hc : k.kmem.referencesCount f = 1 := hsole hpw
  exact (h.frames.count_of_alloc hw (by rw [hc]; decide)).trans hc

/-! ## Unmapping -/

/-- **What `releaseSlot` can do**: release a slot of the page, or find none. -/
theorem releaseSlot_cases (hp : k.procs cur = some p) (d va : ℕ) :
    k.releaseSlot cur d va = k ∧ (∀ i, (p.memoryPages i).isUsed = true →
        (p.memoryPages i).pgdir = d → (p.memoryPages i).va ≠ va) ∨
      ∃ i, (p.memoryPages i).isUsed = true ∧ (p.memoryPages i).pgdir = d ∧
        (p.memoryPages i).va = va ∧ k.releaseSlot cur d va = k.setProc cur (p.freeMemSlot i) := by
  unfold releaseSlot
  rw [hp]
  simp only
  split
  · rename_i hnone
    refine .inl ⟨rfl, fun i hu hd hva => ?_⟩
    have := List.find?_eq_none.mp hnone i (List.mem_finRange i)
    simp [hu, hd, hva] at this
  · rename_i i hi
    have := List.find?_some hi
    simp only [Bool.and_eq_true, beq_iff_eq] at this
    exact .inr ⟨i, this.1.1, this.1.2, this.2, rfl⟩

/-- `deallocuvm` runs on the directory of the running process or on one that no process has. -/
def Unowned (k : Kernel) (cur d : ℕ) : Prop := ∀ pid p, k.procs pid = some p → p.pgdir = d → pid = cur

/-- What `deallocuvm` does to a present page: its frame is dropped, its slot released, its entry
cleared. -/
theorem dealloc_page {k1 : Kernel} (hk : k.kfree e.addr = .ok k1) (cur d va : ℕ) :
    ((k.releaseSlot cur d va).setPte d va {}).kfree e.addr
      = .ok ((k1.releaseSlot cur d va).setPte d va {}) := by
  refine kfree_setPte ?_ ..
  unfold releaseSlot
  rw [procs_of_kfree hk]
  split
  · exact hk
  · split
    · exact hk
    · exact kfree_setProc hk ..

/-- The processes after a release: one slot of `cur` at most has changed. -/
theorem releaseSlot_procs (k : Kernel) (cur d va : ℕ) {q : ℕ} {r : Proc}
    (hr : (k.releaseSlot cur d va).procs q = some r) :
    ∃ r', k.procs q = some r' ∧ r.pgdir = r'.pgdir ∧ (r'.AllOwn → r.AllOwn) ∧
      (q ≠ cur → r = r') := by
  cases hp : k.procs cur with
  | none =>
    rw [releaseSlot, hp] at hr
    exact ⟨r, hr, rfl, id, fun _ => rfl⟩
  | some p =>
    rcases releaseSlot_cases hp d va with ⟨heq, -⟩ | ⟨i, -, -, -, heq⟩
    · rw [heq] at hr
      exact ⟨r, hr, rfl, id, fun _ => rfl⟩
    · rw [heq] at hr
      by_cases hq : q = cur
      · subst hq
        rw [setProc_procs_self] at hr
        cases hr
        exact ⟨p, hp, rfl, fun h => h.freeMemSlot, fun h => absurd rfl h⟩
      · rw [setProc_procs_of_ne _ _ _ hq] at hr
        exact ⟨r, hr, rfl, id, fun _ => rfl⟩

/-- **Releasing the slot of a page**: afterwards no slot of a settled process names it. -/
theorem Inv.releaseSlot (h : k.Inv held) (hd : k.Unowned cur d) (hva : UserPage va) :
    (k.releaseSlot cur d va).Inv held ∧
      ∀ q r, (k.releaseSlot cur d va).procs q = some r → r.Settled (k.releaseSlot cur d va) →
        r.pgdir = d → r.AllOwn ∨ ∀ i, (r.memoryPages i).isUsed = true → vpn (r.memoryPages i).va ≠ vpn va := by
  cases hp : k.procs cur with
  | none =>
    have heq : k.releaseSlot cur d va = k := by rw [Kernel.releaseSlot, hp]
    rw [heq]
    refine ⟨h, fun q r hr _ hrd => ?_⟩
    rw [hd q r hr hrd, hp] at hr
    cases hr
  | some p =>
    have ho := h.own cur p hp
    rcases releaseSlot_cases hp d va with ⟨heq, hnone⟩ | ⟨i, hu, hid, hiva, heq⟩
    · rw [heq]
      refine ⟨h, fun q r hr _ hrd => .inr fun l hl hv => ?_⟩
      obtain rfl := hd q r hr hrd
      cases Option.mem_unique hp hr
      exact hnone l hl ((ho.memDir l hl).trans hrd) ((ho.memVa l).eq_of_vpn hva hv)
    · rw [heq]
      have hst := (h.steady cur p hp).imp (fun hs => hs.freeMemSlot (i := i))
        fun ha => ha.freeMemSlot (i := i)
      refine ⟨h.setProc hp rfl rfl ho.freeMemSlot hst, fun q r hr _ hrd => ?_⟩
      by_cases hq : q = cur
      · subst hq
        rw [setProc_procs_self] at hr
        cases hr
        refine (h.steady q p hp).symm.imp (fun ha => ha.freeMemSlot) fun hset l hl hv => ?_
        obtain ⟨hli, hleq⟩ := Proc.freeMemSlot_used hl
        rw [hleq] at hl hv
        exact hli (hset.inj l i hl hu (((ho.memVa l).eq_of_vpn hva hv).trans hiva.symm))
      · rw [setProc_procs_of_ne _ _ _ hq] at hr
        exact absurd (hd q r hr hrd) hq

/-- **Freeing one page keeps the invariant.** -/
theorem Inv.dealloc_page {k1 : Kernel} (h : k.Inv held) (hd : k.Unowned cur d) (hva : UserPage va)
    (hw : k.walkpgdir d va = some e) (hep : e.p = true) (hk : k.kfree e.addr = .ok k1) :
    ((k1.releaseSlot cur d va).setPte d va {}).Inv held := by
  obtain ⟨hr, hne⟩ := h.releaseSlot hd hva
  have hw' : (k.releaseSlot cur d va).walkpgdir d va = some e := by
    rw [releaseSlot_walkpgdir, hw]
  have hf := hr.frames.unmap (e := {}) (vpn_lt_of_lt hva.1) hw' hep rfl rfl
  exact (hr.setPte hf (.inr hne)).kfree (Kernel.dealloc_page hk cur d va)

/-- **Induction over `deallocuvm`**: what freeing a present page, from address `lo` on, preserves. -/
theorem deallocFrom_induction_from {P : Kernel → Prop} {lo : ℕ}
    (hstep : ∀ k k1 a e, UserPage a → lo ≤ a → k.walkpgdir d a = some e → e.p = true →
      k.kfree e.addr = .ok k1 → P k → P ((k1.releaseSlot cur d a).setPte d a {})) :
    ∀ (n a : ℕ) (k k' : Kernel), oldsz ≤ kernBase → a % pgSize = 0 → lo ≤ a → P k →
      deallocFrom cur d oldsz n a k = .ok k' → P k'
  | 0, _, _, _, _, _, _, hP, h => by cases h; exact hP
  | n + 1, a, k, k', hold, ha, hlo, hP, h => by
    have ha' : ∀ m, (a + m * pgSize) % pgSize = 0 := fun m => by
      simp only [pgSize] at *
      omega
    have ha1 : (a + pgSize) % pgSize = 0 := by simp only [pgSize] at *; omega
    rw [deallocFrom] at h
    split at h
    · rename_i hlt
      split at h
      · exact deallocFrom_induction_from hstep n _ k k' hold (ha' 1024) (by omega) hP h
      · rename_i e he
        split at h
        · rename_i hep
          split at h
          · cases h
          · obtain ⟨k1, hk1, h⟩ := bind_eq_ok.mp h
            have hua : UserPage a := ⟨by omega, ha⟩
            exact deallocFrom_induction_from hstep n _ _ k' hold ha1 (by omega)
              (hstep k k1 a e hua hlo he hep hk1 hP) h
        · exact deallocFrom_induction_from hstep n _ k k' hold ha1 (by omega) hP h
    · cases h
      exact hP

/-- **Induction over `deallocuvm`**, from any address. -/
theorem deallocFrom_induction {P : Kernel → Prop}
    (hstep : ∀ k k1 a e, UserPage a → k.walkpgdir d a = some e → e.p = true →
      k.kfree e.addr = .ok k1 → P k → P ((k1.releaseSlot cur d a).setPte d a {}))
    (n a : ℕ) (k k' : Kernel) (hold : oldsz ≤ kernBase) (ha : a % pgSize = 0) (hP : P k)
    (h : deallocFrom cur d oldsz n a k = .ok k') : P k' :=
  deallocFrom_induction_from (fun k k1 a e ha _ => hstep k k1 a e ha) n a k k' hold ha (Nat.zero_le a)
    hP h

/-- The processes of `k'` are among those of `k`, with the same directories. -/
def SameDirs (k k' : Kernel) : Prop :=
  ∀ q r, k'.procs q = some r → ∃ r', k.procs q = some r' ∧ r.pgdir = r'.pgdir

theorem SameDirs.trans {k'' : Kernel} (h : k.SameDirs k') (h' : k'.SameDirs k'') : k.SameDirs k'' := by
  intro q r hr
  obtain ⟨r', hr', hd'⟩ := h' q r hr
  obtain ⟨r'', hr'', hd''⟩ := h q r' hr'
  exact ⟨r'', hr'', hd'.trans hd''⟩

theorem SameDirs.unowned (h : k.SameDirs k') (hu : k.Unowned cur d) : k'.Unowned cur d := by
  intro q r hr hd
  obtain ⟨r', hr', hd'⟩ := h q r hr
  exact hu q r' hr' (hd' ▸ hd)

theorem SameDirs.dealloc_page {k1 : Kernel} (hk : k.kfree f = .ok k1) (cur d va : ℕ) :
    k.SameDirs ((k1.releaseSlot cur d va).setPte d va {}) := by
  intro q r hr
  obtain ⟨r', hr', hd, -⟩ := releaseSlot_procs k1 cur d va hr
  exact ⟨r', procs_of_kfree hk ▸ hr', hd⟩

theorem Stays.dealloc_page {k1 : Kernel} (hk : k.kfree f = .ok k1) (cur d va : ℕ) :
    k.Stays ((k1.releaseSlot cur d va).setPte d va {}) cur := by
  intro p hp
  rw [← procs_of_kfree hk] at hp
  rcases releaseSlot_cases hp d va with ⟨heq, -⟩ | ⟨i, -, -, -, heq⟩
  · exact ⟨p, by rw [setPte_procs, heq, hp], rfl, id⟩
  · exact ⟨p.freeMemSlot i, by rw [setPte_procs, heq, setProc_procs_self], rfl, fun h => h.freeMemSlot⟩

theorem isSome_dealloc_page {k1 : Kernel} (hk : k.kfree f = .ok k1) (cur d va d' : ℕ) :
    (((k1.releaseSlot cur d va).setPte d va {}).dirs d').isSome = (k.dirs d').isSome := by
  obtain ⟨m, -, rfl⟩ := kfree_eq_ok.mp hk
  rw [isSome_dirs_setPte, (releaseSlot_kmem _ cur d va).2.2]

/-- **`deallocuvm` keeps the invariant.** -/
theorem Inv.deallocFrom {n a : ℕ} (h : k.Inv held) (hd : k.Unowned cur d) (hold : oldsz ≤ kernBase)
    (ha : a % pgSize = 0) (hk : deallocFrom cur d oldsz n a k = .ok k') :
    k'.Inv held ∧ k.SameDirs k' ∧ k.Stays k' cur ∧ ∀ d', (k'.dirs d').isSome = (k.dirs d').isSome :=
  deallocFrom_induction
    (P := fun k' => k'.Inv held ∧ k.SameDirs k' ∧ k.Stays k' cur ∧
      ∀ d', (k'.dirs d').isSome = (k.dirs d').isSome)
    (fun _ _ a _ ha hw hep hk ⟨hi, hu, hs, hdir⟩ =>
      ⟨hi.dealloc_page (hu.unowned hd) ha hw hep hk, hu.trans (.dealloc_page hk cur d a),
        hs.trans (.dealloc_page hk cur d a), fun d' => by rw [isSome_dealloc_page hk, hdir]⟩)
    n a k k' hold ha ⟨h, fun q r hr => ⟨r, hr, rfl⟩, .refl k cur, fun _ => rfl⟩ hk

theorem Inv.deallocuvm {r : ℕ} (h : k.Inv held) (hd : k.Unowned cur d) (hold : oldsz ≤ kernBase)
    (hk : k.deallocuvm cur d oldsz newsz = .ok (r, k')) : k'.Inv held ∧ k.Stays k' cur := by
  unfold Kernel.deallocuvm at hk
  split at hk
  · cases hk
    exact ⟨h, .refl k cur⟩
  · obtain ⟨k1, hk1, hk⟩ := bind_eq_ok.mp hk
    cases hk
    obtain ⟨h', -, hs, -⟩ := h.deallocFrom hd hold (pgRoundUp_mod newsz) hk1
    exact ⟨h', hs⟩

theorem present_congr {va' : ℕ} (h : vpn va = vpn va') : k.Present d va ↔ k.Present d va' := by
  rw [Present, Present, k.walkpgdir_congr d h]

/-- **After `deallocuvm` from address 0 no present user page is left**: address 0 starts a table, and from
there nothing is passed over. -/
theorem deallocFrom_covers {n : ℕ} (hn : kernBase ≤ n * pgSize)
    (h : deallocFrom cur d kernBase n 0 k = .ok k') (va : ℕ) (hva : va < kernBase) : ¬ k'.Present d va := by
  have hs := deallocFrom_shrunk (by decide) (Nat.zero_mod _) (by rwa [Nat.zero_add]) h
  have hpage : vpn va = vpn (pgRoundDown va) := by
    simp only [vpn, pgRoundDown, pgSize]
    omega
  have hu := userPage_pgRoundDown hva
  have hmem : pgRoundDown va ∈ pageRange 0 kernBase := ⟨hu.2, Nat.zero_le _, hu.1⟩
  rw [present_congr hpage, hs.present_iff (by decide) hmem]
  exact fun hc => absurd hc.2.2.1 (Nat.not_lt_zero _)

/-! ## Freeing an address space -/

/-- A directory that no process has and that maps no user page, on its way out. -/
structure Leaving (k : Kernel) (held : Multiset ℕ) (d : ℕ) : Prop where
  inv : k.Inv held
  alone : ∀ pid p, k.procs pid = some p → p.pgdir ≠ d
  live : (k.dirs d).isSome
  unmapped : ∀ va, va < kernBase → ¬ k.Present d va

/-- A table of a directory. -/
def tableAt (k : Kernel) (d : ℕ) (x : Fin 1024) : Option PageTable :=
  (k.dirs d).bind fun pd => pd.table x

theorem tableAt_dropTable (k : Kernel) (d : ℕ) (x y : Fin 1024) :
    (k.dropTable d x).tableAt d y = if y = x then none else k.tableAt d y := by
  unfold tableAt dropTable
  cases k.dirs d with
  | none => simp
  | some pd =>
    by_cases hy : y = x
    · simp [PageDir.dropTable, hy]
    · simp [PageDir.dropTable, hy]

/-- **Freeing a page table keeps the invariant.** -/
theorem Leaving.freeTable {x : Fin 1024} (h : k.Leaving held d) (hk : freeTable d x k = .ok k') :
    k'.Leaving held d ∧ k'.procs = k.procs ∧ k'.tableAt d x = none ∧
      ∀ y, k.tableAt d y = none → k'.tableAt d y = none := by
  unfold Kernel.freeTable at hk
  split at hk
  · rename_i hnone
    cases hk
    exact ⟨h, rfl, hnone, fun _ hy => hy⟩
  · rename_i t ht
    obtain ⟨k1, hk1, hk⟩ := bind_eq_ok.mp hk
    cases hk
    obtain ⟨m, hm, rfl⟩ := kfree_eq_ok.mp hk1
    have hk2 : (k.dropTable d x).kfree t.frame = .ok _ := kfree_eq_ok.mpr ⟨m, hm, rfl⟩
    have hown : k.owner (.table d x) = some t.frame := by rw [owner, ht]; rfl
    have hunmapped : ∀ v, pdx (v * pgSize) = x → k.owner (.pte d v) = none := by
      intro v _
      by_contra hne
      obtain ⟨f, hf⟩ := Option.ne_none_iff_exists'.mp hne
      have hv := lt_of_owner_pte hf
      rw [owner, if_pos hv] at hf
      obtain ⟨e, he, hfr⟩ := Option.bind_eq_some_iff.mp hf
      exact h.unmapped (v * pgSize) (by simp only [userPages, kernBase, pgSize] at *; omega)
        ⟨e, he, (Pte.frame_eq_some.mp hfr).1⟩
    have hdir : ∀ d', ((k.dropTable d x).dirs d').isSome = (k.dirs d').isSome := by
      intro d'
      by_cases hd : d' = d
      · subst hd
        simp [dropTable]
      · simp [dropTable, hd]
    have hwalk : ∀ d' va, d' ≠ d → (k.dropTable d x).walkpgdir d' va = k.walkpgdir d' va :=
      fun d' va hd => by rw [walkpgdir_dropTable, if_neg fun hc => hd hc.1]
    have hinv : (k.dropTable d x).Inv (t.frame ::ₘ held) := by
      refine h.inv.update (h.inv.frames.dropTable hown hunmapped) rfl rfl rfl
        (fun d' hd' => by rwa [hdir]) fun q r hr hs => .inl (hs.mono fun i _ hp => ?_)
      rwa [Present, hwalk _ _ (h.alone q r hr)]
    refine ⟨⟨hinv.kfree hk2, h.alone, (hdir d).trans h.live, fun va hva hp => ?_⟩, rfl, ?_,
      fun y hy => ?_⟩
    · obtain ⟨e, he, hp⟩ := hp
      have he' : (k.dropTable d x).walkpgdir d va = some e := he
      rw [walkpgdir_dropTable] at he'
      split at he'
      · cases he'
      · exact h.unmapped va hva ⟨e, he', hp⟩
    · exact (tableAt_dropTable k d x x).trans (if_pos rfl)
    · refine (tableAt_dropTable k d x y).trans ?_
      split
      · rfl
      · exact hy

theorem Leaving.freeTables : ∀ (xs : List (Fin 1024)) {k k' : Kernel}, k.Leaving held d →
    loop (Kernel.freeTable d) xs k = .ok k' →
    k'.Leaving held d ∧ k'.procs = k.procs ∧ (∀ y, k.tableAt d y = none → k'.tableAt d y = none) ∧
      ∀ x ∈ xs, k'.tableAt d x = none
  | [], k, k', h, hk => by
    cases hk
    exact ⟨h, rfl, fun _ hy => hy, by simp⟩
  | x :: xs, k, k', h, hk => by
    obtain ⟨k1, hk1, hk⟩ := bind_eq_ok.mp hk
    obtain ⟨h1, hp1, hx1, hy1⟩ := h.freeTable hk1
    obtain ⟨h2, hp2, hy2, hx2⟩ := Leaving.freeTables xs h1 hk
    refine ⟨h2, hp2.trans hp1, fun y hy => hy2 y (hy1 y hy), fun y hy => ?_⟩
    rcases List.mem_cons.mp hy with rfl | hy
    · exact hy2 y hx1
    · exact hx2 y hy

/-- **What `freevm` does** to a directory that no process has: its pages go, then its tables, then
itself. -/
theorem Inv.freevm_eq_ok (h : k.Inv held) (halone : ∀ pid p, k.procs pid = some p → p.pgdir ≠ d)
    (hk : k.freevm cur d = .ok k') :
    ∃ k1 k2 k3, Kernel.deallocFrom cur d kernBase (kernBase / pgSize + 1) (pgRoundUp 0) k = .ok k1 ∧
      loop (freeTable d) (List.finRange 1024) k1 = .ok k2 ∧ k2.kfree d = .ok k3 ∧
      k' = k3.setDir d none ∧ k1.Leaving held d := by
  unfold Kernel.freevm at hk
  split at hk
  · cases hk
  · rename_i hlive
    obtain ⟨⟨r, k1⟩, hk1, hk⟩ := bind_eq_ok.mp hk
    obtain ⟨k2, hk2, hk⟩ := bind_eq_ok.mp hk
    obtain ⟨k3, hk3, hk⟩ := bind_eq_ok.mp hk
    cases hk
    have hun : k.Unowned cur d := fun q r hr hrd => absurd hrd (halone q r hr)
    rw [Kernel.deallocuvm, if_neg (by decide)] at hk1
    obtain ⟨k4, hk4, hk1⟩ := bind_eq_ok.mp hk1
    cases hk1
    obtain ⟨h1, hsame, -, hdir⟩ := h.deallocFrom hun le_rfl (pgRoundUp_mod 0) hk4
    have hunmapped := deallocFrom_covers (by decide) hk4
    refine ⟨k1, k2, k3, hk4, hk2, hk3, rfl, h1, fun q r hr hrd => ?_, ?_, hunmapped⟩
    · obtain ⟨r', hr', hd'⟩ := hsame q r hr
      exact halone q r' hr' (hd' ▸ hrd)
    · rw [hdir]
      simpa [Option.isSome_iff_ne_none] using hlive

/-- **`freevm` keeps the invariant**, on a directory that no process has. -/
theorem Inv.freevm (h : k.Inv held) (halone : ∀ pid p, k.procs pid = some p → p.pgdir ≠ d)
    (hk : k.freevm cur d = .ok k') :
    k'.Inv held ∧ k'.dirs d = none ∧ k.Stays k' cur := by
  obtain ⟨k1, k2, k3, hk1, hk2, hk3, rfl, hleaving⟩ := h.freevm_eq_ok halone hk
  obtain ⟨-, -, hst1, -⟩ := h.deallocFrom (fun q r hr hrd => absurd hrd (halone q r hr)) le_rfl
    (pgRoundUp_mod 0) hk1
  obtain ⟨h2, hp2, -, htab⟩ := hleaving.freeTables _ hk2
  obtain ⟨pd, hpd⟩ := Option.isSome_iff_exists.mp h2.live
  have hempty : ∀ x, pd.table x = none := fun x => by
    have := htab x (List.mem_finRange x)
    rwa [tableAt, hpd, Option.bind_some] at this
  obtain ⟨m, hm, rfl⟩ := kfree_eq_ok.mp hk3
  have hk5 : (k2.setDir d none).kfree d = .ok _ := kfree_eq_ok.mpr ⟨m, hm, rfl⟩
  have hdrop : (k2.setDir d none).Inv (d ::ₘ held) := by
    refine ⟨h2.inv.frames.dropDir hpd hempty, fun q r hr => ?_, h2.inv.apart, h2.inv.fresh,
      h2.inv.own, fun q r hr => ?_, h2.inv.kdata⟩
    · have := h2.inv.live q r hr
      simpa [setDir, h2.alone q r hr] using this
    · refine (h2.inv.steady q r hr).imp_left fun hs => hs.mono fun i _ hp => ?_
      simpa [Present, walkpgdir, setDir, h2.alone q r hr] using hp
  exact ⟨hdrop.kfree hk5, Function.update_self .., hst1.trans (.of_procs hp2 cur)⟩

/-! ## The kernel half -/

/-- Directory `d` is being formed over the state `k₀`: it is new, its user half has no table, and the frames add
up. -/
structure Forming (k₀ k : Kernel) (held : Multiset ℕ) (d : ℕ) : Prop where
  frames : k.Frames held
  new : k₀.dirs d = none
  live : (k.dirs d).isSome
  user : ∀ va, vpn va < userPages → k.walkpgdir d va = none
  others : ∀ d', d' ≠ d → k.dirs d' = k₀.dirs d'
  counts : ∀ f, k₀.kmem.referencesCount f ≠ 0 →
    k.kmem.referencesCount f = k₀.kmem.referencesCount f
  within : ∀ f, f ∈ k.kmem.freelist ∨ k.kmem.referencesCount f ≠ 0 →
    f ∈ k₀.kmem.freelist ∨ k₀.kmem.referencesCount f ≠ 0
  kend : k.kmem.kend = k₀.kmem.kend
  mem : k.mem = k₀.mem
  procs : k.procs = k₀.procs
  nextpid : k.nextpid = k₀.nextpid
  kdata : k.kdata = k₀.kdata

/-- Directory `d` is being built over the state `k₀`: it is new, and its user half has no table. -/
structure Building (k₀ k : Kernel) (held : Multiset ℕ) (d : ℕ) : Prop where
  inv : k.Inv held
  new : k₀.dirs d = none
  live : (k.dirs d).isSome
  user : ∀ va, vpn va < userPages → k.walkpgdir d va = none
  others : ∀ d', d' ≠ d → k.dirs d' = k₀.dirs d'
  counts : ∀ f, k₀.kmem.referencesCount f ≠ 0 →
    k.kmem.referencesCount f = k₀.kmem.referencesCount f
  within : ∀ f, f ∈ k.kmem.freelist ∨ k.kmem.referencesCount f ≠ 0 →
    f ∈ k₀.kmem.freelist ∨ k₀.kmem.referencesCount f ≠ 0
  kend : k.kmem.kend = k₀.kmem.kend
  mem : k.mem = k₀.mem
  procs : k.procs = k₀.procs
  nextpid : k.nextpid = k₀.nextpid
  kdata : k.kdata = k₀.kdata

/-- No process has a directory under construction. -/
theorem Building.alone (h : Building k₀ k held d) (h0 : k₀.Inv held') (q : ℕ) (r : Proc)
    (hr : k.procs q = some r) : r.pgdir ≠ d := by
  rintro rfl
  have := h0.live q r (h.procs ▸ hr)
  rw [h.new] at this
  cases this

theorem Building.forming (h : Building k₀ k held d) : Forming k₀ k held d :=
  ⟨h.inv.frames, h.new, h.live, h.user, h.others, h.counts, h.within, h.kend, h.mem, h.procs, h.nextpid, h.kdata⟩

/-- **The processes do not see a directory that is being formed**, so the invariant is as it was. -/
theorem Forming.building (h : Forming k₀ k held d) (h0 : k₀.Inv held') : Building k₀ k held d := by
  have halone : ∀ q r, k₀.procs q = some r → r.pgdir ≠ d := by
    rintro q r hr rfl
    have := h0.live q r hr
    rw [h.new] at this
    cases this
  have hinv : k.Inv held := by
    refine ⟨h.frames, fun q r hr => ?_, h.procs ▸ h0.apart, h.procs ▸ h.nextpid ▸ h0.fresh, h.procs ▸ h0.own,
      fun q r hr => ?_, h.kdata ▸ h0.kdata⟩
    · rw [h.procs] at hr
      rw [h.others _ (halone q r hr)]
      exact h0.live q r hr
    · rw [h.procs] at hr
      refine (h0.steady q r hr).imp_left fun hs => hs.mono fun i _ hp => ?_
      rwa [Present, walkpgdir, h.others _ (halone q r hr), ← walkpgdir]
  exact ⟨hinv, h.new, h.live, h.user, h.others, h.counts, h.within, h.kend, h.mem, h.procs, h.nextpid, h.kdata⟩

/-- A user page and a kernel page lie in different tables. -/
theorem pdx_ne_of_user {va va' : ℕ} (h : vpn va < userPages) (h' : userPages ≤ vpn va') :
    pdx va ≠ pdx va' := by
  intro heq
  simp only [pdx, vpn, pgSize, userPages, Fin.mk.injEq] at *
  omega

theorem Frames.walkpgdirAlloc (h : k.Frames held) (hw : k.walkpgdirAlloc d va = some (e, k')) :
    k'.Frames held := by
  rcases walkpgdirAlloc_eq_some hw with ⟨-, rfl⟩ | ⟨-, f, k1, pd, hk1, hd, hx, rfl⟩
  · exact h
  · have hspec := kalloc_spec hk1
    exact (h.kalloc hk1).addTable (hspec.2.2.1 ▸ hd) hx hspec.1

/-- An allocating walk in the kernel half keeps the construction going. -/
theorem Forming.walkpgdirAlloc (h : Forming k₀ k held d) (hva : userPages ≤ vpn va)
    (hw : k.walkpgdirAlloc d va = some (e, k')) : Forming k₀ k' held d := by
  have hframes := h.frames.walkpgdirAlloc hw
  rcases walkpgdirAlloc_eq_some hw with ⟨-, rfl⟩ | ⟨-, f, k1, pd, hk1, hd, hx, rfl⟩
  · exact h
  · have hkend := kend_of_kalloc hk1
    obtain ⟨m, -, rfl⟩ := kalloc_eq_some.mp hk1
    refine ⟨hframes, h.new, ?_, fun va' hva' => ?_, fun d' hd' => ?_, fun g hg => ?_,
      fun g hg => h.within g (within_of_kalloc hk1 hg), hkend.trans h.kend, h.mem,
      h.procs, h.nextpid, h.kdata⟩
    · rw [isSome_addTable]
      exact h.live
    · rw [walkpgdir_addTable _ _ _ _ _ (by simp [hd]),
        if_neg fun hc => pdx_ne_of_user hva' hva hc.2]
      exact h.user va' hva'
    · simpa [addTable, hd'] using h.others d' hd'
    · have hc := h.counts g hg
      exact (h.frames.count_of_kalloc hk1 (hc ▸ hg)).trans hc

/-- A store to the kernel half keeps the construction going. -/
theorem Forming.setPte (h : Forming k₀ k held d) (hva : userPages ≤ vpn va)
    (he : e.pg = false ∧ e.cow = false ∧ e.u = false) : Forming k₀ (k.setPte d va e) held d := by
  refine ⟨h.frames.setPte_kernel hva he, h.new, ?_, fun va' hva' => ?_,
    fun d' hd' => ?_, h.counts, h.within, h.kend, h.mem, h.procs, h.nextpid, h.kdata⟩
  · simpa [Kernel.setPte] using h.live
  · rw [walkpgdir_setPte, h.user va' hva']
    simp
  · simpa [Kernel.setPte, hd'] using h.others d' hd'

/-- A range that `setupkvm` maps: aligned, in the kernel half, without wrapping around. -/
def KernelRange (r : ℕ × ℕ × ℕ × Bool) : Prop :=
  kernBase ≤ r.1 ∧ r.1 % pgSize = 0 ∧
    r.1 ≤ pgRoundDown ((r.1 + (r.2.2.1 + 2 ^ 32 - r.2.1) % 2 ^ 32 + (2 ^ 32 - 1)) % 2 ^ 32)

theorem kernelRange_kmap (hkd : 0x100000 < k.kdata ∧ k.kdata < physTop ∧ k.kdata % pgSize = 0) :
    ∀ r ∈ k.kmap, KernelRange r := fun r hr =>
  have ⟨hlo, hal, hle, _⟩ := (ascends_kmap (Finset.subset_univ _) hkd).forall r hr
  ⟨hlo, hal, hle⟩

/-- **The loop of `setupkvm`.** -/
theorem Forming.mapKernel {rs : List (ℕ × ℕ × ℕ × Bool)} {r : Bool} (hr : ∀ r ∈ rs, KernelRange r)
    (h : Forming k₀ k held d) (hk : mapKernel d rs k = .ok (r, k')) : Forming k₀ k' held d := by
  have hpages : ∀ r ∈ rs, r.1 % pgSize = 0 ∧ r.1 ≤ lastPage r ∧
      ∀ va, r.1 ≤ va → va ≤ lastPage r → userPages ≤ vpn va := fun r hr' => by
    obtain ⟨hlo, hal, hle⟩ := hr r hr'
    refine ⟨hal, hle, fun va h1 h2 => ?_⟩
    simp only [lastPage, vpn, pgRoundDown, pgSize, kernBase, userPages] at *
    omega
  exact (mapKernel_yields (P := fun k => Forming k₀ k held d) (fun hva h hw =>
    (h.walkpgdirAlloc hva hw).setPte hva ⟨rfl, rfl, rfl⟩) rs hpages h _ hk).1

theorem Building.mapKernel {rs : List (ℕ × ℕ × ℕ × Bool)} {r : Bool} (h0 : k₀.Inv held')
    (hr : ∀ r ∈ rs, KernelRange r) (h : Building k₀ k held d) (hk : Kernel.mapKernel d rs k = .ok (r, k')) :
    Building k₀ k' held d := (Forming.mapKernel hr h.forming hk).building h0

/-- A frame from the free list holds no directory. -/
theorem Frames.dirs_of_kalloc (h : k.Frames held) (hk : k.kalloc = some (f, k')) :
    k.dirs f = none := by
  by_contra hne
  obtain ⟨pd, hpd⟩ := Option.ne_none_iff_exists'.mp hne
  exact h.owner_ne_of_kalloc hk (.dir f) (by rw [owner, hpd]; rfl)

/-- An empty directory starts the construction. -/
theorem Frames.forming (h : k.Frames held) (hk : k.kalloc = some (d, k')) :
    Forming k (k'.setDir d (some .empty)) held d := by
  have hnone := h.dirs_of_kalloc hk
  obtain ⟨hcount, hmem, hdirs, hprocs⟩ := kalloc_spec hk
  refine ⟨(h.kalloc hk).newDir (hdirs ▸ hnone) hcount, hnone, by simp [setDir],
    fun va _ => by simp [walkpgdir, setDir], fun d' hd' => ?_, fun g hg => ?_,
    fun g hg => within_of_kalloc hk hg, (kend_of_kalloc hk :), hmem, hprocs, ?_, ?_⟩
  · simp [setDir, hd', hdirs]
  · exact (h.count_of_kalloc hk hg :)
  · obtain ⟨m, -, rfl⟩ := kalloc_eq_some.mp hk
    rfl
  · obtain ⟨m, -, rfl⟩ := kalloc_eq_some.mp hk
    rfl

theorem Inv.newDir (h : k.Inv held) (hk : k.kalloc = some (d, k')) :
    Building k (k'.setDir d (some .empty)) held d := (h.frames.forming hk).building h

/-- **What `setupkvm` does**: nothing, or it builds a directory, and frees it again if memory gives out. -/
theorem Inv.setupkvm_builds {r : Option ℕ} (h : k.Inv held) (hk : k.setupkvm cur = .ok (r, k')) :
    r = none ∧ k' = k ∨ ∃ d k1, Building k k1 held d ∧
      (r = some d ∧ k' = k1 ∨ r = none ∧ k1.freevm cur d = .ok k') := by
  unfold Kernel.setupkvm at hk
  split at hk
  · cases hk
    exact .inl ⟨rfl, rfl⟩
  · rename_i d k1 hk1
    obtain ⟨⟨b, k2⟩, hk2, hk⟩ := bind_eq_ok.mp hk
    refine .inr ⟨d, k2, Building.mapKernel h (kernelRange_kmap (h.kalloc hk1).kdata) (h.newDir hk1) hk2, ?_⟩
    cases b with
    | true =>
      cases hk
      exact .inl ⟨rfl, rfl⟩
    | false =>
      obtain ⟨k3, hk3, hk⟩ := bind_eq_ok.mp hk
      cases hk
      exact .inr ⟨rfl, hk3⟩

/-- **`setupkvm` keeps the invariant**, and the directory it returns is new. -/
theorem Inv.setupkvm {r : Option ℕ} (h : k.Inv held) (hk : k.setupkvm cur = .ok (r, k')) :
    k'.Inv held ∧ k.Stays k' cur ∧ ∀ d, r = some d → Building k k' held d := by
  rcases h.setupkvm_builds hk with ⟨rfl, rfl⟩ | ⟨d, k1, hb, ⟨rfl, rfl⟩ | ⟨rfl, hfree⟩⟩
  · exact ⟨h, .refl k' cur, nofun⟩
  · refine ⟨hb.inv, .of_procs hb.procs cur, fun d' hd' => ?_⟩
    cases hd'
    exact hb
  · obtain ⟨h3, -, hst⟩ := hb.inv.freevm (hb.alone h) hfree
    exact ⟨h3, (Stays.of_procs hb.procs cur).trans hst, nofun⟩

/-- **`setupkvm` forms a directory**, as far as the frames go. -/
theorem Frames.setupkvm (h : k.Frames held)
    (hkd : 0x100000 < k.kdata ∧ k.kdata < physTop ∧ k.kdata % pgSize = 0)
    (hk : k.setupkvm cur = .ok (some d, k')) : Forming k k' held d := by
  unfold Kernel.setupkvm at hk
  split at hk
  · cases hk
  · rename_i d1 k1 hk1
    obtain ⟨⟨b, k2⟩, hk2, hk⟩ := bind_eq_ok.mp hk
    have hkd1 : k1.kdata = k.kdata := by
      obtain ⟨m, -, rfl⟩ := kalloc_eq_some.mp hk1
      rfl
    have hb := Forming.mapKernel (kernelRange_kmap (hkd1 ▸ hkd)) (h.forming hk1) hk2
    simp only at hk
    split at hk
    · cases hk
      exact hb
    · obtain ⟨k3, -, hk⟩ := bind_eq_ok.mp hk
      cases hk

end Kernel

end Xv6
