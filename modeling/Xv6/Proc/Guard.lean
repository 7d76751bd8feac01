import Xv6.Proc.System
import Xv6.Vm.Guard
import Xv6.Vm.Teardown

/-!
# Proc/Guard — the guard page of a process and of its descendants

The guard page stays shut through growth, `fork` and teardown: new pages lie above it, a copied entry has
no `PTE_U` if the parent's has none, and the directories of other processes are other directories.

A run of the system carries the family of the process: itself and its descendants by `fork`.  What
opens the guard page is an access of the family to it while it is paged out or shared
(`Kernel.Exposed`).
-/

namespace Xv6

open Outcome Function Option

namespace Kernel

variable {k k' k1 : Kernel} {held : Multiset ℕ} {q pid cur d va a g f oldsz newsz : ℕ} {p p' : Proc}
  {e e' : Pte} {i j : Fin maxPsycPages} {pol : Policy} {acc : Access}

/-! ## Releasing pages -/

theorem inherits_freeMemSlot (p : Proc) (i : Fin maxPsycPages) (g : ℕ) :
    p.Inherits (p.freeMemSlot i) g := .of_subset fun l hu hva => by
  have heq := (Proc.freeMemSlot_used hu).2
  exact ⟨heq ▸ hu, heq ▸ hva⟩

theorem Shut.releaseSlot (h : k.Shut q g) (cur d a : ℕ) : (k.releaseSlot cur d a).Shut q g := by
  cases hp : k.procs cur with
  | none => rwa [Kernel.releaseSlot, hp]
  | some p =>
    rcases releaseSlot_cases hp d a with ⟨heq, -⟩ | ⟨i, -, -, -, heq⟩
    · rwa [heq]
    · rw [heq]
      exact h.setProc hp rfl le_rfl fun _ => inherits_freeMemSlot p i g

/-- A directory that is not the one of process `q`. -/
def Elsewhere (k : Kernel) (q d : ℕ) : Prop := ∀ r, k.procs q = some r → r.pgdir ≠ d

theorem SameDirs.elsewhere (h : k.SameDirs k') (he : k.Elsewhere q d) : k'.Elsewhere q d := by
  intro r hr
  obtain ⟨r', hr', hd⟩ := h q r hr
  exact hd ▸ he r' hr'

theorem Inv.elsewhere (h : k.Inv held) (hp : k.procs pid = some p) (hne : q ≠ pid) :
    k.Elsewhere q p.pgdir := fun r hr hd => hne (h.apart q pid r p hr hp hd)

/-- **`deallocuvm` frees pages of another directory, or pages above the guard page.** -/
theorem Shut.deallocFrom {n : ℕ} (h : k.Shut q g) (haway : k.Elsewhere q d ∨ g < a)
    (hg : UserPage g) (hold : oldsz ≤ kernBase) (ha : a % pgSize = 0)
    (hk : deallocFrom cur d oldsz n a k = .ok k') : k'.Shut q g := by
  refine (deallocFrom_induction_from (P := fun k' => k'.Shut q g ∧ k.SameDirs k')
    (fun k0 k1 b e hb hlo hw hep hk1 ⟨hs, hsame⟩ => ⟨?_, hsame.trans (.dealloc_page hk1 cur d b)⟩)
    n a k k' hold ha le_rfl ⟨h, fun q r hr => ⟨r, hr, rfl⟩⟩ hk).1
  refine ((hs.kfree hk1).releaseSlot cur d b).setPte (fun r hr hrd hv => ?_) _
  rcases haway with helse | hlt
  · exact (hsame.trans (.dealloc_page hk1 cur d b)).elsewhere helse r hr hrd
  · have := hg.eq_of_vpn hb hv
    omega

theorem Shut.deallocuvm {r : ℕ} (h : k.Shut q g) (haway : k.Elsewhere q d ∨ g < newsz)
    (hg : UserPage g) (hold : oldsz ≤ kernBase)
    (hk : k.deallocuvm cur d oldsz newsz = .ok (r, k')) : k'.Shut q g := by
  unfold Kernel.deallocuvm at hk
  split at hk
  · cases hk
    exact h
  · rename_i hlt
    obtain ⟨k1, hk1, hk⟩ := bind_eq_ok.mp hk
    cases hk
    refine h.deallocFrom (haway.imp_right fun hgt => hgt.trans_le ?_) hg hold (pgRoundUp_mod newsz) hk1
    exact le_pgRoundUp (by omega)

/-! ## Growth -/

/-- **A victim moves to the swap file.** -/
theorem Shut.moveToFile (h : k.Shut q g) (hi : k.Inv held) (hg : UserPage g)
    (hp : k.procs pid = some p) (hd : (p.memoryPages i).pgdir = p.pgdir)
    (hused : q = pid → (p.memoryPages i).va = g → (p.memoryPages i).isUsed = true)
    (hm : Kernel.moveToFile k pid i j = .ok k') : k'.Shut q g := by
  obtain ⟨e, hw, hk⟩ := moveToFile_eq_ok hp rfl hm
  rw [hd] at hw hk
  have hout : ((k.setProc pid ((p.enterFile j p.pgdir (p.memoryPages i).va).freeMemSlot i)).setPte
      p.pgdir (p.memoryPages i).va e.inDisk).Shut q g := by
    refine h.pageOut hi hp hw rfl rfl (fun _ => inherits_freeMemSlot _ i g) fun hq hv l hl hlg => ?_
    have hig := ((hi.own pid p hp).memVa i).eq_of_vpn hg hv
    obtain ⟨hli, heq⟩ := Proc.freeMemSlot_used hl
    rw [heq] at hl hlg
    exact hli ((h p (hq ▸ hp)).unique l i hl (hused hq hig) hlg hig)
  exact hout.kfree hk

/-- **`swap` with all memory slots in use.**  Where the guard page is the victim, it is present, and its
write does not fault. -/
theorem Shut.swap {r : Option (Fin maxPsycPages)} (hacc : acc.Keeps) (hsp : acc.Spares q g)
    (hg : UserPage g) (h : k.Shut q g) (hi : k.Inv held) (hp : k.procs pid = some p)
    (hfull : ∀ i, (p.memoryPages i).isUsed = true) (hs : Kernel.swap pol acc k pid = .ok (r, k')) :
    k'.Shut q g := by
  obtain ⟨i, k1, p1, ha, hp1, hpa, hcase⟩ := swap_eq_ok hp hs
  have h1 := h.agree ha
  have hi1 := hi.agree ha
  rcases hcase with ⟨-, rfl, -⟩ | ⟨j, k2, -, hw, hm, -⟩
  · exact h1
  · have hused : ∀ l, (p1.memoryPages l).isUsed = true := fun l => by
      obtain ⟨m, -, -, hu⟩ := hpa.exists_slot l
      rw [hu, hfull m]
    have hdir : ∃ p2, k2.procs pid = some p2 ∧ (p2.memoryPages i).pgdir = p2.pgdir := by
      rcases hi1.steady pid p1 hp1 with hset | hall
      · obtain ⟨pg, -, rfl⟩ := writeUserToSwapFile_idle hacc hp1 (hset.present i (hused i)) hw
        exact ⟨_, setProc_procs_self .., (hi1.own pid p1 hp1).memDir i (hused i)⟩
      · obtain ⟨p2, hp2, -, ho⟩ := (hi1.writeUserToSwapFile hacc hw).2 p1 hp1
        exact ⟨p2, hp2, (ho hall).mem i⟩
    obtain ⟨p2, hp2, hd2⟩ := hdir
    have hi2 := (hi1.writeUserToSwapFile hacc hw).1
    obtain ⟨k3, p3, pg, hk3, hp3, -, rfl⟩ := writeUserToSwapFile_eq_some hw
    have hfull1 : q = pid → k1.Full q g := fun hq r hr l _ => by
      cases mem_unique hp1 (hq ▸ hr)
      exact hused l
    obtain ⟨h3, hf3⟩ : k3.Shut q g ∧ (q = pid → k3.Full q g) := by
      by_cases hself : q = pid ∧ (p1.memoryPages i).va = g
      · obtain ⟨rfl, hva⟩ := hself
        have hpres := (h1 p1 hp1).present i (hused i) hva
        obtain rfl := hacc.idle hk3 ((permits_read hp1).mpr (hva ▸ hpres))
        exact ⟨h1, hfull1⟩
      · have haway : q ≠ pid ∨ vpn (p1.memoryPages i).va ≠ vpn g := by
          by_contra hno
          push Not at hno
          exact hself ⟨hno.1, ((hi1.own pid p1 hp1).memVa i).eq_of_vpn hg hno.2⟩
        obtain ⟨h3, hf3⟩ := hsp hi1 h1 haway hk3
        exact ⟨h3, fun hq => hf3 (hfull1 hq)⟩
    rw [setProc_procs_self] at hp2
    cases hp2
    have h2 : (k3.setProc pid (p3.setSwapFile (p3.swapFile.write (j * pgSize) pg))).Shut q g :=
      h3.setProc hp3 rfl le_rfl fun _ => .of_subset fun _ hu hv => ⟨hu, hv⟩
    exact h2.moveToFile hi2 hg (setProc_procs_self ..) hd2 (fun hq hva => hf3 hq p3 (hq ▸ hp3) i hva) hm

theorem Shut.chooseSlot {r : Option (Fin maxPsycPages)} (hacc : acc.Keeps) (hsp : acc.Spares q g)
    (hg : UserPage g) (h : k.Shut q g) (hi : k.Inv held) (hp : k.procs pid = some p)
    (hc : Kernel.chooseSlot pol acc k pid = .ok (r, k')) : k'.Shut q g := by
  rcases chooseSlot_eq_ok hp hc with ⟨i, -, ⟨-, -, rfl⟩ | ⟨-, -, rfl⟩⟩ | ⟨hfull, hs⟩
  · exact h
  · exact h.agree (.setProc hp (Policy.agree_aqNext p))
  · exact h.swap hacc hsp hg hi hp (nextFreeIInMem_eq_none.mp hfull) hs

/-- The slot of a new page does not name the guard page. -/
theorem inherits_storeMemSlot {s : Slot} (hne : s.va ≠ g) (r : Option (Fin maxPsycPages)) :
    p.Inherits (p.storeMemSlot r s) g := .of_subset fun l hu hva => by
  cases r with
  | none => exact ⟨hu, hva⟩
  | some i =>
    by_cases hl : l = i
    · subst hl
      simp only [Proc.storeMemSlot, Proc.setMemSlot, update_self] at hva
      exact absurd hva hne
    · simp only [Proc.storeMemSlot, Proc.setMemSlot, update_of_ne hl] at hu hva
      exact ⟨hu, hva⟩

theorem Shut.trackPage (hacc : acc.Keeps) (hsp : acc.Spares q g) (hg : UserPage g) (h : k.Shut q g)
    (hi : k.Inv held) (hp : k.procs pid = some p) (hne : q = pid → a ≠ g)
    (ht : Kernel.trackPage pol acc k pid d a = .ok k') : k'.Shut q g := by
  unfold Kernel.trackPage at ht
  split at ht
  · obtain ⟨⟨r, k1⟩, hc, ht⟩ := bind_eq_ok.mp ht
    obtain ⟨p1, hp1, ht⟩ := proc_bind_eq_ok.mp ht
    cases ht
    refine (h.chooseSlot hacc hsp hg hi hp hc).setProc hp1 ?_ ?_ fun hq => ?_
    · cases r <;> rfl
    · cases r <;> exact le_rfl
    · exact inherits_storeMemSlot (s := newSlot pol p1 d a) (hne hq) r
  · cases ht
    exact h

theorem Shut.walkpgdirAlloc (h : k.Shut q g) (hw : k.walkpgdirAlloc d va = some (e, k')) :
    k'.Shut q g := fun p hp => by
  have hgd := h p (procs_of_alloc hw ▸ hp)
  rcases walkpgdir_alloc hw p.pgdir g with heq | ⟨-, hnone, hsome⟩
  · exact hgd.mono rfl le_rfl (.of_subset fun _ hu hv => ⟨hu, hv⟩) (by rw [heq])
  · refine ⟨hgd.below, fun e he => ?_, fun i hu hva => ?_, hgd.unique⟩
    · rw [hsome] at he
      cases he
      exact ⟨rfl, fun _ => rfl⟩
    · -- a slot that named it would name a present page
      obtain ⟨e, he, -⟩ := hgd.present i hu hva
      rw [hnone] at he
      cases he

/-- **The loop of `allocuvm`** maps pages above the guard page. -/
theorem Shut.allocPages (hacc : acc.Keeps) (hsp : acc.Spares q g) (hg : UserPage g)
    (hsz : newsz ≤ kernBase) (hlow : q = pid → g < oldsz) : ∀ (as : List ℕ) {k k' : Kernel} {p : Proc}
    {r : ℕ}, (∀ a ∈ as, UserPage a ∧ (q = pid → a ≠ g)) → k.Inv held → k.Shut q g →
    k.procs pid = some p → p.pgdir = d → allocPages pol acc pid d oldsz newsz as k = .ok (r, k') →
    k'.Shut q g
  | [], k, k', p, r, _, _, h, _, _, hk => by cases hk; exact h
  | a :: as, k, k', p, r, has, hi, h, hp, hd, hk => by
    have haway : ∀ {k0 : Kernel} {held0 : Multiset ℕ}, k0.Inv held0 → k0.procs pid = some p →
        k0.Elsewhere q d ∨ g < oldsz := fun hi0 hp0 => by
      by_cases hq : q = pid
      · exact .inr (hlow hq)
      · exact .inl (hd ▸ hi0.elsewhere hp0 hq)
    obtain ⟨ha, hne⟩ := has a List.mem_cons_self
    rcases allocPages_cons ha hk with
      ⟨-, -, r', hk1⟩ | ⟨f, k1, hk1, ⟨-, -, r', k2, hk2, hk3⟩ | ⟨e, k2, k3, hw, hep, hk3, hk⟩⟩
    · exact h.deallocuvm (haway hi hp) hg hsz hk1
    all_goals
      have hspec := kalloc_spec hk1
      have hi1 := (hi.kalloc hk1).setMem f fun _ => 0
      have h1 : (k1.setMem f fun _ => 0).Shut q g := (h.kalloc hk1).of_eq rfl fun _ => rfl
      have hp1 : (k1.setMem f fun _ => 0).procs pid = some p := hspec.2.2.2 ▸ hp
    · exact (h1.deallocuvm (haway hi1 hp1) hg hsz hk2).kfree hk3
    · obtain ⟨hi2, hr2⟩ := hi1.mapNewPage hp1 hd ha hw hep hspec.1
      have hp2 : k2.procs pid = some p := procs_of_alloc hw ▸ hp1
      have haway : ∀ r, k2.procs q = some r → r.pgdir = d → vpn g ≠ vpn a := fun r hr hrd hv => by
        obtain rfl := (hi1.walkpgdirAlloc hw).apart q pid r p hr hp2 (hrd.trans hd.symm)
        exact hne rfl (hg.eq_of_vpn ha hv).symm
      have h2 := (h1.walkpgdirAlloc hw).setPte haway { w := true, u := true, addr := f, p := true }
      obtain ⟨hi3, hst3⟩ := hi2.trackPage hacc hp2 hd.symm ha hr2 hk3
      obtain ⟨p3, hp3, hd3, -⟩ := hst3 p hp2
      exact Shut.allocPages hacc hsp hg hsz hlow as
        (fun x hx => has x (List.mem_cons_of_mem a hx)) hi3
        (h2.trackPage hacc hsp hg hi2 hp2 hne hk3) hp3 (hd3.trans hd) hk

theorem Shut.allocuvm {r : ℕ} (hacc : acc.Keeps) (hsp : acc.Spares q g) (hg : UserPage g)
    (h : k.Shut q g) (hi : k.Inv held) (hp : k.procs pid = some p)
    (hk : Kernel.allocuvm pol acc k pid p.pgdir p.sz newsz = .ok (r, k')) : k'.Shut q g := by
  have hlow : q = pid → g < p.sz := fun hq => (h p (hq ▸ hp)).below
  rcases allocuvm_eq_ok hk with ⟨rfl, -⟩ | ⟨hsz, -, -, hk⟩
  · exact h
  · refine h.allocPages hacc hsp hg hsz.le hlow _ (fun a ha => ?_) hi hp rfl hk
    obtain ⟨hua, hle, -⟩ := userPage_of_pagesFrom (pgRoundUp_mod p.sz) hsz.le ha
    refine ⟨hua, fun hq heq => ?_⟩
    have := le_pgRoundUp (hi.own pid p hp).size
    have := hlow hq
    omega

theorem allocuvm_ge {r : ℕ} (h : allocuvm pol acc k pid d oldsz newsz = .ok (r, k')) :
    r = 0 ∨ oldsz ≤ r := by
  rcases allocuvm_eq_ok h with ⟨-, h0 | ⟨rfl, -⟩⟩ | ⟨-, hle, has, h⟩
  · exact .inl h0
  · exact .inr le_rfl
  · exact (allocPages_result _ has h).symm.imp_right fun hr => by omega

theorem deallocuvm_ge {r : ℕ} (h : k.deallocuvm cur d oldsz newsz = .ok (r, k')) :
    r = oldsz ∨ r = newsz := by
  unfold Kernel.deallocuvm at h
  split at h
  · cases h
    exact .inl rfl
  · obtain ⟨k1, -, h⟩ := bind_eq_ok.mp h
    cases h
    exact .inr rfl

/-- **`growproc`**, where a shrinking process keeps the guard page. -/
theorem Shut.growproc {n : ℤ} {r : Bool} (hacc : acc.Keeps) (hsp : acc.Spares q g) (hg : UserPage g)
    (h : k.Shut q g) (hi : k.Inv held)
    (hkeep : q = pid → n < 0 → ∀ p, k.procs pid = some p → g < wrapAdd p.sz n)
    (hk : Kernel.growproc pol acc k pid n = .ok (r, k')) : k'.Shut q g := by
  obtain ⟨p, hp, hk⟩ := proc_bind_eq_ok.mp hk
  obtain ⟨⟨sz, k1⟩, hk1, hk⟩ := bind_eq_ok.mp hk
  obtain ⟨h1, hsz⟩ : k1.Shut q g ∧ (q = pid → sz = 0 ∧ n ≠ 0 ∨ g < sz) := by
    split at hk1
    · refine ⟨h.allocuvm hacc hsp hg hi hp hk1, fun hq => ?_⟩
      have := (h p (hq ▸ hp)).below
      refine (allocuvm_ge hk1).imp (fun h0 => ⟨h0, by omega⟩) fun hle => by omega
    · split at hk1
      · rename_i hneg
        have hgt : q = pid → g < wrapAdd p.sz n := fun hq => hkeep hq hneg p hp
        refine ⟨h.deallocuvm ?_ hg (hi.own pid p hp).size.le hk1, fun hq => .inr ?_⟩
        · by_cases hq : q = pid
          · exact .inr (hgt hq)
          · exact .inl (hi.elsewhere hp hq)
        · rcases deallocuvm_ge hk1 with rfl | rfl
          · exact (h p (hq ▸ hp)).below
          · exact hgt hq
      · cases hk1
        exact ⟨h, fun hq => .inr (h p (hq ▸ hp)).below⟩
  simp only at hk
  split at hk
  · cases hk
    exact h1
  · rename_i hok
    obtain ⟨p1, hp1, hk⟩ := proc_bind_eq_ok.mp hk
    cases hk
    intro s hs
    rcases procs_of_setProc hs with ⟨rfl, rfl⟩ | ⟨-, hs⟩
    · have hgd := h1 p1 hp1
      refine ⟨(hsz rfl).resolve_left fun h0 => hok ⟨h0.2, h0.1⟩, hgd.shut, hgd.present, hgd.unique⟩
    · have hgd := h1 s hs
      exact ⟨hgd.below, hgd.shut, hgd.present, hgd.unique⟩

/-! ## Teardown -/

/-- A change of directory `d` and of the allocator. -/
theorem Shut.of_spares (h : k.Shut q g) (hs : k.Spares k' d) (hprocs : k'.procs = k.procs)
    (halone : k.Elsewhere q d) : k'.Shut q g := fun p hp => by
  rw [hprocs] at hp
  refine (h p hp).mono rfl le_rfl (.of_subset fun _ hu hv => ⟨hu, hv⟩) ?_
  rw [hs.walk p.pgdir g (halone p hp)]

theorem Shut.freevm (h : k.Shut q g) (hi : k.Inv held) (hg : UserPage g)
    (halone : ∀ pid p, k.procs pid = some p → p.pgdir ≠ d) (hk : k.freevm cur d = .ok k') :
    k'.Shut q g := by
  obtain ⟨k1, k2, k3, hk1, hk2, hk3, rfl, hleaving⟩ := hi.freevm_eq_ok halone hk
  obtain ⟨h2, hprocs2, -, -⟩ := hleaving.freeTables _ hk2
  have hs1 : k1.Shut q g := h.deallocFrom (.inl (halone q)) hg le_rfl (pgRoundUp_mod 0) hk1
  have hs2 : k2.Shut q g := hs1.of_spares (hleaving.spares_freeTables _ hk2) hprocs2 (hleaving.alone q)
  have hs3 : k3.Shut q g := hs2.kfree hk3
  refine hs3.of_spares (spares_dirs fun d' hd' => update_of_ne hd' ..) rfl fun r hr => ?_
  exact h2.alone q r (procs_of_kfree hk3 ▸ hr)

/-- **Teardown of a process.** -/
theorem Shut.reap (h : k.Shut q g) (hi : k.Inv held) (hg : UserPage g)
    (hk : Kernel.reap k cur pid = .ok k') : k'.Shut q g := by
  obtain ⟨p, hp, hk⟩ := proc_bind_eq_ok.mp hk
  obtain ⟨k1, hk1, hk⟩ := bind_eq_ok.mp hk
  obtain ⟨h0, halone⟩ := hi.dropProc hp
  have hs0 : Shut { k with procs := update k.procs pid none } q g := fun r hr => by
    have hq : q ≠ pid := by
      rintro rfl
      simp at hr
    have hgd := h r (by simpa [hq] using hr)
    exact ⟨hgd.below, hgd.shut, hgd.present, hgd.unique⟩
  refine (hs0.kfree hk1).freevm (h0.kfree hk1) hg (fun q r hr => ?_) hk
  rw [procs_of_kfree hk1] at hr
  exact halone q r hr

/-! ## Fork -/

theorem bars_shared (e : Pte) : e.shared.bars = e.bars := by
  unfold Pte.shared Pte.bars
  split <;> rfl

/-- The parent and the others, once the pages are shared. -/
theorem Shut.forking {k0 : Kernel} (h : k0.Shut q g) (hg : UserPage g)
    (hf : Forking k0 k held p.pgdir d (pgRoundUp p.sz)) :
    k.Shut q g := fun r hr => by
  have hr0 : k0.procs q = some r := hf.procs ▸ hr
  refine (h r hr0).mono rfl le_rfl (.of_subset fun _ hu hv => ⟨hu, hv⟩) ?_
  by_cases hd : r.pgdir = p.pgdir
  · by_cases hlt : g < pgRoundUp p.sz
    · obtain ⟨e, he, -, hshared, -⟩ := hf.done g hlt
      rw [hd, he, hshared, map_some, map_some, bars_shared]
    · rw [hd, hf.parent g (by omega) hg.1]
  · rw [hf.others r.pgdir g hd (hf.alone q r hr)]

/-- **The child's guard page.** -/
theorem guards_fork {k0 : Kernel} {np : Proc} (h : p.Guards k0 g) (hsz : p.sz < kernBase)
    (hf : Forking k0 k held p.pgdir np.pgdir (pgRoundUp p.sz)) (hnp : np.sz = p.sz)
    (hslots : p.Inherits np g) : np.Guards k g := by
  obtain ⟨e, he, hpres, -, hcopied⟩ := hf.done g (h.below.trans_le (le_pgRoundUp hsz))
  obtain ⟨hu, hpg⟩ := h.shut e he
  obtain ⟨σ, hσ, hslots⟩ := hslots
  refine ⟨hnp ▸ h.below, fun e' he' => ?_, fun i hi hva => ?_, fun i j hi hj hvi hvj => ?_⟩
  · cases mem_unique hcopied he'
    unfold Pte.copied
    split
    · exact ⟨rfl, nofun⟩
    · rename_i hpg'
      exact ⟨hu, fun _ => by simpa using hpg'⟩
  · obtain ⟨hi', hva'⟩ := hslots i hi hva
    obtain ⟨e1, he1, hp1⟩ := h.present _ hi' hva'
    cases mem_unique he he1
    exact ⟨_, hcopied, by simp [Pte.copied, hpg hp1, hp1]⟩
  · obtain ⟨hi', hvi'⟩ := hslots i hi hvi
    obtain ⟨hj', hvj'⟩ := hslots j hj hvj
    exact hσ (h.unique _ _ hi' hj' hvi' hvj')

theorem SlotsCopied.inherits {np np' : Proc} (h : SlotsCopied p (List.finRange maxPsycPages) np np') :
    p.Inherits np' g := .of_subset fun i hu hva => by
  rw [h.mem i (List.mem_finRange i)] at hu hva
  exact ⟨hu, hva⟩

/-- **`fork`**: the other processes, and the child of a process whose guard page is shut. -/
theorem Shut.fork {c : ℕ} {t : Entry} (h : k.Shut q g) (hi : k.Inv 0) (hg : UserPage g)
    (hk : Kernel.fork k pid t.proc = .ok (some c, k')) :
    (q ≠ c → k'.Shut q g) ∧ (q = pid → k'.Shut c g) := by
  obtain ⟨p, hp, -⟩ := proc_bind_eq_ok.mp hk
  obtain ⟨f, k1, k2, d, b, np, hk1, hk2, rfl, rfl, hcopy, hplain⟩ := fork_eq_ok hp hk
  have hspec := kalloc_spec hk1
  have hp1 : k1.procs pid = some p := hspec.2.2.2 ▸ hp
  have hi1 := hi.bumpPid.kalloc hk1
  have hs1 : k1.Shut q g := Shut.kalloc (k := { k with nextpid := k.nextpid + 1 })
    (h.of_eq rfl fun _ => rfl) hk1
  obtain ⟨-, hfork⟩ := hi1.copyonwriteuvm
    (fun g hg => by rw [Multiset.mem_singleton.mp hg, hspec.1]) hp1 hk2
  have hfork := hfork d rfl
  have hs2 : k2.Shut q g := hs1.forking hg hfork
  refine ⟨fun hq r hr => ?_, fun hq r hr => ?_⟩
  · rcases procs_of_setProc hr with ⟨rfl, -⟩ | ⟨-, hr⟩
    · exact absurd rfl hq
    · have hgd := hs2 r hr
      exact ⟨hgd.below, hgd.shut, hgd.present, hgd.unique⟩
  · rw [setProc_procs_self] at hr
    cases hr
    obtain ⟨hd, hsz, hin⟩ : np.pgdir = d ∧ np.sz = p.sz ∧ p.Inherits np g := by
      by_cases hpid : 2 < pid
      · have hc := hcopy hpid
        exact ⟨hc.pgdir, hc.sz, hc.inherits⟩
      · rw [hplain hpid]
        exact ⟨rfl, rfl, .of_subset nofun⟩
    subst hd
    have hgd := guards_fork (hs1 p (hq ▸ hp1)) (hi.own pid p hp).size hfork hsz hin
    exact ⟨hgd.below, hgd.shut, hgd.present, hgd.unique⟩

/-- `clearpteu` shuts the page of a settled process. -/
theorem Shut.clearpteu (hp : k.procs pid = some p) (hset : p.Settled k) (hsz : g < p.sz)
    (hpg : ∀ e, k.walkpgdir p.pgdir g = some e → e.p = true → e.pg = false)
    (hk : k.clearpteu p.pgdir g = .ok k') : k'.Shut pid g := by
  unfold Kernel.clearpteu at hk
  split at hk
  · cases hk
  · rename_i e he
    cases hk
    intro r hr
    cases mem_unique hp hr
    have hw : (k.setPte p.pgdir g { e with u := false }).walkpgdir p.pgdir g
        = some { e with u := false } := walkpgdir_setPte_self _ he
    refine ⟨hsz, fun e' he' => ?_, fun i hu hva => ?_, fun i j hi hj hvi hvj => ?_⟩
    · cases mem_unique hw he'
      exact ⟨rfl, hpg e he⟩
    · obtain ⟨e', he', hep⟩ := hset.present i hu
      rw [hva, he] at he'
      cases he'
      exact ⟨_, hw, hep⟩
    · exact hset.inj i j hi hj (hvi.trans hvj.symm)

theorem Inv.clearpteu (h : k.Inv held) (hv : vpn g < userPages) (hk : k.clearpteu d g = .ok k') :
    k'.Inv held := by
  unfold Kernel.clearpteu at hk
  split at hk
  · cases hk
  · rename_i e he
    cases hk
    have hf : (k.setPte d g { e with u := false }).Frames held :=
      h.frames.reflag hv he rfl rfl ((h.frames.fit d g e he).present hv) fun _ hw => .inl hw
    by_cases hep : e.p = true
    · exact h.setPte hf (.inl hep)
    · exact h.setPte_absent hf he (by simpa using hep)

end Kernel

open Kernel

/-- **One operation of the system**, run to completion.  `access` is an access of the kernel to user
memory in a system call. -/
inductive Act where
  | load (pol : Policy) (n pid va : ℕ)
  | store (pol : Policy) (n pid va : ℕ) (b : UInt8)
  | access (pol : Policy) (n : ℕ) (w : Bool) (pid va : ℕ)
  | growproc (pol : Policy) (m pid : ℕ) (n : ℤ)
  | fork (pid : ℕ) (q : Entry)
  | wait (cur pid : ℕ)

namespace Act

/-- The operation, on the kernel and on the family of a process.  A child of a member is a member; another
process that gets its pid is not. -/
def run : Act → Finset ℕ × Kernel → Except String (Finset ℕ × Kernel)
  | load pol n pid va, (F, k) => do
    let (_, k) ← k.load pol n pid va
    return (F, k)
  | store pol n pid va b, (F, k) => do
    let k ← k.store pol n pid va b
    return (F, k)
  | access pol n w pid va, (F, k) => do
    let k ← Kernel.access pol n w k pid va
    return (F, k)
  | growproc pol m pid n, (F, k) => do
    let (_, k) ← k.growproc pol (Kernel.access pol m) pid n
    return (F, k)
  | fork pid q, (F, k) => do
    match ← k.fork pid q.proc with
    | (none, k) => return (F, k)
    | (some c, k) => return (if pid ∈ F then insert c F else F.erase c, k)
  | wait cur pid, (F, k) => do
    let k ← k.reap cur pid
    return (F.erase pid, k)

variable {g : ℕ} {act : Act} {F F' : Finset ℕ} {k k' : Kernel}

end Act

/-- Process 3 as `exec` builds it: text, the page to be the guard, and the stack, in the first three
slots. -/
def freshImage : Kernel where
  kmem := ⟨0x115000, List.range' 1006 20, fun f => if 1000 ≤ f ∧ f < 1006 then 1 else 0, 20⟩
  mem := fun _ _ => 0
  dirs := Function.update (fun _ => none) 1000 (some ⟨Function.update (fun _ => none) 0
    (some ⟨1001, fun i => if i < 3 then { addr := 1002 + i, p := true, w := true, u := true } else {}⟩)⟩)
  procs := Function.update (fun _ => none) 3 (some
    { zeroEntry with
      sz := 3 * pgSize, pgdir := 1000, kstack := 1005, timestamp := 3
      memoryPages := fun i => if i < 3 then ⟨1000, i * pgSize, true, i, 0⟩ else ⟨0, 0, false, 0, 0⟩ })
  buffer := fun _ => 0
  forkBuffer := fun _ => 0
  nextpid := 4
  kdata := 0x109000

end Xv6
