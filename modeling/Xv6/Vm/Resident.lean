import Xv6.Vm.Contents

/-!
# Vm/Resident — growing and shrinking address spaces whose pages are all in memory

`Spans k d a`: the user pages of directory `d` lie below address `a`, and no page table is missing
there.  `deallocuvm` then meets no missing table before the last present page, so its 4MB skip does no
harm, and it frees exactly its range (`pageAt_deallocuvm`).

A paged process that still has free memory slots evicts nothing when it grows.
-/

namespace Xv6

open Outcome Finset

namespace Kernel

variable {k k' : Kernel} {held : Multiset ℕ} {pid cur d a va v f oldsz newsz : ℕ} {p p' : Proc} {e : Pte}
  {pol : Policy} {acc : Access}

/-- The present user pages of `d` lie below `a`, and no table is missing there. -/
structure Spans (k : Kernel) (d a : ℕ) : Prop where
  bounded : ∀ va, va < kernBase → k.Present d va → va < a
  tabled : ∀ va, va < a → (k.walkpgdir d va).isSome

/-- No table goes, and no page comes. -/
theorem Spans.mono (h : k.Spans d a) (hk : k.Kept k')
    (hp : ∀ v, (k'.pageAt d v).isSome → (k.pageAt d v).isSome) : k'.Spans d a where
  bounded va hva hpres := by
    refine h.bounded va hva ?_
    rw [← pageAt_isSome (vpn_lt_of_lt hva)] at hpres ⊢
    exact hp _ hpres
  tabled va hva := hk.tables d va (h.tabled va hva)

theorem Spans.alike (h : k.Spans d a) (ha : k.Alike k') : k'.Spans d a :=
  h.mono ha.toKept fun v hv => by rwa [← ha.pages]

/-! ## Shrinking -/

/-- What freeing one page shows. -/
theorem pageAt_dealloc_page {k1 : Kernel} (h : k.Inv held) (hva : UserPage va)
    (hw : k.walkpgdir d va = some e) (hep : e.p = true) (hk : k.kfree e.addr = .ok k1) (cur d' v : ℕ) :
    ((k1.releaseSlot cur d va).setPte d va {}).pageAt d' v
      = if d' = d ∧ v = vpn va then none else k.pageAt d' v := by
  have hv := vpn_lt_of_lt hva.1
  have hw1 : (k1.releaseSlot cur d va).walkpgdir d va = some e := by
    rw [releaseSlot_walkpgdir, walkpgdir_of_kfree hk, hw]
  have hown : k.owner (.pte d (vpn va)) = some e.addr := by
    rw [owner_pte_of_walk hv hw]
    exact Pte.frame_eq_some.mpr ⟨hep, rfl⟩
  rw [pageAt_setPte hv hw1]
  split
  · rfl
  · rename_i hne
    have hrel : (k1.releaseSlot cur d va).pageAt d' v = k1.pageAt d' v := by
      unfold Kernel.releaseSlot
      split
      · rfl
      · split <;> rfl
    rw [hrel]
    exact h.frames.pageAt_kfree_site hown hk (by simpa using hne)

theorem kept_dealloc_page {k1 : Kernel} (hk : k.kfree f = .ok k1) (cur d va : ℕ) :
    k.Kept ((k1.releaseSlot cur d va).setPte d va {}) where
  procs q := by
    rw [setPte_procs]
    cases hq : k.procs q with
    | none =>
      cases hr : (k1.releaseSlot cur d va).procs q with
      | none => exact .none
      | some r =>
        obtain ⟨r', hr', -⟩ := releaseSlot_procs k1 cur d va hr
        rw [procs_of_kfree hk, hq] at hr'
        cases hr'
    | some p =>
      rw [← procs_of_kfree hk] at hq
      by_cases hqc : q = cur
      · subst hqc
        rcases releaseSlot_cases hq d va with ⟨heq, -⟩ | ⟨i, -, -, -, heq⟩
        · rw [heq, hq]
          exact .some ⟨rfl, rfl⟩
        · rw [heq, setProc_procs_self]
          exact .some ⟨rfl, rfl⟩
      · have hne : (k1.releaseSlot cur d va).procs q = k1.procs q := by
          unfold Kernel.releaseSlot
          split
          · rfl
          · split
            · rfl
            · exact setProc_procs_of_ne _ _ _ hqc
        rw [hne, hq]
        exact .some ⟨rfl, rfl⟩
  tables d' va' hs := by
    rwa [isSome_walkpgdir_setPte, releaseSlot_walkpgdir, walkpgdir_of_kfree hk]
  resident hr d' va' e' hv he' := by
    rcases walk_of_setPte he' with ⟨-, rfl⟩ | ⟨-, he'⟩
    · rfl
    · rw [releaseSlot_walkpgdir, walkpgdir_of_kfree hk] at he'
      exact hr d' va' e' hv he'

/-- The page at `a` and the pages from the next one on. -/
theorem le_mul_pgSize_iff (ha : a % pgSize = 0) (v : ℕ) :
    a ≤ v * pgSize ↔ v * pgSize = a ∨ a + pgSize ≤ v * pgSize := by
  simp only [pgSize] at *
  omega

/-- An absent page shows nothing. -/
theorem pageAt_eq_none (hv : v * pgSize < kernBase) (h : ¬ k.Present d (v * pgSize)) :
    k.pageAt d v = none := by
  have hu : v < userPages := by simp only [pgSize, userPages, kernBase] at *; omega
  rw [← pageAt_isSome (by rwa [vpn_mul hu]), vpn_mul hu] at h
  simpa using h

/-- What is left of the pages once the loop of `deallocuvm` has freed some. -/
theorem pageAt_deallocFrom {n : ℕ} (hi : k.Inv held) (hu : k.Unowned cur d) (hold : oldsz ≤ kernBase)
    (ha : a % pgSize = 0) (hn : oldsz ≤ a + n * pgSize) (h : deallocFrom cur d oldsz n a k = .ok k') :
    k.Kept k' ∧ ∀ d' v, (d' = d ∧ v * pgSize ∈ k.Freed d a oldsz → k'.pageAt d' v = none) ∧
      (¬ (d' = d ∧ v * pgSize ∈ k.Freed d a oldsz) → k'.pageAt d' v = k.pageAt d' v) := by
  refine deallocFrom_rec (R := fun k k' s => k.Inv held → k.Unowned cur d → k.Kept k' ∧
    ∀ d' v, (d' = d ∧ v * pgSize ∈ s → k'.pageAt d' v = none) ∧
      (¬ (d' = d ∧ v * pgSize ∈ s) → k'.pageAt d' v = k.pageAt d' v)) (hold.trans (by decide))
    (fun k _ _ => ⟨.refl k, fun _ _ => ⟨fun hc => hc.2.elim, fun _ => rfl⟩⟩) ?_ n a ha hn h hi hu
  rintro k k1 k' a e s ⟨ha, hlt⟩ hw hep - hk hrest hs hi hu
  have hua : UserPage a := ⟨hlt.trans_le hold, ha⟩
  have hkept1 := kept_dealloc_page hk cur d a
  obtain ⟨hkept, hpages⟩ := hrest (hi.dealloc_page hu hua hw hep hk) fun q r hr hrd => by
    obtain ⟨r', hr', hd', -⟩ := hkept1.exists_proc' hr
    exact hu q r' hr' (hd' ▸ hrd)
  refine ⟨hkept1.trans hkept, fun d' v => ?_⟩
  have hpage := pageAt_dealloc_page hi hua hw hep hk cur d' v
  have hva : v = vpn a ↔ v * pgSize = a := by
    rw [vpn_of_lt hua.1]
    simp only [pgSize] at *
    omega
  constructor
  · rintro ⟨rfl, heq | hv⟩
    · have hnot : ¬ (d' = d' ∧ v * pgSize ∈ s) := fun hc => hs _ hc.2 (by rw [heq])
      rw [(hpages d' v).2 hnot, hpage, if_pos ⟨rfl, hva.mpr heq⟩]
    · exact (hpages d' v).1 ⟨rfl, hv⟩
  · intro hnot
    rw [(hpages d' v).2 fun hc => hnot ⟨hc.1, .inr hc.2⟩, hpage,
      if_neg fun hc => hnot ⟨hc.1, .inl (hva.mp hc.2)⟩]

/-- **`deallocuvm` frees exactly its range** in an address space without missing tables. -/
theorem pageAt_deallocuvm {r b : ℕ} (h : k.Inv held) (hu : k.Unowned cur d) (hold : oldsz ≤ kernBase)
    (hspan : k.Spans d b) (hlt : newsz < oldsz) (hk : k.deallocuvm cur d oldsz newsz = .ok (r, k')) :
    r = newsz ∧ k.Kept k' ∧ ∀ d' v, k'.pageAt d' v
      = if d' = d ∧ pgRoundUp newsz ≤ v * pgSize ∧ v * pgSize < oldsz then none
        else k.pageAt d' v := by
  rw [Kernel.deallocuvm, if_neg (by omega)] at hk
  obtain ⟨k1, hk1, hk⟩ := bind_eq_ok.mp hk
  cases hk
  obtain ⟨hkept, hpages⟩ := pageAt_deallocFrom h hu hold (pgRoundUp_mod newsz)
    (by simp only [pgSize]; omega) hk1
  refine ⟨rfl, hkept, fun d' v => ?_⟩
  by_cases hp : d' = d ∧ v * pgSize ∈ k.Freed d (pgRoundUp newsz) oldsz
  · rw [(hpages d' v).1 hp, if_pos ⟨hp.1, hp.2.1.2⟩]
  · rw [(hpages d' v).2 hp]
    split
    · rename_i hin
      obtain ⟨rfl, hlo, hhi⟩ := hin
      refine pageAt_eq_none (hhi.trans_le hold) fun hpres => hp ⟨rfl, ⟨Nat.mul_mod_left .., hlo, hhi⟩, hpres, ?_⟩
      -- below a present page no table is missing
      have hlast := hspan.bounded _ (hhi.trans_le hold) hpres
      exact not_skips (hspan.tabled _ (hlo.trans_lt hlast))
    · rfl

/-- The span of an address space after shrinking. -/
theorem Spans.shrink (hs : k.Spans d (pgRoundUp oldsz)) (hold : oldsz < kernBase)
    (hlt : newsz < oldsz) (hk : k.Kept k')
    (hpages : ∀ d' v, k'.pageAt d' v
      = if d' = d ∧ pgRoundUp newsz ≤ v * pgSize ∧ v * pgSize < oldsz then none
        else k.pageAt d' v) : k'.Spans d (pgRoundUp newsz) where
  bounded va hva hp := by
    rw [← pageAt_isSome (vpn_lt_of_lt hva), hpages, vpn_of_lt hva] at hp
    split at hp
    · cases hp
    · rename_i hc
      rw [← vpn_of_lt hva] at hp
      have hlo := hs.bounded va hva ((pageAt_isSome (vpn_lt_of_lt hva)).mp hp)
      rw [lt_pgRoundUp_iff hold] at hlo
      have hhi : pgRoundDown va < pgRoundUp newsz := by
        by_contra hge
        exact hc ⟨rfl, Nat.not_lt.mp hge, hlo⟩
      rwa [lt_pgRoundUp_iff (hlt.trans hold), pgRoundDown_pgRoundDown,
        ← lt_pgRoundUp_iff (hlt.trans hold)] at hhi
  tabled va hva := by
    rw [lt_pgRoundUp_iff (hlt.trans hold)] at hva
    exact hk.tables d va (hs.tabled va ((lt_pgRoundUp_iff hold).mpr (hva.trans hlt)))

end Kernel

/-! ## Growing -/

namespace Proc

variable {p p' : Proc}

/-- The number of free memory slots. -/
def free (p : Proc) : ℕ := (Finset.univ.filter fun i => (p.memoryPages i).isUsed = false).card

theorem Agree.free (h : p.Agree p') : p'.free = p.free := by
  obtain ⟨σ, hσ⟩ := h.memoryPages
  refine card_equiv σ fun i => ?_
  have := hσ i
  simp only [Slot.core, Prod.mk.injEq] at this
  simp [this.2.2]

/-- A store takes one slot at most. -/
theorem free_setMemSlot (p : Proc) (i : Fin maxPsycPages) (s : Slot) :
    p.free ≤ (p.setMemSlot i s).free + 1 := by
  have hsub : (Finset.univ.filter fun l => (p.memoryPages l).isUsed = false) ⊆
      insert i (Finset.univ.filter fun l => ((p.setMemSlot i s).memoryPages l).isUsed = false) := by
    intro l hl
    rw [mem_insert]
    by_cases hli : l = i
    · exact .inl hli
    · rw [mem_filter] at hl ⊢
      exact .inr ⟨hl.1, by simpa [setMemSlot, hli] using hl.2⟩
  exact (card_le_card hsub).trans (card_insert_le ..)

/-- A free slot is taken. -/
theorem free_setMemSlot_lt {i : Fin maxPsycPages} {s : Slot} (hi : (p.memoryPages i).isUsed = false)
    (hs : s.isUsed = true) : (p.setMemSlot i s).free < p.free := by
  refine card_lt_card ⟨fun l hl => ?_, fun hsub => ?_⟩
  · rw [mem_filter] at hl ⊢
    by_cases hli : l = i
    · exact ⟨hl.1, hli ▸ hi⟩
    · exact ⟨hl.1, by simpa [setMemSlot, hli] using hl.2⟩
  · have hmem := (mem_filter.mp (hsub (mem_filter.mpr ⟨mem_univ i, hi⟩))).2
    have hself : (p.setMemSlot i s).memoryPages i = s := Function.update_self ..
    rw [hself, hs] at hmem
    cases hmem

theorem free_pos_of_nextFree {i : Fin maxPsycPages} (h : p.nextFreeIInMem = some i) : 0 < p.free :=
  card_pos.mpr ⟨i, mem_filter.mpr ⟨mem_univ i, by simpa using List.find?_some h⟩⟩

theorem exists_free (h : 0 < p.free) : ∃ i, p.nextFreeIInMem = some i := by
  rw [← Option.isSome_iff_exists, Option.isSome_iff_ne_none, Ne, Kernel.nextFreeIInMem_eq_none]
  intro hall
  obtain ⟨i, hi⟩ := card_pos.mp h
  simp [hall i] at hi

end Proc

namespace Kernel

variable {k k' : Kernel} {held : Multiset ℕ} {pid cur d a va v f oldsz newsz : ℕ} {p p' : Proc} {e : Pte}
  {pol : Policy} {acc : Access}

/-- **With a free slot, entering a page changes the slots of the process** and nothing else. -/
theorem trackPage_eq_ok (hp : k.procs pid = some p) (hfree : 2 < pid → 0 < p.free)
    (ht : trackPage pol acc k pid d a = .ok k') :
    ∃ q, k' = k.setProc pid q ∧ q.pgdir = p.pgdir ∧ q.sz = p.sz ∧ q.kstack = p.kstack ∧ p.free ≤ q.free + 1 := by
  unfold trackPage at ht
  split at ht
  · rename_i hpid
    obtain ⟨⟨r, k1⟩, hc, ht⟩ := bind_eq_ok.mp ht
    obtain ⟨q, hq, ht⟩ := bind_eq_ok.mp ht
    cases ht
    rw [proc_eq_ok] at hq
    have hslot : ∃ i, r = some i ∧ p.Agree q ∧ ∀ q', k1.setProc pid q' = k.setProc pid q' := by
      rcases chooseSlot_eq_ok hp hc with ⟨i, -, ⟨-, rfl, rfl⟩ | ⟨-, rfl, rfl⟩⟩ | ⟨hnone, -⟩
      · cases Option.mem_unique hp hq
        exact ⟨i, rfl, .refl _, fun _ => rfl⟩
      · rw [setProc_procs_self] at hq
        cases hq
        exact ⟨0, rfl, Policy.agree_aqNext p, fun _ => setProc_setProc ..⟩
      · obtain ⟨i, hi⟩ := Proc.exists_free (hfree hpid)
        rw [hnone] at hi
        cases hi
    obtain ⟨i, rfl, hpa, hset⟩ := hslot
    refine ⟨_, hset _, hpa.pgdir, hpa.sz, hpa.kstack, ?_⟩
    rw [← hpa.free]
    exact q.free_setMemSlot i (newSlot pol q d a)
  · cases ht
    refine ⟨p, ?_, rfl, rfl, rfl, Nat.le_succ _⟩
    rw [Kernel.setProc, ← hp, Function.update_eq_self]

theorem trackPage_free (hp : k.procs pid = some p) (hfree : 2 < pid → 0 < p.free)
    (ht : trackPage pol acc k pid d a = .ok k') :
    k.Alike k' ∧ ∃ p', k'.procs pid = some p' ∧ p'.pgdir = p.pgdir ∧
      (2 < pid → p.free ≤ p'.free + 1) := by
  obtain ⟨q, rfl, hd, hsz, -, hle⟩ := trackPage_eq_ok hp hfree ht
  exact ⟨.setProc hp hd hsz, q, setProc_procs_self .., hd, fun _ => hle⟩

/-- **Mapping a new zero page** shows it, and nothing else. -/
theorem pageAt_mapNewPage {k1 k2 : Kernel} (h : k.Frames held) (hk : k.kalloc = some (f, k1))
    (ha : UserPage a) (hw : (k1.setMem f fun _ => 0).walkpgdirAlloc d a = some (e, k2)) (d' v : ℕ) :
    (k2.setPte d a { w := true, u := true, addr := f, p := true }).pageAt d' v
      = if d' = d ∧ v = vpn a then some (fun _ => 0) else k.pageAt d' v := by
  rw [pageAt_setPte (vpn_lt_of_lt ha.1) (walkpgdir_of_alloc hw)]
  split
  · simp only [Pte.frame, if_true, Option.map_some]
    refine congrArg some ?_
    rw [(alloc_spec hw).1]
    exact Function.update_self ..
  · rw [pageAt_alloc hw, (h.kalloc hk).pageAt_setMem_held (kalloc_spec hk).1, pageAt_kalloc hk]

theorem kept_mapNewPage {k1 k2 : Kernel} (hk : k.kalloc = some (f, k1))
    (hw : (k1.setMem f fun _ => 0).walkpgdirAlloc d a = some (e, k2)) :
    k.Kept (k2.setPte d a { w := true, u := true, addr := f, p := true }) := by
  have hspec := kalloc_spec hk
  have hwalk : ∀ d va, (k1.setMem f fun _ => 0).walkpgdir d va = k.walkpgdir d va := fun d va => by
    rw [setMem_walkpgdir, walkpgdir, hspec.2.2.1, ← walkpgdir]
  refine ⟨fun q => ?_, fun d' va hs => ?_, fun hr d' va e' hv he' => ?_⟩
  · rw [setPte_procs, procs_of_alloc hw, setMem_procs, hspec.2.2.2]
    exact rel_refl _
  · rw [isSome_walkpgdir_setPte]
    rcases walkpgdir_alloc hw d' va with heq | ⟨-, -, hz⟩
    · rwa [heq, hwalk]
    · rw [hz]
      rfl
  · rcases walk_of_setPte he' with ⟨-, rfl⟩ | ⟨-, he'⟩
    · rfl
    · rcases walkpgdir_alloc hw d' va with heq | ⟨-, -, hz⟩
      · rw [heq, hwalk] at he'
        exact hr d' va e' hv he'
      · rw [hz] at he'
        cases he'
        rfl

/-- The span of an address space after one more page. -/
theorem Spans.mapNewPage {k1 k2 : Kernel} (hs : k.Spans d a) (h : k.Inv held)
    (hk : k.kalloc = some (f, k1)) (ha : UserPage a)
    (hw : (k1.setMem f fun _ => 0).walkpgdirAlloc d a = some (e, k2)) :
    (k2.setPte d a { w := true, u := true, addr := f, p := true }).Spans d (a + pgSize) where
  bounded va hva hp := by
    by_contra hge
    have hne : vpn va ≠ vpn a := by
      rw [vpn_of_lt hva, vpn_of_lt ha.1]
      have := ha.2
      simp only [pgSize] at *
      omega
    rw [← pageAt_isSome (vpn_lt_of_lt hva), pageAt_mapNewPage h.frames hk ha hw, if_neg fun hc => hne hc.2,
      pageAt_isSome (vpn_lt_of_lt hva)] at hp
    have := hs.bounded va hva hp
    omega
  tabled va hva := by
    by_cases hlt : va < a
    · exact (kept_mapNewPage hk hw).tables d va (hs.tabled va hlt)
    · have hv : vpn va = vpn a := by
        have := ha.2
        have := ha.1
        simp only [vpn, pgSize, kernBase] at *
        omega
      rw [walkpgdir_congr _ d hv, walkpgdir_setPte_self _ (walkpgdir_of_alloc hw)]
      rfl

theorem kept_kfree (hk : k.kfree f = .ok k') : k.Kept k' := by
  obtain ⟨m, -, rfl⟩ := kfree_eq_ok.mp hk
  exact ⟨fun _ => rel_refl _, fun _ _ => id, id⟩

/-- A new frame is not shown, whatever is written to it. -/
theorem alike_kalloc_setMem {k1 : Kernel} (h : k.Inv held) (hk : k.kalloc = some (f, k1)) (pg : Page) :
    k.Alike (k1.setMem f pg) := by
  have hpages : ∀ d v, (k1.setMem f pg).pageAt d v = k.pageAt d v := fun d v => by
    rw [(h.frames.kalloc hk).pageAt_setMem_held (kalloc_spec hk).1, pageAt_kalloc hk]
  obtain ⟨m, -, rfl⟩ := kalloc_eq_some.mp hk
  exact ⟨⟨fun _ => rel_refl _, fun _ _ => id, id⟩, hpages⟩

/-- The entry at the end of the span is absent. -/
theorem absent_of_spans {k1 k2 : Kernel} (hs : k.Spans d a) (ha : a < kernBase)
    (hk : k.kalloc = some (f, k1)) (hw : (k1.setMem f fun _ => 0).walkpgdirAlloc d a = some (e, k2)) :
    e.p = false := by
  refine absent_of_alloc hw fun hp => ?_
  rw [Present, setMem_walkpgdir, walkpgdir, (kalloc_spec hk).2.2.1, ← walkpgdir, ← Present] at hp
  exact absurd (hs.bounded a ha hp) (Nat.lt_irrefl a)

/-- The addresses of `n + 1` pages. -/
theorem map_range_succ (a n : ℕ) : ((List.range (n + 1)).map fun i => a + i * pgSize)
    = a :: (List.range n).map fun i => a + pgSize + i * pgSize := by
  have hmap : ((fun i => a + i * pgSize) ∘ Nat.succ) = fun i => a + pgSize + i * pgSize := by
    funext i
    simp only [Function.comp_apply, Nat.succ_eq_add_one]
    ring
  rw [List.range_succ_eq_map, List.map_cons, List.map_map, hmap, Nat.zero_mul, Nat.add_zero]

/-- **The loop of `allocuvm`** adds zero pages, or takes back all it has added.  The free slots last
for all pages, so nothing is evicted. -/
theorem pageAt_allocPages (hacc : acc.Keeps) (hsz : newsz ≤ kernBase) (hold : pgRoundUp oldsz ≤ newsz) :
    ∀ (n a : ℕ) {k k' : Kernel} {p : Proc} {r : ℕ}, k.Inv held → k.procs pid = some p →
      p.pgdir = d → a % pgSize = 0 → pgRoundUp oldsz ≤ a → a + n * pgSize < newsz + pgSize →
      newsz ≤ a + n * pgSize → oldsz < newsz → k.Spans d a → (2 < pid → n ≤ p.free) →
      allocPages pol acc pid d oldsz newsz ((List.range n).map fun i => a + i * pgSize) k = .ok (r, k') →
      k.Kept k' ∧
        (r = newsz ∧ k'.Spans d (a + n * pgSize) ∧ (∀ d' v, k'.pageAt d' v
            = if d' = d ∧ a ≤ v * pgSize ∧ v * pgSize < newsz then some (fun _ => 0)
              else k.pageAt d' v) ∨
          r = 0 ∧ ∀ d' v, k'.pageAt d' v
            = if d' = d ∧ pgRoundUp oldsz ≤ v * pgSize ∧ v * pgSize < newsz then none
              else k.pageAt d' v)
  | 0, a, k, k', p, r, _, _, _, _, _, _, hle, _, hs, _, hk => by
    cases hk
    refine ⟨.refl k, .inl ⟨rfl, by simpa using hs, fun d' v => ?_⟩⟩
    rw [if_neg (by omega)]
  | n + 1, a, k, k', p, r, h, hp, hd, ha, hlo, hhi, hle, hlt, hs, hfree, hk => by
    rw [map_range_succ] at hk
    have hadd : a + (n + 1) * pgSize = a + pgSize + n * pgSize := by ring
    rw [hadd] at hhi hle ⊢
    have hua : UserPage a := ⟨by omega, ha⟩
    have hun : ∀ {k : Kernel} {held}, k.Inv held → k.procs pid = some p → k.Unowned pid d :=
      fun h hp q s hs hsd => h.apart q pid s p hs hp (hsd.trans hd.symm)
    rcases allocPages_cons hua hk with
      ⟨h0, -, r', hk1⟩ | ⟨f, k1, hk1, ⟨h0, -, r', k2, hk2, hk3⟩ | ⟨e, k2, k3, hw, -, hk3, hk⟩⟩
    · obtain ⟨-, hkept, hpages⟩ := pageAt_deallocuvm h (hun h hp) hsz hs hlt hk1
      exact ⟨hkept, .inr ⟨h0, hpages⟩⟩
    all_goals
      have hspec := kalloc_spec hk1
      have h₁ := (h.kalloc hk1).setMem f fun _ => 0
      have hp1 : (k1.setMem f fun _ => 0).procs pid = some p := hspec.2.2.2 ▸ hp
    · -- no frame for a page table: the pages go, and then the frame in hand
      have halike := alike_kalloc_setMem h hk1 fun _ => 0
      obtain ⟨-, hkept, hpages⟩ := pageAt_deallocuvm h₁ (hun h₁ hp1) hsz (hs.alike halike) hlt hk2
      have h₂ := (h₁.deallocuvm (hun h₁ hp1) hsz hk2).1
      refine ⟨(halike.toKept.trans hkept).trans (kept_kfree hk3), .inr ⟨h0, fun d' v => ?_⟩⟩
      rw [h₂.frames.pageAt_kfree_held hk3, hpages, halike.pages]
    · obtain ⟨h₂, hready⟩ := h₁.mapNewPage hp1 hd hua hw (absent_of_spans hs hua.1 hk1 hw) hspec.1
      have hp2 : (k2.setPte d a { w := true, u := true, addr := f, p := true }).procs pid
          = some p := by rw [setPte_procs, procs_of_alloc hw, hp1]
      have hpages2 := pageAt_mapNewPage h.frames hk1 hua hw
      have hs2 := hs.mapNewPage h hk1 hua hw
      obtain ⟨halike, p3, hp3, hd3, hfree3⟩ := trackPage_free hp2
        (fun hpid => by have := hfree hpid; omega) hk3
      obtain ⟨h3, -⟩ := h₂.trackPage hacc hp2 hd.symm hua hready hk3
      obtain ⟨hkept, hres⟩ := pageAt_allocPages hacc hsz hold n (a + pgSize) h3 hp3
        (hd3.trans hd) (by simp only [pgSize] at *; omega) (by omega) hhi hle hlt (hs2.alike halike)
        (fun hpid => by have := hfree hpid; have := hfree3 hpid; omega) hk
      refine ⟨((kept_mapNewPage hk1 hw).trans halike.toKept).trans hkept, ?_⟩
      have hle' := le_mul_pgSize_iff ha
      have hva : ∀ v, v = vpn a ↔ v * pgSize = a := fun v => by
        rw [vpn_of_lt hua.1]
        simp only [pgSize] at *
        omega
      rcases hres with ⟨hr, hspan, hpages⟩ | ⟨hr, hpages⟩
      · refine .inl ⟨hr, hspan, fun d' v => ?_⟩
        have h1 := hle' v
        have h2 := hva v
        rw [hpages, halike.pages, hpages2]
        split_ifs <;> first | rfl | omega
      · refine .inr ⟨hr, fun d' v => ?_⟩
        have h1 := hle' v
        have h2 := hva v
        rw [hpages, halike.pages, hpages2]
        split_ifs <;> first | rfl | omega

/-- **`allocuvm` adds zero pages**, or shows the same and fails.  There are free slots for all new
pages, so nothing is evicted. -/
theorem pageAt_allocuvm {r : ℕ} (hacc : acc.Keeps) (h : k.Inv held) (hp : k.procs pid = some p)
    (hold : oldsz < kernBase) (hs : k.Spans p.pgdir (pgRoundUp oldsz))
    (hfree : 2 < pid → (pagesFrom (pgRoundUp oldsz) newsz).length ≤ p.free)
    (hk : allocuvm pol acc k pid p.pgdir oldsz newsz = .ok (r, k')) :
    k.Kept k' ∧ (r = 0 ∧ (∀ d v, k'.pageAt d v = k.pageAt d v) ∨
      newsz ≤ r ∧ k'.Spans p.pgdir (pgRoundUp r) ∧ ∀ d v, k'.pageAt d v
        = if d = p.pgdir ∧ pgRoundUp oldsz ≤ v * pgSize ∧ v * pgSize < newsz then some (fun _ => 0)
          else k.pageAt d v) := by
  have hup := pgRoundUp_of_lt hold
  have hempty : ∀ d v, newsz ≤ pgRoundUp oldsz → k.pageAt d v
      = if d = p.pgdir ∧ pgRoundUp oldsz ≤ v * pgSize ∧ v * pgSize < newsz then some (fun _ => 0)
        else k.pageAt d v := fun d v hle => by rw [if_neg (by omega)]
  rcases allocuvm_eq_ok hk with ⟨rfl, rfl | ⟨rfl, hlt⟩⟩ | ⟨hnew, hle, -, hk⟩
  · exact ⟨.refl _, .inl ⟨rfl, fun _ _ => rfl⟩⟩
  · refine ⟨.refl _, .inr ⟨hlt.le, hs, fun d v => hempty d v ?_⟩⟩
    simp only [pgSize] at *
    omega
  have hlast := pagesFrom_end hold hnew hle
  by_cases hle : newsz ≤ pgRoundUp oldsz
  · -- the last page has room left
    have h0 : (newsz + (pgSize - 1) - pgRoundUp oldsz) / pgSize = 0 := by
      simp only [pgSize] at *
      omega
    rw [h0, Nat.zero_mul, Nat.add_zero] at hlast
    rw [pagesFrom, h0] at hk
    cases hk
    exact ⟨.refl k, .inr ⟨le_rfl, hlast ▸ hs, fun d v => hempty d v hle⟩⟩
  · have hge : newsz ≤ pgRoundUp newsz ∧ pgRoundUp newsz < newsz + pgSize := by
      rw [pgRoundUp_of_lt hnew]
      simp only [pgSize] at *
      omega
    have hlt : oldsz < newsz := by
      simp only [pgSize] at *
      omega
    obtain ⟨hkept, hres⟩ := pageAt_allocPages hacc hnew.le (by omega) _ _ h hp rfl
      (pgRoundUp_mod oldsz) le_rfl (by omega) (by omega) hlt hs
      (fun hpid => by simpa [pagesFrom] using hfree hpid) hk
    rw [hlast] at hres
    refine ⟨hkept, hres.symm.imp (fun hres => ⟨hres.1, fun d v => ?_⟩)
      fun hres => ⟨hres.1.ge, by rw [hres.1]; exact hres.2.1, hres.2.2⟩⟩
    -- the pages taken back were not there before
    rw [hres.2]
    split
    · rename_i hc
      obtain ⟨rfl, hlo, hhi⟩ := hc
      refine (pageAt_eq_none (by omega) fun hpres => ?_).symm
      have := hs.bounded _ (by omega) hpres
      omega
    · rfl

end Kernel

end Xv6
