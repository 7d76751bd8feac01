import Xv6.Vm.Transparent

/-!
# Vm/Resize — a paged process shrinks and grows

Shrinking takes the pages of the range out of the placement, if none of them is paged out.  Growing adds
zero pages one by one; where memory is full each of them evicts another.  `Paged.allocuvm` follows the loop
of `allocuvm` through all its cases: a free slot, the queue of `AQ` (whose last entry is overwritten, so that
its page becomes loose), an eviction, and the lack of a frame.
-/

namespace Xv6

open Outcome Function Option

namespace Kernel

variable {k k' k1 : Kernel} {pid d a x va f n oldsz newsz : ℕ} {p p' q : Proc} {e : Pte}
  {i j : Fin maxPsycPages} {pol : Policy} {acc : Access} {loose : Set ℕ} {m : Flat}
  {s : Finset (Fin 1024)}

/-! ## Shrinking -/

/-- A page below `a` has an entry. -/
theorem Paged.isSome_walk (h : k.Paged pid p a loose m) (ha : a ≤ kernBase) (hva : va < a) :
    (k.walkpgdir p.pgdir va).isSome := by
  rcases (h.placed.pages va (by omega)).mp hva with ⟨e, he, -⟩ | ⟨e, he, -⟩ <;> rw [he] <;> rfl

theorem Paged.spans (h : k.Paged pid p a loose m) (ha : a ≤ kernBase) : k.Spans p.pgdir a :=
  ⟨fun va hva hp => (h.placed.pages va hva).mpr (.inl hp), fun _ hva => h.isSome_walk ha hva⟩

theorem pgRoundUp_le (h : oldsz < kernBase) : pgRoundUp oldsz ≤ kernBase := by
  rw [pgRoundUp_of_lt h]
  simp only [pgSize, kernBase] at *
  omega

/-- The pages of `[pgRoundUp newsz, oldsz)` are those below `oldsz` and not below `newsz`. -/
theorem mem_pageRange_iff (hold : oldsz < kernBase) (hva : UserPage va)
    (h : va < pgRoundUp oldsz) : va ∈ pageRange (pgRoundUp newsz) oldsz ↔ ¬ va < pgRoundUp newsz := by
  rw [lt_pgRoundUp_iff hold, pgRoundDown_of_dvd hva.2] at h
  exact ⟨fun hc => Nat.not_lt.mpr hc.2.1, fun hc => ⟨hva.2, Nat.not_lt.mp hc, h⟩⟩

/-- **Where no page of the range is paged out, all of them are freed.** -/
theorem Paged.freed_eq (h : k.Paged pid p (pgRoundUp oldsz) loose m) (hold : oldsz < kernBase)
    (hfile : ∀ j, (p.filePages j).isUsed = true → (p.filePages j).va ∉ pageRange (pgRoundUp newsz) oldsz) :
    k.Freed p.pgdir (pgRoundUp newsz) oldsz = pageRange (pgRoundUp newsz) oldsz := by
  refine Set.Subset.antisymm (fun b hb => hb.1) fun b hb => ⟨hb, ?_, ?_⟩
  · have hub : UserPage b := ⟨by have := hb.2.2; omega, hb.1⟩
    have hlt : b < pgRoundUp oldsz := by
      rw [lt_pgRoundUp_iff hold, pgRoundDown_of_dvd hub.2]
      exact hb.2.2
    rcases (h.placed.pages b hub.1).mp hlt with hp | hout
    · exact hp
    · obtain ⟨j, hj, hjva⟩ := h.placed.filed b hub hout
      exact absurd (hjva ▸ hb) (hfile j hj)
  · refine not_skips (h.isSome_walk (pgRoundUp_le hold) ?_)
    rw [lt_pgRoundUp_iff hold, pgRoundDown_of_dvd (pgRoundUp_mod newsz)]
    exact Nat.lt_of_le_of_lt hb.2.1 hb.2.2

/-- An entry of a user page after the range has been freed. -/
theorem Shrunk.walk_user (h : k.Shrunk k' pid d (pageRange (pgRoundUp newsz) oldsz))
    (hold : oldsz < kernBase) (hlt : newsz < oldsz) (hva : va < kernBase) (hlow : va < pgRoundUp oldsz) :
    k'.walkpgdir d va = if va < pgRoundUp newsz then k.walkpgdir d va else some {} := by
  have hup := userPage_pgRoundDown hva
  have hdown : pgRoundDown va < pgRoundUp oldsz := by
    rw [lt_pgRoundUp_iff hold] at hlow ⊢
    rwa [pgRoundDown_pgRoundDown]
  have hmem : pgRoundDown va ∈ pageRange (pgRoundUp newsz) oldsz ↔ _ := mem_pageRange_iff hold hup hdown
  have hiff : pgRoundDown va < pgRoundUp newsz ↔ va < pgRoundUp newsz := by
    rw [lt_pgRoundUp_iff (hlt.trans hold), lt_pgRoundUp_iff (hlt.trans hold), pgRoundDown_pgRoundDown]
  rw [hiff] at hmem
  split
  · rename_i hc
    refine h.rest d va fun _ b hb hv => ?_
    rw [← vpn_pgRoundDown] at hv
    have hbu : UserPage b := ⟨by have := hb.2.2; omega, hb.1⟩
    rw [← hup.eq_of_vpn hbu hv] at hb
    exact hmem.mp hb hc
  · rename_i hc
    rw [k'.walkpgdir_congr d (vpn_pgRoundDown va).symm]
    exact h.gone _ (hmem.mpr hc)

/-- **A slot is left in use exactly if its page is**, where each slot names another page. -/
theorem Shrunk.left {s : Set ℕ} (h : k.Shrunk k' pid p.pgdir s) (hp : k.procs pid = some p) (hs : p.Settled k)
    (ho : p.Own) : ∃ mp, k'.procs pid = some { p with memoryPages := mp } ∧
      ∀ l, (mp l).va = (p.memoryPages l).va ∧
        ((mp l).isUsed = true ↔ (p.memoryPages l).isUsed = true ∧ (p.memoryPages l).va ∉ s) := by
  obtain ⟨mp, hmp, hslot⟩ := h.slots p hp
  refine ⟨mp, hmp, fun l => ?_⟩
  by_cases hf : ∃ b ∈ s, p.First p.pgdir b l
  · obtain ⟨b, hb, hfb⟩ := hf
    rw [(hslot l).1 b hb hfb]
    exact ⟨rfl, iff_of_false nofun fun hc => hc.2 (hfb.1.2.2 ▸ hb)⟩
  · rw [(hslot l).2 fun b hb hfb => hf ⟨b, hb, hfb⟩]
    refine ⟨rfl, fun hl => ⟨hl, fun hb => hf ⟨_, hb, ⟨hl, ho.memDir l hl, rfl⟩, fun m hm hname => ?_⟩⟩, And.left⟩
    exact hm.ne (hs.inj m l hname.1 hl hname.2.2)

/-- **A paged process shrinks**: where no page of the range is paged out, exactly its pages go. -/
theorem Paged.deallocuvm {r : ℕ} (h : k.Paged pid p (pgRoundUp oldsz) loose m) (hold : oldsz < kernBase)
    (hlt : newsz < oldsz)
    (hfile : ∀ j, (p.filePages j).isUsed = true → (p.filePages j).va ∉ pageRange (pgRoundUp newsz) oldsz)
    (hk : k.deallocuvm pid p.pgdir oldsz newsz = .ok (r, k')) :
    r = newsz ∧ ∃ mp, k'.Paged pid { p with memoryPages := mp } (pgRoundUp newsz)
      (loose ∩ {y | y < pgRoundUp newsz}) (m.unmap (pgRoundUp newsz) oldsz) := by
  have hun : k.Unowned pid p.pgdir := fun q s hs hsd => h.inv.apart q pid s p hs h.proc hsd
  obtain ⟨hr, hshrunk⟩ := deallocuvm_shrunk (by simp only [kernBase] at *; omega) hlt hk
  rw [h.freed_eq hold hfile] at hshrunk
  obtain ⟨mp, hmp, hleft⟩ := hshrunk.left h.proc h.placed.toSettled h.own
  have hle : pgRoundUp newsz ≤ pgRoundUp oldsz := by
    rw [pgRoundUp_of_lt hold, pgRoundUp_of_lt (hlt.trans hold)]
    simp only [pgSize]
    omega
  have hbase := pgRoundUp_le hold
  have hwalk : ∀ {va}, va < kernBase → va < pgRoundUp oldsz → k'.walkpgdir p.pgdir va
      = if va < pgRoundUp newsz then k.walkpgdir p.pgdir va else some {} := hshrunk.walk_user hold hlt
  -- the entries below the new size are as before, and there are no others
  have hentry : ∀ (P : Pte → Prop), (∀ va, va < kernBase → (∃ e, k.walkpgdir p.pgdir va = some e ∧ P e) →
      va < pgRoundUp oldsz) → ¬ P {} → ∀ va, va < kernBase →
      ((∃ e, k'.walkpgdir p.pgdir va = some e ∧ P e) ↔
        va < pgRoundUp newsz ∧ ∃ e, k.walkpgdir p.pgdir va = some e ∧ P e) := by
    intro P hP hzero va hva
    by_cases hlow : va < pgRoundUp oldsz
    · rw [hwalk hva hlow]
      by_cases hc : va < pgRoundUp newsz
      · simp [hc]
      · simp [hc, hzero]
    · have hsame : k'.walkpgdir p.pgdir va = k.walkpgdir p.pgdir va := by
        refine hshrunk.rest _ _ fun _ b hb hv => hlow ?_
        have hbu : UserPage b := ⟨by have := hb.2.2; omega, hb.1⟩
        rw [lt_pgRoundUp_iff hold, (userPage_pgRoundDown hva).eq_of_vpn hbu (by rw [vpn_pgRoundDown, hv])]
        exact hb.2.2
      rw [hsame]
      exact ⟨fun he => absurd (hP va hva he) hlow, And.right⟩
  have hpres : ∀ va, va < kernBase → (k'.Present p.pgdir va ↔
      va < pgRoundUp newsz ∧ k.Present p.pgdir va) :=
    hentry (fun e => e.p = true) (fun va hva he => (h.placed.pages va hva).mpr (.inl he)) (by simp)
  have hout : ∀ va, va < kernBase → (k'.PagedOut p.pgdir va ↔
      va < pgRoundUp newsz ∧ k.PagedOut p.pgdir va) :=
    hentry (fun e => e.p = false ∧ e.pg = true) (fun va hva he => (h.placed.pages va hva).mpr (.inr he))
      (by simp)
  have hused : ∀ i, (mp i).isUsed = true ↔ (p.memoryPages i).isUsed = true ∧
      (p.memoryPages i).va < pgRoundUp newsz := fun i => by
    rw [(hleft i).2]
    refine and_congr_right fun hi => ?_
    rw [mem_pageRange_iff hold (h.own.memVa i)
      ((h.placed.pages _ (h.own.memVa i).1).mpr (.inl (h.placed.present i hi))), not_not]
  refine ⟨hr, mp, (h.inv.deallocuvm hun hold.le hk).1, hmp, ⟨⟨fun i hi => ?_, fun i j hi hj heq => ?_⟩,
    fun va hva hp => ?_, fun va hva => ?_, fun j hj => ?_, h.placed.fileInj, fun va hva ho => ?_,
    fun va hva => ?_, fun va e hva he hep => ?_⟩, fun y hy => h.users y hy.1, ?_⟩
  · obtain ⟨hi, hva⟩ := (hused i).mp hi
    change k'.Present p.pgdir (mp i).va
    rw [(hleft i).1]
    exact (hpres _ (h.own.memVa i).1).mpr ⟨hva, h.placed.present i hi⟩
  · refine h.placed.inj i j ((hused i).mp hi).1 ((hused j).mp hj).1 ?_
    rw [← (hleft i).1, ← (hleft j).1]
    exact heq
  · obtain ⟨hlo, hp⟩ := (hpres va hva.1).mp hp
    rcases h.placed.slot va hva hp with hl | ⟨i, hi, hiva⟩
    · exact .inl ⟨hl, hlo⟩
    · exact .inr ⟨i, (hused i).mpr ⟨hi, hiva ▸ hlo⟩, (hleft i).1.trans hiva⟩
  · obtain ⟨hl, hlo⟩ := hva
    obtain ⟨hp, hne⟩ := h.placed.lone va hl
    refine ⟨(hpres va (h.users va hl).1).mpr ⟨hlo, hp⟩, fun i hi => ?_⟩
    change (mp i).va ≠ va
    rw [(hleft i).1]
    exact hne i ((hused i).mp hi).1
  · obtain ⟨ho, hsize⟩ := h.placed.paged j hj
    refine ⟨(hout _ (h.own.fileVa j).1).mpr ⟨?_, ho⟩, hsize⟩
    by_contra hc
    exact hfile j hj ((mem_pageRange_iff hold (h.own.fileVa j)
      ((h.placed.pages _ (h.own.fileVa j).1).mpr (.inr ho))).mpr hc)
  · exact h.placed.filed va hva ((hout va hva.1).mp ho).2
  · change va < pgRoundUp newsz ↔ k'.Present p.pgdir va ∨ k'.PagedOut p.pgdir va
    rw [hpres va hva, hout va hva, ← and_or_left, ← h.placed.pages va hva]
    exact ⟨fun hc => ⟨hc, hc.trans_le hle⟩, And.left⟩
  · have hp' : k'.Present p.pgdir va := ⟨e, he, hep⟩
    obtain ⟨hlo, -⟩ := (hpres va hva).mp hp'
    change k'.walkpgdir p.pgdir va = some e at he
    rw [hwalk hva (hlo.trans_le hle), if_pos hlo] at he
    exact h.placed.clean va e hva he hep
  · obtain ⟨-, -, hpages⟩ := pageAt_deallocuvm h.inv hun hold.le (h.spans hbase) hlt hk
    funext v
    change (k'.pageAt p.pgdir v).or _ = _
    rw [hpages, Flat.unmap, ← h.memory]
    by_cases hc : pgRoundUp newsz ≤ v * pgSize ∧ v * pgSize < oldsz
    · rw [if_pos ⟨rfl, hc⟩, if_pos hc, none_or, map_eq_none_iff]
      refine Proc.fileSlot_eq_none.mpr fun j hj hva => hfile j hj ?_
      change (p.filePages j).va = v * pgSize at hva
      rw [hva]
      exact ⟨by simp only [pgSize]; omega, hc⟩
    · rw [if_neg fun h => hc h.2, if_neg hc]
      rfl

/-! ## Growing by one page -/

/-- The page at the end of the memory is not there yet. -/
theorem Paged.notMem (h : k.Paged pid p a loose m) : a ∉ loose := fun ha =>
  absurd ((h.placed.pages a (h.users a ha).1).mpr (.inl (h.placed.lone a ha).1)) (Nat.lt_irrefl a)

/-- **A new zero page is mapped**, and is loose. -/
theorem Paged.mapNewPage {k2 : Kernel} (h : k.Paged pid p a loose m) (ha : UserPage a)
    (hk : k.kalloc = some (f, k1))
    (hw : (k1.setMem f fun _ => 0).walkpgdirAlloc p.pgdir a = some (e, k2)) (hep : e.p = false) :
    (k2.setPte p.pgdir a { w := true, u := true, addr := f, p := true }).Paged pid p (a + pgSize)
      (insert a loose) (update m (vpn a) (some fun _ => 0)) := by
  have hspec := kalloc_spec hk
  have hp1 : (k1.setMem f fun _ => 0).procs pid = some p := hspec.2.2.2 ▸ h.proc
  have hwalk : ∀ va, (k1.setMem f fun _ => 0).walkpgdir p.pgdir va = k.walkpgdir p.pgdir va := fun va => by
    rw [setMem_walkpgdir, walkpgdir, hspec.2.2.1, ← walkpgdir]
  refine ⟨(((h.inv.kalloc hk).setMem f fun _ => 0).mapNewPage hp1 rfl ha hw hep hspec.1).1, ?_,
    h.placed.mapNew ha (walkpgdir_setPte_self _ (walkpgdir_of_alloc hw)) rfl rfl fun va hv => ?_, ?_, ?_⟩
  · rw [setPte_procs, procs_of_alloc hw, hp1]
  · rw [walkpgdir_setPte_of_ne (.inr hv), ← hwalk]
    exact (walkpgdir_alloc hw p.pgdir va).imp id And.right
  · rintro y (rfl | hy)
    · exact ha
    · exact h.users y hy
  · funext v
    rw [logical, pageAt_mapNewPage h.inv.frames hk ha hw, update_apply, ← h.memory]
    by_cases hv : v = vpn a
    · rw [if_pos ⟨rfl, hv⟩, if_pos hv]
      rfl
    · rw [if_neg fun hc => hv hc.2, if_neg hv]
      rfl

/-- A new page pages no other out. -/
theorem pagedOut_of_mapNewPage {k2 : Kernel} (hk : k.kalloc = some (f, k1))
    (hw : (k1.setMem f fun _ => 0).walkpgdirAlloc p.pgdir a = some (e, k2)) (va : ℕ)
    (h : (k2.setPte p.pgdir a { w := true, u := true, addr := f, p := true }).PagedOut p.pgdir va) :
    k.PagedOut p.pgdir va := by
  obtain ⟨e', he', hep', hpg'⟩ := h
  rcases walk_of_setPte he' with ⟨-, rfl⟩ | ⟨-, he'⟩
  · cases hep'
  · rcases walkpgdir_alloc hw p.pgdir va with heq | ⟨-, -, hz⟩
    · rw [heq, setMem_walkpgdir, walkpgdir, (kalloc_spec hk).2.2.1, ← walkpgdir] at he'
      exact ⟨e', he', hep', hpg'⟩
    · rw [hz] at he'
      cases he'
      cases hpg'

/-- **The new page takes slot `i`**; a page that had it is loose. -/
theorem Paged.storeSlot (h : k.Paged pid p a (insert x loose) m) (hx : x ∉ loose) (pol : Policy)
    (i : Fin maxPsycPages) :
    (k.setProc pid { p.setMemSlot i (newSlot pol p p.pgdir x) with
        timestamp := incUint p.timestamp }).Paged pid
      { p.setMemSlot i (newSlot pol p p.pgdir x) with timestamp := incUint p.timestamp } a
      ({y | (p.memoryPages i).isUsed = true ∧ (p.memoryPages i).va = y} ∪ loose) m := by
  have hux := h.users x (Set.mem_insert ..)
  have hplaced : (p.setMemSlot i (newSlot pol p p.pgdir x)).Placed k a
      ({y | (p.memoryPages i).isUsed = true ∧ (p.memoryPages i).va = y} ∪ loose) := by
    cases hi : (p.memoryPages i).isUsed with
    | false =>
      have hset : {y | false = true ∧ (p.memoryPages i).va = y} ∪ loose = loose := by simp
      rw [hset]
      exact h.placed.setMemSlot hx rfl hi
    | true =>
      have hset : {y | true = true ∧ (p.memoryPages i).va = y} ∪ loose
          = insert (p.memoryPages i).va loose := by
        ext y
        simp [eq_comm]
      have hne : (p.memoryPages i).va ≠ x := (h.placed.lone x (Set.mem_insert ..)).2 i hi
      have hfree := h.placed.freeMemSlot hi
      rw [Set.insert_comm] at hfree
      rw [hset]
      have hover : (p.freeMemSlot i).setMemSlot i (newSlot pol p p.pgdir x)
          = p.setMemSlot i (newSlot pol p p.pgdir x) := by
        simp [Proc.freeMemSlot, Proc.setMemSlot]
      rw [← hover]
      refine hfree.setMemSlot ?_ rfl (by simp [Proc.freeMemSlot, Proc.setMemSlot])
      rintro (hc | hc)
      · exact hne hc.symm
      · exact hx hc
  have hstep : ({ p.setMemSlot i (newSlot pol p p.pgdir x) with timestamp := incUint p.timestamp } : Proc).Placed k a
      ({y | (p.memoryPages i).isUsed = true ∧ (p.memoryPages i).va = y} ∪ loose) :=
    hplaced.congr rfl (fun _ => rfl) rfl le_rfl
  have hown : (p.setMemSlot i (newSlot pol p p.pgdir x)).Own := h.own.setMemSlot hux fun _ => rfl
  refine ⟨h.inv.setProc h.proc rfl rfl
    ⟨hown.size, hown.memVa, hown.fileVa, hown.memDir, hown.fileDir⟩ (.inl hstep.toSettled),
    setProc_procs_self .., hstep.of_walk fun _ => rfl, ?_, ?_⟩
  · rintro y (⟨-, rfl⟩ | hy)
    · exact h.own.memVa i
    · exact h.users y (Set.mem_insert_of_mem _ hy)
  · rw [← h.memory]
    exact logical_congr (fun _ => rfl) (fun _ => rfl) fun _ _ => rfl

/-- A packed process with a free memory slot has nothing in its file. -/
theorem packed_of_free (h : p.Packed) (hfree : p.nextFreeIInMem = some i)
    (hfile : p'.filePages = p.filePages) : p'.Packed := by
  have hno : ∀ j, (p'.filePages j).isUsed ≠ true := fun j hj => by
    rw [hfile] at hj
    have hnone := nextFreeIInMem_eq_none.mpr (h.full j hj)
    rw [hfree] at hnone
    cases hnone
  exact ⟨fun _ j _ hj => absurd hj (hno j), fun j hj => absurd hj (hno j)⟩

/-- A victim goes to the first free file slot, and its memory slot is taken again. -/
theorem packed_swapOut {t : Slot} (h : p.Packed) (hpa : p.Agree q) (hfull : ∀ i, (p.memoryPages i).isUsed = true)
    (hj : p.nextFreeIInFile = some j) (ht : t.isUsed = true) (d x : ℕ) (pg : Page) :
    (((q.freeMemSlot i).pagedTo j d x pg).setMemSlot i t).Packed := by
  have hfile : ∀ l, ((((q.freeMemSlot i).pagedTo j d x pg).setMemSlot i t).filePages l).isUsed = true ↔
      l = j ∨ (p.filePages l).isUsed = true := fun l => by
    change (((q.freeMemSlot i).pagedTo j d x pg).filePages l).isUsed = true ↔ _
    rw [Proc.filePages_pagedTo]
    by_cases hl : l = j
    · simp [hl]
    · rw [if_neg hl, or_iff_right hl, ← hpa.filePages]
      rfl
  refine ⟨fun l l' hle hl' => (hfile l).mpr ?_, fun _ _ l => ?_⟩
  · rcases (hfile l').mp hl' with rfl | hl'
    · rcases hle.lt_or_eq with hlt | rfl
      · exact .inr (Proc.used_of_lt_nextFree hj hlt)
      · exact .inl rfl
    · exact .inr (h.below l l' hle hl')
  · by_cases hl : l = i
    · simp [Proc.setMemSlot, hl, ht]
    · have hq := hpa.full hfull l
      simpa [Proc.setMemSlot, Proc.pagedTo, Proc.enterFile, Proc.setFileSlot, Proc.setSwapFile,
        Proc.freeMemSlot, hl] using hq

/-- **A victim in the first free file slot is found**, and so is every page that was found before. -/
theorem found_swapOut (hfile : q.filePages = p.filePages) (hj : p.nextFreeIInFile = some j) (d x : ℕ) (pg : Page)
    (hva : va ≠ x → p.Found va) : (q.pagedTo j d x pg).Found va := by
  have hju : (p.filePages j).isUsed = false := by simpa using List.find?_some hj
  have hslot : ∀ l, l ≠ j → (q.pagedTo j d x pg).filePages l = p.filePages l := fun l hl => by
    rw [Proc.filePages_pagedTo, if_neg hl, hfile]
  intro l hl
  by_cases hlj : l = j
  · rw [hlj, Proc.filePages_pagedTo, if_pos rfl]
  · rw [hslot l hlj]
    have hlva := va_of_getIOfVaInFile hl
    rw [hslot l hlj] at hlva
    by_cases hx : va = x
    · -- the victim's own slot carries the address, so the one found lies below it
      refine Proc.used_of_lt_nextFree hj (lt_of_le_of_ne (Proc.le_of_getIOfVaInFile hl ?_) hlj)
      rw [Proc.filePages_pagedTo, if_pos rfl, hx]
    · obtain ⟨l0, hl0⟩ : ∃ l0, p.getIOfVaInFile va = some l0 := by
        rw [← isSome_iff_exists, Proc.getIOfVaInFile, List.find?_isSome]
        exact ⟨l, List.mem_finRange l, by simpa using hlva⟩
      have hused := hva hx l0 hl0
      have hl₀j : l0 ≠ j := by
        rintro rfl
        rw [hju] at hused
        cases hused
      have hge : l ≤ l0 := Proc.le_of_getIOfVaInFile hl (by rw [hslot l0 hl₀j, va_of_getIOfVaInFile hl0])
      rwa [le_antisymm hge (Proc.le_of_getIOfVaInFile hl0 hlva)]

/-- The frames for the tables last as long as no table goes and the free list does not shrink. -/
theorem Room.of_walk (h : k.Room d s n) (hlive : (k'.dirs d).isSome)
    (htab : ∀ va, (k'.walkpgdir d va).isSome = (k.walkpgdir d va).isSome)
    (hlen : k.kmem.freelist.length ≤ k'.kmem.freelist.length) : k'.Room d s n := by
  refine ⟨hlive, le_trans ?_ (h.enough.trans hlen)⟩
  have hmiss : k'.missing d s = k.missing d s := by
    ext y
    have hy : pdx (y * 2 ^ 22) = y := by
      have := y.isLt
      ext
      simp only [pdx]
      omega
    have hwalk : ∀ k : Kernel, (k.walkpgdir d (y * 2 ^ 22)).isSome = (k.tableAt d y).isSome := fun k => by
      unfold walkpgdir tableAt
      cases k.dirs d with
      | none => rfl
      | some pd => rw [bind_some, bind_some, PageDir.walk_isSome, hy]
    rw [mem_missing, mem_missing, ← not_isSome_iff_eq_none, ← not_isSome_iff_eq_none,
      ← hwalk, ← hwalk, htab]
  rw [hmiss]

/-- What one new page does to the process: `loose` becomes `loose'`, and no table or frame is lost. -/
structure Entered (pol : Policy) (pid : ℕ) (k : Kernel) (p : Proc) (loose : Set ℕ) (k' : Kernel)
    (p' : Proc) (loose' : Set ℕ) : Prop where
  pgdir : p'.pgdir = p.pgdir
  sz : p'.sz = p.sz
  packed : p.Packed → p'.Packed
  room : ∀ s n, k.Room p.pgdir s n → k'.Room p.pgdir s n
  found : ∀ va, UserPage va → (k.PagedOut p.pgdir va → p.Found va) → k'.PagedOut p.pgdir va → p'.Found va
  fits : 2 < pid → ∀ n, (pol.aq = true → p.QueueFits (n + 1)) →
    loose' = loose ∧ (pol.aq = true → p'.QueueFits n)

/-- A full memory fits any queue. -/
theorem queueFits_of_full (hfull : ∀ i, (p.memoryPages i).isUsed = true) (n : ℕ) : p.QueueFits n := by
  intro t _ ht
  have h0 : p.free = 0 := by
    rw [Proc.free, Finset.card_eq_zero, Finset.filter_eq_empty_iff]
    intro i _
    rw [hfull i]
    decide
  omega

/-- **Entering a new page** in the books of a process keeps the placement and the memory. -/
theorem Paged.trackPage (hacc : acc.Serves) (hkeep : acc.Keeps)
    (h : k.Paged pid p a (insert x loose) m) (hx : x ∉ loose) (ha : a % pgSize = 0)
    (hle : 2 < pid → a ≤ maxTotalPages * pgSize) (hk : trackPage pol acc k pid p.pgdir x = .ok k') :
    ∃ p' loose', k'.Paged pid p' a loose' m ∧ Entered pol pid k p loose k' p' loose' := by
  by_cases hpid : 2 < pid
  swap
  · rw [Kernel.trackPage, if_neg hpid] at hk
    cases hk
    exact ⟨p, _, h, rfl, rfl, id, fun _ _ => id, fun _ _ => id, fun hc => absurd hc hpid⟩
  rw [Kernel.trackPage, if_pos hpid] at hk
  obtain ⟨⟨r, k1⟩, hc, hk⟩ := bind_eq_ok.mp hk
  obtain ⟨p1, hp1, hk⟩ := proc_bind_eq_ok.mp hk
  cases hk
  rcases chooseSlot_eq_ok h.proc hc with ⟨i, hfree, ⟨haq, rfl, rfl⟩ | ⟨haq, rfl, rfl⟩⟩ | ⟨hnone, hswap⟩
  · -- a free slot
    cases mem_unique h.proc hp1
    have hi : (p.memoryPages i).isUsed = false := by simpa using List.find?_some hfree
    refine ⟨_, _, h.storeSlot hx pol i, rfl, rfl, fun hpack => packed_of_free hpack hfree rfl,
      fun s n hroom => ⟨hroom.live, hroom.enough⟩, fun _ _ => id, fun _ n _ => ⟨?_, fun hc => ?_⟩⟩
    · simp [hi]
    · rw [haq] at hc
      cases hc
  · -- the front of the queue, rotated
    rw [setProc_procs_self] at hp1
    cases Option.some.inj hp1
    obtain ⟨p2, h2, -⟩ := h.agree (Agree.setProc h.proc (Policy.agree_aqNext p))
    cases mem_unique h2.proc (setProc_procs_self ..)
    refine ⟨_, _, h2.storeSlot hx pol 0, rfl, rfl, fun hpack => packed_of_free hpack hfree rfl,
      fun s n hroom => ⟨hroom.live, hroom.enough⟩, fun _ _ => id, fun _ n hfits => ⟨?_, fun _ => ?_⟩⟩
    · have hlast : (p.aqNext.memoryPages 0).isUsed = false :=
        hfits haq 0 (Nat.succ_pos n) (Proc.free_pos_of_nextFree hfree)
      simp [hlast]
    · exact (hfits haq).rotate (s := newSlot pol p.aqNext p.pgdir x)
        (Proc.free_pos_of_nextFree hfree) rfl
  · -- an eviction
    have hfull := nextFreeIInMem_eq_none.mp hnone
    have hnext := of_proc_bind h.proc hswap
    obtain ⟨⟨i, k2⟩, hnext, -⟩ := bind_eq_ok.mp hnext
    obtain ⟨⟨r', k3⟩, hk3, rfl, q, j, pg, hpa, hj, h3, hout, htab, hlen⟩ := h.swap_victim hacc hkeep
      (Set.mem_insert ..) ha (hle hpid) hfull hnext
    cases hswap.symm.trans hk3
    cases mem_unique h3.proc hp1
    have hi : (((q.freeMemSlot i).pagedTo j p.pgdir (q.memoryPages i).va pg).memoryPages i).isUsed
        = false := by
      simp [Proc.pagedTo, Proc.freeMemSlot, Proc.setMemSlot, Proc.enterFile, Proc.setFileSlot,
        Proc.setSwapFile]
    have hd : ((q.freeMemSlot i).pagedTo j p.pgdir (q.memoryPages i).va pg).pgdir = p.pgdir := hpa.pgdir
    have hst := h3.storeSlot hx pol i
    rw [hd] at hst
    have hpacked := fun hpack => packed_swapOut (i := i) (t := newSlot pol
      ((q.freeMemSlot i).pagedTo j p.pgdir (q.memoryPages i).va pg) p.pgdir x) hpack hpa hfull hj rfl
      p.pgdir (q.memoryPages i).va pg
    refine ⟨_, _, hst, hpa.pgdir, hpa.sz, fun hpack => ⟨(hpacked hpack).below, (hpacked hpack).full⟩,
      fun s n hroom => (hroom.of_walk ?_ htab hlen), fun va hva hfound ho => ?_,
      fun _ n _ => ⟨?_, fun _ => ?_⟩⟩
    · exact hd ▸ h3.inv.live pid _ h3.proc
    · exact found_swapOut (q := q.freeMemSlot i) hpa.filePages hj p.pgdir (q.memoryPages i).va pg
        fun hne => hfound ((hout va fun hv => hne (hva.eq_of_vpn (hpa.own h.own |>.memVa i) hv)).mp ho)
    · simp only [hi, Bool.false_eq_true, false_and, Set.ofPred_false, Set.empty_union]
    · refine queueFits_of_full (fun l => ?_) n
      by_cases hl : l = i
      · simp [Proc.setMemSlot, hl, newSlot]
      · have hq := hpa.full hfull l
        simpa [Proc.storeMemSlot, Proc.setMemSlot, Proc.pagedTo, Proc.enterFile, Proc.setFileSlot,
          Proc.setSwapFile, Proc.freeMemSlot, hl] using hq

/-! ## Growing -/

/-- One more page, and then the rest. -/
theorem map_succ (m : Flat) (ha : UserPage a) (hlt : a < newsz) :
    Flat.map (update m (vpn a) (some fun _ => 0)) (a + pgSize) newsz = m.map a newsz := by
  funext v
  have hle := le_mul_pgSize_iff ha.2 v
  have hva : v = vpn a ↔ v * pgSize = a := by
    have := ha.2
    rw [vpn_of_lt ha.1]
    simp only [pgSize] at *
    omega
  rw [Flat.map, Flat.map, update_apply]
  split_ifs <;> first | rfl | omega

/-- The frames for the rest of the pages are left after one page. -/
theorem Room.mapNewPage {k2 : Kernel} (h : k.Room d s (n + 1)) (hk : k.kalloc = some (f, k1)) {pg : Page}
    (hw : (k1.setMem f pg).walkpgdirAlloc d a = some (e, k2)) (hs : pdx a ∈ s) (e' : Pte) :
    (k2.setPte d a e').Room d s n := by
  obtain ⟨f', k', hk', hroom⟩ := h.kalloc
  cases mem_unique hk hk'
  obtain ⟨e2, k3, hw', hroom⟩ := (hroom.setMem f pg).walkpgdirAlloc hs
  cases mem_unique hw hw'
  exact hroom.setPte d a e'

/-- **The loop of `allocuvm`** adds zero pages to a paged process, or there were not enough frames. -/
theorem Paged.allocPages (hacc : acc.Serves) (hkeep : acc.Keeps) (hsz : newsz ≤ kernBase) :
    ∀ (n a : ℕ) {k k' : Kernel} {p : Proc} {loose : Set ℕ} {m : Flat} {r : ℕ},
      k.Paged pid p a loose m → a % pgSize = 0 → newsz ≤ a + n * pgSize → a + n * pgSize < newsz + pgSize →
      (2 < pid → a + n * pgSize ≤ maxTotalPages * pgSize) → (∀ va, a ≤ va → va < newsz → pdx va ∈ s) →
      Kernel.allocPages pol acc pid p.pgdir oldsz newsz ((List.range n).map fun i => a + i * pgSize) k
        = .ok (r, k') →
      (r = newsz ∧ ∃ p' loose', k'.Paged pid p' (a + n * pgSize) loose' (m.map a newsz) ∧
        p'.pgdir = p.pgdir ∧ p'.sz = p.sz ∧ (p.Packed → p'.Packed) ∧
        (∀ va, UserPage va → (k.PagedOut p.pgdir va → p.Found va) →
          k'.PagedOut p.pgdir va → p'.Found va) ∧
        (2 < pid → (pol.aq = true → p.QueueFits n) → loose' = loose)) ∨
      r = 0 ∧ ¬ k.Room p.pgdir s n
  | 0, a, k, k', p, loose, m, r, h, _, hle, _, _, _, hk => by
    cases hk
    refine .inl ⟨rfl, p, loose, ?_, rfl, rfl, id, fun _ _ => id, fun _ _ => rfl⟩
    have hmap : m.map a newsz = m := by
      funext v
      rw [Flat.map, if_neg (by omega)]
    rwa [hmap, Nat.zero_mul, Nat.add_zero]
  | n + 1, a, k, k', p, loose, m, r, h, ha, hle, hhi, htot, hs, hk => by
    rw [map_range_succ] at hk
    have hadd : a + (n + 1) * pgSize = a + pgSize + n * pgSize := by ring
    rw [hadd] at hle hhi htot ⊢
    have hlt : a < newsz := by omega
    have hua : UserPage a := ⟨by omega, ha⟩
    have hax := hs a le_rfl hlt
    rcases allocPages_cons hua hk with
      ⟨h0, hnone, -⟩ | ⟨f, k1, hk1, ⟨h0, hnone, -⟩ | ⟨e, k2, k3, hw, hep, hk3, hk⟩⟩
    · refine .inr ⟨h0, fun hroom => ?_⟩
      obtain ⟨f, k', hk', -⟩ := hroom.kalloc
      rw [hnone] at hk'
      cases hk'
    · -- no frame for a page table
      refine .inr ⟨h0, fun hroom => ?_⟩
      obtain ⟨f', k', hk', hroom⟩ := hroom.kalloc
      cases mem_unique hk1 hk'
      obtain ⟨e, k2, hw, -⟩ := (hroom.setMem f fun _ => 0).walkpgdirAlloc hax
      rw [hnone] at hw
      cases hw
    · have h2 := h.mapNewPage hua hk1 hw hep
      obtain ⟨p3, loose3, h3, hent⟩ := h2.trackPage hacc hkeep h.notMem
        (by simp only [pgSize] at *; omega) (fun hpid => le_trans (Nat.le_add_right ..) (htot hpid)) hk3
      rw [← hent.pgdir] at hk
      rcases Paged.allocPages hacc hkeep hsz n (a + pgSize) h3 (by simp only [pgSize] at *; omega) hle
        hhi htot (fun va hlo hva => hs va (by omega) hva) hk with
        ⟨hr, p', loose', h', hd', hsz', hpack', hfound', hfit'⟩ | ⟨hr, hroom⟩
      · refine .inl ⟨hr, p', loose', map_succ m hua hlt ▸ h', hd'.trans hent.pgdir,
          hsz'.trans hent.sz, fun hpack => hpack' (hent.packed hpack), fun va hva hfound => ?_,
          fun hpid hfit => ?_⟩
        · have hold2 := pagedOut_of_mapNewPage hk1 hw va
          have hnew := hfound' va hva
          rw [hent.pgdir] at hnew
          exact hnew (hent.found va hva fun ho => hfound (hold2 ho))
        · obtain ⟨heq, hfit3⟩ := hent.fits hpid n hfit
          exact (hfit' hpid hfit3).trans heq
      · refine .inr ⟨hr, fun hall => hroom ?_⟩
        rw [hent.pgdir]
        exact hent.room s n (hall.mapNewPage hk1 hw hax _)

/-- The page tables of the addresses from `lo` on below `hi`. -/
def tablesOf (lo hi : ℕ) : Finset (Fin 1024) :=
  Finset.univ.filter fun x => lo / 2 ^ 22 ≤ x ∧ x * 2 ^ 22 < hi

/-- **A paged process grows**: `allocuvm` adds zero pages, or refuses and changes nothing, or there were not
enough frames. -/
theorem Paged.allocuvm {r : ℕ} (hacc : acc.Serves) (hkeep : acc.Keeps)
    (h : k.Paged pid p (pgRoundUp oldsz) loose m) (hold : oldsz < kernBase)
    (htot : 2 < pid → newsz ≤ maxTotalPages * pgSize)
    (hk : Kernel.allocuvm pol acc k pid p.pgdir oldsz newsz = .ok (r, k')) :
    (newsz ≤ r ∧ r < kernBase ∧ ∃ p' loose', k'.Paged pid p' (pgRoundUp r) loose' (m.map (pgRoundUp oldsz) newsz) ∧
      p'.pgdir = p.pgdir ∧ p'.sz = p.sz ∧ (p.Packed → p'.Packed) ∧
      (∀ va, UserPage va → (k.PagedOut p.pgdir va → p.Found va) →
        k'.PagedOut p.pgdir va → p'.Found va) ∧
      (2 < pid → (pol.aq = true → p.QueueFits (pagesFrom (pgRoundUp oldsz) newsz).length) →
        loose' = loose)) ∨
    r = 0 ∧ (k' = k ∨ ¬ k.Room p.pgdir (tablesOf (pgRoundUp oldsz) newsz)
      (pagesFrom (pgRoundUp oldsz) newsz).length) := by
  have hmapnil : newsz ≤ pgRoundUp oldsz → m.map (pgRoundUp oldsz) newsz = m := fun hle => by
    funext v
    rw [Flat.map, if_neg (by omega)]
  rcases allocuvm_eq_ok hk with ⟨rfl, rfl | ⟨rfl, hlt⟩⟩ | ⟨hnew, hge, -, hk⟩
  · exact .inr ⟨rfl, .inl rfl⟩
  · have hge := le_pgRoundUp hold
    refine .inl ⟨by omega, hold, p, loose, ?_, rfl, rfl, id, fun _ _ => id, fun _ _ => rfl⟩
    rwa [hmapnil (by omega)]
  have hup := pgRoundUp_of_lt hold
  have hup' : pgRoundUp newsz = (newsz + (pgSize - 1)) / pgSize * pgSize := pgRoundUp_of_lt hnew
  have hlen : (pagesFrom (pgRoundUp oldsz) newsz).length
      = (newsz + (pgSize - 1) - pgRoundUp oldsz) / pgSize := by simp [pagesFrom]
  have hlast := pagesFrom_end hold hnew hge
  by_cases hle : newsz ≤ pgRoundUp oldsz
  · -- the last page has room left
    have hzero : (newsz + (pgSize - 1) - pgRoundUp oldsz) / pgSize = 0 := by
      rw [hup] at hle ⊢
      simp only [pgSize] at *
      omega
    rw [hzero, Nat.zero_mul, Nat.add_zero] at hlast
    rw [pagesFrom, hzero] at hk
    cases hk
    refine .inl ⟨le_rfl, by omega, p, loose, ?_, rfl, rfl, id, fun _ _ => id, fun _ _ => rfl⟩
    rwa [hmapnil hle, ← hlast]
  · have hhi : pgRoundUp newsz < newsz + pgSize := by
      rw [hup']
      simp only [pgSize]
      omega
    have hlow : newsz ≤ pgRoundUp newsz := le_pgRoundUp (by omega)
    have hbound : 2 < pid → pgRoundUp newsz ≤ maxTotalPages * pgSize := fun hpid => by
      have := htot hpid
      rw [hup']
      simp only [maxTotalPages, pgSize] at *
      omega
    have htab : ∀ va, pgRoundUp oldsz ≤ va → va < newsz →
        pdx va ∈ tablesOf (pgRoundUp oldsz) newsz := fun va hlo hva => by
      simp only [tablesOf, Finset.mem_filter, Finset.mem_univ, true_and, pdx]
      simp only [kernBase] at *
      omega
    rcases h.allocPages hacc hkeep (by omega) _ _ (pgRoundUp_mod oldsz) (by rw [hlast]; exact hlow)
      (by rw [hlast]; exact hhi) (by rw [hlast]; exact hbound) htab hk with ⟨rfl, hres⟩ | ⟨hr, hroom⟩
    · rw [hlast, ← hlen] at hres
      exact .inl ⟨le_rfl, by omega, hres⟩
    · rw [← hlen] at hroom
      exact .inr ⟨hr, .inr hroom⟩

end Kernel

end Xv6
