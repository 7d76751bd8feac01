import Xv6.Vm.Contents

/-!
# Vm/Placed — every page in one place

A page of a paged process is *present*, and then one used entry of `memory_pages` names it; or it is
*paged out*, and then one used entry of `file_pages` names it and its bytes lie in that slot of the swap
file.  `Proc.Placed p k a loose` says this of all pages below address `a`, except that the pages of
`loose` are present and have no entry yet: inside a page fault or a growth there may be one.

`Kernel.logical` is the memory the process should see, wherever its pages are.  Each lemma below is
one move of a page, with what it does to the placement and to the logical memory.
-/

namespace Xv6

open Outcome Function Finset

/-- The entry of a page is marked paged out. -/
def Kernel.PagedOut (k : Kernel) (d va : ℕ) : Prop :=
  ∃ e, k.walkpgdir d va = some e ∧ e.p = false ∧ e.pg = true

namespace Proc

/-- The used file slot of a page. -/
def fileSlot (p : Proc) (va : ℕ) : Option (Fin maxPsycPages) :=
  (List.finRange maxPsycPages).find? fun j => (p.filePages j).isUsed && (p.filePages j).va == va

/-- **Every page below `a` is in exactly one place**, but the loose ones have no slot. -/
structure Placed (p : Proc) (k : Kernel) (a : ℕ) (loose : Set ℕ) : Prop extends p.Settled k where
  slot : ∀ va, UserPage va → k.Present p.pgdir va →
    va ∈ loose ∨ ∃ i, (p.memoryPages i).isUsed = true ∧ (p.memoryPages i).va = va
  lone : ∀ va ∈ loose, k.Present p.pgdir va ∧
    ∀ i, (p.memoryPages i).isUsed = true → (p.memoryPages i).va ≠ va
  paged : ∀ j, (p.filePages j).isUsed = true → k.PagedOut p.pgdir (p.filePages j).va ∧
    (j + 1) * pgSize ≤ p.swapFile.size
  fileInj : ∀ i j, (p.filePages i).isUsed = true → (p.filePages j).isUsed = true →
    (p.filePages i).va = (p.filePages j).va → i = j
  filed : ∀ va, UserPage va → k.PagedOut p.pgdir va →
    ∃ j, (p.filePages j).isUsed = true ∧ (p.filePages j).va = va
  pages : ∀ va, va < kernBase → (va < a ↔ k.Present p.pgdir va ∨ k.PagedOut p.pgdir va)
  clean : ∀ va e, va < kernBase → k.walkpgdir p.pgdir va = some e → e.p = true → e.pg = false

/-- **Each page of the process is in exactly one place.** -/
abbrev OnePlace (p : Proc) (k : Kernel) : Prop := p.Placed k (pgRoundUp p.sz) ∅

variable {p p' : Proc} {k k' : Kernel} {a va : ℕ} {loose : Set ℕ} {s : Slot} {i j : Fin maxPsycPages}

theorem fileSlot_eq_none : p.fileSlot va = none ↔
    ∀ j, (p.filePages j).isUsed = true → (p.filePages j).va ≠ va := by
  simp [fileSlot]

theorem fileSlot_some (h : p.fileSlot va = some j) :
    (p.filePages j).isUsed = true ∧ (p.filePages j).va = va := by
  simpa using List.find?_some h

/-- The used slot of a page is the one the placement knows. -/
theorem Placed.fileSlot_eq (h : p.Placed k a loose) (hj : (p.filePages j).isUsed = true)
    (hva : (p.filePages j).va = va) : p.fileSlot va = some j := by
  cases hs : p.fileSlot va with
  | none => exact absurd hva (fileSlot_eq_none.mp hs j hj)
  | some l =>
    obtain ⟨hl, hlva⟩ := fileSlot_some hs
    rw [h.fileInj l j hl hj (hlva.trans hva.symm)]

end Proc

namespace Kernel

variable {k k' : Kernel} {held : Multiset ℕ} {d a va x f pid : ℕ} {p p' : Proc} {loose : Set ℕ} {e e' : Pte}
  {s : Slot} {i j : Fin maxPsycPages} {pg : Page}

/-- A page is not both present and paged out. -/
theorem PagedOut.not_present (h : k.PagedOut d va) : ¬ k.Present d va := by
  rintro ⟨e, he, hp⟩
  obtain ⟨e', he', hp', -⟩ := h
  cases Option.mem_unique he he'
  rw [hp] at hp'
  cases hp'

theorem pagedOut_congr {va' : ℕ} (h : vpn va = vpn va') : k.PagedOut d va ↔ k.PagedOut d va' := by
  rw [PagedOut, PagedOut, k.walkpgdir_congr d h]

/-- What an entry says apart from `PTE_A` agrees. -/
theorem Agree.exists_entry (h : k.Agree k') (P : Pte → Prop) (hP : ∀ e, P e ↔ P e.unmark) :
    (∃ e, k'.walkpgdir d va = some e ∧ P e) ↔ ∃ e, k.walkpgdir d va = some e ∧ P e := by
  have hw := h.walk d va
  cases h1 : k.walkpgdir d va with
  | none =>
    rw [h1, Option.map_none, Option.map_eq_none_iff] at hw
    simp [hw]
  | some e =>
    rw [h1, Option.map_some, Option.map_eq_some_iff] at hw
    obtain ⟨e', he', heq⟩ := hw
    simp [he', hP e', hP e, heq]

theorem Agree.present_iff (h : k.Agree k') : k'.Present d va ↔ k.Present d va :=
  h.exists_entry (fun e => e.p = true) fun _ => Iff.rfl

theorem Agree.pagedOut_iff (h : k.Agree k') : k'.PagedOut d va ↔ k.PagedOut d va :=
  h.exists_entry (fun e => e.p = false ∧ e.pg = true) fun _ => Iff.rfl

/-! ## The logical memory -/

/-- **The memory of a process**, wherever its pages are. -/
def logical (k : Kernel) (p : Proc) : ℕ → Option Page := fun v =>
  (k.pageAt p.pgdir v).or
    ((p.fileSlot (v * pgSize)).map fun j : Fin maxPsycPages => p.swapFile.page j)

theorem logical_of_pageAt {v : ℕ} (h : k.pageAt p.pgdir v = some pg) : k.logical p v = some pg := by
  rw [logical, h]
  rfl

/-- Where the tables, the frames and the swap file are the same, so is the memory. -/
theorem logical_congr (hpages : ∀ v, k'.pageAt p'.pgdir v = k.pageAt p.pgdir v)
    (hslot : ∀ va, p'.fileSlot va = p.fileSlot va)
    (hfile : ∀ j, (p.filePages j).isUsed = true → p'.swapFile.page j = p.swapFile.page j) :
    k'.logical p' = k.logical p := by
  funext v
  rw [logical, logical, hpages, hslot]
  cases hs : p.fileSlot (v * pgSize) with
  | none => rfl
  | some j => rw [Option.map_some, Option.map_some, hfile j (Proc.fileSlot_some hs).1]

theorem fileSlot_of_filePages (h : p'.filePages = p.filePages) (va : ℕ) :
    p'.fileSlot va = p.fileSlot va := by
  rw [Proc.fileSlot, Proc.fileSlot, h]

/-- The file slot of a page that slot `j` does not name, before and after a change of slot `j`. -/
theorem fileSlot_of_ne (hpages : ∀ l, l ≠ j → p'.filePages l = p.filePages l)
    (hj : (p.filePages j).isUsed = true → (p.filePages j).va ≠ va)
    (hj' : (p'.filePages j).isUsed = true → (p'.filePages j).va ≠ va) :
    p'.fileSlot va = p.fileSlot va := by
  have hpred : ∀ l, ((p'.filePages l).isUsed && (p'.filePages l).va == va)
      = ((p.filePages l).isUsed && (p.filePages l).va == va) := by
    intro l
    by_cases hl : l = j
    · subst hl
      have hfalse : ∀ {s : Slot}, (s.isUsed = true → s.va ≠ va) → (s.isUsed && s.va == va) = false :=
        fun hs => by simpa using hs
      rw [hfalse hj, hfalse hj']
    · rw [hpages l hl]
  rw [Proc.fileSlot, Proc.fileSlot]
  simp only [hpred]

/-- The address of another page. -/
theorem ne_of_vpn_ne {v : ℕ} (hx : UserPage x) (hv : v ≠ vpn x) : v * pgSize ≠ x := by
  rintro rfl
  rw [vpn_of_lt hx.1] at hv
  simp only [pgSize] at *
  omega

theorem vpn_mul_pgSize (hx : UserPage x) : vpn x * pgSize = x := by
  obtain ⟨h1, h2⟩ := hx
  rw [vpn_of_lt h1]
  simp only [pgSize] at *
  omega

end Kernel

/-! ## What a placement does not look at -/

namespace Proc

open Kernel

variable {p p' : Proc} {k k' : Kernel} {a va x d f : ℕ} {loose : Set ℕ} {s : Slot}
  {i j : Fin maxPsycPages} {e : Pte} {pol : Policy} {pg : Page}

section

variable (h : p.Placed k a loose)

include h

/-- A placement looks at the flags `PTE_P` and `PTE_PG` of the directory. -/
theorem Placed.of_entries
    (hpres : ∀ va, k'.Present p.pgdir va ↔ k.Present p.pgdir va)
    (hout : ∀ va, k'.PagedOut p.pgdir va ↔ k.PagedOut p.pgdir va)
    (hclean : ∀ va e, va < kernBase → k'.walkpgdir p.pgdir va = some e → e.p = true → e.pg = false) :
    p.Placed k' a loose :=
  ⟨⟨fun i hi => (hpres _).mpr (h.present i hi), h.inj⟩,
    fun va hva hp => h.slot va hva ((hpres va).mp hp),
    fun va hva => ⟨(hpres va).mpr (h.lone va hva).1, (h.lone va hva).2⟩,
    fun j hj => ⟨(hout _).mpr (h.paged j hj).1, (h.paged j hj).2⟩, h.fileInj,
    fun va hva ho => h.filed va hva ((hout va).mp ho),
    fun va hva => by rw [hpres, hout]; exact h.pages va hva, hclean⟩

theorem Placed.of_walk
    (hk : ∀ va, k'.walkpgdir p.pgdir va = k.walkpgdir p.pgdir va) : p.Placed k' a loose :=
  h.of_entries (fun va => by rw [Present, Present, hk]) (fun va => by rw [PagedOut, PagedOut, hk])
    fun va e hva he => h.clean va e hva (by rw [← hk, he])

/-- A placement does not look at the books of a policy. -/
theorem Placed.agree (hk : k.Agree k') (hp : p.Agree p') :
    p'.Placed k' a loose := by
  obtain ⟨σ, hσ⟩ := hp.memoryPages
  simp only [Slot.core, Prod.mk.injEq] at hσ
  refine ⟨hp.settled (fun va => hk.present) h.toSettled, fun va hva hpres => ?_, fun va hva => ?_,
    fun j hj => ?_, fun i j => ?_, fun va hva ho => ?_, fun va hva => ?_, fun va e' hva he' hep => ?_⟩
  · rw [hp.pgdir, hk.present_iff] at hpres
    refine (h.slot va hva hpres).imp id fun hslot => ?_
    obtain ⟨i, hi, hva⟩ := hslot
    refine ⟨σ.symm i, ?_, ?_⟩
    · rw [(hσ _).2.2, Equiv.apply_symm_apply, hi]
    · rw [(hσ _).2.1, Equiv.apply_symm_apply, hva]
  · rw [hp.pgdir, hk.present_iff]
    refine ⟨(h.lone va hva).1, fun i hi => ?_⟩
    rw [(hσ i).2.1]
    exact (h.lone va hva).2 _ ((hσ i).2.2 ▸ hi)
  · rw [hp.filePages] at hj ⊢
    rw [hp.pgdir, hk.pagedOut_iff, hp.swapFile]
    exact h.paged j hj
  · rw [hp.filePages]
    exact h.fileInj i j
  · rw [hp.pgdir, hk.pagedOut_iff] at ho
    rw [hp.filePages]
    exact h.filed va hva ho
  · rw [hp.pgdir, hk.present_iff, hk.pagedOut_iff]
    exact h.pages va hva
  · rw [hp.pgdir] at he'
    obtain ⟨e, he, heq⟩ := hk.exists_walk he'
    obtain ⟨-, hp', -, -, hpg, -⟩ := Pte.unmark_eq heq
    rw [hpg]
    exact h.clean va e hva he (hp' ▸ hep)

/-- A placement looks at the slots of a process and at the size of its swap file. -/
theorem Placed.congr (hd : p'.pgdir = p.pgdir)
    (hmem : ∀ i, (p'.memoryPages i).core = (p.memoryPages i).core)
    (hfile : p'.filePages = p.filePages) (hsize : p.swapFile.size ≤ p'.swapFile.size) :
    p'.Placed k a loose := by
  simp only [Slot.core, Prod.mk.injEq] at hmem
  refine ⟨⟨fun i => ?_, fun i j => ?_⟩, fun va => ?_, fun va hva => ⟨?_, fun i => ?_⟩, fun j hj => ?_,
    fun i j => ?_, fun va => ?_, fun va => ?_, fun va e => ?_⟩
  · rw [hd, (hmem i).2.1, (hmem i).2.2]
    exact h.present i
  · rw [(hmem i).2.1, (hmem i).2.2, (hmem j).2.1, (hmem j).2.2]
    exact h.inj i j
  · simp only [hd, hmem]
    exact h.slot va
  · rw [hd]
    exact (h.lone va hva).1
  · rw [(hmem i).2.1, (hmem i).2.2]
    exact (h.lone va hva).2 i
  · rw [hfile] at hj ⊢
    rw [hd]
    exact ⟨(h.paged j hj).1, (h.paged j hj).2.trans hsize⟩
  · rw [hfile]
    exact h.fileInj i j
  · rw [hd, hfile]
    exact h.filed va
  · rw [hd]
    exact h.pages va
  · rw [hd]
    exact h.clean va e

/-! ## Memory slots -/

/-- The page of a released slot is loose. -/
theorem Placed.freeMemSlot (hu : (p.memoryPages i).isUsed = true) :
    (p.freeMemSlot i).Placed k a (insert (p.memoryPages i).va loose) := by
  refine ⟨h.toSettled.freeMemSlot, fun va hva hp => ?_, fun va hva => ?_, h.paged, h.fileInj, h.filed,
    h.pages, h.clean⟩
  · rcases h.slot va hva hp with hl | ⟨l, hl, rfl⟩
    · exact .inl (Set.mem_insert_of_mem _ hl)
    · by_cases hli : l = i
      · rw [hli]
        exact .inl (Set.mem_insert ..)
      · exact .inr ⟨l, by simp [Proc.freeMemSlot, Proc.setMemSlot, hli, hl]⟩
  · rcases hva with rfl | hva
    · refine ⟨h.present i hu, fun l hl heq => ?_⟩
      obtain ⟨hli, hleq⟩ := freeMemSlot_used hl
      rw [hleq] at hl heq
      exact hli (h.inj l i hl hu heq)
    · refine ⟨(h.lone va hva).1, fun l hl => ?_⟩
      obtain ⟨-, hleq⟩ := freeMemSlot_used hl
      rw [hleq] at hl ⊢
      exact (h.lone va hva).2 l hl

end

/-- A loose page gets a free slot. -/
theorem Placed.setMemSlot (h : p.Placed k a (insert s.va loose)) (hx : s.va ∉ loose)
    (hu : s.isUsed = true) (hi : (p.memoryPages i).isUsed = false) :
    (p.setMemSlot i s).Placed k a loose := by
  have hlone := h.lone s.va (Set.mem_insert ..)
  have hslot : ∀ l, ((p.setMemSlot i s).memoryPages l).isUsed = true →
      l = i ∧ (p.setMemSlot i s).memoryPages l = s ∨
        (p.memoryPages l).isUsed = true ∧ (p.setMemSlot i s).memoryPages l = p.memoryPages l := by
    intro l hl
    by_cases hli : l = i
    · subst hli
      exact .inl ⟨rfl, by simp [Proc.setMemSlot]⟩
    · have heq : (p.setMemSlot i s).memoryPages l = p.memoryPages l := by simp [Proc.setMemSlot, hli]
      exact .inr ⟨heq ▸ hl, heq⟩
  refine ⟨h.toSettled.setMemSlot fun _ => ⟨hlone.1, fun l _ hl => hlone.2 l hl⟩, fun va hva hp => ?_,
    fun va hva => ⟨(h.lone va (Set.mem_insert_of_mem _ hva)).1, fun l hl => ?_⟩, h.paged, h.fileInj,
    h.filed, h.pages, h.clean⟩
  · rcases h.slot va hva hp with (rfl | hl) | ⟨l, hl, rfl⟩
    · exact .inr ⟨i, by simp [Proc.setMemSlot, hu]⟩
    · exact .inl hl
    · have hli : l ≠ i := by
        rintro rfl
        rw [hi] at hl
        cases hl
      exact .inr ⟨l, by simp [Proc.setMemSlot, hli, hl]⟩
  · rcases hslot l hl with ⟨-, heq⟩ | ⟨hl, heq⟩
    · rw [heq]
      rintro rfl
      exact hx hva
    · rw [heq]
      exact (h.lone va (Set.mem_insert_of_mem _ hva)).2 l hl

/-! ## Moves between memory and file -/

theorem present_setPte_iff {e' : Pte} (hw : k.walkpgdir d x = some e) :
    (k.setPte d x e').Present d va ↔ if vpn va = vpn x then e'.p = true else k.Present d va := by
  rw [Present, walkpgdir_setPte]
  by_cases hv : vpn va = vpn x
  · rw [if_pos ⟨rfl, hv⟩, if_pos hv, k.walkpgdir_congr d hv, hw]
    simp
  · rw [if_neg fun hc => hv hc.2, if_neg hv, Present]

theorem pagedOut_setPte_iff {e' : Pte} (hw : k.walkpgdir d x = some e) :
    (k.setPte d x e').PagedOut d va
      ↔ if vpn va = vpn x then e'.p = false ∧ e'.pg = true else k.PagedOut d va := by
  rw [PagedOut, walkpgdir_setPte]
  by_cases hv : vpn va = vpn x
  · rw [if_pos ⟨rfl, hv⟩, if_pos hv, k.walkpgdir_congr d hv, hw]
    simp
  · rw [if_neg fun hc => hv hc.2, if_neg hv, PagedOut]

/-- An entry that stays present, or paged out, or neither. -/
theorem Placed.reflag {e' : Pte} (h : p.Placed k a loose) (hw : k.walkpgdir p.pgdir x = some e)
    (hp : e'.p = e.p) (hpg : e'.pg = e.pg) : p.Placed (k.setPte p.pgdir x e') a loose := by
  refine h.of_entries (fun va => ?_) (fun va => ?_) fun va e1 hva he1 hp1 => ?_
  · rw [present_setPte_iff hw]
    split
    · rename_i hv
      rw [present_congr hv, Present, hw, hp]
      simp
    · rfl
  · rw [pagedOut_setPte_iff hw]
    split
    · rename_i hv
      rw [pagedOut_congr hv, PagedOut, hw, hp, hpg]
      simp
    · rfl
  · rcases walk_of_setPte he1 with ⟨hc, rfl⟩ | ⟨-, he1⟩
    · rw [hpg]
      exact h.clean va e hva (by rw [k.walkpgdir_congr _ hc.2, hw]) (hp ▸ hp1)
    · exact h.clean va e1 hva he1 hp1

/-- The process after page `x` has been written to file slot `j`. -/
def pagedTo (p : Proc) (j : Fin maxPsycPages) (d x : ℕ) (pg : Page) : Proc :=
  (p.setSwapFile (p.swapFile.write (j * pgSize) pg)).enterFile j d x

theorem filePages_pagedTo (p : Proc) (j : Fin maxPsycPages) (d x : ℕ) (pg : Page)
    (l : Fin maxPsycPages) : (p.pagedTo j d x pg).filePages l
      = if l = j then { p.filePages j with pgdir := d, va := x, isUsed := true }
        else p.filePages l := by
  by_cases hl : l = j
  · subst hl
    simp [pagedTo, enterFile, setFileSlot, setSwapFile]
  · simp [pagedTo, enterFile, setFileSlot, setSwapFile, hl]

/-- **A loose page is paged out** to a free slot of the file. -/
theorem Placed.pageOut (h : p.Placed k a (insert x loose)) (ho : p.Own) (hx : x ∉ loose)
    (hxu : UserPage x) (hw : k.walkpgdir p.pgdir x = some e)
    (hj : (p.filePages j).isUsed = false) (d : ℕ) (pg : Page)
    (hloose : ∀ y ∈ loose, UserPage y) :
    (p.pagedTo j d x pg).Placed (k.setPte p.pgdir x e.inDisk) a loose := by
  have hpres : ∀ va, (k.setPte p.pgdir x e.inDisk).Present p.pgdir va ↔
      vpn va ≠ vpn x ∧ k.Present p.pgdir va := fun va => by
    rw [present_setPte_iff hw]
    by_cases hv : vpn va = vpn x
    · simp [hv, Pte.inDisk]
    · simp [hv]
  have hout : ∀ va, (k.setPte p.pgdir x e.inDisk).PagedOut p.pgdir va ↔
      vpn va = vpn x ∨ k.PagedOut p.pgdir va := fun va => by
    rw [pagedOut_setPte_iff hw]
    by_cases hv : vpn va = vpn x
    · simp [hv, Pte.inDisk]
    · simp [hv]
  have hlone := h.lone x (Set.mem_insert ..)
  have hsize : p.swapFile.size ≤ (p.pagedTo j d x pg).swapFile.size := le_max_left ..
  refine ⟨⟨fun i hi => (hpres _).mpr ⟨fun hv => ?_, h.present i hi⟩, h.inj⟩, fun va hva hp => ?_,
    fun va hva => ⟨(hpres va).mpr ⟨fun hv => ?_, ?_⟩, ?_⟩, fun l hl => ?_, fun l l' hl hl' heq => ?_,
    fun va hva hp => ?_, fun va hva => ?_, fun va e' hva he' hep => ?_⟩
  · exact hlone.2 i hi ((ho.memVa i).eq_of_vpn hxu hv)
  · obtain ⟨hv, hp⟩ := (hpres va).mp hp
    rcases h.slot va hva hp with (rfl | hl) | hi
    · exact absurd rfl hv
    · exact .inl hl
    · exact .inr hi
  · rw [(hloose va hva).eq_of_vpn hxu hv] at hva
    exact hx hva
  · exact (h.lone va (Set.mem_insert_of_mem _ hva)).1
  · exact (h.lone va (Set.mem_insert_of_mem _ hva)).2
  · rw [filePages_pagedTo] at hl ⊢
    change (k.setPte p.pgdir x e.inDisk).PagedOut p.pgdir _ ∧ _
    by_cases hlj : l = j
    · rw [if_pos hlj, hout]
      refine ⟨.inl rfl, ?_⟩
      subst hlj
      change (l + 1) * pgSize ≤ max _ _
      exact le_max_of_le_right (by rw [Nat.add_mul, Nat.one_mul])
    · rw [if_neg hlj] at hl ⊢
      rw [hout]
      exact ⟨.inr (h.paged l hl).1, (h.paged l hl).2.trans hsize⟩
  · -- no used slot named the present page
    have hno : ∀ l, (p.filePages l).isUsed = true → (p.filePages l).va ≠ x := fun l hl hva =>
      (h.paged l hl).1.not_present (hva ▸ hlone.1)
    rw [filePages_pagedTo] at hl hl' heq
    rw [filePages_pagedTo] at heq
    by_cases hlj : l = j
    · by_cases hlj' : l' = j
      · exact hlj.trans hlj'.symm
      · rw [if_neg hlj'] at hl' heq
        rw [if_pos hlj] at heq
        exact absurd heq.symm (hno l' hl')
    · rw [if_neg hlj] at hl heq
      by_cases hlj' : l' = j
      · rw [if_pos hlj'] at heq
        exact absurd heq (hno l hl)
      · rw [if_neg hlj'] at hl' heq
        exact h.fileInj l l' hl hl' heq
  · rcases (hout va).mp hp with hv | hp
    · refine ⟨j, ?_⟩
      rw [filePages_pagedTo, if_pos rfl]
      exact ⟨rfl, (hva.eq_of_vpn hxu hv).symm⟩
    · obtain ⟨l, hl, hlva⟩ := h.filed va hva hp
      have hlj : l ≠ j := by
        rintro rfl
        rw [hj] at hl
        cases hl
      exact ⟨l, by rw [filePages_pagedTo, if_neg hlj]; exact ⟨hl, hlva⟩⟩
  · change va < a ↔ (k.setPte p.pgdir x e.inDisk).Present p.pgdir va ∨
      (k.setPte p.pgdir x e.inDisk).PagedOut p.pgdir va
    rw [hpres, hout, h.pages va hva]
    by_cases hv : vpn va = vpn x
    · have hpx : k.Present p.pgdir va := (present_congr hv).mpr hlone.1
      simp [hv, hpx]
    · simp [hv]
  · have he : (k.setPte p.pgdir x e.inDisk).walkpgdir p.pgdir va = some e' := he'
    rcases walk_of_setPte he with ⟨-, rfl⟩ | ⟨-, he⟩
    · cases hep
    · exact h.clean va e' hva he hep

theorem filePages_loadSlot (pol : Policy) (p : Proc) (i j l : Fin maxPsycPages) :
    (loadSlot pol p i j).filePages l
      = if l = j then { p.filePages j with isUsed := false, age := 0 } else p.filePages l := by
  by_cases hl : l = j
  · subst hl
    simp [loadSlot, setMemSlot, setFileSlot]
  · simp [loadSlot, setMemSlot, setFileSlot, hl]

/-- The page of file slot `j` comes in and is loose. -/
theorem Placed.freeFileSlot (h : p.Placed k a loose) (ho : p.Own) (hj : (p.filePages j).isUsed = true)
    (hw : k.walkpgdir p.pgdir (p.filePages j).va = some e) (hs : s.isUsed = false) :
    (p.setFileSlot j s).Placed (k.setPte p.pgdir (p.filePages j).va (e.inMem f)) a
      (insert (p.filePages j).va loose) := by
  have hxout := (h.paged j hj).1
  have hpres : ∀ va, (k.setPte p.pgdir (p.filePages j).va (e.inMem f)).Present p.pgdir va ↔
      vpn va = vpn (p.filePages j).va ∨ k.Present p.pgdir va := fun va => by
    rw [present_setPte_iff hw]
    by_cases hv : vpn va = vpn (p.filePages j).va
    · simp [hv, Pte.inMem]
    · simp [hv]
  have hout : ∀ va, (k.setPte p.pgdir (p.filePages j).va (e.inMem f)).PagedOut p.pgdir va ↔
      vpn va ≠ vpn (p.filePages j).va ∧ k.PagedOut p.pgdir va := fun va => by
    rw [pagedOut_setPte_iff hw]
    by_cases hv : vpn va = vpn (p.filePages j).va
    · simp [hv, Pte.inMem]
    · simp [hv]
  have hused : ∀ l, ((p.setFileSlot j s).filePages l).isUsed = true →
      l ≠ j ∧ (p.setFileSlot j s).filePages l = p.filePages l := fun l hl => by
    by_cases hlj : l = j
    · simp [setFileSlot, hlj, hs] at hl
    · exact ⟨hlj, by simp [setFileSlot, hlj]⟩
  refine ⟨⟨fun l hl => (hpres _).mpr (.inr (h.present l hl)), h.inj⟩, fun va hva hp => ?_,
    fun va hva => ⟨(hpres va).mpr (hva.imp (fun heq => by rw [heq]) fun hl => (h.lone va hl).1), ?_⟩,
    fun l hl => ?_, fun l l' hl hl' heq => ?_, fun va hva hp => ?_, fun va hva => ?_, fun va e' hva he' hep => ?_⟩
  · rcases (hpres va).mp hp with hv | hp
    · exact .inl (.inl (hva.eq_of_vpn (ho.fileVa j) hv))
    · exact (h.slot va hva hp).imp_left .inr
  · rcases hva with rfl | hva
    · exact fun l hl heq => hxout.not_present (heq ▸ h.present l hl)
    · exact (h.lone va hva).2
  · obtain ⟨hlj, heq⟩ := hused l hl
    rw [heq] at hl ⊢
    refine ⟨(hout _).mpr ⟨fun hv => hlj ?_, (h.paged l hl).1⟩, (h.paged l hl).2⟩
    exact h.fileInj l j hl hj ((ho.fileVa l).eq_of_vpn (ho.fileVa j) hv)
  · obtain ⟨-, h1⟩ := hused l hl
    obtain ⟨-, h2⟩ := hused l' hl'
    rw [h1] at hl heq
    rw [h2] at hl' heq
    exact h.fileInj l l' hl hl' heq
  · obtain ⟨hv, hp⟩ := (hout va).mp hp
    obtain ⟨l, hl, hlva⟩ := h.filed va hva hp
    have hlj : l ≠ j := by
      rintro rfl
      exact hv (by rw [hlva])
    exact ⟨l, by simp [setFileSlot, hlj, hl, hlva]⟩
  · change va < a ↔ (k.setPte p.pgdir (p.filePages j).va (e.inMem f)).Present p.pgdir va ∨
      (k.setPte p.pgdir (p.filePages j).va (e.inMem f)).PagedOut p.pgdir va
    rw [hpres, hout, h.pages va hva]
    by_cases hv : vpn va = vpn (p.filePages j).va
    · have hox : k.PagedOut p.pgdir va := (pagedOut_congr hv).mpr hxout
      simp [hv, hox]
    · simp [hv]
  · have he : (k.setPte p.pgdir (p.filePages j).va (e.inMem f)).walkpgdir p.pgdir va = some e' := he'
    rcases walk_of_setPte he with ⟨-, rfl⟩ | ⟨-, he⟩
    · rfl
    · exact h.clean va e' hva he hep

/-- **A page comes in** from its file slot `j` to memory slot `i`.  The page the slot named before is
loose. -/
theorem Placed.pageIn (h : p.Placed k a loose) (ho : p.Own) (hj : (p.filePages j).isUsed = true)
    (hw : k.walkpgdir p.pgdir (p.filePages j).va = some e) (pol : Policy) (i : Fin maxPsycPages) :
    (loadSlot pol p i j).Placed (k.setPte p.pgdir (p.filePages j).va (e.inMem f)) a
      ({y | (p.memoryPages i).isUsed = true ∧ (p.memoryPages i).va = y} ∪ loose) := by
  have hin := h.freeFileSlot (f := f) (s := { p.filePages j with isUsed := false, age := 0 }) ho hj hw rfl
  have hnew : (p.filePages j).va ∉ loose := fun hl => (h.paged j hj).1.not_present (h.lone _ hl).1
  cases hi : (p.memoryPages i).isUsed with
  | false =>
    have hset := hin.setMemSlot (s := p.filePages j) hnew hj hi
    simp only [Bool.false_eq_true, false_and, Set.ofPred_false, Set.empty_union]
    refine hset.congr rfl (fun l => ?_) rfl le_rfl
    rw [memoryPages_loadSlot]
    by_cases hl : l = i <;> simp [Proc.setMemSlot, setFileSlot, hl]
  | true =>
    -- the page that leaves slot `i` is loose before the new one gets the slot
    have hfree := hin.freeMemSlot hi
    rw [Set.insert_comm] at hfree
    have hout : (p.filePages j).va ∉ insert (p.memoryPages i).va loose := fun hl =>
      hl.elim (fun heq => (hin.lone _ (Set.mem_insert ..)).2 i hi heq.symm) hnew
    have hset := hfree.setMemSlot (s := p.filePages j) (i := i) hout hj (by simp [Proc.freeMemSlot, Proc.setMemSlot])
    have hloose : {y | true = true ∧ (p.memoryPages i).va = y} ∪ loose = insert (p.memoryPages i).va loose := by
      simp
    rw [hloose]
    refine hset.congr rfl (fun l => ?_) rfl le_rfl
    rw [memoryPages_loadSlot]
    by_cases hl : l = i <;> simp [Proc.freeMemSlot, Proc.setMemSlot, setFileSlot, hl]

/-- **A new page** at the end of the address space is loose. -/
theorem Placed.mapNew {e' : Pte} (h : p.Placed k a loose) (ha : UserPage a)
    (hw : k'.walkpgdir p.pgdir a = some e') (hp : e'.p = true) (hpg : e'.pg = false)
    (hk : ∀ va, vpn va ≠ vpn a → k'.walkpgdir p.pgdir va = k.walkpgdir p.pgdir va ∨
      k.walkpgdir p.pgdir va = none ∧ k'.walkpgdir p.pgdir va = some {}) :
    p.Placed k' (a + pgSize) (insert a loose) := by
  have hself : ∀ va, vpn va = vpn a → k'.walkpgdir p.pgdir va = some e' := fun va hv => by
    rw [k'.walkpgdir_congr _ hv, hw]
  have hold : ¬ k.Present p.pgdir a ∧ ¬ k.PagedOut p.pgdir a := by
    rw [← not_or, ← h.pages a ha.1]
    exact Nat.lt_irrefl a
  have hpres : ∀ va, k'.Present p.pgdir va ↔ vpn va = vpn a ∨ k.Present p.pgdir va := fun va => by
    by_cases hv : vpn va = vpn a
    · exact ⟨fun _ => .inl hv, fun _ => ⟨e', hself va hv, hp⟩⟩
    · rcases hk va hv with heq | ⟨hn, hz⟩
      · simp [Present, heq, hv]
      · simp [Present, hn, hz, hv]
  have hout : ∀ va, k'.PagedOut p.pgdir va ↔ k.PagedOut p.pgdir va := fun va => by
    by_cases hv : vpn va = vpn a
    · rw [pagedOut_congr hv (k := k), PagedOut, hself va hv]
      simp [hp, hold.2]
    · rcases hk va hv with heq | ⟨hn, hz⟩
      · simp [PagedOut, heq]
      · simp [PagedOut, hn, hz]
  refine ⟨⟨fun i hi => (hpres _).mpr (.inr (h.present i hi)), h.inj⟩, fun va hva hp' => ?_,
    fun va hva => ⟨(hpres va).mpr (hva.imp (fun heq => by rw [heq]) fun hl => (h.lone va hl).1),
      fun i hi heq => ?_⟩, fun j hj => ⟨(hout _).mpr (h.paged j hj).1, (h.paged j hj).2⟩, h.fileInj,
    fun va hva ho' => h.filed va hva ((hout va).mp ho'), fun va hva => ?_, fun va e'' hva he'' hep => ?_⟩
  · rcases (hpres va).mp hp' with hv | hp'
    · exact .inl (.inl (hva.eq_of_vpn ha hv))
    · exact (h.slot va hva hp').imp_left .inr
  · rcases hva with rfl | hva
    · exact hold.1 (heq ▸ h.present i hi)
    · exact (h.lone va hva).2 i hi heq
  · rw [hpres, hout, or_assoc, ← h.pages va hva]
    obtain ⟨ha1, ha2⟩ := ha
    rw [vpn_of_lt hva, vpn_of_lt ha1]
    simp only [pgSize] at *
    omega
  · by_cases hv : vpn va = vpn a
    · cases Option.mem_unique he'' (hself va hv)
      exact hpg
    · rcases hk va hv with heq | ⟨-, hz⟩
      · exact h.clean va e'' hva (heq ▸ he'') hep
      · cases Option.mem_unique he'' hz
        rfl

/-! ## Counting the pages -/

/-- The used entries of `memory_pages`. -/
def usedMem (p : Proc) : Finset (Fin maxPsycPages) :=
  Finset.univ.filter fun i => (p.memoryPages i).isUsed = true

/-- The used entries of `file_pages`. -/
def usedFile (p : Proc) : Finset (Fin maxPsycPages) :=
  Finset.univ.filter fun j => (p.filePages j).isUsed = true

theorem mem_usedMem : i ∈ p.usedMem ↔ (p.memoryPages i).isUsed = true := by simp [usedMem]

theorem mem_usedFile : j ∈ p.usedFile ↔ (p.filePages j).isUsed = true := by simp [usedFile]

theorem div_eq_of_userPage {x y : ℕ} (hx : UserPage x) (hy : UserPage y)
    (h : x / pgSize = y / pgSize) : x = y := by
  refine hx.eq_of_vpn hy ?_
  rw [vpn_of_lt hx.1, vpn_of_lt hy.1, h]

/-- **The used slots and the loose pages name different pages below `a`.** -/
theorem Placed.card_le {l : Finset ℕ} (h : p.Placed k a loose) (ho : p.Own) (ha : a % pgSize = 0)
    (hsub : ∀ y ∈ l, y ∈ loose) (hl : ∀ y ∈ l, UserPage y) : p.usedMem.card + p.usedFile.card + l.card ≤ a / pgSize := by
  have hlt : ∀ va, UserPage va → (k.Present p.pgdir va ∨ k.PagedOut p.pgdir va) →
      va / pgSize ∈ Finset.range (a / pgSize) := by
    intro va hva hp
    have := (h.pages va hva.1).mpr hp
    have := hva.2
    rw [mem_range]
    simp only [pgSize] at *
    omega
  have hmem : (p.usedMem.image fun i => (p.memoryPages i).va / pgSize).card = p.usedMem.card := by
    refine card_image_of_injOn fun i hi i' hi' heq => ?_
    exact h.inj i i' (mem_usedMem.mp hi) (mem_usedMem.mp hi')
      (div_eq_of_userPage (ho.memVa i) (ho.memVa i') heq)
  have hfile : (p.usedFile.image fun j => (p.filePages j).va / pgSize).card = p.usedFile.card := by
    refine card_image_of_injOn fun i hi i' hi' heq => ?_
    exact h.fileInj i i' (mem_usedFile.mp hi) (mem_usedFile.mp hi')
      (div_eq_of_userPage (ho.fileVa i) (ho.fileVa i') heq)
  have hloose : (l.image fun y => y / pgSize).card = l.card :=
    card_image_of_injOn fun y hy y' hy' heq => div_eq_of_userPage (hl y hy) (hl y' hy') heq
  -- memory slots name present pages, file slots paged-out ones, and no slot names a loose page
  have hdis : Disjoint (p.usedMem.image fun i => (p.memoryPages i).va / pgSize)
      (p.usedFile.image fun j => (p.filePages j).va / pgSize) := by
    refine disjoint_left.mpr fun v hv hv' => ?_
    obtain ⟨i, hi, rfl⟩ := mem_image.mp hv
    obtain ⟨j, hj, heq⟩ := mem_image.mp hv'
    have hva := div_eq_of_userPage (ho.fileVa j) (ho.memVa i) heq
    exact (h.paged j (mem_usedFile.mp hj)).1.not_present (hva ▸ h.present i (mem_usedMem.mp hi))
  have hdis' : Disjoint ((p.usedMem.image fun i => (p.memoryPages i).va / pgSize) ∪
      (p.usedFile.image fun j => (p.filePages j).va / pgSize)) (l.image fun y => y / pgSize) := by
    refine disjoint_left.mpr fun v hv hv' => ?_
    obtain ⟨y, hy, rfl⟩ := mem_image.mp hv'
    obtain ⟨hpres, hne⟩ := h.lone y (hsub y hy)
    rcases mem_union.mp hv with hv | hv
    · obtain ⟨i, hi, heq⟩ := mem_image.mp hv
      exact hne i (mem_usedMem.mp hi) (div_eq_of_userPage (ho.memVa i) (hl y hy) heq)
    · obtain ⟨j, hj, heq⟩ := mem_image.mp hv
      have hva := div_eq_of_userPage (ho.fileVa j) (hl y hy) heq
      exact (h.paged j (mem_usedFile.mp hj)).1.not_present (hva ▸ hpres)
  have hrange : ((p.usedMem.image fun i => (p.memoryPages i).va / pgSize) ∪
      (p.usedFile.image fun j => (p.filePages j).va / pgSize)) ∪ (l.image fun y => y / pgSize)
        ⊆ Finset.range (a / pgSize) := by
    refine union_subset (union_subset ?_ ?_) ?_ <;> intro v hv <;>
      obtain ⟨y, hy, rfl⟩ := mem_image.mp hv
    · exact hlt _ (ho.memVa y) (.inl (h.present y (mem_usedMem.mp hy)))
    · exact hlt _ (ho.fileVa y) (.inr (h.paged y (mem_usedFile.mp hy)).1)
    · exact hlt _ (hl y hy) (.inl (h.lone y (hsub y hy)).1)
  have hcard := card_le_card hrange
  rwa [card_union_of_disjoint hdis', card_union_of_disjoint hdis, hmem, hfile, hloose,
    card_range] at hcard

theorem nextFreeIInFile_eq_none : p.nextFreeIInFile = none ↔
    ∀ j, (p.filePages j).isUsed = true := by
  simp [nextFreeIInFile]

/-- **There is a file slot for a victim** while the pages are at most `MAX_TOTAL_PAGES`: memory is full
and one page has no slot yet. -/
theorem Placed.exists_free_file (h : p.Placed k a loose) (ho : p.Own) (ha : a % pgSize = 0)
    (hx : UserPage x) (hxl : x ∈ loose) (hfull : ∀ i, (p.memoryPages i).isUsed = true)
    (hle : a ≤ maxTotalPages * pgSize) : ∃ j, p.nextFreeIInFile = some j := by
  rw [← Option.isSome_iff_exists, Option.isSome_iff_ne_none, Ne, nextFreeIInFile_eq_none]
  intro hfile
  have hmem : p.usedMem = Finset.univ := eq_univ_iff_forall.mpr fun i => mem_usedMem.mpr (hfull i)
  have hfil : p.usedFile = Finset.univ :=
    eq_univ_iff_forall.mpr fun j => mem_usedFile.mpr (hfile j)
  have hcard := h.card_le (l := {x}) ho ha (fun y hy => by rwa [mem_singleton.mp hy])
    fun y hy => by rwa [mem_singleton.mp hy]
  rw [hmem, hfil, card_univ, Fintype.card_fin, card_singleton] at hcard
  simp only [maxTotalPages, maxPsycPages, pgSize] at *
  omega

/-- Before the first hit of a search through a table there is none. -/
theorem eq_false_of_lt_find {n : ℕ} {q : Fin n → Bool} {j l : Fin n}
    (h : (List.finRange n).find? q = some j) (hl : l < j) : q l = false := by
  obtain ⟨-, i, hi, hget, hbefore⟩ := List.find?_eq_some_iff_getElem.mp h
  have hij : i = (j : ℕ) := by
    rw [List.getElem_finRange] at hget
    exact congrArg Fin.val hget
  have := hbefore l (hij ▸ hl)
  rw [List.getElem_finRange] at this
  simpa using this

/-- All slots below the first free one are in use. -/
theorem used_of_lt_nextFree {l : Fin maxPsycPages} (hj : p.nextFreeIInFile = some j) (hl : l < j) :
    (p.filePages l).isUsed = true := by
  simpa using eq_false_of_lt_find hj hl

/-- `get_i_of_va_in_file` returns the first slot that carries the address. -/
theorem le_of_getIOfVaInFile {l : Fin maxPsycPages} (hj : p.getIOfVaInFile va = some j)
    (hl : (p.filePages l).va = va) : j ≤ l := by
  refine Fin.not_lt.mp fun hlt => ?_
  simpa [hl] using eq_false_of_lt_find hj hlt

/-- The file holds the slots below the first free one. -/
theorem Placed.of_nextFree (h : p.Placed k a loose) (hj : p.nextFreeIInFile = some j) :
    (p.filePages j).isUsed = false ∧ j * pgSize ≤ p.swapFile.size := by
  have hu := List.find?_some hj
  refine ⟨by simpa using hu, ?_⟩
  by_cases h0 : (j : ℕ) = 0
  · simp [h0]
  · have hlt : (⟨j - 1, by omega⟩ : Fin maxPsycPages) < j := Fin.mk_lt_of_lt_val (by omega)
    have hsz := (h.paged _ (used_of_lt_nextFree hj hlt)).2
    have hval : ((j : ℕ) - 1 + 1) * pgSize = j * pgSize := by congr 1; omega
    exact hval ▸ hsz

end Proc

namespace Kernel

variable {k k' : Kernel} {a x d : ℕ} {p p' : Proc} {loose : Set ℕ} {i j : Fin maxPsycPages} {pg : Page}
  {pol : Policy}

/-! ## The logical memory after a move -/

/-- A paged-out page is read from its slot of the file. -/
theorem logical_of_pagedOut (h : p.Placed k a loose) (hx : UserPage x) (hout : k.PagedOut p.pgdir x)
    (hj : (p.filePages j).isUsed = true) (hjva : (p.filePages j).va = x) :
    k.logical p (vpn x) = some (p.swapFile.page j) := by
  have hnone : k.pageAt p.pgdir (vpn x) = none := by
    rw [← Option.not_isSome_iff_eq_none, pageAt_isSome (vpn_lt_of_lt hx.1)]
    exact hout.not_present
  rw [logical, hnone, vpn_mul_pgSize hx, h.fileSlot_eq hj hjva]
  rfl

/-- **A write to a page** is seen in that page of the memory. -/
theorem Frames.logical_setMem {e : Pte} {held : Multiset ℕ} {va : ℕ} (h : k.Frames held)
    (hva : vpn va < userPages) (hw : k.walkpgdir p.pgdir va = some e) (hep : e.p = true)
    (hew : e.w = true) (pg : Page) :
    (k.setMem e.addr pg).logical p = update (k.logical p) (vpn va) (some pg) := by
  funext v
  rw [logical, h.pageAt_setMem hva hw hep hew, update_apply]
  by_cases hv : v = vpn va
  · rw [if_pos ⟨rfl, hv⟩, if_pos hv]
    rfl
  · rw [if_neg fun hc => hv hc.2, if_neg hv, logical]

/-- **Paging a page out does not change the memory.** -/
theorem logical_pageOut (h : (p.pagedTo j d x pg).Placed k' a loose) (hx : UserPage x)
    (hj : (p.filePages j).isUsed = false) (hpg : k.pageAt p.pgdir (vpn x) = some pg)
    (hpages : ∀ v, k'.pageAt p.pgdir v = if v = vpn x then none else k.pageAt p.pgdir v) :
    k'.logical (p.pagedTo j d x pg) = k.logical p := by
  have hslot : ∀ l, l ≠ j → (p.pagedTo j d x pg).filePages l = p.filePages l := fun l hl => by
    rw [Proc.filePages_pagedTo, if_neg hl]
  have hpage : ∀ l : Fin maxPsycPages, (p.pagedTo j d x pg).swapFile.page l
      = if l = j then pg else p.swapFile.page l := fun l => by
    refine (SwapFile.page_write p.swapFile j l pg).trans ?_
    simp only [Fin.val_inj]
  funext v
  rw [logical, logical]
  change (k'.pageAt p.pgdir v).or _ = _
  rw [hpages]
  by_cases hv : v = vpn x
  · subst hv
    have hs : (p.pagedTo j d x pg).fileSlot x = some j := h.fileSlot_eq
      (by rw [Proc.filePages_pagedTo, if_pos rfl]) (by rw [Proc.filePages_pagedTo, if_pos rfl])
    rw [if_pos rfl, hpg, vpn_mul_pgSize hx, hs, Option.map_some, hpage, if_pos rfl]
    rfl
  · have hne := ne_of_vpn_ne hx hv
    rw [if_neg hv, fileSlot_of_ne hslot (fun hu => by rw [hj] at hu; cases hu) fun _ => by
      rw [Proc.filePages_pagedTo, if_pos rfl]
      exact hne.symm]
    cases hs : p.fileSlot (v * pgSize) with
    | none => rfl
    | some l =>
      have hlj : l ≠ j := by
        rintro rfl
        rw [(Proc.fileSlot_some hs).1] at hj
        cases hj
      rw [Option.map_some, Option.map_some, hpage, if_neg hlj]

/-- **A page that comes in** shows the contents of its frame; the other pages are as before. -/
theorem logical_pageIn (hx : UserPage x) (hjva : (p.filePages j).va = x)
    (hpages : ∀ v, k'.pageAt p.pgdir v = if v = vpn x then some pg else k.pageAt p.pgdir v) :
    k'.logical (loadSlot pol p i j) = update (k.logical p) (vpn x) (some pg) := by
  funext v
  rw [update_apply, logical, logical]
  change (k'.pageAt p.pgdir v).or _ = _
  rw [hpages]
  by_cases hv : v = vpn x
  · rw [if_pos hv, if_pos hv]
    rfl
  · have hne := ne_of_vpn_ne hx hv
    rw [if_neg hv, if_neg hv, fileSlot_of_ne (p := p) (j := j)
      (fun l hl => by rw [Proc.filePages_loadSlot, if_neg hl]) (fun _ => by rw [hjva]; exact hne.symm)
      fun hu => by rw [Proc.filePages_loadSlot, if_pos rfl] at hu; cases hu]
    rfl

end Kernel

end Xv6
