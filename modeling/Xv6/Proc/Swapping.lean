import Xv6.Proc.Flat
import Xv6.Proc.Guard
import Xv6.Vm.Resize

/-!
# Proc/Swapping — shrinking a process that pages, and growing it again

A page of a process is in its frame, or in the slot of the swap file that `handle_pf` finds for it (`Shows`).
`deallocuvm` releases the pages of its range exactly if none of them is paged out or skipped and no slot escapes
(`deallocuvm_releases_iff`), and growing again then yields zero pages.
-/

namespace Xv6

open Outcome Option

namespace Kernel

variable {k k' : Kernel} {pid a va n oldsz newsz : ℕ} {p p' : Proc} {pol : Policy} {acc : Access}
  {loose : Set ℕ} {m : Flat} {pg : Page}

/-! ## What a page holds -/

/-- **A paged-out page is found in its slot of the file**, which is in use and has its bytes. -/
theorem Paged.finds (h : k.Paged pid p a loose m) (hva : UserPage va) (hout : k.PagedOut p.pgdir va)
    (hfound : p.Found va) : ∃ j, p.getIOfVaInFile va = some j ∧ (p.filePages j).isUsed = true ∧
      m (vpn va) = some (p.swapFile.page j) := by
  obtain ⟨l, -, hl⟩ := h.placed.filed va hva hout
  obtain ⟨j, hj⟩ : ∃ j, p.getIOfVaInFile va = some j := by
    rw [← isSome_iff_exists, Proc.getIOfVaInFile, List.find?_isSome]
    exact ⟨l, List.mem_finRange l, by simpa using hl⟩
  refine ⟨j, hj, hfound j hj, ?_⟩
  rw [← h.memory]
  exact logical_of_pagedOut h.placed hva hout (hfound j hj) (va_of_getIOfVaInFile hj)

/-- **Page `a` of the process holds `pg`**: in its frame, or in the slot of the swap file that `handle_pf`
finds for it. -/
def Shows (k : Kernel) (p : Proc) (a : ℕ) (pg : Page) : Prop :=
  k.pageAt p.pgdir (vpn a) = some pg ∨ k.PagedOut p.pgdir a ∧
    ∃ j, p.getIOfVaInFile a = some j ∧ (p.filePages j).isUsed = true ∧ p.swapFile.page j = pg

theorem Paged.shows (h : k.Paged pid p a loose m) (hva : UserPage va) (hm : m (vpn va) = some pg)
    (hfound : k.PagedOut p.pgdir va → p.Found va) : k.Shows p va pg := by
  have hlog := h.memory ▸ hm
  rw [logical] at hlog
  cases hpage : k.pageAt p.pgdir (vpn va) with
  | some pg' =>
    rw [hpage, some_or] at hlog
    exact .inl (hpage.trans hlog)
  | none =>
    rw [hpage, none_or, vpn_mul_pgSize hva, map_eq_some_iff] at hlog
    obtain ⟨l, hl, -⟩ := hlog
    obtain ⟨hlu, hlva⟩ := Proc.fileSlot_some hl
    have hout : k.PagedOut p.pgdir va := hlva ▸ (h.placed.paged l hlu).1
    obtain ⟨j, hj, hju, hjm⟩ := h.finds hva hout (hfound hout)
    exact .inr ⟨hout, j, hj, hju, mem_unique hjm hm⟩

/-! ## Shrinking and growing again -/

/-- In a clear range no file slot names a page. -/
theorem Paged.file_of_clear (h : k.Paged pid p a loose m) (hc : k.Clear p (pgRoundUp newsz) oldsz)
    (j : Fin maxPsycPages) (hj : (p.filePages j).isUsed = true) :
    (p.filePages j).va ∉ pageRange (pgRoundUp newsz) oldsz := fun hmem =>
  hc.file _ hmem j ⟨hj, h.own.fileDir j hj, rfl⟩

/-- **Growing again yields zero pages.** -/
theorem Paged.regrow {r r' : ℕ} {k'' : Kernel} (h : k.Paged pid p (pgRoundUp oldsz) loose m)
    (hold : oldsz < kernBase) (hlt : newsz < oldsz) (hc : k.Clear p (pgRoundUp newsz) oldsz)
    (hk : k.deallocuvm pid p.pgdir oldsz newsz = .ok (r, k')) (hacc : acc.Serves) (hkeep : acc.Keeps)
    (htot : 2 < pid → n ≤ maxTotalPages * pgSize) (hr : r' ≠ 0)
    (hg : Kernel.allocuvm pol acc k' pid p.pgdir newsz n = .ok (r', k'')) :
    ∃ p'', k''.procs pid = some p'' ∧ ∀ a ∈ pageRange (pgRoundUp newsz) n, k''.Shows p'' a fun _ => 0 := by
  obtain ⟨-, mp, h1⟩ := h.deallocuvm hold hlt (h.file_of_clear hc) hk
  rcases h1.allocuvm hacc hkeep (hlt.trans hold) htot hg with ⟨hle, hbase, p', loose', h', hd', -, -, hfound, -⟩ | ⟨h0, -⟩
  · refine ⟨p', h'.proc, fun a ha => ?_⟩
    have hua : UserPage a := ⟨by have := ha.2.2; omega, ha.1⟩
    have hv : vpn a * pgSize = a := vpn_mul_pgSize hua
    refine h'.shows hua ?_ fun hout => ?_
    · rw [Flat.map, hv, if_pos ⟨ha.2.1, ha.2.2⟩]
    · rw [hd'] at hout
      -- the page was not there after the shrinking
      refine hfound a hua (fun hout1 => ?_) hout
      have := (h1.placed.pages a hua.1).mpr (.inr hout1)
      exact absurd ha.2.1 (by omega)
  · exact absurd h0 hr

/-- **`deallocuvm` leaves nothing of its range exactly if no page of it is paged out or skipped and no slot
escapes**; what is not in the range stays as it is.  Where each page is in one place, growing again then
yields zero pages. -/
theorem deallocuvm_releases_iff {r : ℕ} (hp : k.procs pid = some p) (hlt : newsz < oldsz)
    (hold : oldsz ≤ 2 ^ 32 - 2 ^ 22) (hk : k.deallocuvm pid p.pgdir oldsz newsz = .ok (r, k')) :
    (k'.Released pid p.pgdir (pageRange (pgRoundUp newsz) oldsz) ↔ k.Clear p (pgRoundUp newsz) oldsz) ∧
    k.Untouched k' pid p.pgdir (pageRange (pgRoundUp newsz) oldsz) ∧
    (k.Clear p (pgRoundUp newsz) oldsz → ∀ loose m, k.Paged pid p (pgRoundUp oldsz) loose m →
      oldsz < kernBase → ∀ pol f n r' k'', (2 < pid → n ≤ maxTotalPages * pgSize) → r' ≠ 0 →
        allocuvm pol (access pol (f + 1)) k' pid p.pgdir newsz n = .ok (r', k'') →
        ∃ p'', k''.procs pid = some p'' ∧
          ∀ a ∈ pageRange (pgRoundUp newsz) n, k''.Shows p'' a fun _ => 0) := by
  obtain ⟨-, hshrunk⟩ := deallocuvm_shrunk hold hlt hk
  refine ⟨hshrunk.released_iff hp (by omega), hshrunk.untouched, ?_⟩
  intro hc loose m h hbase pol f n r' k'' htot hr hg
  exact h.regrow hbase hlt hc hk (serves_access pol f false) (keeps_access pol (f + 1)) htot hr hg

/-! ## A fresh image -/

/-- The entries of `freshImage`. -/
theorem freshImage_walkpgdir (d va : ℕ) : freshImage.walkpgdir d va = if d = 1000 ∧ pdx va = 0 then
    some (if ptx va < 3 then { addr := 1002 + ptx va, p := true, w := true, u := true } else {}) else none := by
  by_cases hd : d = 1000
  · by_cases hx : pdx va = 0
    · simp [walkpgdir, freshImage, PageDir.walk, hd, hx]
    · simp [walkpgdir, freshImage, PageDir.walk, hd, hx]
  · simp [walkpgdir, freshImage, hd]

/-- The user entries: the first three pages are present. -/
theorem freshImage_entry {va : ℕ} {e : Pte} (hva : va < kernBase) (h : freshImage.walkpgdir 1000 va = some e) :
    va < 3 * pgSize ∧ e = { addr := 1002 + va / pgSize, p := true, w := true, u := true } ∨
      3 * pgSize ≤ va ∧ e = {} := by
  have hx : pdx va = 0 ↔ va < 1024 * pgSize := by
    simp only [pdx, pgSize, Fin.ext_iff, Fin.val_zero, kernBase] at *
    omega
  have ht : va < 1024 * pgSize → (ptx va : ℕ) = va / pgSize := fun hlt => by
    simp only [ptx, pgSize] at *
    omega
  rw [freshImage_walkpgdir] at h
  split at h
  · rename_i hc
    have hlt := hx.mp hc.2
    cases h
    by_cases h3 : va < 3 * pgSize
    · refine .inl ⟨h3, ?_⟩
      rw [if_pos (show ptx va < 3 by rw [Fin.lt_def, ht hlt]; simp only [pgSize] at *; omega), ht hlt]
    · refine .inr ⟨Nat.not_lt.mp h3, ?_⟩
      rw [if_neg (show ¬ ptx va < 3 by rw [Fin.lt_def, ht hlt]; simp only [pgSize] at *; omega)]
  · cases h

theorem freshImage_present {va : ℕ} (hva : va < kernBase) : freshImage.Present 1000 va ↔ va < 3 * pgSize := by
  refine ⟨fun ⟨e, he, hep⟩ => ?_, fun hlt => ?_⟩
  · rcases freshImage_entry hva he with ⟨hlt, -⟩ | ⟨-, rfl⟩
    · exact hlt
    · cases hep
  · have hx : pdx va = 0 := by
      simp only [pdx, pgSize, Fin.ext_iff, Fin.val_zero] at *
      omega
    obtain ⟨e, he⟩ : ∃ e, freshImage.walkpgdir 1000 va = some e := ⟨_, by rw [freshImage_walkpgdir, if_pos ⟨rfl, hx⟩]⟩
    rcases freshImage_entry hva he with ⟨-, rfl⟩ | ⟨hge, -⟩
    · exact ⟨_, he, rfl⟩
    · omega

/-- The process of `freshImage`: its slots name its three pages, and nothing is in its swap file. -/
theorem freshImage_proc : ∃ p, freshImage.procs 3 = some p ∧ p.sz = 3 * pgSize ∧ p.pgdir = 1000 ∧
    (∀ j, p.filePages j = ⟨0, 0, false, 0, 0⟩) ∧
    ∀ i : Fin maxPsycPages, p.memoryPages i
      = if (i : ℕ) < 3 then ⟨1000, i * pgSize, true, i, 0⟩ else ⟨0, 0, false, 0, 0⟩ :=
  ⟨_, rfl, rfl, rfl, fun _ => rfl, fun _ => rfl⟩

section Image

variable {p : Proc} {i : Fin maxPsycPages}

theorem freshImage_slot (hmem : ∀ i : Fin maxPsycPages, p.memoryPages i
      = if (i : ℕ) < 3 then ⟨1000, i * pgSize, true, i, 0⟩ else ⟨0, 0, false, 0, 0⟩)
    (hi : (p.memoryPages i).isUsed = true) :
    (i : ℕ) < 3 ∧ (p.memoryPages i).va = i * pgSize ∧ (p.memoryPages i).pgdir = 1000 := by
  rw [hmem] at hi ⊢
  split at hi
  · rename_i hlt
    rw [if_pos hlt]
    exact ⟨hlt, rfl, rfl⟩
  · cases hi

end Image

/-- The image gives back all pages but the first. -/
theorem deallocuvm_releases_fresh : Returns (freshImage.deallocuvm 3 1000 (3 * pgSize) pgSize) fun r =>
    r.2.Released 3 1000 (pageRange pgSize (3 * pgSize)) := by
  obtain ⟨⟨r, k'⟩, hk, -⟩ : Returns (freshImage.deallocuvm 3 1000 (3 * pgSize) pgSize) fun _ => True := by
    decide +kernel
  obtain ⟨p, hp, -, hd, hfile, hmem⟩ := freshImage_proc
  have hpres : ∀ a ∈ pageRange pgSize (3 * pgSize), freshImage.Present 1000 a := fun a ha =>
    (freshImage_present (ha.2.2.trans (by decide))).mpr ha.2.2
  have hclear : freshImage.Clear p pgSize (3 * pgSize) := by
    refine ⟨fun a ha e he _ => ?_, fun a ha _ => ?_, fun a ha j hname => ?_, fun a ha i hname => ?_⟩
    · obtain ⟨e', he', hp'⟩ := hpres a ha
      rw [hd] at he
      rwa [Option.mem_unique he he']
    · obtain ⟨e, he, -⟩ := hpres pgSize ⟨rfl, le_rfl, by decide⟩
      refine not_skips ?_
      rw [hd, he]
      rfl
    · have hused := hname.1
      rw [hfile] at hused
      cases hused
    · rw [hd]
      refine ⟨hpres a ha, fun l hl => ?_⟩
      have heq := (freshImage_slot hmem hl.1).2.1.symm.trans (hl.2.2.trans
        (hname.2.2.symm.trans (freshImage_slot hmem hname.1).2.1))
      exact Fin.ext (Nat.eq_of_mul_eq_mul_right (by decide) heq)
  rw [← hd] at hk ⊢
  exact ⟨_, hk, (deallocuvm_releases_iff hp (by decide) (by decide) hk).1.mpr hclear⟩

/-- The image grows by 14 pages, which evicts its second page; then it gives back all pages but the first.
The second page is still marked paged out, and its file slot is still in use. -/
theorem deallocuvm_leaves_paged_out : Returns (do
      let (_, k) ← allocuvm .rrobin (access .rrobin 1) freshImage 3 1000 (3 * pgSize) (17 * pgSize)
      k.deallocuvm 3 1000 (17 * pgSize) pgSize) fun r =>
    (r.2.walkpgdir 1000 pgSize).map Pte.pg = some true ∧
      (r.2.procs 3).map (fun p => ((p.filePages 0).isUsed, (p.filePages 0).pgdir, (p.filePages 0).va))
        = some (true, 1000, pgSize) := by
  decide +kernel

end Kernel

end Xv6
