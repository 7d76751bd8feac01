import Xv6.Vm.Conserve
import Xv6.Vm.Resize

/-!
# Vm/Rollback — what a growth that fails takes back

`allocuvm` that runs out of frames calls `deallocuvm` over the pages it was to add.  That gives back the pages
still present, with their memory slots.  It gives back neither the page tables that came on the way nor pages
that have been evicted meanwhile, old or new.

Where all tables are there and the free slots last, neither happens.  `Borrows` says what such a growth may have
changed, wherever it stands: entries of its own range, and which frames are free.  When it has failed, the sites
are those of before, and so are the free frames.
-/

namespace Xv6

open Outcome

namespace Kernel

variable {k k' k'' k1 : Kernel} {held : Multiset ℕ} {pid d a lo va f oldsz newsz : ℕ} {p p' q : Proc} {e : Pte}
  {i : Fin maxPsycPages} {pol : Policy} {acc : Access} {loose : Set ℕ} {m : ℕ → Option Page}

/-! ## Growth without eviction and without new tables -/

/-- **What a growth over the pages of `d` from `lo` on may have changed**: entries of these pages, of which none is
paged out, the memory slots, and which frames are free. -/
structure Borrows (k k' : Kernel) (pid d lo : ℕ) : Prop where
  walk : ∀ d' va, ¬(d' = d ∧ lo ≤ vpn va * pgSize) →
    (k'.walkpgdir d' va).map Pte.unmark = (k.walkpgdir d' va).map Pte.unmark
  tables : ∀ d' va, (k'.walkpgdir d' va).isSome = (k.walkpgdir d' va).isSome
  pg : ∀ d' va, k'.PagedOut d' va → k.PagedOut d' va
  sites : ∀ s : Site, (∀ d v, s ≠ .pte d v) → k'.owner s = k.owner s
  proc : ∀ p, k.procs pid = some p → ∃ p', k'.procs pid = some p' ∧ p'.sz = p.sz ∧ p'.pgdir = p.pgdir ∧
    p'.filePages = p.filePages ∧ p'.swapFile = p.swapFile
  accounts : k.Accounts k'

theorem Borrows.trans (h : k.Borrows k' pid d lo) (h' : k'.Borrows k'' pid d lo) :
    k.Borrows k'' pid d lo where
  walk d' va hne := (h'.walk d' va hne).trans (h.walk d' va hne)
  tables d' va := (h'.tables d' va).trans (h.tables d' va)
  pg d' va hp := h.pg d' va (h'.pg d' va hp)
  sites s hs := (h'.sites s hs).trans (h.sites s hs)
  proc p hp := by
    obtain ⟨p1, hp1, hsz1, hd1, hf1, hs1⟩ := h.proc p hp
    obtain ⟨p2, hp2, hsz2, hd2, hf2, hs2⟩ := h'.proc p1 hp1
    exact ⟨p2, hp2, hsz2.trans hsz1, hd2.trans hd1, hf2.trans hf1, hs2.trans hs1⟩
  accounts f := (h'.accounts f).trans (h.accounts f)

/-- Only the allocator and the memory change. -/
theorem Borrows.of_dirs (hdirs : k'.dirs = k.dirs) (hprocs : k'.procs = k.procs) (hacc : k.Accounts k') :
    k.Borrows k' pid d lo where
  walk d' va _ := by rw [walkpgdir, hdirs, ← walkpgdir]
  tables d' va := by rw [walkpgdir, hdirs, ← walkpgdir]
  pg d' va hp := by rwa [PagedOut, walkpgdir, hdirs, ← walkpgdir] at hp
  sites s hs := by
    cases s with
    | pte d v => exact absurd rfl (hs d v)
    | table d x => rw [owner, owner, hdirs]
    | dir d => rw [owner, owner, hdirs]
    | kstack pid => rw [owner, owner, hprocs]
  proc p hp := ⟨p, hprocs ▸ hp, rfl, rfl, rfl, rfl⟩
  accounts := hacc

theorem Borrows.refl (k : Kernel) (pid d lo : ℕ) : k.Borrows k pid d lo := .of_dirs rfl rfl fun _ => Iff.rfl

/-- The result of `allocuvm` for a size that is not smaller. -/
theorem allocuvm_result {r : ℕ} (hle : oldsz ≤ newsz)
    (hk : allocuvm pol acc k pid d oldsz newsz = .ok (r, k')) : r = newsz ∨ r = 0 := by
  rcases allocuvm_eq_ok hk with ⟨-, h0 | ⟨-, hlt⟩⟩ | ⟨-, -, has, hk⟩
  · exact .inr h0
  · omega
  · exact allocPages_result _ has hk

end Kernel

end Xv6
