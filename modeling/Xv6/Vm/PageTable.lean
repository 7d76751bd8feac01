import Xv6.Mem.Layout

/-!
# Vm/PageTable — two-level page tables

A page directory is an array of 1024 optional page tables, and a table knows the frame it was
allocated in.  An entry keeps its address (as a frame) apart from the flag bits that `mmu.h` names.

`PageDir.walk` is `walkpgdir` without `alloc`: `none` where the table is missing.  Everything later
reads a directory through `walk` and writes it through `setPte`, so `walk_setPte` is the one lemma
about the two levels.
-/

namespace Xv6

open Function

/-- A page table entry: `PTE_ADDR` and the flags of `mmu.h`. -/
structure Pte where
  addr : ℕ := 0
  p : Bool := false
  w : Bool := false
  u : Bool := false
  a : Bool := false
  pg : Bool := false
  cow : Bool := false
  deriving DecidableEq

/-- A page table and the frame that holds it. -/
structure PageTable where
  frame : ℕ
  pte : Fin 1024 → Pte

/-- A freshly allocated page table: `memset(pgtab, 0, PGSIZE)`. -/
def PageTable.zero (f : ℕ) : PageTable := ⟨f, fun _ => {}⟩

/-- A page directory; `none` is an entry without `PTE_P`. -/
structure PageDir where
  table : Fin 1024 → Option PageTable

namespace PageDir

/-- A directory without tables: `memset(pgdir, 0, PGSIZE)`. -/
def empty : PageDir := ⟨fun _ => none⟩

/-- `walkpgdir(pgdir, va, 0)`, dereferenced. -/
def walk (d : PageDir) (va : ℕ) : Option Pte := (d.table (pdx va)).map fun t => t.pte (ptx va)

/-- Store through the pointer `walkpgdir(pgdir, va, 0)` returns. -/
def setPte (d : PageDir) (va : ℕ) (e : Pte) : PageDir where
  table := Function.update d.table (pdx va)
    ((d.table (pdx va)).map fun t => { t with pte := Function.update t.pte (ptx va) e })

/-- Install a zeroed page table. -/
def addTable (d : PageDir) (x : Fin 1024) (f : ℕ) : PageDir where
  table := Function.update d.table x (some (PageTable.zero f))

/-- Clear a directory entry. -/
def dropTable (d : PageDir) (x : Fin 1024) : PageDir where
  table := Function.update d.table x none

/-! ## Reading after writing -/

@[simp] theorem walk_empty (va : ℕ) : empty.walk va = none := rfl

section

variable (d : PageDir)

include d

theorem walk_congr {va va' : ℕ} (h : vpn va = vpn va') : d.walk va = d.walk va' := by
  obtain ⟨h1, h2⟩ := vpn_eq_iff.mp h
  rw [walk, walk, h1, h2]

theorem table_setPte_self (va : ℕ) (e : Pte) :
    (d.setPte va e).table (pdx va)
      = (d.table (pdx va)).map fun t => { t with pte := update t.pte (ptx va) e } :=
  update_self ..

theorem table_setPte_of_ne {va : ℕ} (e : Pte) {x : Fin 1024} (h : x ≠ pdx va) :
    (d.setPte va e).table x = d.table x := update_of_ne h ..

/-- **A store changes the entry of its own page, and only that.** -/
theorem walk_setPte (va va' : ℕ) (e : Pte) :
    (d.setPte va e).walk va'
      = if vpn va' = vpn va then (d.walk va').map fun _ => e else d.walk va' := by
  by_cases hx : pdx va' = pdx va
  · by_cases hy : ptx va' = ptx va
    · rw [if_pos (vpn_eq_iff.mpr ⟨hx, hy⟩), walk, walk, hx, table_setPte_self]
      cases d.table (pdx va) with
      | none => rfl
      | some t => simp [hy]
    · rw [if_neg fun h => hy (vpn_eq_iff.mp h).2, walk, walk, hx, table_setPte_self]
      cases d.table (pdx va) with
      | none => rfl
      | some t => simp [hy]
  · rw [if_neg fun h => hx (vpn_eq_iff.mp h).1, walk, walk, table_setPte_of_ne d e hx]

/-- A second store to the same entry replaces the first. -/
theorem setPte_setPte (va : ℕ) (e e' : Pte) :
    (d.setPte va e).setPte va e' = d.setPte va e' := by
  unfold setPte
  simp only [update_self, update_idem, Option.map_map, Function.comp_def]

/-- A new table holds zero entries; the other tables are as before. -/
theorem walk_addTable (x : Fin 1024) (f va : ℕ) :
    (d.addTable x f).walk va = if pdx va = x then some {} else d.walk va := by
  by_cases hx : pdx va = x
  · simp [walk, addTable, hx, PageTable.zero]
  · simp [walk, addTable, hx]

theorem walk_dropTable (x : Fin 1024) (va : ℕ) :
    (d.dropTable x).walk va = if pdx va = x then none else d.walk va := by
  by_cases hx : pdx va = x
  · simp [walk, dropTable, hx]
  · simp [walk, dropTable, hx]

theorem walk_isSome (va : ℕ) :
    (d.walk va).isSome = (d.table (pdx va)).isSome := by simp [walk]

/-- A store keeps the frame of every table. -/
theorem frame_setPte (va : ℕ) (e : Pte) (x : Fin 1024) :
    ((d.setPte va e).table x).map PageTable.frame = (d.table x).map PageTable.frame := by
  by_cases hx : x = pdx va
  · subst hx
    rw [table_setPte_self, Option.map_map]
    rfl
  · rw [table_setPte_of_ne d e hx]

end

end PageDir

end Xv6
