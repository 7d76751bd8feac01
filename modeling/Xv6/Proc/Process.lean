import Xv6.Vm.Paging

/-!
# Proc/Process — how processes come, grow and go

The parts of `proc.c` and `main.c` that manage memory.  `allocproc` finds an unused entry of `ptable`
and clears only some of its fields, so what the entry held before, `q` below, is an argument.  A
child is installed in the process table when `fork` makes it runnable; until then it is a local
record.
-/

namespace Xv6

open Outcome

namespace Kernel

/-- `allocproc` on the unused entry `q`: the new pid and entry, or `none` when there is no frame for
the kernel stack. -/
def allocproc (k : Kernel) (q : Proc) : Option (ℕ × Proc) × Kernel :=
  match { k with nextpid := k.nextpid + 1 }.kalloc with
  | none => (none, { k with nextpid := k.nextpid + 1 })
  | some (f, k') =>
    (some (k.nextpid, { q with
      kstack := f, swapFile := .empty, timestamp := 0, pageFaults := 0, pagedOut := 0
      memoryPages := fun i => { q.memoryPages i with isUsed := false }
      filePages := fun i => { q.filePages i with isUsed := false } }), k')

/-- One iteration of `copyonwriteuvm`: a paged-out page is marked so in the child, a present one
becomes read-only in both. -/
def cowPage (pgdir d : ℕ) (i : ℕ) (k : Kernel) : Except String Kernel :=
  match k.walkpgdir pgdir i with
  | none => .error "copyonwriteuvm: pte should exist"
  | some e =>
    if e.pg then k.setPageFlagsInDisk d i
    else if !e.p then .error "copyonwriteuvm: page not present"
    else do
      let e := { e with cow := true, w := false }
      let (r, k) ← ((k.setPte pgdir i e).incCounter e.addr).mappages d i pgSize e.addr e
      if r then return k else throw "copyonwriteuvm: should not happen\n"

/-- `copyonwriteuvm`, run by process `cur`. -/
def copyonwriteuvm (k : Kernel) (cur pgdir sz : ℕ) : Except String (Option ℕ × Kernel) := do
  let (d, k) ← k.setupkvm cur
  match d with
  | none => return (none, k)
  | some d => do
    let k ← loop (cowPage pgdir d) (pagesFrom 0 sz) k
    return (some d, k)

/-- The page copy of `fork` from slot `i` of the parent `p` to the child: through `fork_buffer`. -/
def forkPage (p : Proc) (i : Fin maxPsycPages) (k : Kernel) (np : Proc) :
    Except String (Kernel × Proc) :=
  if (p.swapFile.read (i * pgSize) k.forkBuffer).1 ≠ pgSize then
    .error "fork: readFromSwapFile != PGSIZE\n"
  else if np.swapFile.Refuses (i * pgSize) then .error "fork: writeToSwapFile != PGSIZE\n"
  else .ok ({ k with forkBuffer := (p.swapFile.read (i * pgSize) k.forkBuffer).2 },
    np.setSwapFile (np.swapFile.write (i * pgSize) (p.swapFile.read (i * pgSize) k.forkBuffer).2))

/-- One iteration of the swap copy of `fork`; both slots are copied whether in use or not. -/
def forkSlot (p : Proc) (i : Fin maxPsycPages) (s : Kernel × Proc) : Except String (Kernel × Proc) := do
  let (k, np) ← (if (p.filePages i).isUsed then forkPage p i s.1 s.2 else .ok s)
  return (k, (np.setMemSlot i { p.memoryPages i with pgdir := np.pgdir }).setFileSlot i
    { p.filePages i with pgdir := np.pgdir })

/-- `fork` by process `pid` into the unused entry `q`: the pid of the child, `none` for `-1`. -/
def fork (k : Kernel) (pid : ℕ) (q : Proc) : Except String (Option ℕ × Kernel) := do
  let p ← k.proc pid
  match k.allocproc q with
  | (none, k) => return (none, k)
  | (some (cpid, np), k) => do
    let (d, k) ← k.copyonwriteuvm pid p.pgdir p.sz
    match d with
    | none => do
      let k ← k.kfree np.kstack
      return (none, k)
    | some d => do
      let np := { np with
        pgdir := d, sz := p.sz, pageFaults := 0, timestamp := p.timestamp, pagedOut := 0 }
      let (k, np) ← (if 2 < pid then loop (forkSlot p) (List.finRange maxPsycPages) (k, np)
        else .ok (k, np))
      return (some cpid, k.setProc cpid np)

/-- `sz + n` on 32-bit words. -/
def wrapAdd (sz : ℕ) (n : ℤ) : ℕ := ((sz + n) % 2 ^ 32).toNat

/-- `growproc`; `false` is the result `-1`.  Shrinking to size 0 takes the failure branch although
the pages are gone. -/
def growproc (pol : Policy) (acc : Access) (k : Kernel) (pid : ℕ) (n : ℤ) :
    Except String (Bool × Kernel) := do
  let p ← k.proc pid
  let (sz, k) ← (
    if 0 < n then allocuvm pol acc k pid p.pgdir p.sz (wrapAdd p.sz n)
    else if n < 0 then k.deallocuvm pid p.pgdir p.sz (wrapAdd p.sz n)
    else .ok (p.sz, k))
  if n ≠ 0 ∧ sz = 0 then return (false, k)
  else do
    let p ← k.proc pid
    return (true, k.setProc pid { p with sz := sz })

/-- The block of `wait` that frees the zombie child `pid` of `cur`.  The entry is released first:
`freevm` reads the entry of `cur` only. -/
def reap (k : Kernel) (cur pid : ℕ) : Except String Kernel := do
  let p ← k.proc pid
  let k ← { k with procs := Function.update k.procs pid none }.kfree p.kstack
  k.freevm cur p.pgdir

/-! ## Boot -/

/-- `inituvm`: the first page holds the initial code.  Neither `kalloc` nor `mappages` is checked. -/
def inituvm (k : Kernel) (d : ℕ) (init : List UInt8) : Except String Kernel :=
  if pgSize ≤ init.length then .error "inituvm: more than a page"
  else
    match k.kalloc with
    | none => .error "inituvm: no frame"
    | some (f, k) => do
      let (_, k) ← (k.setMem f fun _ => 0).mappages d 0 pgSize f { w := true, u := true }
      return k.setMem f fun o => init.getD o 0

/-- `userinit`: the first process, in the unused entry `q`. -/
def userinit (k : Kernel) (q : Proc) (init : List UInt8) : Except String Kernel :=
  match k.allocproc q with
  | (none, _) => .error "userinit: no process"
  | (some (pid, p), k) => do
    let (d, k) ← k.setupkvm pid
    match d with
    | none => throw "userinit: out of memory?"
    | some d => do
      let k ← k.inituvm d init
      return k.setProc pid { p with pgdir := d, sz := pgSize }

/-- The kernel before `main`: static storage is zero. -/
def zero (kend kdata : ℕ) : Kernel :=
  ⟨.boot kend, fun _ _ => 0, fun _ => none, fun _ => none, fun _ => 0, fun _ => 0, 1, kdata⟩

/-- An entry of `ptable` in static storage. -/
def zeroEntry : Proc :=
  ⟨0, 0, 0, .empty, fun _ => ⟨0, 0, false, 0, 0⟩, fun _ => ⟨0, 0, false, 0, 0⟩, 0, 0, 0, 0⟩

/-- The memory part of `main` on one processor: `kinit1`, `kvmalloc`, `kinit2`, `userinit`.
`kvmalloc` does not check `setupkvm`; the machine stops when it installs a null directory. -/
def boot (kend kdata : ℕ) (init : List UInt8) : Except String Kernel := do
  let m ← (zero kend kdata).kmem.kinit1 kend 0x400000
  let (d, k) ← { zero kend kdata with kmem := m }.setupkvm 0
  if d.isNone then throw "kvmalloc: no directory"
  else do
    let m ← k.kmem.kinit2 0x400000 physTop
    userinit { k with kmem := m } zeroEntry init

end Kernel

end Xv6
