import Xv6.Vm.Policy

/-!
# Vm/Paging — demand paging and copy-on-write of `vm.c` and `trap.c`

The functions follow the source statement by statement.  Three things are parameters.

* `Policy` is the replacement policy the kernel was built with.
* `Access` is a kernel access to a user address.  The kernel reads a victim and fills a paged-in
  page through the installed page table, and such an access may itself fault; `access` ties the knot,
  with a bound on the nesting.
* `pid` is the running process, so `myproc()` is `k.proc pid` and the installed directory is its own.

There is no TLB: every access consults the page table, as it does after the `lcr3` the source issues
behind each change.
-/

namespace Xv6

open Outcome

/-- A kernel access to a user address of a process; the flag says whether it writes. -/
abbrev Access := Bool → Kernel → ℕ → ℕ → Except String Kernel

namespace Kernel

/-! ## Swap-file transfers -/

/-- The page of a process that a user address lies in, read through its page table. -/
def userPage (k : Kernel) (pid va : ℕ) : Option Page :=
  (k.procs pid).bind fun p => (k.walkpgdir p.pgdir va).map fun e => k.mem e.addr

/-- Store a page through the page table. -/
def setUserPage (k : Kernel) (pid va : ℕ) (pg : Page) : Kernel :=
  match (k.procs pid).bind fun p => k.walkpgdir p.pgdir va with
  | none => k
  | some e => k.setMem e.addr pg

/-- `writeToSwapFile` from a kernel buffer; `none` is the result `-1`. -/
def writeToSwapFile (k : Kernel) (pid : ℕ) (pg : Page) (off : ℕ) : Except String (Option Kernel) := do
  let p ← k.proc pid
  if p.swapFile.Refuses off then return none
  else return some (k.setProc pid (p.setSwapFile (p.swapFile.write off pg)))

/-- `writeToSwapFile` from a user page: `writei` touches the buffer after its checks. -/
def writeUserToSwapFile (acc : Access) (k : Kernel) (pid va off : ℕ) :
    Except String (Option Kernel) := do
  let p ← k.proc pid
  if p.swapFile.Refuses off then return none
  else do
    let k ← acc false k pid va
    match k.userPage pid va with
    | none => throw "trap"
    | some pg => k.writeToSwapFile pid pg off

/-! ## Releasing memory -/

/-- The slot loop of `deallocuvm`: the first used entry of `memory_pages` for the page is released. -/
def releaseSlot (k : Kernel) (cur d a : ℕ) : Kernel :=
  match k.procs cur with
  | none => k
  | some p =>
    match (List.finRange maxPsycPages).find? fun i =>
        (p.memoryPages i).isUsed && (p.memoryPages i).pgdir == d && (p.memoryPages i).va == a with
    | none => k
    | some i => k.setProc cur (p.freeMemSlot i)

/-- The loop of `deallocuvm` from address `a` on; the first argument bounds the iterations.  A
missing table skips `NPDENTRIES` pages from wherever `a` is. -/
def deallocFrom (cur d oldsz : ℕ) : ℕ → ℕ → Kernel → Except String Kernel
  | 0, _, k => .ok k
  | n + 1, a, k =>
    if a < oldsz then
      match k.walkpgdir d a with
      | none => deallocFrom cur d oldsz n (a + 1024 * pgSize) k
      | some e =>
        if e.p then
          if e.addr = 0 then .error "kfree"
          else do
            let k ← k.kfree e.addr
            deallocFrom cur d oldsz n (a + pgSize) ((k.releaseSlot cur d a).setPte d a {})
        else deallocFrom cur d oldsz n (a + pgSize) k
    else .ok k

/-- `deallocuvm`, run by process `cur` on directory `d`. -/
def deallocuvm (k : Kernel) (cur d oldsz newsz : ℕ) : Except String (ℕ × Kernel) :=
  if oldsz ≤ newsz then .ok (oldsz, k)
  else do
    let k ← deallocFrom cur d oldsz (oldsz / pgSize + 1) (pgRoundUp newsz) k
    return (newsz, k)

/-- The second loop of `freevm`: every page table goes back to the allocator. -/
def freeTable (d : ℕ) (x : Fin 1024) (k : Kernel) : Except String Kernel :=
  match (k.dirs d).bind fun pd => pd.table x with
  | none => .ok k
  | some t => do
    let k ← k.kfree t.frame
    return k.dropTable d x

/-- `freevm`. -/
def freevm (k : Kernel) (cur d : ℕ) : Except String Kernel :=
  if (k.dirs d).isNone then .error "freevm: no pgdir"
  else do
    let (_, k) ← k.deallocuvm cur d kernBase 0
    let k ← loop (freeTable d) (List.finRange 1024) k
    let k ← k.kfree d
    return k.setDir d none

/-! ## The kernel half of a directory -/

/-- `kmap`: virtual start, physical start, physical end and whether the range is writable. -/
def kmap (k : Kernel) : List (ℕ × ℕ × ℕ × Bool) :=
  [(kernBase, 0, 0x100000, true),
   (kernBase + 0x100000, 0x100000, k.kdata, false),
   (kernBase + k.kdata, k.kdata, physTop, true),
   (0xFE000000, 0xFE000000, 0, true)]

/-- The loop of `setupkvm`; `false` when a `mappages` fails. -/
def mapKernel (d : ℕ) : List (ℕ × ℕ × ℕ × Bool) → Kernel → Except String (Bool × Kernel)
  | [], k => .ok (true, k)
  | (virt, ps, pe, w) :: rs, k => do
    let (r, k) ← k.mappages d virt ((pe + 2 ^ 32 - ps) % 2 ^ 32) (ps / pgSize) { w := w }
    if r then mapKernel d rs k else return (false, k)

/-- `setupkvm`: `none` is the null pointer. -/
def setupkvm (k : Kernel) (cur : ℕ) : Except String (Option ℕ × Kernel) :=
  match k.kalloc with
  | none => .ok (none, k)
  | some (d, k) => do
    let (r, k) ← mapKernel d k.kmap (k.setDir d (some .empty))
    if r then return (some d, k)
    else do
      let k ← k.freevm cur d
      return (none, k)

/-! ## Eviction -/

/-- The part of `swap` behind the write: slot `i` of `memory_pages` becomes slot `j` of `file_pages`,
and its frame is released. -/
def moveToFile (k : Kernel) (pid : ℕ) (i j : Fin maxPsycPages) : Except String Kernel := do
  let p ← k.proc pid
  let s := p.memoryPages i
  let k := k.setProc pid (p.enterFile j s.pgdir s.va)
  let k ← k.kfreePa (k.findPa s.pgdir s.va)
  let p ← k.proc pid
  let k := k.setProc pid (p.freeMemSlot i)
  k.setPageFlagsInDisk s.pgdir s.va

/-- `swap`: write a victim out and release its frame.  The result is the freed index of
`memory_pages`, `none` for `-1`.  Without a free file slot the offset is `-PGSIZE`, which `writei`
refuses. -/
def swap (pol : Policy) (acc : Access) (k : Kernel) (pid : ℕ) :
    Except String (Option (Fin maxPsycPages) × Kernel) := do
  let p ← k.proc pid
  let (i, k) ← pol.next (k.setProc pid p.countFault) pid
  let p ← k.proc pid
  match p.nextFreeIInFile with
  | none => return (none, k)
  | some j =>
    match ← writeUserToSwapFile acc k pid (p.memoryPages i).va (j * pgSize) with
    | none => return (none, k)
    | some k => do
      let k ← moveToFile k pid i j
      return (some i, k)

/-- The `memory_pages` entry `allocuvm` writes for a new page. -/
def newSlot (pol : Policy) (p : Proc) (d a : ℕ) : Slot where
  pgdir := d
  va := a
  isUsed := true
  timeLoaded := p.timestamp
  age := if pol.lapa then 0xFFFFFFFF else 0

/-- The index `allocuvm` stores the new page at.  Under `AQ` a free slot anywhere makes it rotate the
queue and take the front. -/
def chooseSlot (pol : Policy) (acc : Access) (k : Kernel) (pid : ℕ) :
    Except String (Option (Fin maxPsycPages) × Kernel) := do
  let p ← k.proc pid
  match p.nextFreeIInMem with
  | some i => if pol.aq then return (some 0, k.setProc pid p.aqNext) else return (some i, k)
  | none => swap pol acc k pid

/-- The bookkeeping of `allocuvm` for the page it has just mapped at `a`. -/
def trackPage (pol : Policy) (acc : Access) (k : Kernel) (pid d a : ℕ) : Except String Kernel :=
  if 2 < pid then do
    let (i, k) ← chooseSlot pol acc k pid
    let p ← k.proc pid
    return k.setProc pid { p.storeMemSlot i (newSlot pol p d a) with timestamp := incUint p.timestamp }
  else .ok k

/-- The loop of `allocuvm` over the addresses of the new pages. -/
def allocPages (pol : Policy) (acc : Access) (pid d oldsz newsz : ℕ) :
    List ℕ → Kernel → Except String (ℕ × Kernel)
  | [], k => .ok (newsz, k)
  | a :: as, k =>
    match k.kalloc with
    | none => do
      let (_, k) ← k.deallocuvm pid d newsz oldsz
      return (0, k)
    | some (f, k) => do
      let (r, k) ← (k.setMem f fun _ => 0).mappages d a pgSize f { w := true, u := true }
      if r then do
        let k ← trackPage pol acc k pid d a
        allocPages pol acc pid d oldsz newsz as k
      else do
        let (_, k) ← k.deallocuvm pid d newsz oldsz
        let k ← k.kfree f
        return (0, k)

/-- The page addresses from `a` on below `hi`. -/
def pagesFrom (a hi : ℕ) : List ℕ :=
  (List.range ((hi + (pgSize - 1) - a) / pgSize)).map fun i => a + i * pgSize

/-- `allocuvm`.  The bound compares the pages of this request alone. -/
def allocuvm (pol : Policy) (acc : Access) (k : Kernel) (pid d oldsz newsz : ℕ) :
    Except String (ℕ × Kernel) :=
  if kernBase ≤ newsz then .ok (0, k)
  else if newsz < oldsz then .ok (oldsz, k)
  else if 2 < pid ∧ maxTotalPages < (pgRoundUp newsz - pgRoundUp oldsz) / pgSize then .ok (0, k)
  else allocPages pol acc pid d oldsz newsz (pagesFrom (pgRoundUp oldsz) newsz) k

/-! ## Page faults -/

/-- The slot `handle_pf` loads the page into, and the entry it evicts from it. -/
def pageInSlot (pol : Policy) (k : Kernel) (pid : ℕ) :
    Except String (Fin maxPsycPages × Option Slot × Kernel) := do
  let p ← k.proc pid
  match p.nextFreeIInMem with
  | some i => return (i, none, k)
  | none => do
    let (i, k) ← pol.next k pid
    let p ← k.proc pid
    return (i, some (p.memoryPages i), k)

/-- `handle_pf` up to its read: a frame and a memory slot for the page, and the file slot that
`get_i_of_va_in_file` finds.  `kalloc` is not checked by the source; the model stops where it returns
null. -/
def pfBegin (pol : Policy) (k : Kernel) (pid va : ℕ) :
    Except String (Fin maxPsycPages × Option Slot × Fin maxPsycPages × Kernel) := do
  let p ← k.proc pid
  match (k.setProc pid p.countFault).kalloc with
  | none => throw "handle_pf: no frame"
  | some (f, k) => do
    let (i, old, k) ← pageInSlot pol k pid
    let p ← k.proc pid
    let k ← k.setPageFlagsInMem p.pgdir va f
    match p.getIOfVaInFile va with
    | none => throw "handle PF: cannot find rounded VA\n"
    | some j => return (i, old, j, k)

/-- The read of `handle_pf`, into the static buffer. -/
def pfRead (k : Kernel) (pid : ℕ) (j : Fin maxPsycPages) : Except String Kernel := do
  let p ← k.proc pid
  let (n, buf) := p.swapFile.read (j * pgSize) k.buffer
  if n ≠ pgSize then throw "handle PF: readFromSwapFile failed\n"
  else return { k with buffer := buf }

/-- The move of the entry of file slot `j` to `memory_pages[i]`. -/
def loadSlot (pol : Policy) (p : Proc) (i j : Fin maxPsycPages) : Proc :=
  let s := p.filePages j
  { (p.setMemSlot i { s with
      age := if pol.lapa then 0xFFFFFFFF else s.age, timeLoaded := p.timestamp }).setFileSlot j
      { s with isUsed := false, age := 0 } with
    timestamp := incUint p.timestamp }

/-- The bookkeeping of `handle_pf` between its read and its write. -/
def pfLoad (pol : Policy) (k : Kernel) (pid : ℕ) (i j : Fin maxPsycPages) : Except String Kernel := do
  let p ← k.proc pid
  return k.setProc pid (loadSlot pol p i j)

/-- The bookkeeping of `handle_pf` behind its write: the victim `old` has taken file slot `j`. -/
def pfEvicted (k : Kernel) (pid : ℕ) (j : Fin maxPsycPages) (old : Slot) (oldPa : Option ℕ) :
    Except String Kernel := do
  let p ← k.proc pid
  let k := k.setProc pid (p.enterFile j old.pgdir old.va)
  let k ← k.setPageFlagsInDisk old.pgdir old.va
  k.kfreePa oldPa

/-- The eviction of `handle_pf`. -/
def pfEvict (acc : Access) (k : Kernel) (pid : ℕ) (j : Fin maxPsycPages) (old : Slot) :
    Except String Kernel := do
  let oldPa := k.findPa old.pgdir old.va
  match ← writeUserToSwapFile acc k pid old.va (j * pgSize) with
  | none => throw "handle PF: writeToSwapFile failed\n"
  | some k => pfEvicted k pid j old oldPa

/-- The `is_need_swap` block of `handle_pf`. -/
def pfMakeRoom (acc : Access) (k : Kernel) (pid : ℕ) (j : Fin maxPsycPages) :
    Option Slot → Except String Kernel
  | none => .ok k
  | some old => pfEvict acc k pid j old

/-- The last statement of `handle_pf`: the buffer goes to the page, through the page table. -/
def pfFill (acc : Access) (k : Kernel) (pid va : ℕ) : Except String Kernel := do
  let k ← acc true k pid va
  return k.setUserPage pid va k.buffer

/-- The part of `handle_pf` behind its guard: page `va` comes in. -/
def pageIn (pol : Policy) (acc : Access) (k : Kernel) (pid va : ℕ) : Except String Kernel := do
  let (i, old, j, k) ← pfBegin pol k pid va
  let k ← pfRead k pid j
  let k ← pfLoad pol k pid i j
  let k ← pfMakeRoom acc k pid j old
  pfFill acc k pid va

/-- `handle_pf` for the address in `cr2`. -/
def handlePf (pol : Policy) (acc : Access) (k : Kernel) (pid cr2 : ℕ) :
    Except String (Bool × Kernel) := do
  let p ← k.proc pid
  match k.walkpgdir p.pgdir (pgRoundDown cr2) with
  | none => throw "handle_pf: walkdir failed\n"
  | some e =>
    if e.p || !e.pg then return (false, k)
    else do
      let k ← pageIn pol acc k pid (pgRoundDown cr2)
      return (true, k)

/-- `handle_cow` for the address in `cr2`. -/
def handleCow (k : Kernel) (pid cr2 : ℕ) : Except String (Bool × Kernel) := do
  let p ← k.proc pid
  match k.walkpgdir p.pgdir cr2 with
  | none => throw "handle_cow: walkdir failed\n"
  | some e =>
    if e.w || !e.cow then return (false, k)
    else if 1 < k.kmem.getRefCounter e.addr then
      match k.kalloc with
      | none => throw "COW: kalloc failed\n"
      | some (f, k) =>
        let k := (k.setMem f (k.mem e.addr)).decCounter e.addr
        return (true, k.setPte p.pgdir cr2 { addr := f, p := true, u := true, w := true })
    else return (true, k.setPte p.pgdir cr2 { e with cow := false, w := true })

/-- The `T_PGFLT` case of `trap`.  A fault neither handler serves is fatal: a panic for a paged
process, the end of the process otherwise. -/
def pgflt (pol : Policy) (acc : Access) (k : Kernel) (pid cr2 : ℕ) : Except String Kernel := do
  let k ← pol.hook k pid
  let (r, k) ← (if 2 < pid then handlePf pol acc k pid cr2 else .ok (false, k))
  if r then return k
  else do
    let (r, k) ← handleCow k pid cr2
    if r then return k
    else throw (if 2 < pid then "trap: segmentation fault\n" else "trap")

/-- What the MMU lets through: `PTE_P`, `PTE_W` for a write (`CR0_WP` is set) and `PTE_U` in user
mode. -/
def permits (k : Kernel) (user write : Bool) (pid va : ℕ) : Bool :=
  match (k.procs pid).bind fun p => k.walkpgdir p.pgdir va with
  | none => false
  | some e => e.p && (!write || e.w) && (!user || e.u)

/-- An access in user or kernel mode: fault until the MMU lets it through.  The first argument bounds
the faults, nested ones included. -/
def accessAs (pol : Policy) : ℕ → Bool → Access
  | 0, _ => fun _ _ _ _ => .error "page faults without end"
  | n + 1, user => fun write k pid va =>
    if k.permits user write pid va then .ok k
    else do
      let k ← pgflt pol (accessAs pol n false) k pid va
      accessAs pol n user write k pid va

/-- A kernel access to a user address. -/
def access (pol : Policy) (n : ℕ) : Access := accessAs pol n false

/-- The MMU sets `PTE_A` on an access it lets through. -/
def markAccessed (k : Kernel) (pid va : ℕ) : Kernel :=
  match k.procs pid with
  | none => k
  | some p =>
    match k.walkpgdir p.pgdir va with
    | none => k
    | some e => k.setPte p.pgdir va { e with a := true }

/-- A user load. -/
def load (pol : Policy) (n : ℕ) (k : Kernel) (pid va : ℕ) : Except String (UInt8 × Kernel) := do
  let k ← accessAs pol n true false k pid va
  match k.userPage pid va with
  | none => throw "trap"
  | some pg => return (pg (pgOff va), k.markAccessed pid va)

/-- A user store. -/
def store (pol : Policy) (n : ℕ) (k : Kernel) (pid va : ℕ) (b : UInt8) : Except String Kernel := do
  let k ← accessAs pol n true true k pid va
  match k.userPage pid va with
  | none => throw "trap"
  | some pg =>
    return (k.setUserPage pid va (Function.update pg (pgOff va) b)).markAccessed pid va

end Kernel

end Xv6
