import Xv6.Mem.Kalloc
import Xv6.Vm.PageTable

/-!
# Vm/Kernel — the state the paging code works on

`Kernel` gathers what `vm.c`, `proc.c` and `exec.c` change while they manage user memory: the
allocator, the contents of the frames, the live page directories (named by the frame they lie in),
the processes and the two static buffers.

A process owns its swap file.  Every transfer to it is one page at a multiple of `PGSIZE`, refused by
`writei` beyond the end of the file and cut short by `readi` there.  A missing process is a panic:
the kernel would dereference a null `struct proc`.
-/

namespace Xv6

open Outcome Function

/-- The bytes of one page. -/
abbrev Page := Fin pgSize → UInt8

/-- `struct page`: one entry of `memory_pages` or `file_pages`. -/
structure Slot where
  pgdir : ℕ
  va : ℕ
  isUsed : Bool
  timeLoaded : ℕ
  age : ℕ

/-! ## Swap files -/

/-- The contents of a swap file's inode. -/
structure SwapFile where
  size : ℕ
  data : ℕ → UInt8

namespace SwapFile

/-- A file `createSwapFile` has just created. -/
def empty : SwapFile := ⟨0, fun _ => 0⟩

/-- The page a slot of the file holds. -/
def page (f : SwapFile) (i : ℕ) : Page := fun o => f.data (i * pgSize + o)

/-- `MAXFILE * BSIZE`. -/
def maxSize : ℕ := 71680

/-- `writei` refuses to start beyond the end of the file or to pass `MAXFILE` blocks. -/
def Refuses (f : SwapFile) (off : ℕ) : Prop := f.size < off ∨ maxSize < off + pgSize

instance (f : SwapFile) (off : ℕ) : Decidable (f.Refuses off) :=
  inferInstanceAs (Decidable (_ ∨ _))

/-- `filewrite` of one page at `off`, where `writei` accepts it. -/
def write (f : SwapFile) (off : ℕ) (pg : Page) : SwapFile where
  size := max f.size (off + pgSize)
  data a := if h : off ≤ a ∧ a < off + pgSize then pg ⟨a - off, by omega⟩ else f.data a

/-- `fileread` of one page at `off` into `buf`: the number of bytes read, and the buffer after. -/
def read (f : SwapFile) (off : ℕ) (buf : Page) : ℤ × Page :=
  if f.size < off then (-1, buf)
  else
    let n := min pgSize (f.size - off)
    (n, fun o => if (o : ℕ) < n then f.data (off + o) else buf o)

/-- A slot can be read exactly when it lies within the file. -/
theorem read_fst (f : SwapFile) (i : ℕ) (buf : Page) :
    (f.read (i * pgSize) buf).1 = pgSize ↔ (i + 1) * pgSize ≤ f.size := by
  unfold read
  split
  · simp only [pgSize] at *
    omega
  · simp only [pgSize] at *
    omega

theorem read_snd {f : SwapFile} {i : ℕ} (buf : Page) (h : (i + 1) * pgSize ≤ f.size) :
    (f.read (i * pgSize) buf).2 = f.page i := by
  have hsz : ¬f.size < i * pgSize := by simp only [pgSize] at *; omega
  have hmin : min pgSize (f.size - i * pgSize) = pgSize := by simp only [pgSize] at *; omega
  funext o
  simp [read, hsz, hmin, page]

/-- **A written slot holds the page**; the other slots are as before. -/
theorem page_write (f : SwapFile) (i j : ℕ) (pg : Page) :
    (f.write (i * pgSize) pg).page j = if j = i then pg else f.page j := by
  funext o
  have ho := o.isLt
  by_cases hj : j = i
  · subst hj
    have hc : j * pgSize ≤ j * pgSize + o ∧ j * pgSize + o < j * pgSize + pgSize := by omega
    simp [page, write, hc]
  · have hc : ¬(i * pgSize ≤ j * pgSize + o ∧ j * pgSize + o < i * pgSize + pgSize) := by
      simp only [pgSize] at *
      omega
    simp [page, write, hc, hj]

end SwapFile

/-! ## Processes and the kernel -/

/-- `struct proc`, as far as memory management reads it. -/
structure Proc where
  sz : ℕ
  pgdir : ℕ
  kstack : ℕ
  swapFile : SwapFile
  filePages : Fin maxPsycPages → Slot
  memoryPages : Fin maxPsycPages → Slot
  pageFaults : ℕ
  pagedOut : ℕ
  timestamp : ℕ
  rRobin : ℕ

/-- The kernel's memory-management state.  `kdata` is the physical address of the linker symbol
`data`. -/
structure Kernel where
  kmem : KMem
  mem : ℕ → Page
  dirs : ℕ → Option PageDir
  procs : ℕ → Option Proc
  buffer : Page
  forkBuffer : Page
  nextpid : ℕ
  kdata : ℕ

/-- The entry `set_page_flags_in_mem` leaves. -/
def Pte.inMem (e : Pte) (pa : ℕ) : Pte :=
  { e with p := true, w := true, u := true, pg := false, addr := e.addr ||| pa }

/-- The entry `set_page_flags_in_disk` leaves. -/
def Pte.inDisk (e : Pte) : Pte := { e with pg := true, p := false, addr := 0 }

namespace Kernel

/-- `myproc()`, or the process a pointer names. -/
def proc (k : Kernel) (pid : ℕ) : Except String Proc :=
  match k.procs pid with
  | none => .error "trap"
  | some p => .ok p

def setProc (k : Kernel) (pid : ℕ) (p : Proc) : Kernel :=
  { k with procs := Function.update k.procs pid (some p) }

/-- Fill a frame. -/
def setMem (k : Kernel) (f : ℕ) (pg : Page) : Kernel := { k with mem := Function.update k.mem f pg }

/-- `kalloc`. -/
def kalloc (k : Kernel) : Option (ℕ × Kernel) :=
  k.kmem.kalloc.map fun x => (x.1, { k with kmem := x.2 })

/-- `kfree`: the last reference fills the page with junk. -/
def kfree (k : Kernel) (f : ℕ) : Except String Kernel := do
  let m ← k.kmem.kfree f
  return { k with
    kmem := m
    mem := if k.kmem.referencesCount f ≤ 1 then Function.update k.mem f (fun _ => 1) else k.mem }

/-- `kfree(P2V(pa))` for a `pa` that `find_pa` returned: `P2V(-1)` is not page-aligned. -/
def kfreePa (k : Kernel) : Option ℕ → Except String Kernel
  | none => .error "kfree"
  | some f => k.kfree f

def incCounter (k : Kernel) (f : ℕ) : Kernel := { k with kmem := k.kmem.incCounter f }

def decCounter (k : Kernel) (f : ℕ) : Kernel := { k with kmem := k.kmem.decCounter f }

/-! ## Page tables -/

/-- `walkpgdir(pgdir, va, 0)`, dereferenced. -/
def walkpgdir (k : Kernel) (d va : ℕ) : Option Pte := (k.dirs d).bind fun pd => pd.walk va

/-- Store through the pointer `walkpgdir` returns. -/
def setPte (k : Kernel) (d va : ℕ) (e : Pte) : Kernel :=
  { k with dirs := Function.update k.dirs d ((k.dirs d).map fun pd => pd.setPte va e) }

def addTable (k : Kernel) (d : ℕ) (x : Fin 1024) (f : ℕ) : Kernel :=
  { k with dirs := Function.update k.dirs d ((k.dirs d).map fun pd => pd.addTable x f) }

def dropTable (k : Kernel) (d : ℕ) (x : Fin 1024) : Kernel :=
  { k with dirs := Function.update k.dirs d ((k.dirs d).map fun pd => pd.dropTable x) }

def setDir (k : Kernel) (d : ℕ) (pd : Option PageDir) : Kernel :=
  { k with dirs := Function.update k.dirs d pd }

/-- `walkpgdir(pgdir, va, 1)`: a missing table is allocated and zeroed; `none` when `kalloc` fails. -/
def walkpgdirAlloc (k : Kernel) (d va : ℕ) : Option (Pte × Kernel) :=
  match k.walkpgdir d va with
  | some e => some (e, k)
  | none => k.kalloc.bind fun x =>
      ((x.2.addTable d (pdx va) x.1).walkpgdir d va).map fun e =>
        (e, x.2.addTable d (pdx va) x.1)

/-- The loop of `mappages`.  `pa` is a frame, `perm` the flags of the new entries, and the first
argument bounds the number of pages: an address space has `2 ^ 20`. -/
def mappagesFrom (d last : ℕ) (perm : Pte) : ℕ → ℕ → ℕ → Kernel → Except String (Bool × Kernel)
  | 0, _, _, k => .ok (true, k)
  | n + 1, a, pa, k =>
    match k.walkpgdirAlloc d a with
    | none => .ok (false, k)
    | some (e, k) =>
      if e.p then .error "remap"
      else
        let k := k.setPte d a { perm with addr := pa, p := true }
        if a = last then .ok (true, k)
        else mappagesFrom d last perm n ((a + pgSize) % 2 ^ 32) (pa + 1) k

/-- `mappages`; `false` is the result `-1`. -/
def mappages (k : Kernel) (d va size pa : ℕ) (perm : Pte) : Except String (Bool × Kernel) :=
  mappagesFrom d (pgRoundDown ((va + size + (2 ^ 32 - 1)) % 2 ^ 32)) perm (2 ^ 20) (pgRoundDown va) pa k

/-- `find_pa`: `none` is the result `-1`. -/
def findPa (k : Kernel) (d va : ℕ) : Option ℕ := (k.walkpgdir d va).map Pte.addr

/-- `set_page_flags_in_mem`. -/
def setPageFlagsInMem (k : Kernel) (d va pa : ℕ) : Except String Kernel :=
  match k.walkpgdir d va with
  | none => .error "failed setting PTE flags when handling trap\n"
  | some e => .ok (k.setPte d va (e.inMem pa))

/-- `set_page_flags_in_disk`. -/
def setPageFlagsInDisk (k : Kernel) (d va : ℕ) : Except String Kernel :=
  match k.walkpgdir d va with
  | none => .error "failed setting PTE flags after writing to file\n"
  | some e => .ok (k.setPte d va e.inDisk)

/-! ## Reading after writing

Each update touches one component, so every other component reads as before by `rfl`. -/

section Fields

variable (k : Kernel) (pid f d va : ℕ) (p : Proc) (pg : Page) (e : Pte) (x : Fin 1024)

@[simp] theorem setProc_kmem : (k.setProc pid p).kmem = k.kmem := rfl
@[simp] theorem setProc_mem : (k.setProc pid p).mem = k.mem := rfl
@[simp] theorem setProc_dirs : (k.setProc pid p).dirs = k.dirs := rfl
@[simp] theorem setProc_walkpgdir : (k.setProc pid p).walkpgdir d va = k.walkpgdir d va := rfl
@[simp] theorem setMem_kmem : (k.setMem f pg).kmem = k.kmem := rfl
@[simp] theorem setMem_dirs : (k.setMem f pg).dirs = k.dirs := rfl
@[simp] theorem setMem_procs : (k.setMem f pg).procs = k.procs := rfl
@[simp] theorem setMem_walkpgdir : (k.setMem f pg).walkpgdir d va = k.walkpgdir d va := rfl
@[simp] theorem incCounter_kmem : (k.incCounter f).kmem = k.kmem.incCounter f := rfl
@[simp] theorem incCounter_walkpgdir : (k.incCounter f).walkpgdir d va = k.walkpgdir d va := rfl
@[simp] theorem decCounter_kmem : (k.decCounter f).kmem = k.kmem.decCounter f := rfl
@[simp] theorem decCounter_walkpgdir : (k.decCounter f).walkpgdir d va = k.walkpgdir d va := rfl
@[simp] theorem setPte_kmem : (k.setPte d va e).kmem = k.kmem := rfl
@[simp] theorem setPte_mem : (k.setPte d va e).mem = k.mem := rfl
@[simp] theorem setPte_procs : (k.setPte d va e).procs = k.procs := rfl
@[simp] theorem addTable_kmem : (k.addTable d x f).kmem = k.kmem := rfl
@[simp] theorem addTable_mem : (k.addTable d x f).mem = k.mem := rfl
@[simp] theorem addTable_procs : (k.addTable d x f).procs = k.procs := rfl
@[simp] theorem dropTable_kmem : (k.dropTable d x).kmem = k.kmem := rfl
@[simp] theorem dropTable_procs : (k.dropTable d x).procs = k.procs := rfl

theorem setProc_procs_self : (k.setProc pid p).procs pid = some p := update_self ..

theorem setProc_procs_of_ne {q : ℕ} (h : q ≠ pid) : (k.setProc pid p).procs q = k.procs q :=
  update_of_ne h ..

end Fields

/-- A process after the change of one: the changed one, or another. -/
theorem procs_of_setProc {k : Kernel} {pid q : ℕ} {p r : Proc}
    (h : (k.setProc pid p).procs q = some r) : q = pid ∧ r = p ∨ q ≠ pid ∧ k.procs q = some r := by
  by_cases hq : q = pid
  · subst hq
    rw [setProc_procs_self] at h
    exact .inl ⟨rfl, (Option.some.inj h).symm⟩
  · rw [setProc_procs_of_ne k pid p hq] at h
    exact .inr ⟨hq, h⟩

/-- A null `myproc` stops the kernel. -/
theorem proc_eq_ok {k : Kernel} {pid : ℕ} {p : Proc} : k.proc pid = .ok p ↔ k.procs pid = some p := by
  unfold proc
  cases k.procs pid <;> simp

/-- A function that looks up its process first. -/
theorem proc_bind_eq_ok {α : Type} {k : Kernel} {pid : ℕ} {f : Proc → Except String α} {r : α} :
    (k.proc pid >>= f) = .ok r ↔ ∃ p, k.procs pid = some p ∧ f p = .ok r := by
  simp only [bind_eq_ok, proc_eq_ok]

theorem of_proc_bind {α : Type} {k : Kernel} {pid : ℕ} {p : Proc} {f : Proc → Except String α} {r : α}
    (hp : k.procs pid = some p) (h : (k.proc pid >>= f) = .ok r) : f p = .ok r := by
  rwa [proc_eq_ok.mpr hp, ok_bind] at h

theorem walkpgdir_congr (k : Kernel) (d : ℕ) {va va' : ℕ} (h : vpn va = vpn va') :
    k.walkpgdir d va = k.walkpgdir d va' := by
  unfold walkpgdir
  cases k.dirs d with
  | none => rfl
  | some pd => exact pd.walk_congr h

theorem walkpgdir_setPte (k : Kernel) (d va : ℕ) (e : Pte) (d' va' : ℕ) :
    (k.setPte d va e).walkpgdir d' va'
      = if d' = d ∧ vpn va' = vpn va then (k.walkpgdir d' va').map fun _ => e
        else k.walkpgdir d' va' := by
  by_cases hd : d' = d
  · subst hd
    simp only [walkpgdir, setPte, update_self]
    cases k.dirs d' with
    | none => simp
    | some pd => simp [PageDir.walk_setPte]
  · simp [walkpgdir, setPte, hd]

/-- An entry after a store is the one stored, or it was there before. -/
theorem walk_of_setPte {k : Kernel} {d va : ℕ} {e : Pte} {d' va' : ℕ} {e' : Pte}
    (h : (k.setPte d va e).walkpgdir d' va' = some e') : (d' = d ∧ vpn va' = vpn va) ∧ e' = e ∨
      ¬ (d' = d ∧ vpn va' = vpn va) ∧ k.walkpgdir d' va' = some e' := by
  rw [walkpgdir_setPte] at h
  split at h
  · obtain ⟨_, -, rfl⟩ := Option.map_eq_some_iff.mp h
    exact .inl ⟨‹_›, rfl⟩
  · exact .inr ⟨‹_›, h⟩

theorem walkpgdir_setPte_self {k : Kernel} {d va : ℕ} {e0 : Pte} (e : Pte)
    (h : k.walkpgdir d va = some e0) : (k.setPte d va e).walkpgdir d va = some e := by
  simp [walkpgdir_setPte, h]

/-- An entry other than the one stored to. -/
theorem walkpgdir_setPte_of_ne {k : Kernel} {d va : ℕ} {e : Pte} {d' va' : ℕ}
    (h : d' ≠ d ∨ vpn va' ≠ vpn va) : (k.setPte d va e).walkpgdir d' va' = k.walkpgdir d' va' := by
  rw [walkpgdir_setPte, if_neg]
  rintro ⟨h1, h2⟩
  rcases h with h | h
  · exact h h1
  · exact h h2

theorem isSome_dirs_setPte (k : Kernel) (d va : ℕ) (e : Pte) (d' : ℕ) :
    ((k.setPte d va e).dirs d').isSome = (k.dirs d').isSome := by
  by_cases hd : d' = d
  · subst hd
    simp [setPte]
  · simp [setPte, hd]

theorem setPte_setPte (k : Kernel) (d va : ℕ) (e e' : Pte) :
    (k.setPte d va e).setPte d va e' = k.setPte d va e' := by
  simp [setPte, Function.comp_def, PageDir.setPte_setPte]

theorem walkpgdir_addTable (k : Kernel) {d : ℕ} (x : Fin 1024) (f d' va : ℕ)
    (hd : (k.dirs d).isSome) :
    (k.addTable d x f).walkpgdir d' va
      = if d' = d ∧ pdx va = x then some {} else k.walkpgdir d' va := by
  by_cases h : d' = d
  · subst h
    obtain ⟨pd, hpd⟩ := Option.isSome_iff_exists.mp hd
    simp [walkpgdir, addTable, hpd, PageDir.walk_addTable]
  · simp [walkpgdir, addTable, h]

theorem walkpgdir_dropTable (k : Kernel) (d : ℕ) (x : Fin 1024) (d' va : ℕ) :
    (k.dropTable d x).walkpgdir d' va
      = if d' = d ∧ pdx va = x then none else k.walkpgdir d' va := by
  by_cases h : d' = d
  · subst h
    simp only [walkpgdir, dropTable, update_self]
    cases k.dirs d' with
    | none => simp
    | some pd => simp [PageDir.walk_dropTable]
  · simp [walkpgdir, dropTable, h]

end Kernel

/-! ## The slot tables of a process -/

namespace Proc

/-- `next_free_i_in_mem`. -/
def nextFreeIInMem (p : Proc) : Option (Fin maxPsycPages) :=
  (List.finRange maxPsycPages).find? fun i => !(p.memoryPages i).isUsed

/-- `next_free_i_in_file`. -/
def nextFreeIInFile (p : Proc) : Option (Fin maxPsycPages) :=
  (List.finRange maxPsycPages).find? fun i => !(p.filePages i).isUsed

/-- `get_i_of_va_in_file`: the first slot that carries `va`, in use or not. -/
def getIOfVaInFile (p : Proc) (va : ℕ) : Option (Fin maxPsycPages) :=
  (List.finRange maxPsycPages).find? fun i => (p.filePages i).va == va

def setMemSlot (p : Proc) (i : Fin maxPsycPages) (s : Slot) : Proc :=
  { p with memoryPages := Function.update p.memoryPages i s }

def setFileSlot (p : Proc) (i : Fin maxPsycPages) (s : Slot) : Proc :=
  { p with filePages := Function.update p.filePages i s }

def setSwapFile (p : Proc) (f : SwapFile) : Proc := { p with swapFile := f }

/-- `p->page_faults++`. -/
def countFault (p : Proc) : Proc := { p with pageFaults := incUint p.pageFaults }

/-- A page that has been written to slot `j` of the swap file is entered there. -/
def enterFile (p : Proc) (j : Fin maxPsycPages) (d va : ℕ) : Proc :=
  { p.setFileSlot j { p.filePages j with pgdir := d, va := va, isUsed := true } with
    pagedOut := incUint p.pagedOut }

/-- `memory_pages[i].is_used = 0`. -/
def freeMemSlot (p : Proc) (i : Fin maxPsycPages) : Proc :=
  p.setMemSlot i { p.memoryPages i with isUsed := false }

/-- Store to `memory_pages[i]`, where `none` is the index `-1`: `memory_pages` follows `file_pages` in
`struct proc`, so that store hits the last file slot. -/
def storeMemSlot (p : Proc) : Option (Fin maxPsycPages) → Slot → Proc
  | some i, s => p.setMemSlot i s
  | none, s => p.setFileSlot (Fin.last 15) s

/-- `AQ_next`: rotate `memory_pages` by one; the last entry becomes the first. -/
def aqNext (p : Proc) : Proc := { p with memoryPages := fun i => p.memoryPages (i - 1) }

end Proc

end Xv6
