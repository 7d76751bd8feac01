import Xv6.Fs.File
import Xv6.Proc.Process
import Xv6.Vm.Guard

/-!
# Proc/Exec — `exec`, and what it does when it cannot go on

`exec.c` with the helpers of `vm.c` it uses.  The file system is `namei`: the inode a path names and the bytes of
the file.  A process in `exec` holds a log transaction, a reference to the inode and its lock; `Task` counts them.
The strings of `argv` lie in the old image, so the kernel reads them, here once, through the page table that is
still installed.  Of `path` only the bytes matter: a fault on them is over before `exec` has taken anything.

Every exit behind `namei` but the last goes to the label `bad`, and what stands there is a panic.
-/

namespace Xv6

open Outcome

/-! ## The executable -/

/-- `ELF_MAGIC`. -/
def elfMagic : ℕ := 0x464C457F

/-- `MAXARG`. -/
def maxArg : ℕ := 32

/-- `sizeof(struct elfhdr)`. -/
def elfHdrSize : ℕ := 52

/-- `sizeof(struct proghdr)`. -/
def progHdrSize : ℕ := 32

/-- A little-endian number of `n` bytes at `i`. -/
def leBytes (bs : List UInt8) (i : ℕ) : ℕ → ℕ
  | 0 => 0
  | n + 1 => (bs.getD i 0).toNat + 256 * leBytes bs (i + 1) n

/-- The bytes of a 32-bit word. -/
def toLeBytes (w : ℕ) : List UInt8 := (List.range 4).map fun i => (w / 256 ^ i).toUInt8

/-- `struct elfhdr`, as far as `exec` reads it. -/
structure ElfHdr where
  magic : ℕ
  entry : ℕ
  phoff : ℕ
  phnum : ℕ

def ElfHdr.decode (bs : List UInt8) : ElfHdr := ⟨leBytes bs 0 4, leBytes bs 24 4, leBytes bs 28 4, leBytes bs 44 2⟩

/-- `struct proghdr`, as far as `exec` reads it. -/
structure ProgHdr where
  type : ℕ
  off : ℕ
  vaddr : ℕ
  filesz : ℕ
  memsz : ℕ

def ProgHdr.decode (bs : List UInt8) : ProgHdr :=
  ⟨leBytes bs 0 4, leBytes bs 4 4, leBytes bs 8 4, leBytes bs 16 4, leBytes bs 20 4⟩

/-- `ELF_PROG_LOAD`. -/
def elfProgLoad : ℕ := 1

/-- The label `bad`. -/
def bad {α : Type} : Except String α := .error "EXEC FAILED!\n"

namespace Kernel

/-! ## Filling the new image -/

/-- Bytes go to a frame, from `o` on. -/
def fillFrame (k : Kernel) (f o : ℕ) (bs : List UInt8) : Kernel :=
  k.setMem f fun i => if o ≤ i ∧ i < o + bs.length then bs.getD (i - o) 0 else k.mem f i

/-- The loop of `loaduvm` over the offsets of the pages; `false` is the result `-1`. -/
def loadPages (b : ByteFile) (d addr off sz : ℕ) : List ℕ → Kernel → Except String (Bool × Kernel)
  | [], k => .ok (true, k)
  | i :: is, k =>
    match k.walkpgdir d (addr + i) with
    | none => .error "loaduvm: address should exist"
    | some e =>
      let n := min (sz - i) pgSize
      let (r, bs) := b.read ((off + i) % 2 ^ 32) n
      let k := k.fillFrame e.addr 0 bs
      if r ≠ n then .ok (false, k) else loadPages b d addr off sz is k

/-- `loaduvm`. -/
def loaduvm (k : Kernel) (b : ByteFile) (d addr off sz : ℕ) : Except String (Bool × Kernel) :=
  if addr % pgSize ≠ 0 then .error "loaduvm: addr must be page aligned"
  else loadPages b d addr off sz (pagesFrom 0 sz) k

/-- The program-header loop of `exec` for `n` more headers at `off`. -/
def loadSegments (pol : Policy) (acc : Access) (pid : ℕ) (b : ByteFile) (d : ℕ) :
    ℕ → ℕ → ℕ → Kernel → Except String (ℕ × Kernel)
  | 0, _, sz, k => .ok (sz, k)
  | n + 1, off, sz, k =>
    let (r, bs) := b.read off progHdrSize
    if r ≠ progHdrSize then bad
    else
      let ph := ProgHdr.decode bs
      let off := (off + progHdrSize) % 2 ^ 32
      if ph.type ≠ elfProgLoad then loadSegments pol acc pid b d n off sz k
      else if ph.memsz < ph.filesz then bad
      else if (ph.vaddr + ph.memsz) % 2 ^ 32 < ph.vaddr then bad
      else do
        let (sz, k) ← allocuvm pol acc k pid d sz ((ph.vaddr + ph.memsz) % 2 ^ 32)
        if sz = 0 then bad
        else if ph.vaddr % pgSize ≠ 0 then bad
        else do
          let (r, k) ← k.loaduvm b d ph.vaddr ph.off ph.filesz
          if r then loadSegments pol acc pid b d n off sz k else bad

/-- `uva2ka`, as a frame; `none` is the null pointer.  Where the table is missing the source reads through a null
pointer. -/
def uva2ka (k : Kernel) (d va : ℕ) : Except String (Option ℕ) :=
  match k.walkpgdir d va with
  | none => .error "trap"
  | some e => .ok (if e.p && e.u then some e.addr else none)

/-- The loop of `copyout`; the first argument bounds the pages. -/
def copyoutFrom (d : ℕ) : ℕ → ℕ → List UInt8 → Kernel → Except String (Bool × Kernel)
  | 0, _, _, k => .ok (true, k)
  | n + 1, va, bs, k =>
    if bs.isEmpty then .ok (true, k)
    else do
      let va0 := pgRoundDown va
      match ← k.uva2ka d va0 with
      | none => return (false, k)
      | some f =>
        let m := min (pgSize - (va - va0)) bs.length
        copyoutFrom d n ((va0 + pgSize) % 2 ^ 32) (bs.drop m) (k.fillFrame f (va - va0) (bs.take m))

/-- `copyout`. -/
def copyout (k : Kernel) (d va : ℕ) (bs : List UInt8) : Except String (Bool × Kernel) :=
  copyoutFrom d bs.length va bs k

/-! ## The arguments -/

/-- The bytes of a user string up to its end, read one by one; the first argument bounds them. -/
def readString (acc : Access) (pid : ℕ) : ℕ → ℕ → Kernel → Except String (List UInt8 × Kernel)
  | 0, _, _ => .error "trap"
  | n + 1, va, k => do
    let k ← acc false k pid va
    match k.userPage pid va with
    | none => throw "trap"
    | some pg =>
      if pg (pgOff va) = 0 then return ([], k)
      else do
        let (bs, k) ← readString acc pid n (va + 1) k
        return (pg (pgOff va) :: bs, k)

/-- The `argv` loop of `exec`: the stack pointer, and the addresses of the copies. -/
def pushArgs (acc : Access) (pid d : ℕ) : ℕ → List ℕ → ℕ → Kernel → Except String (ℕ × List ℕ × Kernel)
  | _, [], sp, k => .ok (sp, [], k)
  | argc, a :: as, sp, k =>
    if maxArg ≤ argc then bad
    else do
      let (str, k) ← readString acc pid kernBase a k
      let sp := (sp + 2 ^ 32 - (str.length + 1)) % 2 ^ 32 / 4 * 4
      let (r, k) ← k.copyout d sp (str ++ [0])
      if r then do
        let (sp', ptrs, k) ← pushArgs acc pid d (argc + 1) as sp k
        return (sp', sp :: ptrs, k)
      else bad

/-- `ustack`, for the copies at `ptrs` and the stack pointer below them. -/
def ustack (ptrs : List ℕ) (sp : ℕ) : List UInt8 :=
  ([0xffffffff, ptrs.length, (sp + 2 ^ 32 - (ptrs.length + 1) * 4) % 2 ^ 32] ++ ptrs ++ [0]).flatMap toLeBytes

/-! ## Rules for the image and the arguments -/

section Rules

variable {P : Kernel → Prop} {pol : Policy} {acc : Access} {pid d : ℕ} {b : ByteFile}

theorem loadPages_yields (hfill : ∀ {k f o bs}, P k → P (k.fillFrame f o bs)) {addr off sz : ℕ} :
    ∀ (is : List ℕ) {k : Kernel}, P k → Yields (loadPages b d addr off sz is k) fun r => P r.2
  | [], _, h => yields_ok h
  | i :: is, k, h => by
    rw [loadPages]
    split
    · exact yields_error
    · exact .ite (yields_ok (hfill h)) (loadPages_yields hfill is (hfill h))

/-- **The segments**: what the growth of the image and the writes to its frames keep. -/
theorem loadSegments_yields (hfill : ∀ {k f o bs}, P k → P (k.fillFrame f o bs))
    (halloc : ∀ {k : Kernel} {oldsz newsz : ℕ}, P k →
      Yields (allocuvm pol acc k pid d oldsz newsz) fun r => r.1 ≠ 0 → P r.2) :
    ∀ (n off sz : ℕ) {k : Kernel}, P k → Yields (loadSegments pol acc pid b d n off sz k) fun r => P r.2
  | 0, _, _, _, h => yields_ok h
  | n + 1, off, sz, k, h => by
    have ih : ∀ off sz {k : Kernel}, P k → Yields (loadSegments pol acc pid b d n off sz k) fun r => P r.2 :=
      loadSegments_yields hfill halloc n
    rw [loadSegments]
    refine .ite yields_error (.ite (ih _ _ h) (.ite yields_error (.ite yields_error ?_)))
    refine (halloc h).bind fun ⟨sz, k⟩ hr => ?_
    dsimp only
    split
    · exact yields_error
    · rename_i h0
      refine .ite yields_error (Yields.bind (.ite yields_error (loadPages_yields hfill _ (hr h0))) fun r hr => ?_)
      exact .ite (ih _ _ hr) yields_error

theorem copyoutFrom_yields (hfill : ∀ {k f o bs}, P k → P (k.fillFrame f o bs)) :
    ∀ (n va : ℕ) (bs : List UInt8) {k : Kernel}, P k → Yields (copyoutFrom d n va bs k) fun r => P r.2
  | 0, _, _, _, h => yields_ok h
  | n + 1, va, bs, k, h => by
    rw [copyoutFrom]
    refine .ite (yields_ok h) (.bind_eq fun r _ => ?_)
    cases r with
    | none => exact yields_ok h
    | some f => exact copyoutFrom_yields hfill n _ _ (hfill h)

theorem readString_yields (hacc : ∀ {k va}, P k → Yields (acc false k pid va) P) : ∀ (n va : ℕ) {k : Kernel},
    P k → Yields (readString acc pid n va k) fun r => P r.2
  | 0, _, _, _ => yields_error
  | n + 1, va, k, h => by
    refine (hacc h).bind fun k1 h1 => ?_
    split
    · exact yields_error
    · exact .ite (yields_ok h1) ((readString_yields hacc n _ h1).bind fun _ hr => yields_ok hr)

theorem pushArgs_yields (hfill : ∀ {k f o bs}, P k → P (k.fillFrame f o bs))
    (hacc : ∀ {k va}, P k → Yields (acc false k pid va) P) : ∀ (argc : ℕ) (as : List ℕ) (sp : ℕ) {k : Kernel},
    P k → Yields (pushArgs acc pid d argc as sp k) fun r => P r.2.2
  | _, [], _, _, h => yields_ok h
  | argc, a :: as, sp, k, h => by
    rw [pushArgs]
    refine .ite yields_error ((readString_yields hacc _ _ h).bind fun r hr => ?_)
    refine (copyoutFrom_yields hfill _ _ _ hr).bind fun r hr => .ite ?_ yields_error
    exact (pushArgs_yields hfill hacc _ as _ hr).bind fun _ hr => yields_ok hr

end Rules

end Kernel

/-! ## `exec` -/

/-- What a process in `exec` works on: the kernel, the two registers of its trap frame, the transactions of the
log, and the references and locks of inodes. -/
structure Task where
  kernel : Kernel
  eip : ℕ
  esp : ℕ
  outstanding : ℕ
  iref : ℕ → ℕ
  ilocked : ℕ → Bool

namespace Task

def beginOp (s : Task) : Task := { s with outstanding := s.outstanding + 1 }

def endOp (s : Task) : Task := { s with outstanding := s.outstanding - 1 }

/-- The reference `namei` returns, and `ilock`. -/
def ilock (s : Task) (inum : ℕ) : Task :=
  { s with iref := Function.update s.iref inum (s.iref inum + 1), ilocked := Function.update s.ilocked inum true }

def iunlockput (s : Task) (inum : ℕ) : Task :=
  { s with iref := Function.update s.iref inum (s.iref inum - 1), ilocked := Function.update s.ilocked inum false }

/-- `exec` behind its transaction: the stack pages and the arguments.  The result is the size of the image and
the stack pointer. -/
def buildStack (pol : Policy) (acc : Access) (pid d : ℕ) (argv : List ℕ) (sz : ℕ) (k : Kernel) :
    Except String (ℕ × ℕ × Kernel) := do
  let (sz, k) ← Kernel.allocuvm pol acc k pid d (pgRoundUp sz) (pgRoundUp sz + 2 * pgSize)
  if sz = 0 then bad
  else do
    let k ← k.clearpteu d (sz - 2 * pgSize)
    let (sp, ptrs, k) ← Kernel.pushArgs acc pid d 0 argv sz k
    let bs := Kernel.ustack ptrs sp
    let sp := (sp + 2 ^ 32 - bs.length) % 2 ^ 32
    let (r, k) ← k.copyout d sp bs
    if r then return (sz, sp, k) else bad

/-- The part of `exec` behind its last `goto bad`: the new image takes the place of the old one. -/
def commit (pid d sz sp entry : ℕ) (s : Task) : Except String Task := do
  let p ← s.kernel.proc pid
  let k ← (s.kernel.setProc pid { p with pgdir := d, sz := sz }).freevm pid p.pgdir
  return { s with kernel := k, eip := entry, esp := sp }

/-- `exec` behind `namei`, for the file `b` of inode `inum`. -/
def execFile (pol : Policy) (acc : Access) (inum : ℕ) (b : ByteFile) (argv : List ℕ) (pid : ℕ) (s : Task) :
    Except String Task :=
  let s := s.ilock inum
  let (r, bs) := b.read 0 elfHdrSize
  if r ≠ elfHdrSize then bad
  else
    let elf := ElfHdr.decode bs
    if elf.magic ≠ elfMagic then bad
    else do
      let (d, k) ← s.kernel.setupkvm pid
      match d with
      | none => bad
      | some d => do
        let (sz, k) ← Kernel.loadSegments pol acc pid b d elf.phnum elf.phoff 0 k
        let s := ({ s with kernel := k }.iunlockput inum).endOp
        let (sz, sp, k) ← buildStack pol acc pid d argv sz s.kernel
        commit pid d sz sp elf.entry { s with kernel := k }

/-- `exec`; `false` is the result `-1`. -/
def exec (pol : Policy) (acc : Access) (namei : List UInt8 → Option (ℕ × ByteFile)) (path : List UInt8)
    (argv : List ℕ) (pid : ℕ) (s : Task) : Except String (Bool × Task) :=
  let s := s.beginOp
  match namei path with
  | none => .ok (false, s.endOp)
  | some (inum, b) => do
    let s ← execFile pol acc inum b argv pid s
    return (true, s)

/-! ## A failed `exec` -/

section Failure

variable (pol : Policy) (acc : Access) {namei : List UInt8 → Option (ℕ × ByteFile)} {path : List UInt8}
  (argv : List ℕ) (pid : ℕ) (s : Task)

end Failure

end Task

end Xv6
