import Xv6.Fs.Inode

/-!
# Fs/Mkfs — the program `mkfs.c`

The image is a file of blocks that `rsect` and `wsect` read and write; a `struct dinode` is sixteen words
of an inode block.  An `assert` that fails, a read behind the end of the image and `exit(1)` end the
program with an error.  Byte order is that of the disk, so `xint` and `xshort` are the identity.

The files are what `open` and `read` give: a name and the chunks of a file.
-/

namespace Xv6

open Outcome

/-- `ROOTINO`. -/
def rootIno : ℕ := 1

/-- `DIRSIZ`. -/
def dirSiz : ℕ := 14

/-! ## Inodes on disk -/

/-- `struct dinode`, as it is on disk. -/
@[ext] structure DiskInode where
  type : UInt16
  major : UInt16
  minor : UInt16
  nlink : UInt16
  size : UInt32
  addrs : Fin 13 → UInt32

namespace DiskInode

/-- Word `k` of the structure. -/
def word (d : DiskInode) (k : ℕ) : ℕ :=
  if k = 0 then d.type.toNat + 2 ^ 16 * d.major.toNat
  else if k = 1 then d.minor.toNat + 2 ^ 16 * d.nlink.toNat
  else if k = 2 then d.size.toNat
  else (d.addrs (Fin.ofNat 13 (k - 3))).toNat

/-- `din.addrs[i] = a`. -/
def setAddr (d : DiskInode) (i : Fin 13) (a : ℕ) : DiskInode :=
  { d with addrs := Function.update d.addrs i (UInt32.ofNat a) }

end DiskInode

namespace Block

/-- Word `k` of inode `i` of a block. -/
def inodeWord (i : Fin 8) (k : Fin 16) : Fin 128 := ⟨16 * i + k, by omega⟩

/-- `((struct dinode*)buf)[i]`. -/
def dinode (b : Block) (i : Fin 8) : DiskInode where
  type := UInt16.ofNat (b.word (inodeWord i 0))
  major := UInt16.ofNat (b.word (inodeWord i 0) / 2 ^ 16)
  minor := UInt16.ofNat (b.word (inodeWord i 1))
  nlink := UInt16.ofNat (b.word (inodeWord i 1) / 2 ^ 16)
  size := UInt32.ofNat (b.word (inodeWord i 2))
  addrs k := UInt32.ofNat (b.word (inodeWord i ⟨k + 3, by omega⟩))

/-- `((struct dinode*)buf)[i] = d`. -/
def setDinode (b : Block) (i : Fin 8) (d : DiskInode) : Block := fun k =>
  if k.val / 64 = i then UInt8.ofNat (d.word (k.val % 64 / 4) / 2 ^ (8 * (k.val % 4)) % 2 ^ 8) else b k

/-- A block that starts with a superblock. -/
def ofSuperblock (sb : Superblock) : Block :=
  ((((((zero.setWord 0 sb.size).setWord 1 sb.nblocks).setWord 2 sb.ninodes).setWord 3 sb.nlog).setWord 4
    sb.logstart).setWord 5 sb.inodestart).setWord 6 sb.bmapstart

/-- `buf[i/8] = buf[i/8] | (0x1 << (i%8))`. -/
def setBit (b : Block) (i : ℕ) : Block := fun k =>
  if k.val = i / 8 then b k ||| (1 <<< UInt8.ofNat (i % 8)) else b k

end Block

/-! ## The image -/

/-- **The image and the counters** of `mkfs`; `size` is the length of the image file in blocks. -/
structure Mkfs where
  size : ℕ
  block : ℕ → Block
  freeinode : ℕ
  freeblock : ℕ

/-- The block at offset `sec * BSIZE`, a `uint`. -/
def sect (sec : ℕ) : ℕ := sec * bsize % 2 ^ 32 / bsize

/-- `IBLOCK`. -/
def iblock (inum : ℕ) : ℕ := inum / ipb + mkfsSuperblock.inodestart

/-- `inum % IPB`. -/
def islot (inum : ℕ) : Fin 8 := Fin.ofNat 8 inum

namespace Mkfs

/-- `rsect`; behind the end of the image `read` returns nothing. -/
def rsect (sec : ℕ) (m : Mkfs) : Except String Block :=
  if sect sec < m.size then .ok (m.block (sect sec)) else .error "read"

/-- `wsect`. -/
def wsect (sec : ℕ) (buf : Block) (m : Mkfs) : Mkfs :=
  { m with size := max m.size (sect sec + 1), block := Function.update m.block (sect sec) buf }

/-- `winode`. -/
def winode (inum : ℕ) (ip : DiskInode) (m : Mkfs) : Except String Mkfs := do
  let buf ← m.rsect (iblock inum)
  .ok (m.wsect (iblock inum) (buf.setDinode (islot inum) ip))

/-- `rinode`. -/
def rinode (inum : ℕ) (m : Mkfs) : Except String DiskInode := do
  let buf ← m.rsect (iblock inum)
  .ok (buf.dinode (islot inum))

/-- `ialloc`. -/
def ialloc (type : UInt16) (m : Mkfs) : Except String (ℕ × Mkfs) := do
  let inum := m.freeinode
  let m ← winode inum ⟨type, 0, 0, 1, 0, fun _ => 0⟩ { m with freeinode := m.freeinode + 1 }
  .ok (inum, m)

/-- `balloc`: the bitmap of the first `used` blocks. -/
def balloc (used : ℕ) (m : Mkfs) : Except String Mkfs :=
  if used < bsize * 8 then
    .ok (m.wsect mkfsSuperblock.bmapstart ((List.range used).foldl Block.setBit .zero))
  else .error "used < BSIZE*8"

/-- `freeblock++`. -/
def takeBlock (m : Mkfs) : Mkfs := { m with freeblock := m.freeblock + 1 }

/-- The entry for block `fbn` in the indirect block `ind`. -/
def mapEntry (ind fbn : ℕ) (m : Mkfs) : Except String (ℕ × Mkfs) := do
  let indirect ← m.rsect ind
  if indirect.word (Fs.indexOf fbn) = 0 then
    let indirect := indirect.setWord (Fs.indexOf fbn) m.freeblock
    .ok (indirect.word (Fs.indexOf fbn), m.takeBlock.wsect ind indirect)
  else .ok (indirect.word (Fs.indexOf fbn), m)

/-- The address of `din.addrs[k]`, which is allocated if it has none. -/
def mapAddr (k : Fin 13) (din : DiskInode) (m : Mkfs) : DiskInode × Mkfs :=
  if din.addrs k = 0 then (din.setAddr k m.freeblock, m.takeBlock) else (din, m)

/-- The part of `iappend` that finds or allocates block `fbn`, and reads it. -/
def fetchBlock (fbn : ℕ) (din : DiskInode) (m : Mkfs) : Except String (ℕ × Block × DiskInode × Mkfs) :=
  if fbn < ndirect then do
    let (din, m) := m.mapAddr (Fin.ofNat 13 fbn) din
    let x := (din.addrs (Fin.ofNat 13 fbn)).toNat
    let buf ← m.rsect x
    .ok (x, buf, din, m)
  else do
    let (din, m) := m.mapAddr 12 din
    let (x, m) ← m.mapEntry (din.addrs 12).toNat fbn
    let buf ← m.rsect x
    .ok (x, buf, din, m)

/-- The loop of `iappend`: `n` bytes of `p` at `off`.  Each turn writes a byte at least. -/
def appendLoop : ℕ → DiskInode → (ℕ → UInt8) → ℕ → ℕ → Mkfs → Except String (DiskInode × ℕ × Mkfs)
  | 0, din, _, off, _, m => .ok (din, off, m)
  | turns + 1, din, p, off, n, m =>
    if n = 0 then .ok (din, off, m)
    else
      let fbn := off / bsize
      if fbn < maxFile then do
        let (x, buf, din, m) ← m.fetchBlock fbn din
        let n1 := min n ((fbn + 1) * bsize - off)
        let m := m.wsect x (buf.move (off - fbn * bsize) n1 p)
        appendLoop turns din (fun k => p (n1 + k)) (off + n1) (n - n1) m
      else .error "fbn < MAXFILE"

/-- `iappend`. -/
def iappend (inum : ℕ) (data : List UInt8) (m : Mkfs) : Except String Mkfs := do
  let din ← m.rinode inum
  let (din, off, m) ← appendLoop data.length din (fun k => data.getD k 0) din.size.toNat data.length m
  m.winode inum { din with size := UInt32.ofNat off }

end Mkfs

/-! ## `main` -/

/-- A file that `mkfs` is given: its name, and what the calls of `read` return before the end. -/
structure InputFile where
  name : List UInt8
  reads : List (List UInt8)
  sized : ∀ r ∈ reads, 0 < r.length ∧ r.length ≤ bsize

/-- The contents of the file. -/
def InputFile.bytes (f : InputFile) : List UInt8 := f.reads.flatten

/-- `struct dirent`: the inode number, and the name that `strncpy` copies. -/
def dirent (inum : ℕ) (name : List UInt8) : List UInt8 :=
  [UInt8.ofNat inum, UInt8.ofNat (inum / 2 ^ 8)] ++ (name ++ List.replicate dirSiz 0).take dirSiz

/-- `_rm` is the file `rm`. -/
def dropUnderscore (name : List UInt8) : List UInt8 :=
  match name with
  | 95 :: name => name
  | name => name

namespace Mkfs

/-- The turn of the loop in `main` for a file. -/
def addFile (f : InputFile) (m : Mkfs) : Except String Mkfs :=
  if f.name.contains 47 then .error "index(argv[i], '/') == 0"
  else do
    let (inum, m) ← m.ialloc 2
    let m ← m.iappend rootIno (dirent inum (dropUnderscore f.name))
    loop (iappend inum) f.reads m

/-- The image before anything is allocated: zeroes and the superblock. -/
def start : Mkfs :=
  let nmeta := mkfsSuperblock.bmapstart + (fsSize / (bsize * 8) + 1)
  let m : Mkfs := ⟨0, fun _ => .zero, 1, nmeta⟩
  ((List.range fsSize).foldl (fun m i => m.wsect i .zero) m).wsect 1 (.ofSuperblock mkfsSuperblock)

/-- The root directory with its entries for itself. -/
def makeRoot (m : Mkfs) : Except String Mkfs := do
  let (rootino, m) ← m.ialloc 1
  if rootino = rootIno then
    let m ← m.iappend rootino (dirent rootino [46])
    m.iappend rootino (dirent rootino [46, 46])
  else .error "rootino == ROOTINO"

/-- "fix size of root inode dir". -/
def fixRoot (m : Mkfs) : Except String Mkfs := do
  let din ← m.rinode rootIno
  let off := (din.size.toNat / bsize + 1) * bsize
  m.winode rootIno { din with size := UInt32.ofNat off }

end Mkfs

/-- **`main`**, after its arguments have been checked. -/
def mkfs (files : List InputFile) : Except String Mkfs := do
  let m ← Mkfs.start.makeRoot
  let m ← loop Mkfs.addFile files m
  let m ← m.fixRoot
  m.balloc m.freeblock

/-! ## What the kernel reads -/

/-- The values of `type`; the kernel compares it with `0`, `T_DIR` and `T_DEV` only. -/
def InodeType.ofShort (t : UInt16) : InodeType :=
  if t = 0 then .free else if t = 1 then .dir else if t = 3 then .dev else .file

/-- `ilock`: the inode in memory. -/
def DiskInode.inode (d : DiskInode) : Dinode where
  type := .ofShort d.type
  major := d.major.toInt16.toInt
  minor := d.minor.toInt16.toInt
  nlink := d.nlink.toNat
  size := d.size.toNat
  addrs k := (d.addrs k).toNat

/-- `readsb`. -/
def Block.superblock (b : Block) : Superblock :=
  ⟨b.word 0, b.word 1, b.word 2, b.word 3, b.word 4, b.word 5, b.word 6⟩

/-- `bp->data[bi/8] & (1 << (bi % 8))`. -/
def Block.bit (b : Block) (bi : ℕ) : Bool :=
  b (Fin.ofNat 512 (bi / 8)) &&& (1 <<< UInt8.ofNat (bi % 8)) ≠ 0

/-- **The file system that the kernel finds** on a disk, with its device drivers. -/
def Fs.ofDisk (block : ℕ → Block) (devsw : ℤ → Option Device) : Fs :=
  let sb := (block 1).superblock
  { sb := sb
    used := fun b => (block (sb.bmapstart + b / (bsize * 8))).bit (b % (bsize * 8))
    block := block
    dinode := fun i => ((block (i / ipb + sb.inodestart)).dinode (islot i)).inode
    devsw := devsw }

end Xv6
