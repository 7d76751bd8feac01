import Xv6.Fs.Layout
import Xv6.Lib.Outcome

/-!
# Fs/Inode — blocks and inodes of `fs.c`

`Fs` is the disk as the buffer cache shows it: the bits of the free map, the inodes of the inode blocks
and the contents of the other blocks.  An inode in memory is a copy of the one on disk, which `bmap` and
`writei` change before `iupdate` writes it back; the functions take it and return it.
-/

namespace Xv6

open Outcome

/-- `NDIRECT`. -/
def ndirect : ℕ := 12

/-- `NINDIRECT`. -/
def nindirect : ℕ := 128

/-- `MAXFILE`. -/
def maxFile : ℕ := ndirect + nindirect

/-- `NINODE`. -/
def nInode : ℕ := 50

/-- `NDEV`. -/
def nDev : ℤ := 10

/-- `type` of an inode: `0`, `T_DIR`, `T_FILE` and `T_DEV`. -/
inductive InodeType where
  | free
  | dir
  | file
  | dev
  deriving DecidableEq

/-- `struct dinode`. -/
structure Dinode where
  type : InodeType
  major : ℤ
  minor : ℤ
  nlink : ℕ
  size : ℕ
  addrs : Fin 13 → ℕ

/-- A driver in `devsw`: the bytes or the result of a read of `n`, and the result of a write. -/
structure Device where
  read : ℕ → ℤ × List UInt8
  write : (ℕ → UInt8) → ℕ → ℤ

/-- **The file system**, as the buffer cache shows it. -/
structure Fs where
  sb : Superblock
  used : ℕ → Bool
  block : ℕ → Block
  dinode : ℕ → Dinode
  devsw : ℤ → Option Device

namespace Block

/-- The byte of a block that a file offset names. -/
def off (k : ℕ) : Fin bsize := ⟨k % bsize, Nat.mod_lt _ (by decide)⟩

/-- `memmove(data + o, src, m)`. -/
def move (b : Block) (o m : ℕ) (src : ℕ → UInt8) : Block := fun k =>
  if o ≤ k ∧ k < o + m then src (k - o) else b k

end Block

namespace Dinode

/-- `memset(dip, 0, sizeof(*dip))`. -/
def zero : Dinode := ⟨.free, 0, 0, 0, 0, fun _ => 0⟩

/-- `ip->addrs[i] = a`. -/
def setAddr (ip : Dinode) (i : Fin 13) (a : ℕ) : Dinode :=
  { ip with addrs := Function.update ip.addrs i a }

theorem setAddr_addrs_self (ip : Dinode) (i : Fin 13) (a : ℕ) : (ip.setAddr i a).addrs i = a :=
  Function.update_self ..

end Dinode

namespace Fs

/-- New contents for a block. -/
def setBlock (fs : Fs) (b : ℕ) (v : Block) : Fs := { fs with block := Function.update fs.block b v }

/-! ## Blocks -/

/-- `balloc`: the first block whose bit is clear is marked and zeroed. -/
def balloc (fs : Fs) : Except String (ℕ × Fs) :=
  match (List.range fs.sb.size).find? fun b => !fs.used b with
  | none => .error "balloc: out of blocks"
  | some b => .ok (b, { fs with used := Function.update fs.used b true }.setBlock b .zero)

/-- `bfree`. -/
def bfree (b : ℕ) (fs : Fs) : Except String Fs :=
  if fs.used b then .ok { fs with used := Function.update fs.used b false }
  else .error "freeing free block"

/-- `iupdate`. -/
def iupdate (fs : Fs) (inum : ℕ) (ip : Dinode) : Fs :=
  { fs with dinode := Function.update fs.dinode inum ip }

/-- The word of an indirect block that names block `bn` of a file. -/
def indexOf (bn : ℕ) : Fin 128 := Fin.ofNat 128 (bn - ndirect)

/-- `bmap`: the address of block `bn`, which is allocated if it has none. -/
def bmap (ip : Dinode) (bn : ℕ) (fs : Fs) : Except String (ℕ × Dinode × Fs) :=
  if bn < ndirect then
    let addr := ip.addrs (Fin.ofNat 13 bn)
    if addr = 0 then do
      let (addr, fs) ← fs.balloc
      .ok (addr, ip.setAddr (Fin.ofNat 13 bn) addr, fs)
    else .ok (addr, ip, fs)
  else if bn - ndirect < nindirect then do
    -- load the indirect block, allocating it if necessary
    let (ind, ip, fs) ← (if ip.addrs 12 = 0 then do
        let (ind, fs) ← fs.balloc
        .ok (ind, ip.setAddr 12 ind, fs)
      else .ok (ip.addrs 12, ip, fs))
    let addr := (fs.block ind).word (indexOf bn)
    if addr = 0 then do
      let (addr, fs) ← fs.balloc
      .ok (addr, ip, fs.setBlock ind ((fs.block ind).setWord (indexOf bn) addr))
    else .ok (addr, ip, fs)
  else .error "bmap: out of range"

/-! ## Contents -/

/-- The loop over the direct blocks in `itrunc`. -/
def truncDirect (i : Fin 12) (s : Dinode × Fs) : Except String (Dinode × Fs) :=
  if s.1.addrs i.castSucc ≠ 0 then do
    let fs ← bfree (s.1.addrs i.castSucc) s.2
    .ok (s.1.setAddr i.castSucc 0, fs)
  else .ok s

/-- The loop over the indirect block `a` in `itrunc`. -/
def truncIndirect (a : Block) (j : Fin 128) (fs : Fs) : Except String Fs :=
  if a.word j ≠ 0 then bfree (a.word j) fs else .ok fs

/-- `itrunc`. -/
def itrunc (inum : ℕ) (ip : Dinode) (fs : Fs) : Except String (Dinode × Fs) := do
  let (ip, fs) ← loop truncDirect (List.finRange 12) (ip, fs)
  let (ip, fs) ← (if ip.addrs 12 ≠ 0 then do
      let fs ← loop (truncIndirect (fs.block (ip.addrs 12))) (List.finRange 128) fs
      let fs ← bfree (ip.addrs 12) fs
      .ok (ip.setAddr 12 0, fs)
    else .ok (ip, fs))
  let ip := { ip with size := 0 }
  .ok (ip, fs.iupdate inum ip)

/-- The loop of `readi`: `n` bytes from `off` on.  Each turn reads a byte at least, so `n` turns
suffice. -/
def readLoop : ℕ → Dinode → ℕ → ℕ → Fs → Except String (List UInt8 × Dinode × Fs)
  | 0, ip, _, _, fs => .ok ([], ip, fs)
  | turns + 1, ip, off, n, fs =>
    if n = 0 then .ok ([], ip, fs)
    else do
      let (addr, ip, fs) ← bmap ip (off / bsize) fs
      let m := min n (bsize - off % bsize)
      let data := (List.range m).map fun k => fs.block addr (Block.off (off % bsize + k))
      let (rest, ip, fs) ← readLoop turns ip (off + m) (n - m) fs
      .ok (data ++ rest, ip, fs)

/-- `readi`: the result and the bytes it moves to `dst`. -/
def readi (ip : Dinode) (off n : ℕ) (fs : Fs) : Except String ((ℤ × List UInt8) × Dinode × Fs) :=
  if ip.type = .dev then
    match fs.devsw ip.major with
    | none => .ok ((-1, []), ip, fs)
    | some d =>
      if ip.major < 0 ∨ ip.major ≥ nDev then .ok ((-1, []), ip, fs) else .ok (d.read n, ip, fs)
  else if off > ip.size ∨ (off + n) % 2 ^ 32 < off then .ok ((-1, []), ip, fs)
  else do
    let n := if off + n > ip.size then ip.size - off else n
    let (data, ip, fs) ← readLoop n ip off n fs
    .ok ((n, data), ip, fs)

/-- The loop of `writei`. -/
def writeLoop : ℕ → Dinode → (ℕ → UInt8) → ℕ → ℕ → Fs → Except String (Dinode × Fs)
  | 0, ip, _, _, _, fs => .ok (ip, fs)
  | turns + 1, ip, src, off, n, fs =>
    if n = 0 then .ok (ip, fs)
    else do
      let (addr, ip, fs) ← bmap ip (off / bsize) fs
      let m := min n (bsize - off % bsize)
      let fs := fs.setBlock addr ((fs.block addr).move (off % bsize) m src)
      writeLoop turns ip (fun k => src (m + k)) (off + m) (n - m) fs

/-- `writei` of the first `n` bytes of `src`. -/
def writei (inum : ℕ) (ip : Dinode) (src : ℕ → UInt8) (off n : ℕ) (fs : Fs) :
    Except String (ℤ × Dinode × Fs) :=
  if ip.type = .dev then
    match fs.devsw ip.major with
    | none => .ok (-1, ip, fs)
    | some d =>
      if ip.major < 0 ∨ ip.major ≥ nDev then .ok (-1, ip, fs) else .ok (d.write src n, ip, fs)
  else if off > ip.size ∨ (off + n) % 2 ^ 32 < off then .ok (-1, ip, fs)
  else if off + n > maxFile * bsize then .ok (-1, ip, fs)
  else do
    let (ip, fs) ← writeLoop n ip src off n fs
    if n > 0 ∧ off + n > ip.size then
      let ip := { ip with size := off + n }
      .ok (n, ip, fs.iupdate inum ip)
    else .ok (n, ip, fs)

end Fs

/-! ## The inode cache -/

/-- An entry of `icache`. -/
structure CachedInode where
  inum : ℕ
  ref : ℕ
  valid : Bool
  ip : Dinode

/-- The file system and the inode cache. -/
structure FsState where
  fs : Fs
  icache : Fin nInode → CachedInode

namespace FsState

/-- A new entry. -/
def setEntry (s : FsState) (i : Fin nInode) (c : CachedInode) : FsState :=
  { s with icache := Function.update s.icache i c }

/-- `iget`. -/
def iget (inum : ℕ) (s : FsState) : Except String (Fin nInode × FsState) :=
  match (List.finRange nInode).find? fun i => 0 < (s.icache i).ref ∧ (s.icache i).inum = inum with
  | some i => .ok (i, s.setEntry i { s.icache i with ref := (s.icache i).ref + 1 })
  | none =>
    match (List.finRange nInode).find? fun i => (s.icache i).ref = 0 with
    | some i => .ok (i, s.setEntry i { s.icache i with inum := inum, ref := 1, valid := false })
    | none => .error "iget: no inodes"

/-- `ialloc`. -/
def ialloc (type : InodeType) (s : FsState) : Except String (Fin nInode × FsState) :=
  match (List.range' 1 (s.fs.sb.ninodes - 1)).find? fun inum => (s.fs.dinode inum).type = .free with
  | some inum => iget inum { s with fs := s.fs.iupdate inum { Dinode.zero with type := type } }
  | none => .error "ialloc: no inodes"

/-- `idup`. -/
def idup (i : Fin nInode) (s : FsState) : FsState :=
  s.setEntry i { s.icache i with ref := (s.icache i).ref + 1 }

/-- `ilock`. -/
def ilock (i : Fin nInode) (s : FsState) : Except String FsState :=
  if (s.icache i).ref < 1 then .error "ilock"
  else if (s.icache i).valid then .ok s
  else
    let ip := s.fs.dinode (s.icache i).inum
    if ip.type = .free then .error "ilock: no type"
    else .ok (s.setEntry i { s.icache i with ip := ip, valid := true })

/-- `iput`: the last reference to an inode without links frees it. -/
def iput (i : Fin nInode) (s : FsState) : Except String FsState := do
  let c := s.icache i
  let s ← (if c.valid ∧ c.ip.nlink = 0 ∧ c.ref = 1 then do
      let (ip, fs) ← s.fs.itrunc c.inum c.ip
      let ip := { ip with type := .free }
      .ok { s.setEntry i { c with ip := ip, valid := false } with fs := fs.iupdate c.inum ip }
    else .ok s)
  .ok (s.setEntry i { s.icache i with ref := (s.icache i).ref - 1 })

end FsState

end Xv6
