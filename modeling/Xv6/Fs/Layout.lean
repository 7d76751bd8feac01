import Mathlib

/-!
# Fs/Layout — constants and blocks of `fs.h`, `param.h` and `mkfs.c`

A disk block is 512 bytes.  Some blocks are read as arrays of 32-bit words: the log header and the
indirect blocks.  `word` and `setWord` are these accesses, in the byte order of the machine.
-/

namespace Xv6

/-- `BSIZE`. -/
def bsize : ℕ := 512

/-- `MAXOPBLOCKS`. -/
def maxOpBlocks : ℕ := 10

/-- `LOGSIZE`. -/
def logSize : ℕ := maxOpBlocks * 3

/-- `FSSIZE`. -/
def fsSize : ℕ := 1000

/-- `NINODES` of `mkfs.c`. -/
def nInodes : ℕ := 200

/-- `IPB`, the inodes of a block. -/
def ipb : ℕ := 8

/-- `struct superblock`. -/
structure Superblock where
  size : ℕ
  nblocks : ℕ
  ninodes : ℕ
  nlog : ℕ
  logstart : ℕ
  inodestart : ℕ
  bmapstart : ℕ

/-- The superblock `mkfs` writes. -/
def mkfsSuperblock : Superblock :=
  let nbitmap := fsSize / (bsize * 8) + 1
  let ninodeblocks := nInodes / ipb + 1
  let nlog := logSize
  let nmeta := 2 + nlog + ninodeblocks + nbitmap
  { size := fsSize
    nblocks := fsSize - nmeta
    ninodes := nInodes
    nlog := nlog
    logstart := 2
    inodestart := 2 + nlog
    bmapstart := 2 + nlog + ninodeblocks }

instance neZero_addrs : NeZero 13 := ⟨by decide⟩

/-! ## Blocks -/

instance neZero_words : NeZero 128 := ⟨by decide⟩

/-- The contents of a disk block. -/
abbrev Block := Fin bsize → UInt8

namespace Block

/-- A block of zeroes. -/
def zero : Block := fun _ => 0

/-- Byte `o` of word `i`. -/
def cell (i : Fin 128) (o : Fin 4) : Fin bsize := ⟨4 * i + o, by simp only [bsize]; omega⟩

/-- `((uint*)bp->data)[i]`. -/
def word (b : Block) (i : Fin 128) : ℕ :=
  (b (cell i 0)).toNat + 2 ^ 8 * (b (cell i 1)).toNat + 2 ^ 16 * (b (cell i 2)).toNat
    + 2 ^ 24 * (b (cell i 3)).toNat

/-- `((uint*)bp->data)[i] = v`. -/
def setWord (b : Block) (i : Fin 128) (v : ℕ) : Block := fun k =>
  if k.val / 4 = i then UInt8.ofNat (v / 2 ^ (8 * (k.val % 4)) % 2 ^ 8) else b k

theorem setWord_cell_self (b : Block) (i : Fin 128) (v : ℕ) (o : Fin 4) :
    (b.setWord i v (cell i o)).toNat = v / 2 ^ (8 * o.val) % 2 ^ 8 := by
  have hdiv : (cell i o).val / 4 = i := by simp only [cell]; omega
  have hmod : (cell i o).val % 4 = o := by simp only [cell]; omega
  rw [setWord, if_pos hdiv, hmod, UInt8.toNat_ofNat', Nat.mod_mod]

theorem setWord_cell_of_ne (b : Block) {i j : Fin 128} (h : j ≠ i) (v : ℕ) (o : Fin 4) :
    b.setWord i v (cell j o) = b (cell j o) := by
  have hdiv : (cell j o).val / 4 ≠ i := by
    have hne : j.val ≠ i.val := fun he => h (Fin.ext he)
    simp only [cell]
    omega
  rw [setWord, if_neg hdiv]

/-- **A word that was written is read back.** -/
theorem word_setWord_self (b : Block) (i : Fin 128) {v : ℕ} (h : v < 2 ^ 32) :
    (b.setWord i v).word i = v := by
  have h3 : ((3 : Fin 4) : ℕ) = 3 := rfl
  simp only [word, setWord_cell_self, Fin.val_zero, Fin.val_one, Fin.val_two, h3]
  norm_num
  omega

/-- **Other words are left alone.** -/
theorem word_setWord_of_ne (b : Block) {i j : Fin 128} (h : j ≠ i) (v : ℕ) :
    (b.setWord i v).word j = b.word j := by
  simp only [word, setWord_cell_of_ne b h]

@[simp] theorem word_zero (i : Fin 128) : zero.word i = 0 := rfl

end Block

end Xv6
