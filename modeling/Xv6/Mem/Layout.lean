import Mathlib

/-!
# Mem/Layout — constants and address arithmetic of `mmu.h`, `memlayout.h` and `param.h`

An address is a natural number below `2 ^ 32`, and a frame is a physical page number (`pa >> 12`).
`vpn` is the number of the page an address lies in: `pdx` and `ptx` are its two digits, so two
addresses reach the same page table entry exactly when they have one `vpn` (`vpn_eq_iff`).
-/

namespace Xv6

/-- `PGSIZE`. -/
def pgSize : ℕ := 4096

/-- `KERNBASE`, the first kernel virtual address. -/
def kernBase : ℕ := 0x80000000

/-- `PHYSTOP`, the top of physical memory. -/
def physTop : ℕ := 0xE000000

/-- `MAX_PSYC_PAGES`. -/
abbrev maxPsycPages : ℕ := 16

instance neZero_slots : NeZero maxPsycPages := ⟨by decide⟩

instance neZero_entries : NeZero 1024 := ⟨by decide⟩

/-- `MAX_TOTAL_PAGES`. -/
def maxTotalPages : ℕ := 32

/-- `PGROUNDUP`, on 32-bit words. -/
def pgRoundUp (sz : ℕ) : ℕ := (sz + (pgSize - 1)) % 2 ^ 32 / pgSize * pgSize

/-- `PGROUNDDOWN`. -/
def pgRoundDown (a : ℕ) : ℕ := a / pgSize * pgSize

/-- `PDX`, the page directory index. -/
def pdx (va : ℕ) : Fin 1024 := ⟨va / 2 ^ 22 % 1024, Nat.mod_lt _ (by decide)⟩

/-- `PTX`, the page table index. -/
def ptx (va : ℕ) : Fin 1024 := ⟨va / 2 ^ 12 % 1024, Nat.mod_lt _ (by decide)⟩

/-- The number of the virtual page of an address. -/
def vpn (va : ℕ) : ℕ := va / pgSize % 2 ^ 20

/-- The byte of its page an address names. -/
def pgOff (va : ℕ) : Fin pgSize := ⟨va % pgSize, Nat.mod_lt _ (by decide)⟩

/-- The number of user pages of an address space, `KERNBASE / PGSIZE`. -/
def userPages : ℕ := 524288

/-- The number of frames `kmem` keeps a count for, `PHYSTOP >> PGSHIFT`. -/
def nFrames : ℕ := 57344

/-- `x++` on a `uint`. -/
def incUint (x : ℕ) : ℕ := (x + 1) % 2 ^ 32

/-- **Two addresses share a page table entry exactly when they share a page.** -/
theorem vpn_eq_iff {va va' : ℕ} : vpn va = vpn va' ↔ pdx va = pdx va' ∧ ptx va = ptx va' := by
  simp only [vpn, pdx, ptx, Fin.mk.injEq, pgSize]
  omega

theorem vpn_pgRoundDown (va : ℕ) : vpn (pgRoundDown va) = vpn va := by
  simp only [vpn, pgRoundDown, pgSize]
  omega

theorem vpn_of_lt {va : ℕ} (h : va < kernBase) : vpn va = va / pgSize := by
  simp only [vpn, pgSize, kernBase] at *
  omega

theorem vpn_mul {v : ℕ} (h : v < userPages) : vpn (v * pgSize) = v := by
  simp only [vpn, pgSize, userPages] at *
  omega

theorem vpn_lt_of_lt {va : ℕ} (h : va < kernBase) : vpn va < userPages := by
  simp only [vpn, pgSize, kernBase, userPages] at *
  omega

theorem pgRoundDown_lt {va : ℕ} (h : va < kernBase) : pgRoundDown va < kernBase := by
  simp only [pgRoundDown, pgSize, kernBase] at *
  omega

theorem pgRoundDown_of_dvd {va : ℕ} (h : va % pgSize = 0) : pgRoundDown va = va := by
  simp only [pgRoundDown, pgSize] at *
  omega

/-- The last page of a one-page range is its first. -/
theorem pgRoundDown_last {va : ℕ} (h : va < kernBase) (ha : va % pgSize = 0) :
    pgRoundDown ((va + pgSize + (2 ^ 32 - 1)) % 2 ^ 32) = va := by
  simp only [pgRoundDown, pgSize, kernBase] at *
  have hsum : (va + 4096 + (2 ^ 32 - 1)) % 2 ^ 32 = va + 4095 := by omega
  omega

theorem pgRoundUp_mod (sz : ℕ) : pgRoundUp sz % pgSize = 0 := by
  simp only [pgRoundUp, pgSize]
  omega

theorem le_pgRoundUp {sz : ℕ} (h : sz < kernBase) : sz ≤ pgRoundUp sz := by
  simp only [pgRoundUp, pgSize, kernBase] at *
  omega

theorem pgRoundUp_of_lt {sz : ℕ} (h : sz < kernBase) :
    pgRoundUp sz = (sz + (pgSize - 1)) / pgSize * pgSize := by
  simp only [pgRoundUp, pgSize, kernBase] at *
  omega

/-- **An address lies below `PGROUNDUP(sz)` exactly if its page starts below `sz`.** -/
theorem lt_pgRoundUp_iff {sz va : ℕ} (h : sz < kernBase) : va < pgRoundUp sz ↔ pgRoundDown va < sz := by
  rw [pgRoundUp_of_lt h]
  simp only [pgRoundDown, pgSize]
  omega

theorem pgRoundDown_pgRoundDown (va : ℕ) : pgRoundDown (pgRoundDown va) = pgRoundDown va := by
  simp only [pgRoundDown, pgSize]
  omega

end Xv6
