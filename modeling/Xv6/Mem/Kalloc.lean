import Xv6.Lib.Outcome
import Xv6.Mem.Layout

/-!
# Mem/Kalloc — the physical page allocator of `kalloc.c`

`KMem` is the structure `kmem`: the free list (a list of frames rather than a chain threaded through
the pages themselves), one reference count per frame and the counter `free_pages`.  Each function
below is one critical section of `kmem.lock`, so the lock itself is left out.

A reference count never reaches `2 ^ 32` (each of at most `NPROC` address spaces has `2 ^ 19` user
entries), so the counts are natural numbers; `free_pages` is a 32-bit word.
-/

namespace Xv6

open Outcome Function

/-- `struct kmem`, with the physical address of the linker symbol `end`. -/
structure KMem where
  kend : ℕ
  freelist : List ℕ
  referencesCount : ℕ → ℕ
  freePages : ℕ

namespace KMem

/-- `kmem` before `kinit1`: static storage is zero. -/
def boot (kend : ℕ) : KMem := ⟨kend, [], fun _ => 0, 0⟩

/-- `get_ref_counter`. -/
def getRefCounter (m : KMem) (f : ℕ) : ℕ := m.referencesCount f

/-- `set_counter`. -/
def setCounter (m : KMem) (f : ℕ) (i : ℕ) : KMem :=
  { m with referencesCount := Function.update m.referencesCount f i }

/-- `inc_counter`. -/
def incCounter (m : KMem) (f : ℕ) : KMem := m.setCounter f (m.referencesCount f + 1)

/-- `dec_counter`. -/
def decCounter (m : KMem) (f : ℕ) : KMem := m.setCounter f (m.referencesCount f - 1)

/-- The frames `kfree` accepts: at or above `end` and below `PHYSTOP`. -/
def Managed (m : KMem) (f : ℕ) : Prop := m.kend ≤ f * pgSize ∧ f * pgSize < physTop

instance (m : KMem) (f : ℕ) : Decidable (m.Managed f) := inferInstanceAs (Decidable (_ ∧ _))

/-- `kfree`: a positive count is decremented, `free_pages` is incremented, and only then is the count
tested.  A frame that is still referenced stays off the free list. -/
def kfree (m : KMem) (f : ℕ) : Except String KMem :=
  if m.Managed f then
    let c := m.referencesCount f - 1
    let m' := { m.setCounter f c with freePages := (m.freePages + 1) % 2 ^ 32 }
    if c ≠ 0 then .ok m' else .ok { m' with freelist := f :: m.freelist }
  else .error "kfree"

/-- `kalloc`: `none` is the null pointer. -/
def kalloc (m : KMem) : Option (ℕ × KMem) :=
  match m.freelist with
  | [] => none
  | f :: fs =>
    some (f, { m.setCounter f 1 with
      freelist := fs, freePages := (m.freePages + (2 ^ 32 - 1)) % 2 ^ 32 })

/-- The loop of `freerange` from the physical address `p` on; the first argument bounds the number
of iterations. -/
def freerangeFrom (vend : ℕ) : ℕ → ℕ → KMem → Except String KMem
  | 0, _, m => .ok m
  | n + 1, p, m =>
    if p + pgSize ≤ vend then do
      let m ← (m.setCounter (p / pgSize) 0).kfree (p / pgSize)
      freerangeFrom vend n (p + pgSize) m
    else .ok m

/-- `freerange`, on physical addresses. -/
def freerange (m : KMem) (vstart vend : ℕ) : Except String KMem :=
  freerangeFrom vend (vend / pgSize + 1) (pgRoundUp vstart) m

/-- `kinit1`. -/
def kinit1 (m : KMem) (vstart vend : ℕ) : Except String KMem :=
  { m with freePages := 0 }.freerange vstart vend

/-- `kinit2`. -/
def kinit2 (m : KMem) (vstart vend : ℕ) : Except String KMem := m.freerange vstart vend

/-- `total_pages`. -/
def totalPages (m : KMem) : ℤ := ((physTop - m.kend) / pgSize : ℕ)

/-- `free_pages`, which `getNumberOfFreePages` returns. -/
def freePagesReport (m : KMem) : ℤ := m.freePages

/-- `used_pages`. -/
def usedPages (m : KMem) : ℤ := m.totalPages - m.freePagesReport

/-! ## What each call does -/

@[simp] theorem setCounter_freelist (m : KMem) (f : ℕ) (i : ℕ) :
    (m.setCounter f i).freelist = m.freelist := rfl

@[simp] theorem setCounter_kend (m : KMem) (f : ℕ) (i : ℕ) :
    (m.setCounter f i).kend = m.kend := rfl

@[simp] theorem setCounter_freePages (m : KMem) (f : ℕ) (i : ℕ) :
    (m.setCounter f i).freePages = m.freePages := rfl

@[simp] theorem setCounter_referencesCount (m : KMem) (f : ℕ) (i : ℕ) :
    (m.setCounter f i).referencesCount = update m.referencesCount f i := rfl

/-- **`kfree` in one equation**: the count and the counter always move, the list only at the last
reference. -/
theorem kfree_eq_ok {m m' : KMem} {f : ℕ} :
    m.kfree f = .ok m' ↔ m.Managed f ∧
      m' = { kend := m.kend
             freelist := if m.referencesCount f ≤ 1 then f :: m.freelist else m.freelist
             referencesCount := update m.referencesCount f (m.referencesCount f - 1)
             freePages := (m.freePages + 1) % 2 ^ 32 } := by
  unfold kfree
  by_cases hm : m.Managed f
  · by_cases hc : m.referencesCount f ≤ 1
    · have hz : m.referencesCount f - 1 = 0 := by omega
      simp [hm, hc, hz, setCounter, eq_comm]
    · have hz : m.referencesCount f - 1 ≠ 0 := by omega
      simp [hm, hc, hz, setCounter, eq_comm]
  · simp [hm]

/-- **`kalloc` in one equation.** -/
theorem kalloc_eq_some {m m' : KMem} {f : ℕ} :
    m.kalloc = some (f, m') ↔ m.freelist = f :: m'.freelist ∧
      m' = { kend := m.kend
             freelist := m'.freelist
             referencesCount := update m.referencesCount f 1
             freePages := (m.freePages + (2 ^ 32 - 1)) % 2 ^ 32 } := by
  unfold kalloc
  cases hl : m.freelist with
  | nil => simp
  | cons g gs =>
    simp only [Option.some.injEq, Prod.mk.injEq, List.cons.injEq]
    constructor
    · rintro ⟨rfl, rfl⟩
      exact ⟨⟨rfl, rfl⟩, rfl⟩
    · rintro ⟨⟨rfl, hgs⟩, hm⟩
      refine ⟨rfl, ?_⟩
      rw [hm, hgs]
      rfl

theorem referencesCount_of_kalloc {m m' : KMem} {f : ℕ} (h : m.kalloc = some (f, m')) :
    m'.referencesCount = update m.referencesCount f 1 :=
  congrArg referencesCount (kalloc_eq_some.mp h).2

/-- A nonempty free list serves its head. -/
theorem exists_kalloc {m : KMem} (h : m.freelist ≠ []) : ∃ f m', m.kalloc = some (f, m') := by
  obtain ⟨f, fs, hl⟩ := List.exists_cons_of_ne_nil h
  exact ⟨f, _, by rw [kalloc, hl]⟩

/-- **`freerange` pushes the pages of its range**: it clears the count of each before `kfree` sees it. -/
theorem freerangeFrom_pushes (vend : ℕ) (hv : vend ≤ physTop) : ∀ (n p : ℕ) (m : KMem),
    p % pgSize = 0 → m.kend ≤ p → vend < p + (n + 1) * pgSize →
    ∃ m', freerangeFrom vend n p m = .ok m' ∧ m'.kend = m.kend ∧
      (∀ f, m'.referencesCount f = m.referencesCount f ∨ p / pgSize ≤ f ∧ m'.referencesCount f = 0) ∧
      m'.freelist = (List.range' (p / pgSize) ((vend - p) / pgSize)).reverse ++ m.freelist
  | 0, p, m, _, _, hn => by
    have h0 : (vend - p) / pgSize = 0 := by simp only [pgSize] at *; omega
    exact ⟨m, rfl, rfl, fun _ => .inl rfl, by simp [h0]⟩
  | n + 1, p, m, hp, hend, hn => by
    rw [freerangeFrom]
    split
    · rename_i hle
      have hm : m.Managed (p / pgSize) := by
        simp only [Managed, pgSize] at *
        omega
      have hk : (m.setCounter (p / pgSize) 0).kfree (p / pgSize) = .ok { m with
          freelist := p / pgSize :: m.freelist
          referencesCount := update m.referencesCount (p / pgSize) 0
          freePages := (m.freePages + 1) % 2 ^ 32 } := by
        rw [kfree_eq_ok]
        exact ⟨hm, by simp⟩
      rw [hk, ok_bind]
      obtain ⟨m', hm', hkend, hcnt, hlist⟩ := freerangeFrom_pushes vend hv n (p + pgSize) { m with
          freelist := p / pgSize :: m.freelist
          referencesCount := update m.referencesCount (p / pgSize) 0
          freePages := (m.freePages + 1) % 2 ^ 32 }
        (by simp only [pgSize] at *; omega) (by simp only; omega) (by simp only [pgSize] at *; omega)
      have hdiv : (p + pgSize) / pgSize = p / pgSize + 1 := by simp only [pgSize]; omega
      have hsub : (vend - p) / pgSize = (vend - (p + pgSize)) / pgSize + 1 := by
        simp only [pgSize] at *
        omega
      refine ⟨m', hm', hkend, fun f => ?_, ?_⟩
      · rcases hcnt f with hf | ⟨hle, hf⟩
        · by_cases hfp : f = p / pgSize
          · refine .inr ⟨hfp.ge, hf.trans ?_⟩
            rw [hfp]
            exact update_self ..
          · exact .inl (hf.trans (update_of_ne hfp ..))
        · exact .inr ⟨by omega, hf⟩
      · rw [hlist, hdiv, hsub, List.range'_succ, List.reverse_cons, List.append_assoc]
        rfl
    · have h0 : (vend - p) / pgSize = 0 := by simp only [pgSize] at *; omega
      exact ⟨m, rfl, rfl, fun _ => .inl rfl, by simp [h0]⟩

/-- Where none of the pages is referenced, no count changes. -/
theorem freerangeFrom_ok (vend : ℕ) (hv : vend ≤ physTop) (n p : ℕ) (m : KMem) (hp : p % pgSize = 0)
    (hend : m.kend ≤ p) (hn : vend < p + (n + 1) * pgSize)
    (hc : ∀ f, p / pgSize ≤ f → m.referencesCount f = 0) :
    ∃ m', freerangeFrom vend n p m = .ok m' ∧ m'.kend = m.kend ∧
      m'.referencesCount = m.referencesCount ∧
      m'.freelist = (List.range' (p / pgSize) ((vend - p) / pgSize)).reverse ++ m.freelist := by
  obtain ⟨m', hm', hkend, hcnt, hlist⟩ := freerangeFrom_pushes vend hv n p m hp hend hn
  refine ⟨m', hm', hkend, funext fun f => ?_, hlist⟩
  rcases hcnt f with hf | ⟨hle, hf⟩
  · exact hf
  · rw [hf, hc f hle]

end KMem

end Xv6
