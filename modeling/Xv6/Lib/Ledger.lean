import Mathlib

/-!
# Lib/Ledger — reference counts of a ledger of sites

A **ledger** `m : σ → Option φ` records which resource each site points at.  Between two updates of
the ledger a resource may also be *held*: a reference already counted but not yet (or no longer)
written into a site.  `total m held f` counts both, and `Exact` says that a counter agrees with it.

    counter ──take/share──▸ held ──assign──▸ site
    counter ◂────drop────── held ◂─withdraw─ site

The two horizontal moves on the right do not change `total` at all, so only the moves on the left
touch a counter.
-/

namespace Ledger

open Function

variable {σ φ : Type*}

/-- The sites of `m` that point at `f`. -/
def refs (m : σ → Option φ) (f : φ) : Set σ := {s | m s = some f}

@[simp] theorem mem_refs {m : σ → Option φ} {f : φ} {s : σ} : s ∈ refs m f ↔ m s = some f :=
  Iff.rfl

/-- Pointing a free site at `f` adds that site. -/
theorem refs_assign [DecidableEq σ] {m : σ → Option φ} {s : σ} (hs : m s = none) (f : φ) :
    refs (update m s (some f)) f = insert s (refs m f) := by
  ext t
  by_cases ht : t = s
  · subst ht
    simp
  · simp [ht]

theorem refs_assign_of_ne [DecidableEq σ] {m : σ → Option φ} {s : σ} (hs : m s = none) {f g : φ}
    (hg : g ≠ f) :
    refs (update m s (some f)) g = refs m g := by
  ext t
  by_cases ht : t = s
  · subst ht
    simp [hs, hg.symm]
  · simp [ht]

variable [DecidableEq φ]

/-- The references to `f`: the sites that point at it, and the held ones. -/
noncomputable def total (m : σ → Option φ) (held : Multiset φ) (f : φ) : ℕ∞ :=
  (refs m f).encard + (held.count f : ℕ∞)

/-- **Exactness**: the counter of every resource is its number of references. -/
def Exact (m : σ → Option φ) (held : Multiset φ) (c : φ → ℕ) : Prop := ∀ f, total m held f = c f

/-! ## Moving a reference between a site and the hand that holds it -/

/-- **Assigning a held reference to a free site loses none.** -/
theorem total_assign [DecidableEq σ] {m : σ → Option φ} {s : σ} (hs : m s = none) (f : φ)
    (held : Multiset φ) :
    total (update m s (some f)) held = total m (f ::ₘ held) := by
  funext g
  by_cases hg : g = f
  · subst hg
    have hn : s ∉ refs m g := by simp [hs]
    rw [total, total, refs_assign hs, Set.encard_insert_of_notMem hn, Multiset.count_cons_self]
    push_cast
    rw [add_assoc, add_comm 1]
  · rw [total, total, refs_assign_of_ne hs hg, Multiset.count_cons_of_ne hg]

/-- **Withdrawing a reference from its site puts it into the hand.** -/
theorem total_withdraw [DecidableEq σ] {m : σ → Option φ} {s : σ} {f : φ} (hs : m s = some f)
    (held : Multiset φ) :
    total (update m s none) (f ::ₘ held) = total m held := by
  have h := total_assign (m := update m s none) (s := s) (by simp) f held
  rw [← h, update_idem, ← hs, update_eq_self]

theorem total_cons_self (m : σ → Option φ) (f : φ) (held : Multiset φ) :
    total m (f ::ₘ held) f = total m held f + 1 := by
  rw [total, total, Multiset.count_cons_self]
  push_cast
  rw [add_assoc]

theorem total_cons_of_ne (m : σ → Option φ) {f g : φ} (h : g ≠ f) (held : Multiset φ) :
    total m (f ::ₘ held) g = total m held g := by
  rw [total, total, Multiset.count_cons_of_ne h]

theorem total_eq_zero {m : σ → Option φ} {held : Multiset φ} {f : φ} :
    total m held f = 0 ↔ refs m f = ∅ ∧ f ∉ held := by
  simp [total]

theorem total_ne_zero_of_ref {m : σ → Option φ} {held : Multiset φ} {f : φ} {s : σ}
    (hs : m s = some f) : total m held f ≠ 0 := by
  rw [Ne, total_eq_zero]
  rintro ⟨h, -⟩
  have : s ∈ refs m f := hs
  rw [h] at this
  exact this

/-- A resource that two sites point at has more than one reference. -/
theorem total_ne_one_of_refs {m : σ → Option φ} {held : Multiset φ} {f : φ} {s t : σ}
    (hs : m s = some f) (ht : m t = some f) (hst : s ≠ t) : total m held f ≠ 1 := by
  have h2 : 1 < (refs m f).encard := Set.one_lt_encard_iff.mpr ⟨s, t, hs, ht, hst⟩
  exact (h2.trans_le le_self_add).ne'

/-- A held resource that a site points at has more than one reference. -/
theorem total_cons_ne_one {m : σ → Option φ} {held : Multiset φ} {f : φ} {s : σ}
    (hs : m s = some f) : total m (f ::ₘ held) f ≠ 1 := by
  rw [total_cons_self]
  intro h
  have h0 : total m held f + 1 = 0 + 1 := by simpa using h
  exact total_ne_zero_of_ref hs (by simpa using h0)

/-- An unreferenced resource is pointed at by no site. -/
theorem ne_some_of_total_eq_zero {m : σ → Option φ} {held : Multiset φ} {f : φ}
    (h : total m held f = 0) (s : σ) : m s ≠ some f :=
  fun hs => total_ne_zero_of_ref hs h

section Counter

variable {m : σ → Option φ} {held : Multiset φ} {c : φ → ℕ} {f : φ}

/-- **Taking** an unreferenced resource sets its counter to one. -/
theorem Exact.take (h : Exact m held c) (hf : total m held f = 0) :
    Exact m (f ::ₘ held) (update c f 1) := by
  intro g
  by_cases hgf : g = f
  · subst hgf
    rw [total_cons_self, hf, update_self]
    rfl
  · rw [total_cons_of_ne m hgf, update_of_ne hgf]
    exact h g

/-- **Sharing** a resource raises its counter by one. -/
theorem Exact.share (h : Exact m held c) :
    Exact m (f ::ₘ held) (update c f (c f + 1)) := by
  intro g
  by_cases hgf : g = f
  · subst hgf
    rw [total_cons_self, h g, update_self]
    push_cast
    rfl
  · rw [total_cons_of_ne m hgf, update_of_ne hgf]
    exact h g

/-- The counter of a held resource is one more than its other references. -/
theorem Exact.total_add_one (h : Exact m (f ::ₘ held) c) : total m held f + 1 = c f := by
  rw [← total_cons_self]
  exact h f

/-- **Dropping** a held reference lowers its counter by one. -/
theorem Exact.drop (h : Exact m (f ::ₘ held) c) :
    Exact m held (update c f (c f - 1)) := by
  intro g
  by_cases hgf : g = f
  · subst hgf
    have h1 := h.total_add_one
    have htop : total m held g ≠ ⊤ := fun ht => by simp [ht] at h1
    obtain ⟨n, hn⟩ := ENat.ne_top_iff_exists.mp htop
    rw [← hn] at h1 ⊢
    have h2 : n + 1 = c g := by exact_mod_cast h1
    rw [update_self, ← h2, Nat.add_sub_cancel]
  · rw [← total_cons_of_ne m hgf held, update_of_ne hgf]
    exact h g

/-- The last reference is dropped exactly when the counter was one. -/
theorem Exact.total_eq_zero_iff (h : Exact m (f ::ₘ held) c) : total m held f = 0 ↔ c f = 1 := by
  have h1 := h.total_add_one
  constructor
  · intro h0
    rw [h0] at h1
    exact_mod_cast h1.symm
  · intro hc
    rw [hc] at h1
    have : total m held f + 1 = 0 + 1 := by simpa using h1
    simpa using this

end Counter

end Ledger
