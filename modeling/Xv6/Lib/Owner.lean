import Mathlib

/-!
# Lib/Owner — resources with exactly one owner

Sites hold resources; `h x = 0` says that the site `x` holds none.  A map marks the resources that are
taken, and only those in a region `D` can be held.  `Exact` says that the taken resources of the region
are held, each by one site, and that nothing else is.  Taking a free resource into an empty site and
giving up what some sites hold keep this.
-/

namespace Owner

open Function

variable {σ : Type*} {D : ℕ → Prop} {taken taken' : ℕ → Bool} {h h' : σ → ℕ} {x y : σ} {b : ℕ}

/-- **Every taken resource of the region has exactly one owner.** -/
structure Exact (D : ℕ → Prop) (taken : ℕ → Bool) (h : σ → ℕ) : Prop where
  zero : ¬ D 0
  mem : ∀ x, h x ≠ 0 → D (h x) ∧ taken (h x)
  inj : ∀ x y, h x ≠ 0 → h x = h y → x = y
  held : ∀ b, D b → taken b → ∃ x, h x = b

theorem Exact.congr (hE : Exact D taken h) (hh : ∀ x, h' x = h x) : Exact D taken h' := by
  obtain rfl : h' = h := funext hh
  exact hE

/-- A resource that is free is held by nobody. -/
theorem Exact.ne_of_free (hE : Exact D taken h) (hb : taken b = false) (hx : h x ≠ 0) : h x ≠ b := by
  rintro rfl
  have ht := (hE.mem x hx).2
  rw [hb] at ht
  cases ht

variable [DecidableEq σ]

/-- **A free resource is taken** into an empty site. -/
theorem Exact.take (hE : Exact D taken h) (hx : h x = 0) (hb : taken b = false) (hD : D b) :
    Exact D (update taken b true) (update h x b) := by
  have h0 : b ≠ 0 := fun h0 => hE.zero (h0 ▸ hD)
  have hother : ∀ y, h y ≠ 0 → h y ≠ b := fun y hy => hE.ne_of_free hb hy
  refine ⟨hE.zero, fun y hy => ?_, fun y z hy hyz => ?_, fun c hc htc => ?_⟩
  · rcases eq_or_ne y x with rfl | hne
    · simp [hD]
    · rw [update_of_ne hne] at hy ⊢
      rw [update_of_ne (hother y hy)]
      exact hE.mem y hy
  · rcases eq_or_ne y x with rfl | hyx <;> rcases eq_or_ne z y with rfl | hzy
    · rfl
    · rw [update_self, update_of_ne hzy] at hyz
      exact absurd hyz.symm (hother z (hyz ▸ h0))
    · rfl
    · rw [update_of_ne hyx] at hy hyz
      rcases eq_or_ne z x with rfl | hzx
      · rw [update_self] at hyz
        exact absurd hyz (hother y hy)
      · rw [update_of_ne hzx] at hyz
        exact hE.inj y z hy hyz
  · rcases eq_or_ne c b with rfl | hcb
    · exact ⟨x, update_self ..⟩
    · rw [update_of_ne hcb] at htc
      obtain ⟨y, hy⟩ := hE.held c hc htc
      rcases eq_or_ne y x with rfl | hne
      · exact absurd ((hy.symm.trans hx) ▸ hc) hE.zero
      · exact ⟨y, by rw [update_of_ne hne, hy]⟩

omit [DecidableEq σ] in
/-- **Some sites give up what they hold.** -/
theorem Exact.release (hE : Exact D taken h) (S : σ → Prop) (hS : ∀ x, S x → h' x = 0)
    (hne : ∀ x, ¬ S x → h' x = h x)
    (ht : ∀ b, taken' b = true ↔ taken b = true ∧ ∀ x, S x → h x ≠ 0 → h x ≠ b) :
    Exact D taken' h' := by
  have hout : ∀ x, h' x ≠ 0 → ¬ S x := fun x hx hs => hx (hS x hs)
  refine ⟨hE.zero, fun x hx => ?_, fun x y hx hxy => ?_, fun b hb htb => ?_⟩
  · have hs := hout x hx
    rw [hne x hs] at hx ⊢
    refine ⟨(hE.mem x hx).1, (ht _).mpr ⟨(hE.mem x hx).2, fun y hy h0 hyx => hs ?_⟩⟩
    rwa [← hE.inj y x h0 hyx]
  · have hx' := hne x (hout x hx)
    have hy' := hne y (hout y (hxy ▸ hx))
    exact hE.inj x y (hx' ▸ hx) (by rw [← hx', ← hy', hxy])
  · obtain ⟨htb, hfree⟩ := (ht b).mp htb
    obtain ⟨x, rfl⟩ := hE.held b hb htb
    have h0 : h x ≠ 0 := fun h0 => hE.zero (h0 ▸ hb)
    exact ⟨x, hne x fun hs => hfree x hs h0 rfl⟩

end Owner
