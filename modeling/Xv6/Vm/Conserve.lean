import Xv6.Vm.Room

/-!
# Vm/Conserve — what `freevm` gives back

The frames of an address space are its user pages, its page tables and its directory.  `freevm` comes to each
through the site that refers to it, so that the ledger decides what is left: the sites of the directory are
gone, all others are as before, and a count is the number of its sites.  `GivesBack` says where the frames
went: a frame whose count has come down to zero is on the free list, and no other frame has moved.

A `setupkvm` that runs out of frames gives back what it took.
-/

namespace Xv6

open Outcome Function

/-- A site of directory `d`. -/
def Site.Of (d : ℕ) : Site → Prop
  | .pte d' _ => d' = d
  | .table d' _ => d' = d
  | .dir d' => d' = d
  | .kstack _ => False

namespace Kernel

variable {k k' k'' k₀ k1 : Kernel} {held held' : Multiset ℕ} {cur d f va a n : ℕ} {s : Site} {e : Pte}
  {x : Fin 1024}

/-! ## Frames that come back -/

/-- **The frames that have come back are those whose count has come down to zero**; the others have kept
their bytes. -/
structure GivesBack (k k' : Kernel) : Prop where
  le : ∀ f, k'.kmem.referencesCount f ≤ k.kmem.referencesCount f
  free : ∀ f, f ∈ k'.kmem.freelist ↔ f ∈ k.kmem.freelist ∨
    k.kmem.referencesCount f ≠ 0 ∧ k'.kmem.referencesCount f = 0
  mem : ∀ f, k'.kmem.referencesCount f ≠ 0 ∨ k.kmem.referencesCount f = 0 → k'.mem f = k.mem f

theorem GivesBack.of_eq (hkmem : k'.kmem = k.kmem) (hmem : k'.mem = k.mem) : k.GivesBack k' where
  le f := by rw [hkmem]
  free f := by
    rw [hkmem]
    exact ⟨.inl, fun h => h.resolve_right fun hc => hc.1 hc.2⟩
  mem f _ := by rw [hmem]

theorem GivesBack.trans (h : k.GivesBack k') (h' : k'.GivesBack k'') : k.GivesBack k'' where
  le f := (h'.le f).trans (h.le f)
  free f := by
    have h1 := h.le f
    have h2 := h'.le f
    rw [h'.free, h.free, or_assoc]
    refine or_congr_right ?_
    omega
  mem f hf := by
    have h1 := h.le f
    have h2 := h'.le f
    rw [h'.mem f (by omega), h.mem f (by omega)]

/-- `kfree` of a frame with a reference. -/
theorem givesBack_kfree (hk : k.kfree f = .ok k') (hf : k.kmem.referencesCount f ≠ 0) :
    k.GivesBack k' := by
  obtain ⟨m, hm, rfl⟩ := kfree_eq_ok.mp hk
  obtain ⟨-, rfl⟩ := KMem.kfree_eq_ok.mp hm
  refine ⟨fun g => ?_, fun g => ?_, fun g hg => ?_⟩
  · by_cases hgf : g = f
    · subst hgf
      simp
    · simp [hgf]
  · by_cases hgf : g = f
    · subst hgf
      by_cases hc : k.kmem.referencesCount g ≤ 1
      · simp [hc, hf]
      · have h1 : k.kmem.referencesCount g - 1 ≠ 0 := by omega
        simp [hc, h1]
    · by_cases hc : k.kmem.referencesCount f ≤ 1
      · simp [hc, hgf]
      · simp [hc, hgf]
  · by_cases hgf : g = f
    · subst hgf
      have hc : ¬ k.kmem.referencesCount g ≤ 1 := by
        have hg' : k.kmem.referencesCount g - 1 ≠ 0 := by simpa [hf] using hg
        omega
      simp [hc]
    · by_cases hc : k.kmem.referencesCount f ≤ 1
      · simp [hc, hgf]
      · simp [hc]

/-- The frame of a site can be dropped. -/
theorem Frames.exists_kfree_site (h : k.Frames held) (hs : k.owner s = some f) :
    ∃ k', k.kfree f = .ok k' ∧ k.GivesBack k' := by
  have hm := h.managed f (.inr (Ledger.total_ne_zero_of_ref hs))
  have hk := kfree_eq_ok.mpr ⟨_, KMem.kfree_eq_ok.mpr ⟨hm, rfl⟩, rfl⟩
  exact ⟨_, hk, givesBack_kfree hk (h.count_pos hs).ne'⟩

theorem owner_page (hva : UserPage va) (hw : k.walkpgdir d va = some e) (hep : e.p = true) :
    k.owner (.pte d (vpn va)) = some e.addr := by
  rw [owner_pte_of_walk (vpn_lt_of_lt hva.1) hw]
  exact Pte.frame_eq_some.mpr ⟨hep, rfl⟩

/-! ## Everything but one directory -/

/-- **All other directories and the stacks are as before.** -/
structure Beside (k k' : Kernel) (d : ℕ) : Prop where
  dirs : ∀ d', d' ≠ d → k'.dirs d' = k.dirs d'
  kstacks : ∀ pid, (k'.procs pid).map Proc.kstack = (k.procs pid).map Proc.kstack

theorem Beside.refl (k : Kernel) (d : ℕ) : k.Beside k d := ⟨fun _ _ => rfl, fun _ => rfl⟩

theorem Beside.trans (h : k.Beside k' d) (h' : k'.Beside k'' d) : k.Beside k'' d where
  dirs d' hd := (h'.dirs d' hd).trans (h.dirs d' hd)
  kstacks pid := (h'.kstacks pid).trans (h.kstacks pid)

theorem Beside.owner (h : k.Beside k' d) (hs : ¬ s.Of d) : k'.owner s = k.owner s := by
  cases s with
  | pte d' v =>
    rw [Kernel.owner, Kernel.owner, walkpgdir, h.dirs d' hs, walkpgdir]
  | table d' x => rw [Kernel.owner, Kernel.owner, h.dirs d' hs]
  | dir d' => rw [Kernel.owner, Kernel.owner, h.dirs d' hs]
  | kstack pid => rw [Kernel.owner, Kernel.owner, h.kstacks]

theorem beside_kfree (hk : k.kfree f = .ok k') (d : ℕ) : k.Beside k' d := by
  obtain ⟨m, -, rfl⟩ := kfree_eq_ok.mp hk
  exact ⟨fun _ _ => rfl, fun _ => rfl⟩

theorem beside_setPte (k : Kernel) (d va : ℕ) (e : Pte) : k.Beside (k.setPte d va e) d :=
  ⟨fun _ hd => update_of_ne hd .., fun _ => rfl⟩

theorem beside_releaseSlot (k : Kernel) (cur d va : ℕ) : k.Beside (k.releaseSlot cur d va) d := by
  refine ⟨fun d' _ => by rw [(releaseSlot_kmem k cur d va).2.2], fun pid => ?_⟩
  cases hp : k.procs cur with
  | none => rw [releaseSlot, hp]
  | some p =>
    rcases releaseSlot_cases hp d va with ⟨heq, -⟩ | ⟨i, -, -, -, heq⟩
    · rw [heq]
    · rw [heq]
      by_cases hq : pid = cur
      · subst hq
        rw [setProc_procs_self, hp]
        rfl
      · rw [setProc_procs_of_ne _ _ _ hq]

/-! ## `freevm` returns -/

/-- A directory that is going: the frames still add up, and what has become of everything else. -/
structure Going (k₀ : Kernel) (held : Multiset ℕ) (d : ℕ) (k : Kernel) : Prop where
  frames : k.Frames held
  live : (k.dirs d).isSome
  back : k₀.GivesBack k
  beside : k₀.Beside k d

theorem Frames.releaseSlot (h : k.Frames held) (cur d va : ℕ) : (k.releaseSlot cur d va).Frames held :=
  h.congr (releaseSlot_kmem k cur d va).1 (releaseSlot_kmem k cur d va).2.2
    (beside_releaseSlot k cur d va).kstacks

theorem Going.dealloc_page (h : Going k₀ held d k) (ha : UserPage a) (hw : k.walkpgdir d a = some e)
    (hep : e.p = true) (cur : ℕ) : e.addr ≠ 0 ∧ Returns (k.kfree e.addr) fun k1 =>
      Going k₀ held d ((k1.releaseSlot cur d a).setPte d a {}) := by
  obtain ⟨k1, hk1, hback⟩ := h.frames.exists_kfree_site (owner_page ha hw hep)
  obtain ⟨hkmem, hmem, -⟩ := releaseSlot_kmem k1 cur d a
  refine ⟨fun h0 => ?_, k1, hk1, ?_, ?_, (h.back.trans hback).trans (.of_eq hkmem hmem),
    ((h.beside.trans (beside_kfree hk1 d)).trans (beside_releaseSlot k1 cur d a)).trans
      (beside_setPte ..)⟩
  · rw [h0] at hk1
    exact kfree_zero hk1 h.frames.kend_pos
  · have hw' : (k.releaseSlot cur d a).walkpgdir d a = some e := by rw [releaseSlot_walkpgdir, hw]
    exact ((h.frames.releaseSlot cur d a).unmap (e := {}) (vpn_lt_of_lt ha.1) hw' hep rfl rfl).kfree
      (Kernel.dealloc_page hk1 cur d a)
  · rw [isSome_dealloc_page hk1]
    exact h.live

/-- No user page of the directory is left. -/
def Bare (k : Kernel) (d : ℕ) : Prop := ∀ v, k.owner (.pte d v) = none

theorem bare_of_unmapped (h : ∀ va, va < kernBase → ¬ k.Present d va) : k.Bare d := by
  intro v
  by_contra hne
  obtain ⟨f, hf⟩ := Option.ne_none_iff_exists'.mp hne
  have hv := lt_of_owner_pte hf
  rw [owner, if_pos hv] at hf
  obtain ⟨e, he, hfr⟩ := Option.bind_eq_some_iff.mp hf
  exact h (v * pgSize) (by simp only [userPages, kernBase, pgSize] at *; omega)
    ⟨e, he, (Pte.frame_eq_some.mp hfr).1⟩

theorem Bare.dropTable (h : k.Bare d) (x : Fin 1024) : (k.dropTable d x).Bare d := by
  intro v
  have := congrFun (owner_dropTable (x := x) fun v _ => h v) (.pte d v)
  rw [this, update_of_ne (by simp)]
  exact h v

theorem Going.freeTable (h : Going k₀ held d k) (hb : k.Bare d) (x : Fin 1024) :
    Returns (Kernel.freeTable d x k) fun k' => Going k₀ held d k' ∧ k'.Bare d ∧ k'.tableAt d x = none ∧
      ∀ y, k.tableAt d y = none → k'.tableAt d y = none := by
  cases ht : (k.dirs d).bind fun pd => pd.table x with
  | none =>
    rw [Kernel.freeTable, ht]
    exact returns_ok.mpr ⟨h, hb, ht, fun _ hy => hy⟩
  | some t =>
    have hown : k.owner (.table d x) = some t.frame := by rw [owner, ht]; rfl
    obtain ⟨k1, hk1, hback⟩ := h.frames.exists_kfree_site hown
    have hk : Kernel.freeTable d x k = .ok (k1.dropTable d x) := by
      rw [Kernel.freeTable, ht]
      exact bind_eq_ok.mpr ⟨k1, hk1, rfl⟩
    obtain ⟨m, hm, rfl⟩ := kfree_eq_ok.mp hk1
    have hk2 : (k.dropTable d x).kfree t.frame = .ok _ := kfree_eq_ok.mpr ⟨m, hm, rfl⟩
    refine ⟨_, hk, ⟨(h.frames.dropTable hown fun v _ => hb v).kfree hk2, ?_, h.back.trans
      (hback.trans (.of_eq rfl rfl)), (h.beside.trans (beside_kfree hk1 d)).trans
        ⟨fun _ hd => update_of_ne hd .., fun _ => rfl⟩⟩, hb.dropTable x,
      (tableAt_dropTable k d x x).trans (if_pos rfl), fun y hy => ?_⟩
    · simpa [Kernel.dropTable] using h.live
    · refine (tableAt_dropTable k d x y).trans ?_
      split
      · rfl
      · exact hy

theorem Going.freeTables : ∀ (xs : List (Fin 1024)) {k : Kernel}, Going k₀ held d k → k.Bare d →
    Returns (loop (Kernel.freeTable d) xs k) fun k' => Going k₀ held d k' ∧
      (∀ y, k.tableAt d y = none → k'.tableAt d y = none) ∧ ∀ x ∈ xs, k'.tableAt d x = none
  | [], _, h, _ => returns_ok.mpr ⟨h, fun _ hy => hy, by simp⟩
  | x :: xs, _, h, hb => (h.freeTable hb x).bind fun _ ⟨h1, hb1, hx1, hy1⟩ =>
      (Going.freeTables xs h1 hb1).mono fun _ _ ⟨h2, hy2, hx2⟩ => ⟨h2, fun y hy => hy2 y (hy1 y hy),
        List.forall_mem_cons.mpr ⟨hy2 x hx1, hx2⟩⟩

/-- **`freevm` returns**: the frames whose counts have come down to zero are back, the directory is gone, and
everything else is as before. -/
theorem Frames.freevm_returns (h : k.Frames held) (hlive : (k.dirs d).isSome) (cur : ℕ) :
    Returns (k.freevm cur d) fun k' => k'.Frames held ∧ k'.dirs d = none ∧ k.GivesBack k' ∧ k.Beside k' d := by
  have hgo : Going k held d k := ⟨h, hlive, .of_eq rfl rfl, .refl k d⟩
  obtain ⟨k1, hk1, h1⟩ := deallocFrom_returns (P := Going k held d)
    (fun k a e ha hw hep hk => hk.dealloc_page ⟨ha.2.2, ha.1⟩ hw hep cur) (kernBase / pgSize + 1) (pgRoundUp 0) k
    (pgRoundUp_mod 0) le_rfl hgo
  have hbare : k1.Bare d := bare_of_unmapped (deallocFrom_covers (by decide) hk1)
  obtain ⟨k2, hk2, h2, -, htab⟩ := h1.freeTables (List.finRange 1024) hbare
  obtain ⟨pd, hpd⟩ := Option.isSome_iff_exists.mp h2.live
  have hempty : ∀ x, pd.table x = none := fun x => by
    have := htab x (List.mem_finRange x)
    rwa [tableAt, hpd, Option.bind_some] at this
  have hown : k2.owner (.dir d) = some d := by rw [owner, hpd]; rfl
  obtain ⟨k3, hk3, hback⟩ := h2.frames.exists_kfree_site hown
  have hk : k.freevm cur d = .ok (k3.setDir d none) := by
    rw [Kernel.freevm, if_neg (by simp [Option.isSome_iff_ne_none.mp hlive]), Kernel.deallocuvm,
      if_neg (by decide), hk1]
    simp only [ok_bind, pure_eq_ok, hk2, hk3]
  obtain ⟨m, hm, rfl⟩ := kfree_eq_ok.mp hk3
  have hk5 : (k2.setDir d none).kfree d = .ok _ := kfree_eq_ok.mpr ⟨m, hm, rfl⟩
  refine ⟨_, hk, (h2.frames.dropDir hpd hempty).kfree hk5, update_self ..,
    (h2.back.trans hback).trans (.of_eq rfl rfl), ?_⟩
  exact (h2.beside.trans (beside_kfree hk3 d)).trans ⟨fun _ hd => update_of_ne hd .., fun _ => rfl⟩

/-! ## Whose frames come back -/

/-- **No directory maps a frame twice.** -/
def Simple (k : Kernel) : Prop := ∀ d v v' f, k.owner (.pte d v) = some f → k.owner (.pte d v') = some f → v = v'

/-- The frames that are free or referred to stay so. -/
def Retains (k k' : Kernel) : Prop := ∀ f, f ∈ k.kmem.freelist ∨ k.kmem.referencesCount f ≠ 0 →
  f ∈ k'.kmem.freelist ∨ k'.kmem.referencesCount f ≠ 0

/-- The frames that are free or referred to are the same. -/
def Accounts (k k' : Kernel) : Prop := ∀ f, f ∈ k'.kmem.freelist ∨ k'.kmem.referencesCount f ≠ 0 ↔
  f ∈ k.kmem.freelist ∨ k.kmem.referencesCount f ≠ 0

theorem GivesBack.accounts (h : k.GivesBack k') : k.Accounts k' := by
  intro f
  have hle := h.le f
  rw [h.free f]
  by_cases hf : f ∈ k.kmem.freelist
  · simp [hf]
  · simp only [hf, false_or]
    omega

/-- **Where the sites are the same, so are the free frames.** -/
theorem Frames.free_iff (h : k.Frames held) (h' : k'.Frames held) (hown : k'.owner = k.owner)
    (hacc : k.Accounts k') (f : ℕ) : f ∈ k'.kmem.freelist ↔ f ∈ k.kmem.freelist := by
  have hcount : k'.kmem.referencesCount f = k.kmem.referencesCount f := by
    have h1 := h'.exact f
    rw [hown, h.exact f] at h1
    exact_mod_cast h1.symm
  have hzero : ∀ {k : Kernel}, k.Frames held → f ∈ k.kmem.freelist → k.kmem.referencesCount f = 0 :=
    fun hk hf => by
      have h0 := hk.free f hf
      rw [hk.exact f] at h0
      exact_mod_cast h0
  have := hacc f
  constructor
  · intro hf
    have h0 := hzero h' hf
    rw [hcount] at h0
    exact (this.mp (.inl hf)).resolve_right fun hne => hne h0
  · intro hf
    have h0 := hzero h hf
    rw [← hcount] at h0
    exact (this.mpr (.inl hf)).resolve_right fun hne => hne h0

end Kernel

end Xv6
