import Xv6.Vm.Faults

/-!
# Vm/Mapping — the loops of `mappages` and `setupkvm`

`translate` is what the MMU makes of an address: the entry, where there is one and it is present.

The loop of `mappages` ends when the address *is* the last page, and the address wraps at `2 ^ 32`.  It walks up
from the first page by whole pages, so it meets the last page before it wraps, also when that is the last page of
the address space (`mappagesFrom_translates`).  The tables it allocates on its way have no present entry, so
nothing else is translated differently.

`setupkvm` is this for the four ranges of `kmap`, none of which touches another: `kmapAt` is the translation they
make, the same for every directory.  What mapping a page preserves, both loops preserve
(`mappagesFrom_yields`, `mapKernel_yields`).
-/

namespace Xv6

open Outcome Option

namespace Kernel

variable {k k' : Kernel} {d d' va va' f : ℕ} {e perm : Pte} {s : Finset (Fin 1024)}

/-! ## Walks that allocate -/

/-- **What `walkpgdir` with `alloc` can do**: find an entry, or make a table of zero entries. -/
theorem walkpgdirAlloc_eq_some (h : k.walkpgdirAlloc d va = some (e, k')) :
    k.walkpgdir d va = some e ∧ k' = k ∨
      e = {} ∧ ∃ f k1 pd, k.kalloc = some (f, k1) ∧ k.dirs d = some pd ∧
        pd.table (pdx va) = none ∧ k' = k1.addTable d (pdx va) f := by
  unfold walkpgdirAlloc at h
  split at h
  · rename_i e' he'
    cases h
    exact .inl ⟨he', rfl⟩
  · rename_i hnone
    obtain ⟨⟨f, k1⟩, hk1, h⟩ := bind_eq_some_iff.mp h
    obtain ⟨e', he', heq⟩ := map_eq_some_iff.mp h
    cases heq
    have hdirs := (kalloc_spec hk1).2.2.1
    cases hpd : k.dirs d with
    | none => simp [walkpgdir, addTable, hdirs, hpd] at he'
    | some pd =>
      have htable : pd.table (pdx va) = none := by
        simpa [walkpgdir, hpd, PageDir.walk] using hnone
      rw [walkpgdir_addTable _ _ _ _ _ (by simp [hdirs, hpd]), if_pos ⟨rfl, rfl⟩] at he'
      exact .inr ⟨(Option.some.inj he').symm, f, k1, pd, hk1, rfl, htable, rfl⟩

section

variable (hw : k.walkpgdirAlloc d va = some (e, k'))

include hw

/-- The entry that `walkpgdir` with `alloc` returns is in the table. -/
theorem walkpgdir_of_alloc :
    k'.walkpgdir d va = some e := by
  rcases walkpgdirAlloc_eq_some hw with ⟨h, rfl⟩ | ⟨rfl, f, k1, pd, hk1, hd, hx, rfl⟩
  · exact h
  · rw [walkpgdir_addTable _ _ _ _ _ (by simp [(kalloc_spec hk1).2.2.1, hd]), if_pos ⟨rfl, rfl⟩]

/-- An allocating walk keeps every entry that exists, and adds zero entries to its own directory. -/
theorem walkpgdir_alloc (d' va' : ℕ) :
    k'.walkpgdir d' va' = k.walkpgdir d' va' ∨
      d' = d ∧ k.walkpgdir d' va' = none ∧ k'.walkpgdir d' va' = some {} := by
  rcases walkpgdirAlloc_eq_some hw with ⟨-, rfl⟩ | ⟨-, f, k1, pd, hk1, hd, hx, rfl⟩
  · exact .inl rfl
  · obtain ⟨m, -, rfl⟩ := kalloc_eq_some.mp hk1
    rw [walkpgdir_addTable _ _ _ _ _ (by simp [hd])]
    split
    · rename_i hc
      obtain ⟨rfl, hpdx⟩ := hc
      exact .inr ⟨rfl, by simp [walkpgdir, hd, PageDir.walk, hpdx, hx], rfl⟩
    · exact .inl rfl

/-- The entry an allocating walk returns is absent if it was. -/
theorem absent_of_alloc (h : ¬ k.Present d va) :
    e.p = false := by
  by_contra hp
  rcases walkpgdirAlloc_eq_some hw with ⟨hw', -⟩ | ⟨rfl, -⟩
  · exact h ⟨e, hw', by simpa using hp⟩
  · exact hp rfl

end

/-! ## Translation -/

/-- **The translation of an address**: its entry, if it is present. -/
def translate (k : Kernel) (d va : ℕ) : Option Pte := (k.walkpgdir d va).filter Pte.p

theorem translate_eq_none : k.translate d va = none ↔ ¬ k.Present d va := by
  rw [translate, filter_eq_none_iff]
  exact ⟨fun h ⟨e, he, hp⟩ => h e he hp, fun h e he hp => h ⟨e, he, hp⟩⟩

/-- New tables translate nothing. -/
theorem translate_alloc (hw : k.walkpgdirAlloc d va = some (e, k')) (d' va' : ℕ) :
    k'.translate d' va' = k.translate d' va' := by
  rcases walkpgdir_alloc hw d' va' with heq | ⟨-, hnone, hzero⟩
  · rw [translate, heq, translate]
  · rw [translate, hzero, translate, hnone]
    rfl

/-- A present entry is stored. -/
theorem translate_setPte {e0 : Pte} (hw : k.walkpgdir d va = some e0) (hp : e.p = true) (d' va' : ℕ) :
    (k.setPte d va e).translate d' va' = if d' = d ∧ vpn va' = vpn va then some e else k.translate d' va' := by
  rw [translate, walkpgdir_setPte]
  split
  · rename_i hc
    rw [hc.1, k.walkpgdir_congr d hc.2, hw, map_some]
    exact filter_some_pos hp
  · rfl

/-! ## `mappages` -/

/-- The entry for page `v` of a range that starts with page `v₀` at frame `f`. -/
def pageEntry (perm : Pte) (f v₀ v : ℕ) : Pte := { perm with addr := f + (v - v₀), p := true }

/-- **The pages from `lo` to `hi` of `d` are mapped to the frames from `f` on**, and nothing else has changed. -/
def Maps (k k' : Kernel) (d lo hi f : ℕ) (perm : Pte) : Prop :=
  ∀ d' va, k'.translate d' va =
    if d' = d ∧ lo ≤ vpn va ∧ vpn va ≤ hi then some (pageEntry perm f lo (vpn va)) else k.translate d' va

/-- **The loop of `mappages`** ends, with a failed allocation or behind the last page. -/
theorem mappagesFrom_translates (perm : Pte) (last : ℕ) (hlast : last < 2 ^ 32) (hal : last % pgSize = 0) :
    ∀ (n a f : ℕ) {k : Kernel}, a ≤ last → a % pgSize = 0 → last < a + n * pgSize →
      (∀ va, vpn a ≤ vpn va → vpn va ≤ vpn last → ¬ k.Present d va) →
      Returns (mappagesFrom d last perm n a f k) fun r => r.1 = true → k.Maps r.2 d (vpn a) (vpn last) f perm
  | 0, a, f, k, hle, _, hfuel, _ => by omega
  | n + 1, a, f, k, hle, ha, hfuel, habs => by
    have hpage : vpn a ≤ vpn last := by
      simp only [vpn, pgSize] at *
      omega
    rw [mappagesFrom]
    split
    · exact returns_ok.mpr Bool.noConfusion
    rename_i e k1 hw
    have hep := absent_of_alloc hw (habs a le_rfl hpage)
    have hwa := walkpgdir_of_alloc hw
    rw [if_neg (by rw [hep]; exact Bool.false_ne_true)]
    -- what the store changes, seen from the state before the walk
    have hstore : ∀ d' va, (k1.setPte d a { perm with addr := f, p := true }).translate d' va =
        if d' = d ∧ vpn va = vpn a then some (pageEntry perm f (vpn a) (vpn va)) else k.translate d' va := by
      intro d' va
      rw [translate_setPte hwa rfl, translate_alloc hw]
      split
      · rename_i hc
        rw [pageEntry, hc.2, Nat.sub_self, Nat.add_zero]
      · rfl
    simp only
    split
    · rename_i heq
      subst heq
      refine returns_ok.mpr fun _ d' va => (hstore d' va).trans ?_
      refine if_congr ⟨fun h => ⟨h.1, h.2.ge, h.2.le⟩, fun h => ⟨h.1, le_antisymm h.2.2 h.2.1⟩⟩ rfl rfl
    · rename_i hne
      have hmod : (a + pgSize) % 2 ^ 32 = a + pgSize := by
        simp only [pgSize] at *
        omega
      have hnext : vpn (a + pgSize) = vpn a + 1 ∧ vpn a + 1 ≤ vpn last := by
        simp only [vpn, pgSize] at *
        omega
      rw [hmod]
      refine (mappagesFrom_translates perm last hlast hal n (a + pgSize) (f + 1)
        (by simp only [pgSize] at *; omega) (by simp only [pgSize] at *; omega)
        (by simp only [pgSize] at *; omega) fun va h1 h2 hp => ?_).mono fun r _ hr htrue d' va => ?_
      · refine habs va (by omega) h2 ?_
        by_contra hno
        rw [← translate_eq_none] at hno
        refine translate_eq_none.mp ?_ hp
        rw [hstore, if_neg (by omega), hno]
      · rw [hr htrue d' va, hstore, hnext.1]
        by_cases hd : d' = d
        · by_cases hlo : vpn va = vpn a
          · rw [if_neg (by omega), if_pos ⟨hd, hlo⟩, if_pos ⟨hd, by omega, by omega⟩]
          · by_cases hin : vpn a + 1 ≤ vpn va ∧ vpn va ≤ vpn last
            · rw [if_pos ⟨hd, hin⟩, if_pos ⟨hd, by omega, hin.2⟩, pageEntry, pageEntry,
                show f + 1 + (vpn va - (vpn a + 1)) = f + (vpn va - vpn a) by omega]
            · rw [if_neg fun h => hin h.2, if_neg fun h => hlo h.2, if_neg (by omega)]
        · rw [if_neg fun h => hd h.1, if_neg fun h => hd h.1, if_neg fun h => hd h.1]

/-- **`mappages` ends, and maps the pages of its range and nothing else.** -/
theorem mappages_maps {size : ℕ} (hsize : 0 < size) (hend : va + size ≤ 2 ^ 32)
    (habs : ∀ a, vpn va ≤ vpn a → vpn a ≤ vpn (va + size - 1) → ¬ k.Present d a) :
    Returns (k.mappages d va size f perm) fun r =>
      r.1 = true → k.Maps r.2 d (vpn va) (vpn (va + size - 1)) f perm := by
  have hlast : (va + size + (2 ^ 32 - 1)) % 2 ^ 32 = va + size - 1 := by omega
  rw [mappages, hlast]
  have h := mappagesFrom_translates (d := d) perm (k := k) (pgRoundDown (va + size - 1))
    (by simp only [pgRoundDown, pgSize]; omega) (by simp only [pgRoundDown, pgSize]; omega) (2 ^ 20)
    (pgRoundDown va) f (by simp only [pgRoundDown, pgSize]; omega) (by simp only [pgRoundDown, pgSize]; omega)
    (by simp only [pgRoundDown, pgSize]; omega)
  rw [vpn_pgRoundDown, vpn_pgRoundDown] at h
  exact h habs

/-- **The rule for `mappages`**: what each page of the range preserves is preserved; and where it fails, a
walk to one of the pages has failed. -/
theorem mappagesFrom_yields {P : Kernel → Prop} {Q : ℕ → Prop} {last : ℕ} (hlast : last < 2 ^ 32)
    (hal : last % pgSize = 0) (hstep : ∀ {k k1 x e f}, Q x → P k → k.walkpgdirAlloc d x = some (e, k1) →
      P (k1.setPte d x { perm with addr := f, p := true })) :
    ∀ (n a f : ℕ) {k : Kernel}, a ≤ last → a % pgSize = 0 → (∀ x, a ≤ x → x ≤ last → Q x) → P k →
      Yields (mappagesFrom d last perm n a f k) fun r => P r.2 ∧
        (r.1 = false → ∃ x k, Q x ∧ P k ∧ k.walkpgdirAlloc d x = none)
  | 0, _, _, _, _, _, _, h => yields_ok ⟨h, nofun⟩
  | n + 1, a, f, k, hle, ha, hQ, h => by
    have hqa := hQ a le_rfl hle
    rw [mappagesFrom]
    split
    · rename_i hw
      exact yields_ok ⟨h, fun _ => ⟨a, k, hqa, h, hw⟩⟩
    · rename_i e k1 hw
      have h1 := hstep (f := f) hqa h hw
      refine .ite yields_error ?_
      by_cases heq : a = last
      · rw [if_pos heq]
        exact yields_ok ⟨h1, nofun⟩
      · have hnext : (a + pgSize) % 2 ^ 32 = a + pgSize ∧ a + pgSize ≤ last ∧ (a + pgSize) % pgSize = 0 := by
          simp only [pgSize] at *
          omega
        rw [if_neg heq, hnext.1]
        exact mappagesFrom_yields hlast hal hstep n _ _ hnext.2.1 hnext.2.2
          (fun x hlo hhi => hQ x (by omega) hhi) h1

/-! ## The ranges of `kmap` -/

/-- The last page of a range of `kmap`. -/
def lastPage (r : ℕ × ℕ × ℕ × Bool) : ℕ :=
  pgRoundDown ((r.1 + (r.2.2.1 + 2 ^ 32 - r.2.1) % 2 ^ 32 + (2 ^ 32 - 1)) % 2 ^ 32)

/-- The ranges follow each other from address `a` on. -/
def Ascends (s : Finset (Fin 1024)) : ℕ → List (ℕ × ℕ × ℕ × Bool) → Prop
  | _, [] => True
  | a, r :: rs => a ≤ r.1 ∧ r.1 % pgSize = 0 ∧ r.1 ≤ lastPage r ∧
      (∀ va, r.1 ≤ va → va ≤ lastPage r → pdx va ∈ s) ∧ Ascends s (lastPage r + pgSize) rs

/-- The page tables of the kernel half: the kernel with physical memory, and the devices. -/
def kernelTables : Finset (Fin 1024) :=
  Finset.univ.filter fun x => (512 ≤ (x : ℕ) ∧ (x : ℕ) < 568) ∨ 1016 ≤ (x : ℕ)

theorem ascends_kmap (hs : kernelTables ⊆ s)
    (hkd : 0x100000 < k.kdata ∧ k.kdata < physTop ∧ k.kdata % pgSize = 0) :
    Ascends s kernBase k.kmap := by
  obtain ⟨hlo, hhi, hal⟩ := hkd
  simp only [physTop, pgSize] at hlo hhi hal
  have hs1 : (k.kdata + 2 ^ 32 - 0x100000) % 2 ^ 32 = k.kdata - 0x100000 := by omega
  have hs2 : (0xE000000 + 2 ^ 32 - k.kdata) % 2 ^ 32 = 0xE000000 - k.kdata := by omega
  have hpage : ∀ va, (kernBase ≤ va ∧ va < kernBase + physTop) ∨ (0xFE000000 ≤ va ∧ va < 2 ^ 32) →
      pdx va ∈ s := by
    intro va hva
    refine hs (Finset.mem_filter.mpr ⟨Finset.mem_univ _, ?_⟩)
    simp only [pdx, kernBase, physTop] at *
    omega
  have h1 : lastPage (kernBase, 0, 0x100000, true) = kernBase + 0xFF000 := by decide
  have h2 : lastPage (kernBase + 0x100000, 0x100000, k.kdata, false) = kernBase + k.kdata - 4096 := by
    simp only [lastPage, hs1, pgRoundDown, pgSize, kernBase]
    omega
  have h3 : lastPage (kernBase + k.kdata, k.kdata, physTop, true) = kernBase + physTop - 4096 := by
    simp only [lastPage, physTop, hs2, pgRoundDown, pgSize, kernBase]
    omega
  have h4 : lastPage (0xFE000000, 0xFE000000, 0, true) = 0xFFFFF000 := by decide
  simp only [kmap, Ascends, h1, h2, h3, h4]
  simp only [kernBase, physTop, pgSize] at *
  refine ⟨by omega, trivial, by omega, fun va _ _ => hpage va (.inl (by omega)), by omega, trivial,
    by omega, fun va _ _ => hpage va (.inl (by omega)), by omega, by omega, by omega,
    fun va _ _ => hpage va (.inl (by omega)), by omega, trivial, by omega,
    fun va _ _ => hpage va (.inr (by omega)), trivial⟩

/-- Every range lies behind the start. -/
theorem Ascends.forall {s : Finset (Fin 1024)} : ∀ {rs : List (ℕ × ℕ × ℕ × Bool)} {a : ℕ}, Ascends s a rs →
    ∀ r ∈ rs, a ≤ r.1 ∧ r.1 % pgSize = 0 ∧ r.1 ≤ lastPage r ∧
      ∀ va, r.1 ≤ va → va ≤ lastPage r → pdx va ∈ s
  | r :: rs, a, ⟨hlo, hal, hle, hs, hasc⟩, r', hr' => by
    rcases List.mem_cons.mp hr' with rfl | hr'
    · exact ⟨hlo, hal, hle, hs⟩
    · obtain ⟨hlo', hrest⟩ := hasc.forall r' hr'
      exact ⟨by omega, hrest⟩

/-- **The rule for the loop of `setupkvm`.** -/
theorem mapKernel_yields {P : Kernel → Prop} {Q : ℕ → Prop}
    (hstep : ∀ {k k1 x e w f}, Q x → P k → k.walkpgdirAlloc d x = some (e, k1) →
      P (k1.setPte d x { w := w, addr := f, p := true })) :
    ∀ (rs : List (ℕ × ℕ × ℕ × Bool)) {k : Kernel}, (∀ r ∈ rs, r.1 % pgSize = 0 ∧ r.1 ≤ lastPage r ∧
      ∀ va, r.1 ≤ va → va ≤ lastPage r → Q va) → P k →
      Yields (mapKernel d rs k) fun r => P r.2 ∧
        (r.1 = false → ∃ x k, Q x ∧ P k ∧ k.walkpgdirAlloc d x = none)
  | [], _, _, h => yields_ok ⟨h, nofun⟩
  | r :: rs, k, hr, h => by
    obtain ⟨hal, hle, hQ⟩ := hr r List.mem_cons_self
    have hlast : lastPage r < 2 ^ 32 ∧ lastPage r % pgSize = 0 := by
      simp only [lastPage, pgRoundDown, pgSize]
      omega
    refine Yields.bind (P := fun r => P r.2 ∧
      (r.1 = false → ∃ x k, Q x ∧ P k ∧ k.walkpgdirAlloc d x = none)) ?_ fun x hx => ?_
    · rw [mappages, pgRoundDown_of_dvd hal]
      exact mappagesFrom_yields hlast.1 hlast.2 hstep _ _ _ hle hal hQ h
    · obtain ⟨b, k1⟩ := x
      cases b with
      | false => exact yields_ok hx
      | true => exact mapKernel_yields hstep rs (fun r' h' => hr r' (List.mem_cons_of_mem _ h')) hx.1

/-- The size of a range of `kmap`, as `setupkvm` computes it. -/
def rangeSize (r : ℕ × ℕ × ℕ × Bool) : ℕ := (r.2.2.1 + 2 ^ 32 - r.2.1) % 2 ^ 32

/-- **The translation that ranges make**: an address of a range goes to its place in the physical range. -/
def kmapAt (rs : List (ℕ × ℕ × ℕ × Bool)) (va : ℕ) : Option Pte :=
  (rs.find? fun r => r.1 ≤ va ∧ va < r.1 + rangeSize r).map fun r =>
    { addr := r.2.1 / pgSize + (va - r.1) / pgSize, p := true, w := r.2.2.2 }

/-- A range of whole pages that does not wrap. -/
def WholePages (r : ℕ × ℕ × ℕ × Bool) : Prop :=
  0 < rangeSize r ∧ r.1 + rangeSize r ≤ 2 ^ 32 ∧ rangeSize r % pgSize = 0

theorem wholePages_kmap (hkd : 0x100000 < k.kdata ∧ k.kdata < physTop ∧ k.kdata % pgSize = 0) :
    ∀ r ∈ k.kmap, WholePages r := by
  obtain ⟨hlo, hhi, hal⟩ := hkd
  simp only [physTop, pgSize] at hlo hhi hal
  intro r hr
  simp only [kmap, List.mem_cons, List.not_mem_nil, or_false] at hr
  rcases hr with rfl | rfl | rfl | rfl <;>
    simp only [WholePages, rangeSize, kernBase, physTop, pgSize] <;> omega

theorem kmapAt_cons (r : ℕ × ℕ × ℕ × Bool) (rs : List (ℕ × ℕ × ℕ × Bool)) (va : ℕ) :
    kmapAt (r :: rs) va = if r.1 ≤ va ∧ va < r.1 + rangeSize r then
      some { addr := r.2.1 / pgSize + (va - r.1) / pgSize, p := true, w := r.2.2.2 } else kmapAt rs va := by
  by_cases h : r.1 ≤ va ∧ va < r.1 + rangeSize r
  · rw [if_pos h, kmapAt, List.find?_cons_of_pos (by simpa using h)]
    rfl
  · rw [if_neg h, kmapAt, List.find?_cons_of_neg (by simpa using h), kmapAt]

/-- Ascending ranges translate nothing below their start. -/
theorem kmapAt_of_lt {s : Finset (Fin 1024)} : ∀ {rs : List (ℕ × ℕ × ℕ × Bool)} {a : ℕ}, Ascends s a rs →
    va < a → kmapAt rs va = none
  | [], _, _, _ => rfl
  | r :: rs, a, h, hlt => by
    obtain ⟨hlo, -, hle, -, hasc⟩ := h
    rw [kmapAt_cons, if_neg (by omega)]
    exact kmapAt_of_lt hasc (by omega)

/-- **The loop of `setupkvm`**, over ranges in ascending order. -/
theorem mapKernel_translates {s : Finset (Fin 1024)} : ∀ (rs : List (ℕ × ℕ × ℕ × Bool)) (a : ℕ) {k : Kernel},
    Ascends s a rs → (∀ r ∈ rs, WholePages r) → (∀ va, a ≤ va → va < 2 ^ 32 → ¬ k.Present d va) →
    Returns (mapKernel d rs k) fun r => r.1 = true → ∀ d' va, va < 2 ^ 32 →
      r.2.translate d' va = (if d' = d then kmapAt rs va else none).or (k.translate d' va)
  | [], _, k, _, _, _ => returns_ok.mpr fun _ d' va _ => by
    rw [show kmapAt [] va = none from rfl, ite_self, none_or]
  | r :: rs, a, k, hasc, hr, habs => by
    obtain ⟨hlo, hal, hle, -, hasc'⟩ := hasc
    obtain ⟨hpos, hend, hmod⟩ := hr r List.mem_cons_self
    have hlast : lastPage r + pgSize = r.1 + rangeSize r := by
      have : (r.1 + rangeSize r + (2 ^ 32 - 1)) % 2 ^ 32 = r.1 + rangeSize r - 1 := by omega
      change pgRoundDown ((r.1 + rangeSize r + (2 ^ 32 - 1)) % 2 ^ 32) + pgSize = _
      rw [this]
      simp only [pgRoundDown, pgSize] at *
      omega
    -- the addresses of the range are those of its pages
    have hpages : ∀ va, va < 2 ^ 32 → (vpn r.1 ≤ vpn va ∧ vpn va ≤ vpn (r.1 + rangeSize r - 1) ↔
        r.1 ≤ va ∧ va < r.1 + rangeSize r) := fun va hva => by
      simp only [vpn, pgSize] at *
      omega
    refine (mappages_maps hpos hend fun va h1 h2 hp => ?_).bind fun x hx => ?_
    · have hva : vpn va * pgSize < 2 ^ 32 ∧ vpn (vpn va * pgSize) = vpn va := by
        simp only [vpn, pgSize]
        omega
      refine habs (vpn va * pgSize) (hlo.trans ((hpages _ hva.1).mp ?_).1) hva.1 ?_
      · rw [hva.2]
        exact ⟨h1, h2⟩
      · obtain ⟨e, he, hep⟩ := hp
        exact ⟨e, (k.walkpgdir_congr d hva.2).trans he, hep⟩
    obtain ⟨b, k1⟩ := x
    cases b with
    | false => exact returns_ok.mpr Bool.noConfusion
    | true =>
      have hk1 : ∀ d' va, va < 2 ^ 32 → k1.translate d' va =
          if d' = d ∧ r.1 ≤ va ∧ va < r.1 + rangeSize r then
            some { addr := r.2.1 / pgSize + (va - r.1) / pgSize, p := true, w := r.2.2.2 }
          else k.translate d' va := fun d' va hva => by
        rw [hx rfl d' va]
        refine if_congr (and_congr_right fun _ => hpages va hva) (congrArg some ?_) rfl
        have hoff : vpn va - vpn r.1 = (va - r.1) / pgSize := by
          simp only [vpn, pgSize] at *
          omega
        rw [pageEntry, hoff]
      refine (mapKernel_translates rs _ hasc' (fun r' h' => hr r' (List.mem_cons_of_mem _ h')) ?_).mono
        fun x _ hx htrue d' va hva => ?_
      · intro va h1 h2 hp
        rw [hlast] at h1
        refine translate_eq_none.mp ?_ hp
        rw [hk1 d va h2, if_neg (by omega), translate_eq_none]
        exact habs va (by omega) h2
      · rw [hx htrue d' va hva, hk1 d' va hva, kmapAt_cons]
        by_cases hd : d' = d
        · simp only [if_pos hd]
          by_cases hin : r.1 ≤ va ∧ va < r.1 + rangeSize r
          · rw [if_pos ⟨hd, hin⟩, if_pos hin, kmapAt_of_lt hasc' (by rw [hlast]; exact hin.2), none_or,
              some_or]
          · rw [if_neg fun h => hin h.2, if_neg hin]
        · simp only [if_neg hd, none_or]
          rw [if_neg fun h => hd h.1]

end Kernel

end Xv6
