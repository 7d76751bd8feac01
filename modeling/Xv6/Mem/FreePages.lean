import Xv6.Mem.Kalloc

/-!
# Mem/FreePages — when `free_pages` counts the free list

From `kinit1(end, 4MB)` on, the allocator is driven by `kalloc`, `kfree`, `inc_counter`,
`dec_counter` and, once, `kinit2(4MB, PHYSTOP)`.  Under the callers' contract (`KCall.Legal`) the
free list never holds a frame twice (`Sound`), so its length fits a 32-bit word.

`kfree` increments `free_pages` *before* it tests the count.  A call on a frame that stays shared
therefore counts a page that never reaches the list, and it is the only call that does
(`truthful_iff_of_step`): the counter is truthful along a run exactly when no such call is made.
`total_pages`, which `used_pages` starts from, is the number of pages the two calls push (`kinit_pages`).
-/

namespace Xv6

open Outcome List

/-- The calls other code makes on the allocator. -/
inductive KCall where
  | kalloc
  | kfree (f : ℕ)
  | incCounter (f : ℕ)
  | decCounter (f : ℕ)
  | kinit2

namespace KCall

/-- The effect of a call on `kmem`. -/
def run : KCall → KMem → Except String KMem
  | .kalloc, m => .ok ((m.kalloc.map Prod.snd).getD m)
  | .kfree f, m => m.kfree f
  | .incCounter f, m => .ok (m.incCounter f)
  | .decCounter f, m => .ok (m.decCounter f)
  | .kinit2, m => m.kinit2 0x400000 physTop

/-- The callers' contract.  `kinit2` gets the pages from 4MB on, none of which has been handed out
before. -/
def Legal : KCall → KMem → Prop
  | .kalloc, _ => True
  | .kfree f, m => 1 ≤ m.referencesCount f
  | .incCounter f, m => 1 ≤ m.referencesCount f
  | .decCounter f, m => 2 ≤ m.referencesCount f
  | .kinit2, m => ∀ f, 1024 ≤ f → f ∉ m.freelist ∧ m.referencesCount f = 0

/-- `kfree` of a frame that other references keep alive. -/
def SharedFree : KCall → KMem → Prop
  | .kfree f, m => 2 ≤ m.referencesCount f
  | _, _ => False

end KCall

namespace KMem

/-- The free list has no duplicates, and lists unreferenced frames below `PHYSTOP`. -/
structure Sound (m : KMem) : Prop where
  nodup : m.freelist.Nodup
  free : ∀ f ∈ m.freelist, m.referencesCount f = 0 ∧ f < nFrames

/-- `free_pages`, which `getNumberOfFreePages` returns and `used_pages` subtracts, is the number of
pages on the free list. -/
def Truthful (m : KMem) : Prop := m.freePages = m.freelist.length

instance (m : KMem) : Decidable m.Truthful := inferInstanceAs (Decidable (_ = _))

theorem Sound.length_le {m : KMem} (h : m.Sound) : m.freelist.length ≤ nFrames := by
  have hsub : m.freelist ⊆ List.range nFrames := fun f hf => mem_range.mpr (h.free f hf).2
  simpa using (h.nodup.subperm hsub).length_le

theorem Managed.lt_nFrames {m : KMem} {f : ℕ} (h : m.Managed f) : f < nFrames := by
  have := h.2
  simp only [pgSize, physTop, nFrames] at *
  omega

/-- A count set on a frame off the list leaves the list sound. -/
theorem Sound.setCounter {m : KMem} (h : m.Sound) {f : ℕ} (hf : f ∉ m.freelist) (i : ℕ) :
    (m.setCounter f i).Sound where
  nodup := h.nodup
  free g hg := by
    have hne : g ≠ f := fun he => hf (he ▸ hg)
    simpa [hne] using h.free g hg

/-- **A released frame joins the list once.** -/
theorem Sound.kfree {m m' : KMem} (h : m.Sound) {f : ℕ} (hf : f ∉ m.freelist)
    (hk : m.kfree f = .ok m') : m'.Sound := by
  obtain ⟨hm, rfl⟩ := kfree_eq_ok.mp hk
  by_cases hc : m.referencesCount f ≤ 1
  · simp only [hc, if_true]
    refine ⟨nodup_cons.mpr ⟨hf, h.nodup⟩, fun g hg => ?_⟩
    rcases mem_cons.mp hg with rfl | hg
    · exact ⟨by simp only [Function.update_self]; omega, hm.lt_nFrames⟩
    · have hne : g ≠ f := fun he => hf (he ▸ hg)
      simpa [hne] using h.free g hg
  · simp only [hc, if_false]
    have hs := h.setCounter hf (m.referencesCount f - 1)
    exact ⟨hs.nodup, hs.free⟩

/-- **`kfree` keeps the counter truthful exactly when it drops the last reference.** -/
theorem Sound.truthful_kfree_iff {m m' : KMem} (h : m.Sound) (ht : m.Truthful) {f : ℕ}
    (hk : m.kfree f = .ok m') : m'.Truthful ↔ m.referencesCount f ≤ 1 := by
  obtain ⟨-, rfl⟩ := kfree_eq_ok.mp hk
  have hlen := h.length_le
  simp only [Truthful, nFrames] at *
  by_cases hc : m.referencesCount f ≤ 1
  · simp only [hc, if_true, length_cons, iff_true]
    omega
  · simp only [hc, if_false, iff_false]
    omega

theorem Sound.kalloc {m m' : KMem} (h : m.Sound) {f : ℕ} (hk : m.kalloc = some (f, m')) :
    m'.Sound := by
  obtain ⟨hl, hm⟩ := kalloc_eq_some.mp hk
  have hnd := h.nodup
  rw [hl, nodup_cons] at hnd
  rw [hm]
  refine ⟨hnd.2, fun g hg => ?_⟩
  have hne : g ≠ f := fun he => hnd.1 (he ▸ hg)
  simpa [hne] using h.free g (hl ▸ mem_cons_of_mem _ hg)

theorem Sound.truthful_kalloc {m m' : KMem} (h : m.Sound) (ht : m.Truthful) {f : ℕ}
    (hk : m.kalloc = some (f, m')) : m'.Truthful := by
  obtain ⟨hl, hm⟩ := kalloc_eq_some.mp hk
  have hlen := h.length_le
  rw [hm]
  simp only [Truthful, nFrames, hl, length_cons] at *
  omega

/-- **A range of unmanaged pages is added page by page.**  The pages from `p` on are off the list,
so each iteration pushes a new one and counts it. -/
theorem Sound.freerangeFrom {vend : ℕ} : ∀ (n p : ℕ) {m m' : KMem}, m.Sound → m.Truthful →
    p % pgSize = 0 → (∀ f, p / pgSize ≤ f → f ∉ m.freelist) →
    freerangeFrom vend n p m = .ok m' → m'.Sound ∧ m'.Truthful
  | 0, p, m, m', hs, ht, _, _, h => by cases h; exact ⟨hs, ht⟩
  | n + 1, p, m, m', hs, ht, hp, hoff, h => by
    rw [KMem.freerangeFrom] at h
    split at h
    · obtain ⟨m1, hk, h⟩ := bind_eq_ok.mp h
      have hf : p / pgSize ∉ m.freelist := hoff _ le_rfl
      have hs0 := hs.setCounter hf 0
      have ht1 := (hs0.truthful_kfree_iff ht hk).mpr (by simp)
      refine Sound.freerangeFrom n (p + pgSize) (hs0.kfree hf hk) ht1 ?_ (fun g hg hmem => ?_) h
      · simp only [pgSize] at *
        omega
      · obtain ⟨-, rfl⟩ := kfree_eq_ok.mp hk
        have hgp : p / pgSize < g := by simp only [pgSize] at *; omega
        simp only [setCounter_referencesCount, Function.update_self, zero_le, if_true,
          setCounter_freelist] at hmem
        rcases mem_cons.mp hmem with rfl | hmem
        · omega
        · exact hoff g (by omega) hmem
    · cases h
      exact ⟨hs, ht⟩

/-- **`kinit1` starts a truthful counter.** -/
theorem sound_kinit1 {kend vend : ℕ} {m : KMem} (h : (boot kend).kinit1 kend vend = .ok m) :
    m.Sound ∧ m.Truthful :=
  Sound.freerangeFrom (m := boot kend) _ _ ⟨nodup_nil, nofun⟩ rfl
    (pgRoundUp_mod _) nofun h

/-- **The free list and `total_pages` agree.**  For a kernel that ends below 4MB both calls return,
`kinit2` whatever has become of the allocator in between.  The frames they push are the whole pages of
`[end, PHYSTOP)`, each once, and `total_pages` is their number. -/
theorem kinit_pages {kend : ℕ} (h : kend < 0x400000) : ∃ m, (boot kend).kinit1 kend 0x400000 = .ok m ∧
    ∀ b : KMem, b.kend = kend → ∃ b' high, b.kinit2 0x400000 physTop = .ok b' ∧
      b'.freelist = high ++ b.freelist ∧ (high ++ m.freelist).Nodup ∧
      (∀ f, f ∈ high ++ m.freelist ↔ kend ≤ f * pgSize ∧ f * pgSize + pgSize ≤ physTop) ∧
      ((high ++ m.freelist).length : ℤ) = b.totalPages := by
  obtain ⟨m, hm, -, -, hlow⟩ := freerangeFrom_pushes 0x400000 (by decide) (0x400000 / pgSize + 1)
    (pgRoundUp kend) (boot kend) (pgRoundUp_mod kend) (by simp only [boot, pgRoundUp, pgSize]; omega)
    (by simp only [pgSize]; omega)
  refine ⟨m, hm, fun b hb => ?_⟩
  obtain ⟨b', hb', -, -, hhigh⟩ := freerangeFrom_pushes physTop le_rfl (physTop / pgSize + 1)
    (pgRoundUp 0x400000) b (pgRoundUp_mod _) (by rw [hb]; exact h.le) (by decide)
  have hlow : m.freelist = (List.range' (pgRoundUp kend / pgSize)
      ((0x400000 - pgRoundUp kend) / pgSize)).reverse := hlow.trans (List.append_nil _)
  refine ⟨b', (List.range' 1024 56320).reverse, hb', hhigh, ?_, fun f => ?_, ?_⟩
  · rw [hlow]
    refine List.nodup_append.mpr ⟨List.nodup_reverse.mpr List.nodup_range',
      List.nodup_reverse.mpr List.nodup_range', ?_⟩
    rintro f hf g hg rfl
    rw [List.mem_reverse, List.mem_range'_1] at hf hg
    simp only [pgRoundUp, pgSize] at *
    omega
  · rw [hlow, List.mem_append, List.mem_reverse, List.mem_reverse, List.mem_range'_1, List.mem_range'_1]
    simp only [pgRoundUp, pgSize, physTop] at *
    omega
  · -- both parts are whole numbers of pages, so that rounding the sum down loses only the first page
    rw [hlow, List.length_append, List.length_reverse, List.length_reverse, List.length_range',
      List.length_range', totalPages, hb]
    simp only [pgRoundUp, pgSize, physTop]
    omega

/-- The totals for a kernel whose image ends inside a page. -/
theorem kinit_pages_unaligned : ∃ m, (boot 0x1154a8).kinit1 0x1154a8 0x400000 = .ok m ∧
    ∃ b' high, (boot 0x1154a8).kinit2 0x400000 physTop = .ok b' ∧ b'.freelist = high ++ [] ∧
      ((high ++ m.freelist).length : ℤ) = 57066 := by
  obtain ⟨m, hm, hall⟩ := kinit_pages (show 0x1154a8 < 0x400000 by decide)
  obtain ⟨b', high, hb', hlist, -, -, hlen⟩ := hall (boot 0x1154a8) rfl
  exact ⟨m, hm, b', high, hb', hlist, hlen⟩

end KMem

/-- **One legal call from a truthful state**: the list stays sound, and the counter stays truthful
unless the call frees a frame that remains shared. -/
theorem KCall.truthful_iff_of_step {c : KCall} {m m' : KMem} (hs : m.Sound) (ht : m.Truthful)
    (hl : c.Legal m) (h : c.run m = .ok m') : m'.Sound ∧ (m'.Truthful ↔ ¬ c.SharedFree m) := by
  cases c with
  | kalloc =>
    cases hk : m.kalloc with
    | none =>
      simp only [KCall.run, hk, Option.map_none, Option.getD_none, Except.ok.injEq] at h
      subst h
      exact ⟨hs, by simp [KCall.SharedFree, ht]⟩
    | some x =>
      obtain ⟨f, m1⟩ := x
      simp only [KCall.run, hk, Option.map_some, Option.getD_some, Except.ok.injEq] at h
      subst h
      exact ⟨hs.kalloc hk, by simp [KCall.SharedFree, hs.truthful_kalloc ht hk]⟩
  | kfree f =>
    have hoff : f ∉ m.freelist := fun hf => by
      have h0 := (hs.free f hf).1
      have h1 : 1 ≤ m.referencesCount f := hl
      omega
    refine ⟨hs.kfree hoff h, (hs.truthful_kfree_iff ht h).trans ?_⟩
    simp only [KCall.SharedFree]
    omega
  | incCounter f =>
    have hoff : f ∉ m.freelist := fun hf => by
      have h0 := (hs.free f hf).1
      have h1 : 1 ≤ m.referencesCount f := hl
      omega
    cases h
    exact ⟨hs.setCounter hoff _, iff_of_true ht id⟩
  | decCounter f =>
    have hoff : f ∉ m.freelist := fun hf => by
      have h0 := (hs.free f hf).1
      have h1 : 2 ≤ m.referencesCount f := hl
      omega
    cases h
    exact ⟨hs.setCounter hoff _, iff_of_true ht id⟩
  | kinit2 =>
    have hoff : ∀ f, pgRoundUp 0x400000 / pgSize ≤ f → f ∉ m.freelist := fun f hf =>
      (hl f (by simp only [pgRoundUp, pgSize] at hf; omega)).1
    obtain ⟨hs', ht'⟩ := hs.freerangeFrom _ _ ht (pgRoundUp_mod _) hoff h
    exact ⟨hs', by simp [KCall.SharedFree, ht']⟩

/-- **The free-page counter is truthful along a run exactly when the run frees no shared frame.** -/
theorem freePages_truthful_iff {kend : ℕ} {m : KMem} {calls : List KCall}
    (h : (KMem.boot kend).kinit1 kend 0x400000 = .ok m)
    (hl : Each KCall.run (fun c m _ => c.Legal m) calls m) :
    (m.Truthful ∧ Each KCall.run (fun _ _ m' => m'.Truthful) calls m)
      ↔ Each KCall.run (fun c m _ => ¬ c.SharedFree m) calls m := by
  obtain ⟨hs, ht⟩ := KMem.sound_kinit1 h
  have hiff := each_iff (fun m : KMem => m.Sound ∧ m.Truthful) (L := fun c m _ => c.Legal m)
    (R := fun _ _ m' => m'.Truthful) (Q := fun c m _ => ¬ c.SharedFree m)
    (fun c a b ha hb hc => (KCall.truthful_iff_of_step ha.1 ha.2 hc hb).2)
    (fun c a b ha hb hc hr => ⟨(KCall.truthful_iff_of_step ha.1 ha.2 hc hb).1, hr⟩)
    calls m ⟨hs, ht⟩ hl
  exact ⟨fun hr => hiff.mp hr.2, fun hq => ⟨ht, hiff.mpr hq⟩⟩

/-- The equivalence on a kernel that ends two pages below 4MB, for a page taken and given back. -/
theorem freePages_truthful_run : ∃ m, (KMem.boot 0x3FE000).kinit1 0x3FE000 0x400000 = .ok m ∧
    Each KCall.run (fun c m _ => c.Legal m) [.kalloc, .kfree 1023] m ∧
    ((m.Truthful ∧ Each KCall.run (fun _ _ m' => m'.Truthful) [.kalloc, .kfree 1023] m)
      ↔ Each KCall.run (fun c m _ => ¬ c.SharedFree m) [.kalloc, .kfree 1023] m) := by
  obtain ⟨m, hm⟩ : ∃ m, (KMem.boot 0x3FE000).kinit1 0x3FE000 0x400000 = .ok m := ⟨_, rfl⟩
  have hl : Each KCall.run (fun c m _ => c.Legal m) [.kalloc, .kfree 1023] m := by
    cases hm
    rintro _ ⟨⟩
    refine ⟨trivial, ?_⟩
    rintro _ ⟨⟩
    exact ⟨Nat.le_refl 1, trivial⟩
  exact ⟨m, hm, hl, freePages_truthful_iff hm hl⟩

/-- **The counter drifts**: of two pages one is taken, shared and released once.  `free_pages` is
back at two, the list holds one page. -/
theorem freePages_drift : ∃ m, (KMem.boot 0x3FE000).kinit1 0x3FE000 0x400000 = .ok m ∧
    Each KCall.run (fun c m _ => c.Legal m) [.kalloc, .incCounter 1023, .kfree 1023] m ∧
    ∃ m', loop KCall.run [.kalloc, .incCounter 1023, .kfree 1023] m = .ok m' ∧
      m'.freePages = 2 ∧ m'.freelist = [1022] ∧ ¬ m'.Truthful := by
  refine ⟨_, rfl, ?_, _, rfl, rfl, rfl, by decide⟩
  rintro _ ⟨⟩
  refine ⟨trivial, ?_⟩
  rintro _ ⟨⟩
  refine ⟨Nat.le_refl 1, ?_⟩
  rintro _ ⟨⟩
  exact ⟨Nat.le_succ 1, trivial⟩

end Xv6
