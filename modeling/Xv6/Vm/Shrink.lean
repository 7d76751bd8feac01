import Xv6.Vm.Faults

/-!
# Vm/Shrink — what `deallocuvm` releases, and what it leaves

`deallocuvm` walks over the pages of its range, frees the present ones and releases, for each, the first
entry of `memory_pages` that names it.  It does not look at `PTE_PG` or at `file_pages`; and where a page
table is missing it goes on 4MB further, from wherever it stands, so that the first pages of the next
table are passed over (`Skips`).

`Shrunk k k' cur d s` says that exactly the pages of `s` have been released this way, and
`deallocFrom_shrunk` computes `s`.  From it follow both what is unchanged and when nothing of the range is
left (`released_iff`).
-/

namespace Xv6

open Outcome List

/-- The page addresses from `lo` on below `hi`. -/
def pageRange (lo hi : ℕ) : Set ℕ := {a | a % pgSize = 0 ∧ lo ≤ a ∧ a < hi}

/-- A slot in use names page `a` of directory `d`. -/
def Slot.Names (s : Slot) (d a : ℕ) : Prop := s.isUsed = true ∧ s.pgdir = d ∧ s.va = a

/-- Slot `i` is the first of `memory_pages` that names page `a` of directory `d`. -/
def Proc.First (p : Proc) (d a : ℕ) (i : Fin maxPsycPages) : Prop :=
  (p.memoryPages i).Names d a ∧ ∀ l < i, ¬ (p.memoryPages l).Names d a

namespace Kernel

variable {k k' k₁ : Kernel} {cur d a b va oldsz newsz : ℕ} {p : Proc} {e : Pte} {s : Set ℕ}
  {i l : Fin maxPsycPages}

theorem walkpgdir_isSome_congr (k : Kernel) (d : ℕ) {va va' : ℕ} (h : pdx va = pdx va') :
    (k.walkpgdir d va).isSome = (k.walkpgdir d va').isSome := by
  unfold walkpgdir
  cases k.dirs d with
  | none => rfl
  | some pd => simp only [Option.bind_some, PageDir.walk_isSome, h]

theorem isSome_walkpgdir_setPte (k : Kernel) (d va : ℕ) (e : Pte) (d' va' : ℕ) :
    ((k.setPte d va e).walkpgdir d' va').isSome = (k.walkpgdir d' va').isSome := by
  rw [walkpgdir_setPte]
  split <;> simp

/-- A release changes neither the allocator nor the memory nor the directories. -/
theorem releaseSlot_kmem (k : Kernel) (cur d va : ℕ) :
    (k.releaseSlot cur d va).kmem = k.kmem ∧ (k.releaseSlot cur d va).mem = k.mem ∧
      (k.releaseSlot cur d va).dirs = k.dirs := by
  unfold releaseSlot
  split
  · exact ⟨rfl, rfl, rfl⟩
  · split <;> exact ⟨rfl, rfl, rfl⟩

theorem releaseSlot_walkpgdir (k : Kernel) (cur d va d' va' : ℕ) :
    (k.releaseSlot cur d va).walkpgdir d' va' = k.walkpgdir d' va' := by
  rw [walkpgdir, (releaseSlot_kmem k cur d va).2.2, walkpgdir]

/-! ## Releasing a set of pages -/

/-- **Exactly the pages of `s` have been released**: their entries are zero, the first slot that named each
of them is free, and nothing else has changed. -/
structure Shrunk (k k' : Kernel) (cur d : ℕ) (s : Set ℕ) : Prop where
  gone : ∀ a ∈ s, k'.walkpgdir d a = some {}
  rest : ∀ d' va, (d' = d → ∀ a ∈ s, vpn va ≠ vpn a) → k'.walkpgdir d' va = k.walkpgdir d' va
  others : ∀ q, q ≠ cur → k'.procs q = k.procs q
  slots : ∀ p, k.procs cur = some p → ∃ mp, k'.procs cur = some { p with memoryPages := mp } ∧
    ∀ i, (∀ a ∈ s, p.First d a i → mp i = { p.memoryPages i with isUsed := false }) ∧
      ((∀ a ∈ s, ¬ p.First d a i) → mp i = p.memoryPages i)

theorem Shrunk.refl (k : Kernel) (cur d : ℕ) : k.Shrunk k cur d ∅ where
  gone a ha := absurd ha (Set.notMem_empty a)
  rest _ _ _ := rfl
  others _ _ := rfl
  slots p hp := ⟨p.memoryPages, hp, fun _ =>
    ⟨fun a ha => absurd ha (Set.notMem_empty a), fun _ => rfl⟩⟩

/-- A released slot of page `a` does not matter to the other pages. -/
theorem names_released {mp : Fin maxPsycPages → Slot} (hab : b ≠ a)
    (hmp : (p.First d a l → mp l = { p.memoryPages l with isUsed := false }) ∧
      (¬ p.First d a l → mp l = p.memoryPages l)) :
    (mp l).Names d b ↔ (p.memoryPages l).Names d b := by
  by_cases hf : p.First d a l
  · rw [hmp.1 hf]
    refine ⟨fun h => Bool.noConfusion h.1, fun h => absurd (h.2.2.symm.trans hf.1.2.2) hab⟩
  · rw [hmp.2 hf]

/-- **One page, and then the others.** -/
theorem Shrunk.cons (h : k.Shrunk k₁ cur d {a}) (h' : k₁.Shrunk k' cur d s)
    (hs : ∀ b ∈ s, vpn b ≠ vpn a) : k.Shrunk k' cur d (insert a s) := by
  refine ⟨fun b hb => ?_, fun d' va hne => ?_, fun q hq => (h'.others q hq).trans (h.others q hq),
    fun p hp => ?_⟩
  · rcases hb with rfl | hb
    · rw [h'.rest d b fun _ c hc => (hs c hc).symm]
      exact h.gone b rfl
    · exact h'.gone b hb
  · rw [h'.rest d' va fun hd b hb => hne hd b (.inr hb),
      h.rest d' va fun hd b hb => hne hd b (.inl hb)]
  · obtain ⟨mp, hmp, hslot⟩ := h.slots p hp
    obtain ⟨mp', hmp', hslot'⟩ := h'.slots _ hmp
    have hone : ∀ l, (p.First d a l → mp l = { p.memoryPages l with isUsed := false }) ∧
        (¬ p.First d a l → mp l = p.memoryPages l) := fun l =>
      ⟨(hslot l).1 a rfl, fun hf => (hslot l).2 fun b hb => by rw [hb]; exact hf⟩
    have hne : ∀ b ∈ s, b ≠ a := fun b hb hba => hs b hb (by rw [hba])
    have hfirst : ∀ b ∈ s, ∀ l, ({ p with memoryPages := mp } : Proc).First d b l ↔ p.First d b l :=
      fun b hb l => and_congr (names_released (hne b hb) (hone l)) (forall_congr' fun l' =>
        imp_congr_right fun _ => not_congr (names_released (hne b hb) (hone l')))
    refine ⟨mp', hmp', fun i => ⟨fun b hb hf => ?_, fun hf => ?_⟩⟩
    · rcases hb with rfl | hb
      · -- its slot is the one of no other page
        exact ((hslot' i).2 fun c hc hfc => hne c hc
          (((hfirst c hc i).mp hfc).1.2.2.symm.trans hf.1.2.2)).trans ((hone i).1 hf)
      · have hnot : ¬ p.First d a i := fun hfa => hne b hb (hf.1.2.2.symm.trans hfa.1.2.2)
        exact ((hslot' i).1 b hb ((hfirst b hb i).mpr hf)).trans
          (congrArg (fun s : Slot => { s with isUsed := false }) ((hone i).2 hnot))
    · exact ((hslot' i).2 fun b hb hfb => hf b (.inr hb) ((hfirst b hb i).mp hfb)).trans
        ((hone i).2 (hf a (.inl rfl)))

/-- Slot `i` is found by the search of `deallocuvm`. -/
theorem first_of_find (h : ((List.finRange maxPsycPages).find? fun i => (p.memoryPages i).isUsed &&
    (p.memoryPages i).pgdir == d && (p.memoryPages i).va == a) = some i) : p.First d a i := by
  obtain ⟨hi, n, hn, hget, hbefore⟩ := List.find?_eq_some_iff_getElem.mp h
  rw [getElem_finRange] at hget
  have hni : n = (i : ℕ) := congrArg Fin.val hget
  refine ⟨by simpa [Slot.Names, and_assoc] using hi, fun l hl hname => ?_⟩
  have hfalse := hbefore l (hni ▸ hl)
  rw [getElem_finRange] at hfalse
  simp [hname.1, hname.2.1, hname.2.2] at hfalse

/-- There is one first slot. -/
theorem First.unique (h : p.First d a i) (h' : p.First d a l) : i = l := by
  rcases lt_trichotomy i l with hlt | heq | hlt
  · exact absurd h.1 (h'.2 i hlt)
  · exact heq
  · exact absurd h'.1 (h.2 l hlt)

/-- **The body of the loop**, for a present page. -/
theorem shrunk_page (hw : k.walkpgdir d a = some e) (hk : k.kfree e.addr = .ok k₁) :
    k.Shrunk ((k₁.releaseSlot cur d a).setPte d a {}) cur d {a} := by
  have hwalk : ∀ d' va, (k₁.releaseSlot cur d a).walkpgdir d' va = k.walkpgdir d' va := fun d' va => by
    rw [releaseSlot_walkpgdir, walkpgdir_of_kfree hk]
  refine ⟨fun b hb => ?_, fun d' va hne => ?_, fun q hq => ?_, fun p hp => ?_⟩
  · rw [Set.mem_singleton_iff.mp hb]
    exact walkpgdir_setPte_self _ ((hwalk d a).trans hw)
  · rw [walkpgdir_setPte, if_neg fun hc => hne hc.1 a rfl hc.2, hwalk]
  · rw [setPte_procs, releaseSlot, ← procs_of_kfree hk]
    split
    · rfl
    · split
      · rfl
      · exact setProc_procs_of_ne _ _ _ hq
  · rw [← procs_of_kfree hk] at hp
    rw [setPte_procs, releaseSlot, hp]
    simp only
    split
    · rename_i hnone
      refine ⟨p.memoryPages, hp, fun i => ⟨fun b hb hf => ?_, fun _ => rfl⟩⟩
      have hfalse := List.find?_eq_none.mp hnone i (mem_finRange i)
      rw [Set.mem_singleton_iff.mp hb] at hf
      simp [hf.1.1, hf.1.2.1, hf.1.2.2] at hfalse
    · rename_i j hj
      have hfirst := first_of_find hj
      refine ⟨_, setProc_procs_self .., fun i => ⟨fun b hb hf => ?_, fun hf => ?_⟩⟩
      · rw [Set.mem_singleton_iff.mp hb] at hf
        rw [First.unique hf hfirst]
        exact Function.update_self ..
      · exact Function.update_of_ne (fun hij : i = j => hf a rfl (hij ▸ hfirst)) ..

/-! ## The pages the loop comes to -/

/-- **The loop of `deallocuvm` from `a` on passes page `b` over**: all tables from the one of `a` to the one
before `b` are missing, and `b` lies further ahead in its table than `a`. -/
def Skips (k : Kernel) (d a b : ℕ) : Prop :=
  a / 2 ^ 22 < b / 2 ^ 22 ∧ b % 2 ^ 22 < a % 2 ^ 22 ∧
    ∀ c, a / 2 ^ 22 ≤ c / 2 ^ 22 → c / 2 ^ 22 < b / 2 ^ 22 → k.walkpgdir d c = none

/-- The pages of `[a, hi)` that the loop frees. -/
def Freed (k : Kernel) (d a hi : ℕ) : Set ℕ :=
  {b | b ∈ pageRange a hi ∧ k.Present d b ∧ ¬ k.Skips d a b}

theorem isSome_walk_of_div (k : Kernel) (d : ℕ) {a b : ℕ} (h : a / 2 ^ 22 = b / 2 ^ 22) :
    (k.walkpgdir d a).isSome = (k.walkpgdir d b).isSome :=
  k.walkpgdir_isSome_congr d (by simp only [pdx, h])

/-- An address whose table is there is not passed over. -/
theorem not_skips (hw : (k.walkpgdir d a).isSome) : ¬ k.Skips d a b := by
  rintro ⟨hlt, -, hnone⟩
  rw [hnone a le_rfl hlt] at hw
  cases hw

/-- **A missing table**: the loop goes on 4MB further. -/
theorem freed_of_missing {hi : ℕ} (hw : k.walkpgdir d a = none) :
    k.Freed d a hi = k.Freed d (a + 1024 * pgSize) hi := by
  have hsize : 1024 * pgSize = 2 ^ 22 := by decide
  have hsame : ∀ c, c / 2 ^ 22 = a / 2 ^ 22 → k.walkpgdir d c = none := fun c hc => by
    have := k.isSome_walk_of_div d hc
    rw [hw] at this
    simpa using this
  rw [hsize]
  ext b
  constructor
  · rintro ⟨⟨hb, hlo, hhi⟩, hp, hs⟩
    have hne : b / 2 ^ 22 ≠ a / 2 ^ 22 := fun hc => by
      obtain ⟨e, he, -⟩ := hp
      rw [hsame b hc] at he
      cases he
    refine ⟨⟨hb, ?_, hhi⟩, hp, fun ⟨h1, h2, h3⟩ => hs ⟨by omega, by omega, fun c hc1 hc2 => ?_⟩⟩
    · -- a page of the next table before the place where the loop goes on
      by_contra hge
      exact hs ⟨by omega, by omega, fun c hc1 hc2 => hsame c (by omega)⟩
    · by_cases hc : c / 2 ^ 22 = a / 2 ^ 22
      · exact hsame c hc
      · exact h3 c (by omega) hc2
  · rintro ⟨⟨hb, hlo, hhi⟩, hp, hs⟩
    exact ⟨⟨hb, by omega, hhi⟩, hp, fun ⟨h1, h2, h3⟩ =>
      hs ⟨by omega, by omega, fun c hc1 hc2 => h3 c (by omega) hc2⟩⟩

/-- **A table that is there**: the loop goes on with the next page. -/
theorem mem_freed_of_table {hi : ℕ} (ha : a % pgSize = 0) (hw : (k.walkpgdir d a).isSome) :
    b ∈ k.Freed d a hi ↔ (b = a ∧ a < hi ∧ k.Present d a) ∨ b ∈ k.Freed d (a + pgSize) hi := by
  constructor
  · rintro ⟨⟨hb, hlo, hhi⟩, hp, -⟩
    by_cases hba : b = a
    · subst hba
      exact .inl ⟨rfl, hhi, hp⟩
    · refine .inr ⟨⟨hb, by simp only [pgSize] at *; omega, hhi⟩, hp, ?_⟩
      rintro ⟨h1, h2, h3⟩
      by_cases hc : (a + pgSize) / 2 ^ 22 = a / 2 ^ 22
      · rw [h3 a hc.le (hc ▸ h1)] at hw
        cases hw
      · -- the next page is the first one of its table
        simp only [pgSize] at *
        omega
  · rintro (⟨rfl, hlt, hp⟩ | ⟨⟨hb, hlo, hhi⟩, hp, -⟩)
    · exact ⟨⟨ha, le_rfl, hlt⟩, hp, not_skips hw⟩
    · exact ⟨⟨hb, by omega, hhi⟩, hp, not_skips hw⟩

/-- Which pages are freed depends on the tables and on the pages of the range. -/
theorem freed_congr {hi : ℕ} (htab : ∀ va, (k'.walkpgdir d va).isSome = (k.walkpgdir d va).isSome)
    (hpres : ∀ b ∈ pageRange a hi, (k'.Present d b ↔ k.Present d b)) :
    k'.Freed d a hi = k.Freed d a hi := by
  have hnone : ∀ va, k'.walkpgdir d va = none ↔ k.walkpgdir d va = none := fun va => by
    rw [← Option.not_isSome_iff_eq_none, htab, Option.not_isSome_iff_eq_none]
  ext b
  refine and_congr_right fun hb => and_congr (hpres b hb) (not_congr ?_)
  simp only [Skips, hnone]

theorem freed_of_le {hi : ℕ} (h : hi ≤ a) : k.Freed d a hi = ∅ := by
  refine Set.eq_empty_of_forall_notMem fun b hb => ?_
  obtain ⟨-, hlo, hhi⟩ := hb.1
  omega

theorem vpn_ne_of_lt (ha : a % pgSize = 0) (hb : a + pgSize ≤ b) (hlt : b < 2 ^ 32) :
    vpn b ≠ vpn a := by
  simp only [vpn, pgSize] at *
  omega

/-- **The loop of `deallocuvm` frees exactly the present pages it comes to**, one after the other. -/
theorem deallocFrom_rec {R : Kernel → Kernel → Set ℕ → Prop} (hold : oldsz ≤ 2 ^ 32 - 2 ^ 22)
    (hrefl : ∀ k, R k k ∅)
    (hpage : ∀ {k k₁ k' a e s}, a % pgSize = 0 ∧ a < oldsz → k.walkpgdir d a = some e → e.p = true →
      e.addr ≠ 0 → k.kfree e.addr = .ok k₁ → R ((k₁.releaseSlot cur d a).setPte d a {}) k' s →
      (∀ b ∈ s, vpn b ≠ vpn a) → R k k' (insert a s)) :
    ∀ (n a : ℕ) {k k' : Kernel}, a % pgSize = 0 → oldsz ≤ a + n * pgSize →
      deallocFrom cur d oldsz n a k = .ok k' → R k k' (k.Freed d a oldsz)
  | 0, a, k, k', _, hn, h => by
    cases h
    rw [freed_of_le (by omega)]
    exact hrefl k
  | n + 1, a, k, k', ha, hn, h => by
    have ha1 : (a + pgSize) % pgSize = 0 := by simp only [pgSize] at *; omega
    have hn1 : oldsz ≤ a + pgSize + n * pgSize := by simp only [pgSize] at *; omega
    rw [deallocFrom] at h
    split at h
    · rename_i hlt
      split at h
      · rename_i hnone
        rw [freed_of_missing hnone]
        exact deallocFrom_rec hold hrefl hpage n _ (by simp only [pgSize] at *; omega)
          (by simp only [pgSize] at *; omega) h
      · rename_i e he
        have hsome : (k.walkpgdir d a).isSome := by rw [he]; rfl
        split at h
        · rename_i hep
          split at h
          · cases h
          · rename_i hne
            obtain ⟨k₁, hk1, h⟩ := bind_eq_ok.mp h
            have hrest := deallocFrom_rec hold hrefl hpage n _ ha1 hn1 h
            have hvpn : ∀ b ∈ pageRange (a + pgSize) oldsz, vpn b ≠ vpn a := fun b hb =>
              vpn_ne_of_lt ha hb.2.1 (by have := hb.2.2; omega)
            -- the page freed decides nothing about those behind it
            rw [freed_congr (k := k) (fun va => by
              rw [isSome_walkpgdir_setPte, releaseSlot_walkpgdir, walkpgdir_of_kfree hk1])
              fun b hb => by
                rw [Present, Present, walkpgdir_setPte, if_neg fun hc => hvpn b hb hc.2,
                  releaseSlot_walkpgdir, walkpgdir_of_kfree hk1]] at hrest
            have hset : k.Freed d a oldsz = insert a (k.Freed d (a + pgSize) oldsz) := by
              ext b
              rw [mem_freed_of_table ha hsome, Set.mem_insert_iff]
              exact or_congr_left (and_iff_left ⟨hlt, e, he, hep⟩)
            rw [hset]
            exact hpage ⟨ha, hlt⟩ he hep hne hk1 hrest fun b hb => hvpn b hb.1
        · rename_i hep
          have hset : k.Freed d a oldsz = k.Freed d (a + pgSize) oldsz := by
            ext b
            rw [mem_freed_of_table ha hsome]
            refine or_iff_right ?_
            rintro ⟨-, -, e', he', hep'⟩
            exact hep (Option.mem_unique he he' ▸ hep')
          rw [hset]
          exact deallocFrom_rec hold hrefl hpage n _ ha1 hn1 h
    · rename_i hge
      cases h
      rw [freed_of_le (by omega)]
      exact hrefl k

theorem deallocFrom_shrunk {n : ℕ} (hold : oldsz ≤ 2 ^ 32 - 2 ^ 22) (ha : a % pgSize = 0)
    (hn : oldsz ≤ a + n * pgSize) (h : deallocFrom cur d oldsz n a k = .ok k') :
    k.Shrunk k' cur d (k.Freed d a oldsz) :=
  deallocFrom_rec (R := fun k k' s => k.Shrunk k' cur d s) hold (fun k => .refl k cur d)
    (fun _ hw _ _ hk h => (shrunk_page hw hk).cons h) n a ha hn h

theorem deallocuvm_shrunk {r : ℕ} (hold : oldsz ≤ 2 ^ 32 - 2 ^ 22) (hlt : newsz < oldsz)
    (h : k.deallocuvm cur d oldsz newsz = .ok (r, k')) :
    r = newsz ∧ k.Shrunk k' cur d (k.Freed d (pgRoundUp newsz) oldsz) := by
  rw [Kernel.deallocuvm, if_neg (by omega)] at h
  obtain ⟨k₁, hk1, h⟩ := bind_eq_ok.mp h
  cases h
  refine ⟨rfl, deallocFrom_shrunk hold (pgRoundUp_mod newsz) ?_ hk1⟩
  simp only [pgSize]
  omega

/-- **Induction over a `deallocuvm` that returns.** -/
theorem deallocFrom_returns {lo : ℕ} {P : Kernel → Prop}
    (hstep : ∀ k a e, a ∈ pageRange lo oldsz → k.walkpgdir d a = some e → e.p = true → P k → e.addr ≠ 0 ∧
      Returns (k.kfree e.addr) fun k₁ => P ((k₁.releaseSlot cur d a).setPte d a {})) :
    ∀ (n a : ℕ) (k : Kernel), a % pgSize = 0 → lo ≤ a → P k → Returns (deallocFrom cur d oldsz n a k) P
  | 0, _, _, _, _, hP => returns_ok.mpr hP
  | n + 1, a, k, ha, hlo, hP => by
    have ha' : ∀ m, (a + m * pgSize) % pgSize = 0 := fun m => by
      simp only [pgSize] at *
      omega
    rw [deallocFrom]
    split
    · rename_i hlt
      split
      · exact deallocFrom_returns hstep n _ k (ha' 1024) (by omega) hP
      · rename_i e he
        split
        · rename_i hep
          obtain ⟨hne, hfree⟩ := hstep k a e ⟨ha, hlo, hlt⟩ he hep hP
          rw [if_neg hne]
          exact hfree.bind fun k₁ h1 => deallocFrom_returns hstep n _ _ (by simpa using ha' 1) (by omega) h1
        · exact deallocFrom_returns hstep n _ k (by simpa using ha' 1) (by omega) hP
    · exact returns_ok.mpr hP

/-! ## When nothing of the range is left -/

/-- **The pages of `s` are gone**: no entry of directory `d` has `PTE_P` or `PTE_PG` set for them, and no
slot of process `cur` names one. -/
structure Released (k : Kernel) (cur d : ℕ) (s : Set ℕ) : Prop where
  entries : ∀ a ∈ s, ∀ e, k.walkpgdir d a = some e → e.p = false ∧ e.pg = false
  slots : ∀ p, k.procs cur = some p → ∀ a ∈ s, ∀ i,
    ¬ (p.memoryPages i).Names d a ∧ ¬ (p.filePages i).Names d a

/-- **All but the pages of `s` are as before**, entries and slots. -/
structure Untouched (k k' : Kernel) (cur d : ℕ) (s : Set ℕ) : Prop where
  entries : ∀ d' va, (d' = d → ∀ a ∈ s, vpn va ≠ vpn a) → k'.walkpgdir d' va = k.walkpgdir d' va
  others : ∀ q, q ≠ cur → k'.procs q = k.procs q
  slots : ∀ p, k.procs cur = some p → ∃ mp, k'.procs cur = some { p with memoryPages := mp } ∧
    ∀ i, (∀ a ∈ s, ¬ (p.memoryPages i).Names d a) → mp i = p.memoryPages i

/-- **Nothing of `[lo, hi)` escapes `deallocuvm`**: no page is paged out and no file slot names one; every
present page is come to; and a memory slot that names a page names a present one, and no other slot names
it. -/
structure Clear (k : Kernel) (p : Proc) (lo hi : ℕ) : Prop where
  resident : ∀ a ∈ pageRange lo hi, ∀ e, k.walkpgdir p.pgdir a = some e → e.pg = true → e.p = true
  reached : ∀ a ∈ pageRange lo hi, k.Present p.pgdir a → ¬ k.Skips p.pgdir lo a
  file : ∀ a ∈ pageRange lo hi, ∀ j, ¬ (p.filePages j).Names p.pgdir a
  memory : ∀ a ∈ pageRange lo hi, ∀ i, (p.memoryPages i).Names p.pgdir a →
    k.Present p.pgdir a ∧ ∀ l, (p.memoryPages l).Names p.pgdir a → l = i

/-- In a clear range every present page is freed. -/
theorem Clear.freed {lo hi : ℕ} (h : k.Clear p lo hi) (ha : a ∈ pageRange lo hi)
    (hp : k.Present p.pgdir a) : a ∈ k.Freed p.pgdir lo hi := ⟨ha, hp, h.reached a ha hp⟩

theorem Shrunk.untouched {lo hi : ℕ} (h : k.Shrunk k' cur d (k.Freed d lo hi)) :
    k.Untouched k' cur d (pageRange lo hi) where
  entries d' va hne := h.rest d' va fun hd a ha => hne hd a ha.1
  others := h.others
  slots p hp := by
    obtain ⟨mp, hmp, hslot⟩ := h.slots p hp
    exact ⟨mp, hmp, fun i hne => (hslot i).2 fun a ha hf => hne a ha.1 hf.1⟩

/-- The pages of a range have page numbers of their own. -/
theorem eq_of_vpn_range {lo hi : ℕ} (hhi : hi ≤ 2 ^ 32) (ha : a ∈ pageRange lo hi)
    (hb : b ∈ pageRange lo hi) (hv : vpn a = vpn b) : a = b := by
  obtain ⟨ha1, -, ha2⟩ := ha
  obtain ⟨hb1, -, hb2⟩ := hb
  simp only [vpn, pgSize] at *
  omega

/-- A page that is not freed keeps its entry. -/
theorem Shrunk.walk_of_notMem {lo hi : ℕ} (hhi : hi ≤ 2 ^ 32) (h : k.Shrunk k' cur d (k.Freed d lo hi))
    (ha : a ∈ pageRange lo hi) (hn : a ∉ k.Freed d lo hi) : k'.walkpgdir d a = k.walkpgdir d a :=
  h.rest d a fun _ _ hb hv => hn (eq_of_vpn_range hhi ha hb.1 hv ▸ hb)

/-- **What of the range is still present**: what has been passed over. -/
theorem Shrunk.present_iff {lo hi : ℕ} (hhi : hi ≤ 2 ^ 32) (h : k.Shrunk k' cur d (k.Freed d lo hi))
    (ha : a ∈ pageRange lo hi) : k'.Present d a ↔ k.Present d a ∧ k.Skips d lo a := by
  by_cases hf : a ∈ k.Freed d lo hi
  · refine iff_of_false ?_ fun hc => hf.2.2 hc.2
    rintro ⟨e, he, hp⟩
    rw [h.gone a hf] at he
    cases he
    cases hp
  · rw [Present, h.walk_of_notMem hhi ha hf]
    exact ⟨fun hp => ⟨hp, by_contra fun hs => hf ⟨ha, hp, hs⟩⟩, And.left⟩

/-- A slot that is left names a page as before. -/
theorem Shrunk.names {lo hi : ℕ} {mp : Fin maxPsycPages → Slot}
    (hslot : (∀ a ∈ k.Freed d lo hi, p.First d a i → mp i = { p.memoryPages i with isUsed := false }) ∧
      ((∀ a ∈ k.Freed d lo hi, ¬ p.First d a i) → mp i = p.memoryPages i)) :
    (mp i).Names d a ↔ (p.memoryPages i).Names d a ∧ ¬ (a ∈ k.Freed d lo hi ∧ p.First d a i) := by
  by_cases hf : ∃ b ∈ k.Freed d lo hi, p.First d b i
  · obtain ⟨b, hb, hfb⟩ := hf
    rw [hslot.1 b hb hfb]
    refine ⟨fun h => Bool.noConfusion h.1, fun ⟨hname, hno⟩ => absurd ?_ hno⟩
    rw [← hname.2.2, hfb.1.2.2]
    exact ⟨hb, hfb⟩
  · have hno : ∀ b ∈ k.Freed d lo hi, ¬ p.First d b i := fun b hb hfb => hf ⟨b, hb, hfb⟩
    rw [hslot.2 hno]
    exact ⟨fun h => ⟨h, fun hc => hno a hc.1 hc.2⟩, And.left⟩

/-- A page that some slot names has a first one. -/
theorem exists_first (h : (p.memoryPages i).Names d a) : ∃ l, p.First d a l := by
  classical
  obtain ⟨l, hl, hmin⟩ := (Set.toFinite {l | (p.memoryPages l).Names d a}).exists_minimal ⟨i, h⟩
  exact ⟨l, hl, fun l' hlt hname => absurd (hmin hname hlt.le) (not_le.mpr hlt)⟩

/-- **`deallocuvm` clears its range exactly if nothing of it escapes.** -/
theorem Shrunk.released_iff {lo hi : ℕ} (hp : k.procs cur = some p) (hhi : hi ≤ 2 ^ 32)
    (h : k.Shrunk k' cur p.pgdir (k.Freed p.pgdir lo hi)) :
    k'.Released cur p.pgdir (pageRange lo hi) ↔ k.Clear p lo hi := by
  obtain ⟨mp, hmp, hslot⟩ := h.slots p hp
  constructor
  · intro hr
    have hslots := hr.slots _ hmp
    -- an entry with `PTE_P` or `PTE_PG` is one of a freed page
    have hfreed : ∀ a ∈ pageRange lo hi, ∀ e, k.walkpgdir p.pgdir a = some e →
        e.p = true ∨ e.pg = true → a ∈ k.Freed p.pgdir lo hi := by
      intro a ha e he hflag
      by_contra hn
      have := hr.entries a ha e (by rw [h.walk_of_notMem hhi ha hn, he])
      rcases hflag with hf | hf <;> simp [hf] at this
    refine ⟨fun a ha e he hpg => ?_, fun a ha ⟨e, he, hep⟩ => (hfreed a ha e he (.inl hep)).2.2,
      fun a ha j => (hslots a ha j).2, fun a ha i hname => ?_⟩
    · obtain ⟨e', he', hep⟩ := (hfreed a ha e he (.inr hpg)).2.1
      rwa [Option.mem_unique he he']
    · have hgone : ∀ l, (p.memoryPages l).Names p.pgdir a →
          a ∈ k.Freed p.pgdir lo hi ∧ p.First p.pgdir a l := fun l hl => by
        by_contra hn
        exact (hslots a ha l).1 ((Shrunk.names (hslot l)).mpr ⟨hl, hn⟩)
      exact ⟨(hgone i hname).1.2.1, fun l hl => First.unique (hgone l hl).2 (hgone i hname).2⟩
  · intro hc
    refine ⟨fun a ha e he => ?_, fun p' hp' a ha i => ?_⟩
    · by_cases hf : a ∈ k.Freed p.pgdir lo hi
      · rw [h.gone a hf] at he
        cases he
        exact ⟨rfl, rfl⟩
      · rw [h.walk_of_notMem hhi ha hf] at he
        have hep : e.p = false := by
          by_contra hep
          exact hf (hc.freed ha ⟨e, he, by simpa using hep⟩)
        refine ⟨hep, ?_⟩
        by_contra hpg
        have := hc.resident a ha e he (by simpa using hpg)
        rw [hep] at this
        cases this
    · cases Option.mem_unique hmp hp'
      refine ⟨fun hname => ?_, hc.file a ha i⟩
      obtain ⟨hname, hno⟩ := (Shrunk.names (hslot i)).mp hname
      obtain ⟨hpres, huniq⟩ := hc.memory a ha i hname
      obtain ⟨l, hl⟩ := exists_first hname
      exact hno ⟨hc.freed ha hpres, huniq l hl.1 ▸ hl⟩

/-! ## The whole range -/

/-- The frame that the entry of page `a` names. -/
def frameAt (k : Kernel) (d a : ℕ) : ℕ := ((k.walkpgdir d a).getD {}).addr

/-- **Each page of `s` has its frame passed to `kfree` exactly once**, and no other frame is. -/
def Frees (k k' : Kernel) (d : ℕ) (s : Set ℕ) : Prop :=
  ∃ as : List ℕ, as.Nodup ∧ (∀ a, a ∈ as ↔ a ∈ s) ∧ (∀ a ∈ as, k.frameAt d a ≠ 0) ∧
    loop (fun f m => m.kfree f) (as.map (k.frameAt d)) k.kmem = .ok k'.kmem

theorem deallocFrom_frees {n : ℕ} (hold : oldsz ≤ 2 ^ 32 - 2 ^ 22) (ha : a % pgSize = 0)
    (hn : oldsz ≤ a + n * pgSize) (h : deallocFrom cur d oldsz n a k = .ok k') :
    k.Frees k' d (k.Freed d a oldsz) := by
  refine deallocFrom_rec (R := fun k k' s => k.Frees k' d s) hold
    (fun k => ⟨[], nodup_nil, by simp, by simp, rfl⟩) ?_ n a ha hn h
  rintro k k₁ k' a e s - hw - hne hk ⟨as, hnodup, hmem, hnz, hloop⟩ hs
  have hself : k.frameAt d a = e.addr := by rw [frameAt, hw]; rfl
  have hrest : ∀ b ∈ as, ((k₁.releaseSlot cur d a).setPte d a {}).frameAt d b = k.frameAt d b :=
    fun b hb => by
      rw [frameAt, walkpgdir_setPte, if_neg fun hc => hs b ((hmem b).mp hb) hc.2, releaseSlot_walkpgdir,
        walkpgdir_of_kfree hk, frameAt]
  refine ⟨a :: as, nodup_cons.mpr ⟨fun hc => hs a ((hmem a).mp hc) rfl, hnodup⟩, fun b => ?_,
    fun b hb => ?_, ?_⟩
  · rw [mem_cons, hmem, Set.mem_insert_iff]
  · rcases mem_cons.mp hb with rfl | hb
    · rwa [hself]
    · rw [← hrest b hb]
      exact hnz b hb
  · obtain ⟨m, hm, rfl⟩ := kfree_eq_ok.mp hk
    rw [map_cons, loop_cons, hself, hm, ok_bind, ← map_congr_left hrest]
    exact (congrArg _ (releaseSlot_kmem _ cur d a).1).symm.trans hloop

/-- **The range `[lo, hi)` has been swept**: no page of it is present any more, each frame of it has been
freed once, and the entries outside are as before. -/
structure Swept (k k' : Kernel) (d lo hi : ℕ) : Prop where
  gone : ∀ a ∈ pageRange lo hi, ¬ k'.Present d a
  once : k.Frees k' d {a | a ∈ pageRange lo hi ∧ k.Present d a}
  rest : ∀ d' va, (d' = d → ∀ a ∈ pageRange lo hi, vpn va ≠ vpn a) → k'.walkpgdir d' va = k.walkpgdir d' va

/-- **The range can be swept**: its present pages name frames of the allocator, and the loop comes to all of
them. -/
structure Sweepable (k : Kernel) (d lo hi : ℕ) : Prop where
  frames : ∀ a ∈ pageRange lo hi, k.Present d a → k.frameAt d a ≠ 0 ∧ k.kmem.Managed (k.frameAt d a)
  reached : ∀ a ∈ pageRange lo hi, k.Present d a → ¬ k.Skips d lo a

/-- Frames that have been freed are frames of the allocator. -/
theorem managed_of_loop : ∀ {fs : List ℕ} {m m' : KMem}, loop (fun f m => KMem.kfree m f) fs m = .ok m' →
    ∀ f ∈ fs, m.Managed f
  | [], _, _, _ => by simp
  | f :: fs, m, m', h => by
    rw [loop_cons] at h
    obtain ⟨m1, hm1, h⟩ := bind_eq_ok.mp h
    obtain ⟨hf, rfl⟩ := KMem.kfree_eq_ok.mp hm1
    have hrest := managed_of_loop h
    exact forall_mem_cons.mpr ⟨hf, hrest⟩

theorem Sweepable.deallocFrom_returns (cur : ℕ) {lo n : ℕ} (h : k.Sweepable d lo oldsz) (hlo : lo % pgSize = 0) :
    Returns (deallocFrom cur d oldsz n lo k) fun _ => True := by
  refine (Kernel.deallocFrom_returns (P := fun k' => k'.kmem.kend = k.kmem.kend ∧
    ∀ va e, k'.walkpgdir d va = some e → e.p = true → k.walkpgdir d va = some e) ?_ n lo k hlo le_rfl
    ⟨rfl, fun _ _ he _ => he⟩).mono fun _ _ _ => trivial
  rintro k₁ a e ha hw hep ⟨hkend, hback⟩
  obtain ⟨hne, hm⟩ := h.frames a ha ⟨e, hback a e hw hep, hep⟩
  rw [frameAt, hback a e hw hep, Option.getD_some] at hne hm
  refine ⟨hne, ?_⟩
  have hm1 : k₁.kmem.Managed e.addr := by rwa [KMem.Managed, hkend]
  obtain ⟨k2, hk2⟩ : ∃ k2, k₁.kfree e.addr = .ok k2 :=
    ⟨_, kfree_eq_ok.mpr ⟨_, KMem.kfree_eq_ok.mpr ⟨hm1, rfl⟩, rfl⟩⟩
  refine ⟨k2, hk2, ?_, fun va e' he' hep' => hback va e' ?_ hep'⟩
  · obtain ⟨m, hm, rfl⟩ := kfree_eq_ok.mp hk2
    obtain ⟨-, rfl⟩ := KMem.kfree_eq_ok.mp hm
    exact (congrArg KMem.kend (releaseSlot_kmem _ cur d a).1).trans hkend
  · rcases walk_of_setPte he' with ⟨-, rfl⟩ | ⟨-, he'⟩
    · cases hep'
    · rwa [releaseSlot_walkpgdir, walkpgdir_of_kfree hk2] at he'

/-- **`deallocuvm` sweeps its range exactly if every present page of it is come to**, and names a frame of the
allocator.  Where the table of the first page is missing, the loop goes on at the same place of the next
table that is there, and passes over the pages before it. -/
theorem deallocuvm_sweeps_iff (hlt : newsz < oldsz) (hold : oldsz ≤ kernBase) :
    Returns (k.deallocuvm cur d oldsz newsz) (fun r => r.1 = newsz ∧ k.Swept r.2 d (pgRoundUp newsz) oldsz) ↔
      k.Sweepable d (pgRoundUp newsz) oldsz := by
  have hbase : oldsz ≤ 2 ^ 32 - 2 ^ 22 := hold.trans (by decide)
  have hfuel : oldsz ≤ pgRoundUp newsz + (oldsz / pgSize + 1) * pgSize := by
    simp only [pgSize]
    omega
  rw [Kernel.deallocuvm, if_neg (by omega)]
  constructor
  · rintro ⟨⟨r, k'⟩, hk, -, hs⟩
    obtain ⟨k₁, hk₁, hk⟩ := bind_eq_ok.mp hk
    cases hk
    obtain ⟨as, -, hmem, hnz, hloop⟩ := hs.once
    refine ⟨fun a ha hp => ?_, fun a ha hp hskip => hs.gone a ha ?_⟩
    · have has : a ∈ as := (hmem a).mpr ⟨ha, hp⟩
      exact ⟨hnz a has, managed_of_loop hloop _ (List.mem_map_of_mem has)⟩
    · have hsh := deallocFrom_shrunk hbase (pgRoundUp_mod newsz) hfuel hk₁
      exact (hsh.present_iff (hbase.trans (by decide)) ha).mpr ⟨hp, hskip⟩
  · intro h
    have hset : k.Freed d (pgRoundUp newsz) oldsz
        = {a | a ∈ pageRange (pgRoundUp newsz) oldsz ∧ k.Present d a} := by
      ext a
      exact ⟨fun ha => ⟨ha.1, ha.2.1⟩, fun ha => ⟨ha.1, ha.2, h.reached a ha.1 ha.2⟩⟩
    obtain ⟨k₁, hk₁, -⟩ := h.deallocFrom_returns cur (n := oldsz / pgSize + 1) (pgRoundUp_mod newsz)
    have hsh := deallocFrom_shrunk hbase (pgRoundUp_mod newsz) hfuel hk₁
    have hfr := deallocFrom_frees hbase (pgRoundUp_mod newsz) hfuel hk₁
    rw [hset] at hfr
    rw [hk₁, ok_bind]
    refine returns_ok.mpr ⟨rfl, fun a ha hp => ?_, hfr, hsh.untouched.entries⟩
    obtain ⟨hp, hskip⟩ := (hsh.present_iff (hbase.trans (by decide)) ha).mp hp
    exact h.reached a ha hp hskip

/-- A directory with a page table for the second 4MB only, whose first two pages are present. -/
def sparse : Kernel where
  kmem := ⟨0x115000, [], fun f => if f = 1002 ∨ f = 1003 then 1 else 0, 0⟩
  mem := fun _ _ => 0
  dirs := Function.update (fun _ => none) 1000 (some ⟨Function.update (fun _ => none) 1
    (some ⟨1001, fun i => if i < 2 then { addr := 1002 + i, p := true, w := true, u := true } else {}⟩)⟩)
  procs := fun _ => none
  buffer := fun _ => 0
  forkBuffer := fun _ => 0
  nextpid := 1
  kdata := 0x109000

/-- **A page is passed over**: from page 1 on the loop goes on at the second page of the next table. -/
theorem deallocuvm_passes_over : Returns (sparse.deallocuvm 3 1000 0x402000 pgSize) fun r =>
    (r.2.walkpgdir 1000 0x400000).map Pte.p = some true ∧
      (r.2.walkpgdir 1000 0x401000).map Pte.p = some false := by
  decide +kernel

/-- From page 0 on both pages go. -/
theorem deallocuvm_sweeps_sparse : Returns (sparse.deallocuvm 3 1000 0x402000 0)
    fun r => r.1 = 0 ∧ sparse.Swept r.2 1000 (pgRoundUp 0) 0x402000 := by
  refine (deallocuvm_sweeps_iff (by decide) (by decide)).mpr ⟨?_, fun a _ _ hs => Nat.not_lt_zero _ hs.2.1⟩
  rintro a - ⟨e, he, hep⟩
  have haddr : e.addr = 1002 ∨ e.addr = 1003 := by
    simp only [walkpgdir, sparse, Function.update_self, Option.bind_some, PageDir.walk] at he
    by_cases hx : pdx a = 1
    · rw [hx, Function.update_self, Option.map_some, Option.some.injEq] at he
      subst he
      dsimp only at hep ⊢
      by_cases hi : ptx a < 2
      · have : (ptx a : ℕ) < 2 := hi
        rw [if_pos hi]
        dsimp only
        omega
      · rw [if_neg hi] at hep
        cases hep
    · rw [Function.update_of_ne hx] at he
      cases he
  rw [frameAt, he, Option.getD_some]
  rcases haddr with h | h <;> rw [h] <;> exact ⟨by decide, by decide⟩

end Kernel

end Xv6
