import Xv6.Vm.Victim

/-!
# Vm/Ages — ages as access histories, and the victim of `LAPA`

`NFUA_update_age` shifts the age of every used slot to the right and moves `PTE_A` of its page into the
highest bit.  So the age of a slot is the history of its access bits over the last 32 calls, the latest in the
highest bit (`ageAfter`, `History`).  A call reads the bit of a slot when it comes to it, which is the bit from
before the call unless an earlier slot names the same page.

`LAPA_next` takes the slot with the fewest ones in its age, and among those the one of least age: the first
least slot in the lexicographic order.  Its search starts above every number of ones, so it always names a
slot if one is in use.
-/

namespace Xv6

open Outcome Select List

/-! ## The age as a list of bits -/

/-- The age after an update that finds the access bit `b`. -/
def ageNext (b : Bool) (a : ℕ) : ℕ := if b then a / 2 ||| nfuaMsb else a / 2

/-- **The age of a slot loaded with age `a`**, after updates that found the bits of `h`, the latest first. -/
def ageAfter (a : ℕ) (h : List Bool) : ℕ := h.foldr ageNext a

theorem testBit_ageNext (b : Bool) (a j : ℕ) :
    (ageNext b a).testBit j = (a.testBit (j + 1) || (decide (j = 31) && b)) := by
  have hmsb : nfuaMsb.testBit j = decide (j = 31) := by
    rw [show nfuaMsb = 2 ^ 31 from rfl, Nat.testBit_two_pow]
    simp [eq_comm]
  cases b with
  | false => simp [ageNext, Nat.testBit_div_two]
  | true => simp [ageNext, Nat.testBit_or, Nat.testBit_div_two, hmsb]

theorem ageNext_lt {b : Bool} {a : ℕ} (ha : a < 2 ^ 32) : ageNext b a < 2 ^ 32 := by
  cases b with
  | false => exact lt_of_le_of_lt (Nat.div_le_self a 2) ha
  | true => exact Nat.or_lt_two_pow (by omega) (by decide)

theorem ageAfter_lt {a : ℕ} (ha : a < 2 ^ 32) : ∀ h : List Bool, ageAfter a h < 2 ^ 32
  | [] => ha
  | _ :: h => ageNext_lt (ageAfter_lt ha h)

/-- **The bits of an age**: the history from the highest bit down, and then the bits it was loaded with. -/
theorem testBit_ageAfter {a : ℕ} (ha : a < 2 ^ 32) : ∀ (h : List Bool) (j : ℕ), j < 32 →
    (ageAfter a h).testBit (31 - j) = if hj : j < h.length then h[j] else a.testBit (31 - j + h.length)
  | [], j, _ => by simp [ageAfter]
  | b :: h, 0, _ => by
    change (ageNext b (ageAfter a h)).testBit 31 = _
    rw [testBit_ageNext, Nat.testBit_lt_two_pow (ageAfter_lt ha h)]
    simp
  | b :: h, j + 1, hj => by
    change (ageNext b (ageAfter a h)).testBit (31 - (j + 1)) = _
    rw [testBit_ageNext, decide_eq_false (by omega), Bool.false_and, Bool.or_false,
      show 31 - (j + 1) + 1 = 31 - j by omega, testBit_ageAfter ha h j (by omega)]
    by_cases hlt : j < h.length
    · simp [hlt]
    · simp only [hlt, length_cons, Nat.add_lt_add_iff_right, dif_neg, not_false_eq_true]
      congr 1
      omega

/-- The bits below the history. -/
theorem ageAfter_mod {a : ℕ} (ha : a < 2 ^ 32) (h : List Bool) :
    ageAfter a h % 2 ^ (32 - h.length) = a / 2 ^ h.length := by
  refine Nat.eq_of_testBit_eq fun m => ?_
  rw [Nat.testBit_mod_two_pow, Nat.testBit_div_two_pow]
  by_cases hm : m < 32 - h.length
  · have := testBit_ageAfter ha h (31 - m) (by omega)
    rw [dif_neg (by omega), show 31 - (31 - m) = m by omega] at this
    rw [this, decide_eq_true hm, Bool.true_and]
  · rw [decide_eq_false hm, Bool.false_and, eq_comm]
    exact Nat.testBit_lt_two_pow (lt_of_lt_of_le ha (Nat.pow_le_pow_right (by decide) (by omega)))

/-! ## A call of `NFUA_update_age` -/

section Update

variable {k k' k₀ k₁ : Kernel} {pid d va : ℕ} {p p' : Proc} {i j : Fin maxPsycPages} {h : List Bool}
  {is : List (Fin maxPsycPages)}

/-- Page `va` of the process is named by a used slot among `is`. -/
def Proc.Visits (p : Proc) (is : List (Fin maxPsycPages)) (d va : ℕ) : Prop :=
  d = p.pgdir ∧ ∃ i ∈ is, p.inUse i = true ∧ vpn va = vpn (p.memoryPages i).va

/-- **What the loop does to the slots `is`**: the used ones get older, and the access bits of their pages are
cleared; nothing else changes in the tables or in `memory_pages`. -/
structure Swept (is : List (Fin maxPsycPages)) (k : Kernel) (p : Proc) (k' : Kernel) (p' : Proc) : Prop where
  pgdir : p'.pgdir = p.pgdir
  old : ∀ j, j ∉ is ∨ p.inUse j = false → p'.memoryPages j = p.memoryPages j
  aged : ∀ j, ∃ a, p'.memoryPages j = { p.memoryPages j with age := a }
  cleared : ∀ d va, p.Visits is d va → k'.walkpgdir d va = (k.walkpgdir d va).map Pte.unmark
  rest : ∀ d va, ¬ p.Visits is d va → k'.walkpgdir d va = k.walkpgdir d va

theorem Swept.inUse (hs : Swept is k p k' p') (j : Fin maxPsycPages) : p'.inUse j = p.inUse j := by
  obtain ⟨a, ha⟩ := hs.aged j
  rw [Proc.inUse, ha, Proc.inUse]

theorem Swept.slot_va (hs : Swept is k p k' p') (j : Fin maxPsycPages) :
    (p'.memoryPages j).va = (p.memoryPages j).va := by
  obtain ⟨a, ha⟩ := hs.aged j
  rw [ha]

theorem Swept.visits (hs : Swept is k p k' p') (js : List (Fin maxPsycPages)) :
    p'.Visits js d va ↔ p.Visits js d va := by
  simp only [Proc.Visits, hs.pgdir, hs.inUse, hs.slot_va]

theorem Pte.unmark_of_not {e : Pte} (he : e.a = false) : e.unmark = e := by
  cases e
  cases he
  rfl

/-- **One iteration.** -/
theorem nfuaAge_eq_ok (hp : k.procs pid = some p) (hk : Policy.nfuaAge pid i k = .ok k') :
    ∃ p', k'.procs pid = some p' ∧ Swept [i] k p k' p' ∧
      (p.inUse i = true → p'.age i = ageNext (p.accessed k i) (p.age i)) := by
  replace hk := Kernel.of_proc_bind hp hk
  simp only at hk
  split at hk
  swap
  · rename_i hu
    have hu : p.inUse i = false := by
      rw [Proc.inUse]
      simpa using hu
    cases hk
    refine ⟨p, hp, ⟨rfl, fun _ _ => rfl, fun j => ⟨_, rfl⟩, fun d va hv => ?_, fun _ _ _ => rfl⟩,
      fun hc => by rw [hu] at hc; cases hc⟩
    obtain ⟨-, j, hj, huj, -⟩ := hv
    rw [mem_singleton.mp hj, hu] at huj
    cases huj
  rename_i hu
  split at hk
  · cases hk
  rename_i e he
  have hvisit : ∀ d va, p.Visits [i] d va ↔ d = p.pgdir ∧ vpn va = vpn (p.memoryPages i).va := by
    intro d va
    simp [Proc.Visits, show p.inUse i = true from hu]
  have hslots : ∀ a, Swept [i] k p (k.setPte p.pgdir (p.memoryPages i).va e.unmark)
      (p.setMemSlot i { p.memoryPages i with age := a }) := by
    intro a
    refine ⟨rfl, fun j hj => ?_, fun j => ?_, fun d va hv => ?_, fun d va hv => ?_⟩
    · have hne : j ≠ i := by
        rintro rfl
        rcases hj with hj | hj
        · exact hj (mem_singleton_self j)
        · rw [Proc.inUse, hu] at hj
          cases hj
      simp [Proc.setMemSlot, hne]
    · by_cases hj : j = i
      · exact ⟨a, by simp [Proc.setMemSlot, hj]⟩
      · exact ⟨(p.memoryPages j).age, by simp [Proc.setMemSlot, hj]⟩
    · obtain ⟨rfl, hpage⟩ := (hvisit d va).mp hv
      rw [Kernel.walkpgdir_setPte, if_pos ⟨rfl, hpage⟩, k.walkpgdir_congr _ hpage, he]
      rfl
    · rw [Kernel.walkpgdir_setPte, if_neg fun hc => hv ((hvisit d va).mpr hc)]
  have hacc : p.accessed k i = e.a := by rw [Proc.accessed, he]; rfl
  rw [hacc]
  split at hk
  · rename_i hea
    cases hk
    have hs := hslots ((p.memoryPages i).age / 2 ||| nfuaMsb)
    refine ⟨_, Kernel.setProc_procs_self .., ⟨hs.pgdir, hs.old, hs.aged, hs.cleared, hs.rest⟩, fun _ => ?_⟩
    rw [hea]
    simp [Proc.age, Proc.setMemSlot, ageNext]
  · rename_i hea
    cases hk
    have hs := hslots ((p.memoryPages i).age / 2)
    have hwalk : ∀ d va, (k.setPte p.pgdir (p.memoryPages i).va e.unmark).walkpgdir d va
        = k.walkpgdir d va := by
      intro d va
      rw [Pte.unmark_of_not (by simpa using hea), Kernel.walkpgdir_setPte]
      split
      · rename_i hc
        obtain ⟨rfl, hv⟩ := hc
        rw [k.walkpgdir_congr _ hv, he]
        rfl
      · rfl
    refine ⟨_, Kernel.setProc_procs_self .., ⟨hs.pgdir, hs.old, hs.aged, fun d va hv => ?_, fun _ _ _ => rfl⟩,
      fun _ => ?_⟩
    · exact (hwalk d va).symm.trans (hs.cleared d va hv)
    · rw [Bool.not_eq_true] at hea
      rw [hea]
      simp [Proc.age, Proc.setMemSlot, ageNext]

/-- **The loop over some slots.** -/
theorem loop_nfuaAge : ∀ (is : List (Fin maxPsycPages)) {k k' : Kernel} {p : Proc}, k.procs pid = some p →
    loop (Policy.nfuaAge pid) is k = .ok k' → ∃ p', k'.procs pid = some p' ∧ Swept is k p k' p'
  | [], k, k', p, hp, hk => by
    cases hk
    refine ⟨p, hp, rfl, fun _ _ => rfl, fun j => ⟨_, rfl⟩, fun d va ⟨_, j, hj, _⟩ => ?_, fun _ _ _ => rfl⟩
    cases hj
  | i :: is, k, k', p, hp, hk => by
    obtain ⟨k₁, hk1, hk⟩ := bind_eq_ok.mp hk
    obtain ⟨p1, hp1, hs1, -⟩ := nfuaAge_eq_ok hp hk1
    obtain ⟨p', hp', hs'⟩ := loop_nfuaAge is hp1 hk
    have hvisit : ∀ d va, p.Visits (i :: is) d va ↔ p.Visits [i] d va ∨ p1.Visits is d va := by
      intro d va
      rw [hs1.visits]
      simp only [Proc.Visits, mem_cons, not_mem_nil, or_false, exists_eq_or_imp, exists_eq_left]
      tauto
    refine ⟨p', hp', hs'.pgdir.trans hs1.pgdir, fun j hj => ?_, fun j => ?_, fun d va hv => ?_,
      fun d va hv => ?_⟩
    · rw [hs'.old j, hs1.old j]
      · exact hj.imp_left fun hn hc => hn (mem_cons.mpr (.inl (mem_singleton.mp hc)))
      · rw [hs1.inUse]
        exact hj.imp_left fun hn hc => hn (mem_cons_of_mem i hc)
    · obtain ⟨a, ha⟩ := hs1.aged j
      obtain ⟨a', ha'⟩ := hs'.aged j
      exact ⟨a', by rw [ha', ha]⟩
    · by_cases hi : p.Visits [i] d va
      · have h1 := hs1.cleared d va hi
        by_cases his : p1.Visits is d va
        · rw [hs'.cleared d va his, h1, Option.map_map]
          rfl
        · rw [hs'.rest d va his, h1]
      · have his := ((hvisit d va).mp hv).resolve_left hi
        rw [hs'.cleared d va his, hs1.rest d va hi]
    · have hno := fun hc => hv ((hvisit d va).mpr hc)
      rw [hs'.rest d va fun hc => hno (.inr hc), hs1.rest d va fun hc => hno (.inl hc)]

/-- **The access bit that a call reads for slot `i`**, when it comes to the slot. -/
def bitRead (k : Kernel) (pid : ℕ) (i : Fin maxPsycPages) : Bool :=
  match loop (Policy.nfuaAge pid) ((List.finRange maxPsycPages).take i) k with
  | .ok k₁ => (k₁.procs pid).any fun p => p.accessed k₁ i
  | .error _ => false

theorem finRange_split (i : Fin maxPsycPages) : List.finRange maxPsycPages
    = (List.finRange maxPsycPages).take i ++ i :: (List.finRange maxPsycPages).drop (i + 1) := by
  have hlen : (i : ℕ) < (List.finRange maxPsycPages).length := by rw [length_finRange]; exact i.isLt
  conv_lhs => rw [← take_append_drop i (List.finRange maxPsycPages)]
  rw [drop_eq_getElem_cons hlen, getElem_finRange]
  rfl

theorem notMem_take (i : Fin maxPsycPages) : i ∉ (List.finRange maxPsycPages).take i ∧
    i ∉ (List.finRange maxPsycPages).drop (i + 1) := by
  have h := finRange_split i ▸ nodup_finRange maxPsycPages
  rw [nodup_append] at h
  refine ⟨fun hi => h.2.2 i hi i mem_cons_self rfl, (nodup_cons.mp h.2.1).1⟩

/-- **What a call does to one slot**: the age takes in the bit that the call reads. -/
theorem age_of_updateAge (hp : k.procs pid = some p) (hu : p.inUse i = true)
    (hk : Policy.nfuaUpdateAge k pid = .ok k') : ∃ p', k'.procs pid = some p' ∧
      p'.inUse i = true ∧ p'.age i = ageNext (bitRead k pid i) (p.age i) := by
  obtain ⟨hbefore, hafter⟩ := notMem_take i
  rw [Policy.nfuaUpdateAge, finRange_split i, loop_append] at hk
  obtain ⟨k₁, hk1, hk⟩ := bind_eq_ok.mp hk
  obtain ⟨k2, hk2, hk⟩ := bind_eq_ok.mp hk
  obtain ⟨p1, hp1, hs1⟩ := loop_nfuaAge _ hp hk1
  obtain ⟨p2, hp2, hs2, hage⟩ := nfuaAge_eq_ok hp1 hk2
  obtain ⟨p', hp', hs'⟩ := loop_nfuaAge _ hp2 hk
  have hbit : bitRead k pid i = p1.accessed k₁ i := by simp [bitRead, hk1, hp1]
  have hu1 : p1.inUse i = true := (hs1.inUse i).trans hu
  refine ⟨p', hp', by rw [hs'.inUse, hs2.inUse, hu1], ?_⟩
  rw [Proc.age, hs'.old i (.inl hafter), ← Proc.age, hage hu1, hbit, Proc.age, hs1.old i (.inl hbefore), Proc.age]

/-- **The bit is the one from before the call** unless an earlier slot names the page. -/
theorem bitRead_eq (hp : k.procs pid = some p) (hk : Policy.nfuaUpdateAge k pid = .ok k')
    (hfirst : ∀ j < i, p.inUse j = true → vpn (p.memoryPages j).va ≠ vpn (p.memoryPages i).va) :
    bitRead k pid i = p.accessed k i := by
  rw [Policy.nfuaUpdateAge, finRange_split i, loop_append] at hk
  obtain ⟨k₁, hk1, -⟩ := bind_eq_ok.mp hk
  obtain ⟨p1, hp1, hs1⟩ := loop_nfuaAge _ hp hk1
  have hbit : bitRead k pid i = p1.accessed k₁ i := by simp [bitRead, hk1, hp1]
  rw [hbit, Proc.accessed, Proc.accessed, hs1.slot_va, hs1.pgdir, hs1.rest]
  rintro ⟨-, j, hj, hu, hv⟩
  refine hfirst j ?_ hu hv.symm
  obtain ⟨n, hn, hj⟩ := getElem_of_mem hj
  rw [getElem_take, getElem_finRange] at hj
  rw [length_take] at hn
  subst hj
  exact Fin.lt_def.mpr (lt_of_lt_of_le hn (min_le_left _ _))

/-- Whatever happens between two calls, slot `i` keeps its age and stays in use. -/
def Undisturbed (pid : ℕ) (i : Fin maxPsycPages) (k k' : Kernel) : Prop :=
  ∀ p, k.procs pid = some p → ∃ p', k'.procs pid = some p' ∧ p'.inUse i = p.inUse i ∧ p'.age i = p.age i

/-- A load or a store that does not fault. -/
theorem undisturbed_markAccessed (pid : ℕ) (i : Fin maxPsycPages) (k : Kernel) (va : ℕ) :
    Undisturbed pid i k (k.markAccessed pid va) := by
  intro p hp
  refine ⟨p, ?_, rfl, rfl⟩
  rw [Kernel.markAccessed, hp]
  simp only
  split
  · exact hp
  · exact hp

/-- **A run from `k₀` in which slot `i` stays in use**, with the bits that the calls of `NFUA_update_age` have
read for it, the latest first. -/
inductive History (pid : ℕ) (i : Fin maxPsycPages) (k₀ : Kernel) : List Bool → Kernel → Prop
  | start : History pid i k₀ [] k₀
  | other {h : List Bool} {k k' : Kernel} : History pid i k₀ h k → Undisturbed pid i k k' →
      History pid i k₀ h k'
  | update {h : List Bool} {k k' : Kernel} : History pid i k₀ h k → Policy.nfuaUpdateAge k pid = .ok k' →
      History pid i k₀ (bitRead k pid i :: h) k'

/-- **The age of a slot is its history.** -/
theorem History.age (hr : History pid i k₀ h k) (hp : k₀.procs pid = some p) (hu : p.inUse i = true) :
    ∃ p', k.procs pid = some p' ∧ p'.inUse i = true ∧ p'.age i = ageAfter (p.age i) h := by
  induction hr with
  | start => exact ⟨p, hp, hu, rfl⟩
  | other _ hk ih =>
    obtain ⟨p1, hp1, hu1, ha1⟩ := ih
    obtain ⟨p', hp', hu', ha'⟩ := hk p1 hp1
    exact ⟨p', hp', hu'.trans hu1, ha'.trans ha1⟩
  | update _ hk ih =>
    obtain ⟨p1, hp1, hu1, ha1⟩ := ih
    obtain ⟨p', hp', hu', ha'⟩ := age_of_updateAge hp1 hu1 hk
    exact ⟨p', hp', hu', by rw [ha', ha1]; rfl⟩

end Update

/-! ## `LAPA` -/

/-- `BITS_IN_UINT`. -/
def bitsInUint : ℕ := 32

/-- The inner loop of `LAPA_next`. -/
def currOnes (age : ℕ) : ℕ :=
  (List.range bitsInUint).foldl (fun n j => if age &&& 1 <<< j ≠ 0 then n + 1 else n) 0

/-- **The number of ones of a 32-bit age.** -/
def ones (age : ℕ) : ℕ := ((Finset.range bitsInUint).filter fun j => age.testBit j = true).card

namespace Policy

/-- One iteration of `LAPA_next`, on `next_i`, `min_ones` and `min_age`. -/
def lapaStep (p : Proc) (r : Option (Fin maxPsycPages) × ℕ × ℕ) (i : Fin maxPsycPages) :
    Option (Fin maxPsycPages) × ℕ × ℕ :=
  if p.inUse i then
    if currOnes (p.age i) < r.2.1 then (some i, currOnes (p.age i), p.age i)
    else if currOnes (p.age i) = r.2.1 ∧ p.age i < r.2.2 then (some i, currOnes (p.age i), p.age i)
    else r
  else r

/-- `LAPA_next`. -/
def lapaNext (k : Kernel) (pid : ℕ) : Except String (Option (Fin maxPsycPages) × Kernel) := do
  let p ← k.proc pid
  return (((List.finRange maxPsycPages).foldl (lapaStep p) (none, bitsInUint + 10, maxUint)).1, k)

end Policy

section Lapa

variable {k : Kernel} {pid : ℕ} {p : Proc} {i : Fin maxPsycPages}

theorem and_shiftLeft_ne_zero (a j : ℕ) : a &&& 1 <<< j ≠ 0 ↔ a.testBit j = true := by
  rw [Nat.shiftLeft_eq, one_mul, Nat.and_two_pow]
  cases a.testBit j <;> simp

theorem foldl_count {q : ℕ → Prop} [DecidablePred q] : ∀ n, (List.range n).foldl
    (fun m j => if q j then m + 1 else m) 0 = ((Finset.range n).filter q).card
  | 0 => rfl
  | n + 1 => by
    rw [range_succ, foldl_append, foldl_count n, Finset.range_add_one, Finset.filter_insert]
    by_cases hq : q n
    · simp [hq]
    · simp [hq]

theorem currOnes_eq (a : ℕ) : currOnes a = ones a := by
  simp only [currOnes, and_shiftLeft_ne_zero, foldl_count, ones]

theorem ones_le (a : ℕ) : ones a ≤ bitsInUint :=
  (Finset.card_filter_le _ _).trans_eq (Finset.card_range _)

/-- **The order of `LAPA`**: first by the number of ones, then by age. -/
def Proc.lapaKey (p : Proc) (i : Fin maxPsycPages) : ℕ ×ₗ ℕ := toLex (ones (p.age i), p.age i)

theorem lapaStep_eq (r : Option (Fin maxPsycPages) × ℕ × ℕ) (i : Fin maxPsycPages) :
    ((Policy.lapaStep p r i).1, toLex (Policy.lapaStep p r i).2)
      = better p.inUse p.lapaKey (r.1, toLex r.2) i := by
  have hlt : p.lapaKey i < toLex r.2 ↔
      ones (p.age i) < r.2.1 ∨ ones (p.age i) = r.2.1 ∧ p.age i < r.2.2 := Prod.Lex.toLex_lt_toLex
  rw [Policy.lapaStep, better, currOnes_eq]
  by_cases hu : p.inUse i = true
  swap
  · simp [hu]
  by_cases h1 : ones (p.age i) < r.2.1
  · rw [if_pos hu, if_pos h1, if_pos (by simp [hu, hlt.mpr (.inl h1)])]
    rfl
  · by_cases h2 : ones (p.age i) = r.2.1 ∧ p.age i < r.2.2
    · rw [if_pos hu, if_neg h1, if_pos h2, if_pos (by simp [hu, hlt.mpr (.inr h2)])]
      rfl
    · rw [if_pos hu, if_neg h1, if_neg h2, if_neg (by simp [hu, mt hlt.mp (not_or.mpr ⟨h1, h2⟩)])]

/-- `LAPA_next` is the loop for the least slot. -/
theorem foldl_lapaStep : ∀ (is : List (Fin maxPsycPages)) (r : Option (Fin maxPsycPages) × ℕ × ℕ),
    ((is.foldl (Policy.lapaStep p) r).1, toLex (is.foldl (Policy.lapaStep p) r).2)
      = is.foldl (better p.inUse p.lapaKey) (r.1, toLex r.2)
  | [], _ => rfl
  | i :: is, r => by rw [foldl_cons, foldl_cons, foldl_lapaStep is, lapaStep_eq]

theorem lapaNext_eq (hp : k.procs pid = some p) : Policy.lapaNext k pid
    = .ok (least p.inUse p.lapaKey (toLex (bitsInUint + 10, maxUint)) (List.finRange maxPsycPages), k) := by
  have := congrArg Prod.fst (foldl_lapaStep (p := p) (List.finRange maxPsycPages) (none, bitsInUint + 10, maxUint))
  rw [Policy.lapaNext, Kernel.proc_eq_ok.mpr hp, ok_bind, least, ← this]
  rfl

/-- **`LAPA_next` names the first used slot of least key.** -/
theorem lapaNext_ok (hp : k.procs pid = some p) (hu : ∃ i, p.inUse i = true) :
    ∃ i, Policy.lapaNext k pid = .ok (some i, k) ∧ p.inUse i = true ∧
      (∀ j, p.inUse j = true → p.lapaKey i ≤ p.lapaKey j) ∧
      ∀ j < i, p.inUse j = true → p.lapaKey i < p.lapaKey j := by
  obtain ⟨i, hi⟩ := hu
  have hlt : p.lapaKey i < toLex (bitsInUint + 10, maxUint) := by
    refine Prod.Lex.toLex_lt_toLex.mpr (.inl ?_)
    have := ones_le (p.age i)
    simp only
    omega
  obtain ⟨l, hl⟩ := exists_least (mem_finRange i) hi hlt
  have hfirst := (least_eq_some hl).1
  exact ⟨l, by rw [lapaNext_eq hp, hl], hfirst.inUse, fun j hj => hfirst.le (mem_finRange j) hj,
    fun j hj hu => hfirst.lt_of_lt hj hu⟩

end Lapa

/-! ## Ages record access history -/

/-- **The age of a slot is the history of its access bits**, `NFUA_update_age` clears the access bits of the
used slots and touches nothing else, and `LAPA_next` names the first used slot with the fewest ones, the
least age among those. -/
theorem ages_record_access (pid : ℕ) :
    (∀ (i : Fin maxPsycPages) k₀ k h p, History pid i k₀ h k → k₀.procs pid = some p →
      p.inUse i = true → p.age i < 2 ^ 32 → ∃ p', k.procs pid = some p' ∧
        (∀ j, j < 32 → ∀ hj : j < h.length, (p'.age i).testBit (31 - j) = h[j]) ∧
        p'.age i % 2 ^ (32 - h.length) = p.age i / 2 ^ h.length) ∧
    (∀ k k' p, k.procs pid = some p → Policy.nfuaUpdateAge k pid = .ok k' →
      (∀ i, (∀ j < i, p.inUse j = true → vpn (p.memoryPages j).va ≠ vpn (p.memoryPages i).va) →
        bitRead k pid i = p.accessed k i) ∧
      ∃ p', k'.procs pid = some p' ∧ (∀ i, p.inUse i = false → p'.memoryPages i = p.memoryPages i) ∧
        ∀ d va, k'.walkpgdir d va = if d = p.pgdir ∧ ∃ i, p.inUse i = true ∧
          vpn va = vpn (p.memoryPages i).va then (k.walkpgdir d va).map Pte.unmark else k.walkpgdir d va) ∧
    ∀ k p, k.procs pid = some p → (∃ i, p.inUse i = true) →
      ∃ i, Policy.lapaNext k pid = .ok (some i, k) ∧ p.inUse i = true ∧
        (∀ j, p.inUse j = true → p.lapaKey i ≤ p.lapaKey j) ∧
        ∀ j < i, p.inUse j = true → p.lapaKey i < p.lapaKey j := by
  refine ⟨fun i k₀ k h p hr hp hu ha => ?_, fun k k' p hp hk => ⟨fun i hfirst => bitRead_eq hp hk hfirst, ?_⟩,
    fun k p hp hu => lapaNext_ok hp hu⟩
  · obtain ⟨p', hp', -, hage⟩ := hr.age hp hu
    refine ⟨p', hp', fun j hj hlt => ?_, hage ▸ ageAfter_mod ha h⟩
    rw [hage, testBit_ageAfter ha h j hj, dif_pos hlt]
  · obtain ⟨p', hp', hs⟩ := loop_nfuaAge _ hp hk
    refine ⟨p', hp', fun i hi => hs.old i (.inr hi), fun d va => ?_⟩
    split
    · rename_i hv
      obtain ⟨rfl, i, hi, hva⟩ := hv
      exact hs.cleared _ va ⟨rfl, i, List.mem_finRange i, hi, hva⟩
    · rename_i hv
      exact hs.rest d va fun ⟨hd, i, _, hi, hva⟩ => hv ⟨hd, i, hi, hva⟩

/-- The only page of a process is accessed before the first of two calls: its age is then 0x40000000. -/
theorem ages_record_access_twice :
    Returns (Kernel.trackPage .nfua (Kernel.access .nfua 2) onePage 3 1000 0) fun k₀ =>
      Returns (Policy.nfuaUpdateAge (k₀.markAccessed 3 0) 3) fun k₁ =>
      Returns (Policy.nfuaUpdateAge k₁ 3) fun k₂ =>
        ∃ p, k₂.procs 3 = some p ∧ (p.age 0).testBit 31 = false ∧ (p.age 0).testBit 30 = true ∧
          p.age 0 % 2 ^ 30 = 0 := by
  have hrun : Returns (Kernel.trackPage .nfua (Kernel.access .nfua 2) onePage 3 1000 0) fun k₀ =>
      ((k₀.procs 3).any fun p => p.inUse 0 && p.age 0 == 0) = true ∧
      Returns (Policy.nfuaUpdateAge (k₀.markAccessed 3 0) 3) fun k₁ =>
        (bitRead (k₀.markAccessed 3 0) 3 0, bitRead k₁ 3 0) = (true, false) ∧
        Returns (Policy.nfuaUpdateAge k₁ 3) fun _ => True := by
    decide +kernel
  refine hrun.mono fun k₀ _ ⟨hk₀, h₁⟩ => h₁.mono fun k₁ hk₁ ⟨hbits, h₂⟩ => h₂.mono fun k₂ hk₂ _ => ?_
  obtain ⟨p, hp, hslot⟩ := (Option.any_eq_true _ _).mp hk₀
  simp only [Bool.and_eq_true, beq_iff_eq] at hslot
  obtain ⟨hb₀, hb₁⟩ := Prod.mk.inj hbits
  have hmark := undisturbed_markAccessed 3 0 k₀ 0
  have hr : History 3 0 k₀ [false, true] k₂ := by
    have := ((History.start.other hmark).update hk₁).update hk₂
    rwa [hb₀, hb₁] at this
  obtain ⟨p', hp', hbit, hlow⟩ := (ages_record_access 3).1 0 k₀ k₂ _ p hr hp hslot.1 (by rw [hslot.2]; decide)
  exact ⟨p', hp', hbit 0 (by decide) (by decide), hbit 1 (by decide) (by decide), hlow.trans (by rw [hslot.2]; rfl)⟩

end Xv6
