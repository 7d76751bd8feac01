import Xv6.Proc.Swapping

/-!
# Proc/Queue — the advancing queue

Under `AQ` the array `memory_pages` is a queue: `AQ_next` takes its victim from the last index and puts it in
front, and so does `allocuvm` with the slot of a new page.  Two things go wrong.

* `AQ_update_queue` exchanges neighbours of which the one in front is accessed and the one behind is not.
  The accessed page moves towards the end that is evicted.
* `allocuvm` rotates the queue whenever some slot is free, and writes the new page over whatever the last slot
  held.  A free slot elsewhere does not help the page there: it stays resident, and no slot names it.
-/

namespace Xv6

open Outcome Option List

/-! ## What `AQ_update_queue` does to neighbours -/

namespace Proc

variable {k : Kernel} {p : Proc} {i : Fin maxPsycPages}

/-- The used slots name pages that have an entry. -/
def HasEntries (p : Proc) (k : Kernel) : Prop :=
  ∀ i, (p.memoryPages i).isUsed = true → (k.walkpgdir p.pgdir (p.memoryPages i).va).isSome

/-- Both slots are in use, and of their pages only the one in front has been accessed. -/
def Overtakes (p : Proc) (k : Kernel) (i : Fin maxPsycPages) : Prop :=
  ((p.memoryPages i).isUsed = true ∧ (p.memoryPages (i - 1)).isUsed = true) ∧
    p.accessed k i = false ∧ p.accessed k (i - 1) = true

instance : Decidable (p.Overtakes k i) := inferInstanceAs (Decidable (_ ∧ _))

/-- The slots `i` and `i - 1` exchanged. -/
def exchange (p : Proc) (i : Fin maxPsycPages) : Proc :=
  (p.setMemSlot (i - 1) (p.memoryPages i)).setMemSlot i (p.memoryPages (i - 1))

/-- **No accessed page stands right in front of an unaccessed one.** -/
def Orderly (p : Proc) (k : Kernel) : Prop := ∀ i, i ≠ 0 → ¬ p.Overtakes k i

theorem exchange_front : (p.exchange i).memoryPages (i - 1) = p.memoryPages i := by
  have hne : i - 1 ≠ i := fun h => by simp at h
  simp [exchange, setMemSlot, hne]

theorem exchange_back : (p.exchange i).memoryPages i = p.memoryPages (i - 1) := by
  simp [exchange, setMemSlot]

end Proc

namespace Kernel

variable {k k' : Kernel} {pid : ℕ} {p : Proc} {i : Fin maxPsycPages}

/-- **If the step at `i` exchanges two pages that differ in `PTE_A`, the accessed one ends up in front.** -/
def Favours (pid : ℕ) (i : Fin maxPsycPages) (k k' : Kernel) : Prop :=
  ∀ p p', k.procs pid = some p → k'.procs pid = some p' →
    p'.memoryPages (i - 1) = p.memoryPages i → p'.memoryPages i = p.memoryPages (i - 1) →
    p.accessed k i ≠ p.accessed k (i - 1) → p'.accessed k' (i - 1) = true

theorem aqStep_eq (hp : k.procs pid = some p) (hm : p.HasEntries k) (i : Fin maxPsycPages) :
    Policy.aqStep pid i k = .ok (if p.Overtakes k i then k.setProc pid (p.exchange i) else k) := by
  rw [Policy.aqStep, proc_eq_ok.mpr hp, ok_bind]
  by_cases hu : (p.memoryPages i).isUsed = true ∧ (p.memoryPages (i - 1)).isUsed = true
  swap
  · rw [if_neg (by simpa using hu), if_neg fun h => hu h.1]
    rfl
  obtain ⟨e, he⟩ := isSome_iff_exists.mp (hm i hu.1)
  obtain ⟨e', he'⟩ := isSome_iff_exists.mp (hm (i - 1) hu.2)
  have hover : p.Overtakes k i ↔ (!e.a && e'.a) = true := by
    simp [Proc.Overtakes, hu, Proc.accessed, he, he']
  rw [if_pos (by simpa using hu)]
  simp only [he, he', hover, pure_eq_ok]
  split <;> rfl

theorem favours_iff (hp : k.procs pid = some p) :
    Favours pid i k (if p.Overtakes k i then k.setProc pid (p.exchange i) else k) ↔
      ¬ p.Overtakes k i := by
  by_cases ho : p.Overtakes k i
  · rw [if_pos ho]
    refine iff_of_false (fun h => ?_) (not_not_intro ho)
    have hacc := h p (p.exchange i) hp (setProc_procs_self ..) Proc.exchange_front
      Proc.exchange_back (by rw [ho.2.1, ho.2.2]; decide)
    have : (p.exchange i).accessed (k.setProc pid (p.exchange i)) (i - 1) = p.accessed k i := by
      rw [Proc.accessed, Proc.exchange_front]
      rfl
    rw [this, ho.2.1] at hacc
    cases hacc
  · rw [if_neg ho]
    refine iff_of_true (fun q q' hq hq' hfront _ hne => absurd ?_ hne) ho
    cases mem_unique hq hq'
    rw [Proc.accessed, Proc.accessed, hfront]

/-- A pass favours the accessed pages exactly when it exchanges nothing. -/
theorem steps_favours_iff (hp : k.procs pid = some p) (hm : p.HasEntries k) :
    ∀ is : List (Fin maxPsycPages),
      Steps (Policy.aqStep pid) (Favours pid) is k ↔ ∀ i ∈ is, ¬ p.Overtakes k i
  | [] => iff_of_true trivial (by simp)
  | i :: is => by
    rw [Steps, aqStep_eq hp hm, returns_ok, favours_iff hp, forall_mem_cons]
    refine and_congr_right fun ho => ?_
    rw [if_neg ho]
    exact steps_favours_iff hp hm is

theorem loop_aqStep (hp : k.procs pid = some p) (hm : p.HasEntries k) :
    ∀ is : List (Fin maxPsycPages), (∀ i ∈ is, ¬ p.Overtakes k i) →
      loop (Policy.aqStep pid) is k = .ok k
  | [], _ => rfl
  | i :: is, h => by
    rw [loop_cons, aqStep_eq hp hm, if_neg (h i mem_cons_self), ok_bind]
    exact loop_aqStep hp hm is fun j hj => h j (mem_cons_of_mem i hj)

/-- The indices `AQ_update_queue` goes through. -/
theorem forall_queue {P : Fin maxPsycPages → Prop} :
    (∀ i ∈ (List.finRange maxPsycPages).reverse.filter fun i => i ≠ 0, P i) ↔ ∀ i, i ≠ 0 → P i := by
  simp

/-- **A pass of `AQ_update_queue` favours the accessed pages exactly if none of them stands right in front of
an unaccessed one**, and then it leaves the queue as it is. -/
theorem aqUpdateQueue_favours_iff (hp : k.procs pid = some p) (hm : p.HasEntries k) :
    (Steps (Policy.aqStep pid) (Favours pid)
        ((List.finRange maxPsycPages).reverse.filter fun i => i ≠ 0) k ↔ p.Orderly k) ∧
      (p.Orderly k → Policy.aqUpdateQueue k pid = .ok k) :=
  ⟨(steps_favours_iff hp hm _).trans forall_queue,
    fun ho => loop_aqStep hp hm _ (forall_queue.mpr ho)⟩

/-- Of the three pages of a process the last in the queue has been accessed. -/
theorem aqUpdateQueue_favours_last :
    Steps (Policy.aqStep 3) (Favours 3) ((List.finRange maxPsycPages).reverse.filter fun i => i ≠ 0)
        (freshImage.markAccessed 3 (2 * pgSize)) ∧
      Policy.aqUpdateQueue (freshImage.markAccessed 3 (2 * pgSize)) 3
        = .ok (freshImage.markAccessed 3 (2 * pgSize)) := by
  obtain ⟨p, hp, hm, ho⟩ : ∃ p, (freshImage.markAccessed 3 (2 * pgSize)).procs 3 = some p ∧
      p.HasEntries (freshImage.markAccessed 3 (2 * pgSize)) ∧
      p.Orderly (freshImage.markAccessed 3 (2 * pgSize)) := by
    refine ⟨_, rfl, ?_, ?_⟩
    · unfold Proc.HasEntries
      decide +kernel
    · unfold Proc.Orderly
      decide +kernel
  have h := aqUpdateQueue_favours_iff hp hm
  exact ⟨h.1.mpr ho, h.2 ho⟩

/-- Pages 1 and 2 are the last of a full queue, and page 1 has been accessed.  The pass puts it behind
page 2, where it is the next victim. -/
theorem aqUpdateQueue_overtakes : Returns (do
      let (_, k) ← allocuvm .advancingQueue (access .advancingQueue 1) freshImage 3 1000 (3 * pgSize)
        (16 * pgSize)
      let k := k.markAccessed 3 pgSize
      let k' ← Policy.aqUpdateQueue k 3
      let (i, k'') ← Policy.aqVictim k' 3
      return (k, ← k.proc 3, ← k'.proc 3, i, ← k''.proc 3)) fun (k, p, p', i, p'') =>
        ((p.memoryPages 14).va, (p.memoryPages 15).va) = (pgSize, 2 * pgSize) ∧
        (p.accessed k 14, p.accessed k 15) = (true, false) ∧
        ((p'.memoryPages 14).va, (p'.memoryPages 15).va) = (2 * pgSize, pgSize) ∧
        (p''.memoryPages i).va = pgSize := by
  decide +kernel

end Kernel

/-! ## The pages the queue remembers -/

namespace Proc

/-- **The used entries of `memory_pages`**: directory and address. -/
def entries (p : Proc) : Multiset (ℕ × ℕ) :=
  p.usedMem.val.map fun i => ((p.memoryPages i).pgdir, (p.memoryPages i).va)

/-- A used slot names page `va`. -/
def Tracks (p : Proc) (va : ℕ) : Prop :=
  ∃ i, (p.memoryPages i).isUsed = true ∧ (p.memoryPages i).va = va

variable {p p' : Proc} {k : Kernel} {va : ℕ}

/-- In a settled process a page has one entry or none. -/
theorem count_entries (hs : p.Settled k) (ho : p.Own) (x : ℕ × ℕ) [Decidable (p.Tracks x.2)] :
    p.entries.count x = if x.1 = p.pgdir ∧ p.Tracks x.2 then 1 else 0 := by
  have hnodup : p.entries.Nodup := by
    refine Multiset.Nodup.map_on (fun i hi j hj heq => ?_) p.usedMem.nodup
    exact hs.inj i j (mem_usedMem.mp hi) (mem_usedMem.mp hj) (Prod.mk.inj heq).2
  rw [Multiset.count_eq_of_nodup hnodup]
  refine if_congr ?_ rfl rfl
  simp only [entries, Multiset.mem_map, Finset.mem_val, mem_usedMem]
  constructor
  · rintro ⟨i, hi, rfl⟩
    exact ⟨ho.memDir i hi, i, hi, rfl⟩
  · rintro ⟨hd, i, hi, hva⟩
    exact ⟨i, hi, by rw [ho.memDir i hi, hva, ← hd]⟩

theorem Agree.tracks (h : p.Agree p') : p'.Tracks va ↔ p.Tracks va := by
  obtain ⟨σ, hσ⟩ := h.memoryPages
  simp only [Slot.core, Prod.mk.injEq] at hσ
  constructor
  · rintro ⟨i, hi, hva⟩
    exact ⟨σ i, (hσ i).2.2 ▸ hi, (hσ i).2.1 ▸ hva⟩
  · rintro ⟨i, hi, hva⟩
    refine ⟨σ.symm i, ?_, ?_⟩
    · rw [(hσ _).2.2, Equiv.apply_symm_apply, hi]
    · rw [(hσ _).2.1, Equiv.apply_symm_apply, hva]

end Proc

namespace Kernel

variable {k k' k'' k1 : Kernel} {held : Multiset ℕ} {pid d a va f n lo hi oldsz newsz : ℕ} {p p' p'' : Proc}
  {s t : Set ℕ} {i j : Fin maxPsycPages} {pol : Policy} {acc : Access}

/-- **The entries of a page change only if the page comes or goes.** -/
def Remembers (pid : ℕ) (k k' : Kernel) : Prop :=
  ∀ p p', k.procs pid = some p → k'.procs pid = some p' → ∀ x : ℕ × ℕ,
    (k'.Present x.1 x.2 ↔ k.Present x.1 x.2) → p'.entries.count x = p.entries.count x

/-- **Apart from the pages of `s`, pages only go**, and those that stay keep their slots. -/
structure Turn (s : Set ℕ) (k : Kernel) (p : Proc) (k' : Kernel) (p' : Proc) : Prop where
  pgdir : p'.pgdir = p.pgdir
  settled : p'.Settled k'
  old : ∀ va, UserPage va → va ∉ s → k'.Present p.pgdir va →
    k.Present p.pgdir va ∧ (p'.Tracks va ↔ p.Tracks va)

theorem Turn.refl (h : p.Settled k) : Turn s k p k p := ⟨rfl, h, fun _ _ _ hp => ⟨hp, Iff.rfl⟩⟩

theorem Turn.trans (h : Turn s k p k' p') (h' : Turn s k' p' k'' p'') : Turn s k p k'' p'' where
  pgdir := h'.pgdir.trans h.pgdir
  settled := h'.settled
  old va hva hs hp := by
    obtain ⟨hp', ht'⟩ := h'.old va hva hs (h.pgdir ▸ hp)
    obtain ⟨hp, ht⟩ := h.old va hva hs (h.pgdir ▸ hp')
    exact ⟨hp, ht'.trans ht⟩

theorem Turn.mono (h : Turn s k p k' p') (hst : s ⊆ t) : Turn t k p k' p' :=
  ⟨h.pgdir, h.settled, fun va hva ht => h.old va hva fun hs => ht (hst hs)⟩

theorem Turn.agree (h : p.Settled k) (hk : k.Agree k') (hp : p.Agree p') : Turn s k p k' p' :=
  ⟨hp.pgdir, hp.settled (fun _ => hk.present) h, fun _ _ _ hpres =>
    ⟨hk.present_iff.mp hpres, hp.tracks⟩⟩

/-- A process that differs in other fields only. -/
theorem Turn.congr (h : Turn s k p k' p') (hd : p''.pgdir = p'.pgdir)
    (hm : p''.memoryPages = p'.memoryPages) (hw : ∀ d va, k''.walkpgdir d va = k'.walkpgdir d va) :
    Turn s k p k'' p'' where
  pgdir := hd.trans h.pgdir
  settled := by
    refine ⟨fun i hi => ?_, fun i j hi hj => ?_⟩
    · rw [hm] at hi ⊢
      rw [Present, hw, hd]
      exact h.settled.present i hi
    · rw [hm] at hi hj ⊢
      exact h.settled.inj i j hi hj
  old va hva hs hp := by
    rw [Proc.Tracks, hm]
    refine h.old va hva hs ?_
    rwa [Present, hw] at hp

/-- **What comes and goes is remembered.** -/
theorem Turn.remembers (h : Turn s k p k' p') (hp : k.procs pid = some p) (hp' : k'.procs pid = some p')
    (hs : p.Settled k) (ho : p.Own) (ho' : p'.Own) (hnew : ∀ va ∈ s, ¬ k.Present p.pgdir va) :
    Remembers pid k k' := by
  intro q q' hq hq' ⟨d, va⟩ hiff
  cases mem_unique hp hq
  cases mem_unique hp' hq'
  classical
  rw [Proc.count_entries h.settled ho', Proc.count_entries hs ho, h.pgdir]
  refine if_congr (and_congr_right ?_) rfl rfl
  rintro rfl
  change p'.Tracks va ↔ p.Tracks va
  constructor
  · rintro ⟨i, hi, hva⟩
    have hpres : k'.Present p.pgdir va := by
      have := h.settled.present i hi
      rwa [hva, h.pgdir] at this
    have hva' : UserPage va := hva ▸ ho'.memVa i
    exact (h.old va hva' (fun hc => hnew va hc (hiff.mp hpres)) hpres).2.mp ⟨i, hi, hva⟩
  · rintro ⟨i, hi, hva⟩
    have hpres : k.Present p.pgdir va := hva ▸ hs.present i hi
    have hva' : UserPage va := hva ▸ ho.memVa i
    exact (h.old va hva' (fun hc => hnew va hc hpres) (hiff.mpr hpres)).2.mpr ⟨i, hi, hva⟩

/-! ### Steps of the queue -/

/-- **Slot `i` is taken over by page `a`**, and the page it named before, if any, is gone. -/
theorem Turn.replace (hs : p.Settled k) (ho : p.Own) (hd : p'.pgdir = p.pgdir)
    (hslot : ∀ l, l ≠ i → (p'.memoryPages l).core = (p.memoryPages l).core)
    (hnew : (p'.memoryPages i).isUsed = true → (p'.memoryPages i).va = a ∧ k'.Present p.pgdir a)
    (hfresh : ¬ p.Tracks a)
    (hgone : (p.memoryPages i).isUsed = true → ¬ k'.Present p.pgdir (p.memoryPages i).va)
    (hpres : ∀ va, UserPage va → va ≠ a → ((p.memoryPages i).isUsed = true → va ≠ (p.memoryPages i).va) →
      (k'.Present p.pgdir va ↔ k.Present p.pgdir va)) : Turn {a} k p k' p' := by
  simp only [Slot.core, Prod.mk.injEq] at hslot
  have hne : ∀ l, l ≠ i → (p.memoryPages l).isUsed = true →
      (p.memoryPages i).isUsed = true → (p.memoryPages l).va ≠ (p.memoryPages i).va :=
    fun l hl hu hi heq => hl (hs.inj l i hu hi heq)
  refine ⟨hd, ⟨fun l hl => ?_, fun l m hl hm heq => ?_⟩, fun va hva hs' hp => ?_⟩
  · by_cases hli : l = i
    · subst hli
      obtain ⟨hva, hp⟩ := hnew hl
      rwa [hva, hd]
    · obtain ⟨-, hva, hu⟩ := hslot l hli
      rw [hu] at hl
      rw [hva, hd]
      exact (hpres _ (ho.memVa l) (fun hc => hfresh ⟨l, hl, hc⟩) (hne l hli hl)).mpr (hs.present l hl)
  · by_cases hli : l = i
    · subst hli
      by_contra hlm
      obtain ⟨-, hva, hu⟩ := hslot m fun h => hlm h.symm
      exact hfresh ⟨m, hu ▸ hm, by rw [← hva, ← heq, (hnew hl).1]⟩
    · by_cases hmi : m = i
      · subst hmi
        obtain ⟨-, hva, hu⟩ := hslot l hli
        exact absurd ⟨l, hu ▸ hl, by rw [← hva, heq, (hnew hm).1]⟩ hfresh
      · obtain ⟨-, hlva, hlu⟩ := hslot l hli
        obtain ⟨-, hmva, hmu⟩ := hslot m hmi
        exact hs.inj l m (hlu ▸ hl) (hmu ▸ hm) (by rw [← hlva, ← hmva, heq])
  · have hva' : (p.memoryPages i).isUsed = true → va ≠ (p.memoryPages i).va := by
      rintro hu rfl
      exact hgone hu hp
    refine ⟨(hpres va hva hs' hva').mp hp, ?_, ?_⟩
    · rintro ⟨l, hl, hlva⟩
      by_cases hli : l = i
      · subst hli
        exact absurd ((hnew hl).1.symm.trans hlva).symm hs'
      · obtain ⟨-, hva, hu⟩ := hslot l hli
        exact ⟨l, hu ▸ hl, hva ▸ hlva⟩
    · rintro ⟨l, hl, hlva⟩
      have hli : l ≠ i := by
        rintro rfl
        exact hva' hl hlva.symm
      obtain ⟨-, hva, hu⟩ := hslot l hli
      exact ⟨l, hu ▸ hl, hva ▸ hlva⟩

/-- A page enters a slot that is not in use. -/
theorem Turn.enter (hs : p.Settled k) (ho : p.Own) (hi : (p.memoryPages i).isUsed = false)
    (hpres : k.Present p.pgdir a) (hfresh : ¬ p.Tracks a) {x : Slot} (hx : x.va = a) :
    Turn {a} k p k (p.setMemSlot i x) := by
  refine Turn.replace (i := i) hs ho rfl (fun l hl => ?_) (fun _ => ⟨?_, hpres⟩) hfresh (fun hu => ?_) ?_
  · simp [Proc.setMemSlot, hl]
  · simp [Proc.setMemSlot, hx]
  · rw [hi] at hu
    cases hu
  · exact fun _ _ _ _ => Iff.rfl

/-- **Releasing pages**: their slots go with them. -/
theorem Shrunk.turn (h : k.Shrunk k' pid p.pgdir (k.Freed p.pgdir lo hi)) (hp : k.procs pid = some p)
    (hs : p.Settled k) (ho : p.Own) (hhi : hi ≤ kernBase) :
    ∃ p', k'.procs pid = some p' ∧ Turn ∅ k p k' p' := by
  obtain ⟨mp, hmp, hleft⟩ := h.left hp hs ho
  have hpres : ∀ va, UserPage va →
      (k'.Present p.pgdir va ↔ k.Present p.pgdir va ∧ va ∉ k.Freed p.pgdir lo hi) := by
    intro va hva
    by_cases hf : va ∈ k.Freed p.pgdir lo hi
    · refine iff_of_false ?_ fun hc => hc.2 hf
      rintro ⟨e, he, hep⟩
      rw [h.gone va hf] at he
      cases he
      cases hep
    · rw [Present, h.rest _ _ fun _ b hb hv => hf ?_]
      · exact ⟨fun hp => ⟨hp, hf⟩, And.left⟩
      · have hbu : UserPage b := ⟨hb.1.2.2.trans_le hhi, hb.1.1⟩
        exact hva.eq_of_vpn hbu hv ▸ hb
  refine ⟨_, hmp, rfl, ⟨fun l hl => ?_, fun l m hl hm heq => ?_⟩, fun va hu _ hp' => ?_⟩
  · obtain ⟨hl, hf⟩ := (hleft l).2.mp hl
    change k'.Present p.pgdir (mp l).va
    rw [(hleft l).1]
    exact (hpres _ (ho.memVa l)).mpr ⟨hs.present l hl, hf⟩
  · refine hs.inj l m ((hleft l).2.mp hl).1 ((hleft m).2.mp hm).1 ?_
    rw [← (hleft l).1, ← (hleft m).1]
    exact heq
  · obtain ⟨hp, hf⟩ := (hpres va hu).mp hp'
    refine ⟨hp, exists_congr fun l => ?_⟩
    change (mp l).isUsed = true ∧ (mp l).va = va ↔ _
    rw [(hleft l).1, (hleft l).2]
    exact ⟨fun h => ⟨h.1.1, h.2⟩, fun h => ⟨⟨h.1, h.2 ▸ hf⟩, h.2⟩⟩

theorem Turn.deallocuvm {r : ℕ} (hp : k.procs pid = some p) (hs : p.Settled k) (ho : p.Own)
    (hold : oldsz ≤ kernBase) (hk : k.deallocuvm pid p.pgdir oldsz newsz = .ok (r, k')) :
    ∃ p', k'.procs pid = some p' ∧ Turn ∅ k p k' p' := by
  by_cases hlt : newsz < oldsz
  · exact (deallocuvm_shrunk (by simp only [kernBase] at *; omega) hlt hk).2.turn hp hs ho hold
  · rw [Kernel.deallocuvm, if_pos (by omega)] at hk
    cases hk
    exact ⟨p, hp, .refl hs⟩

/-- The pages that are present once page `x` has an entry that is. -/
theorem present_entered {x : ℕ} {e e' : Pte} (hw : k.walkpgdir d x = some e) (hep : e'.p = true)
    (hx : UserPage x) (hva : UserPage va) : (k.setPte d x e').Present d va ↔ va = x ∨ k.Present d va := by
  rw [Proc.present_setPte_iff hw]
  by_cases hv : vpn va = vpn x
  · rw [if_pos hv]
    exact iff_of_true hep (.inl (hva.eq_of_vpn hx hv))
  · rw [if_neg hv]
    exact ⟨.inr, fun hc => hc.resolve_left fun heq => hv (congrArg vpn heq)⟩

/-- The pages that are present once page `x` has been marked paged out. -/
theorem present_evicted {x : ℕ} {e : Pte} (hw : k.walkpgdir d x = some e)
    (hk : ∀ va, k'.walkpgdir d va = (k.setPte d x e.inDisk).walkpgdir d va) (hx : UserPage x)
    (hva : UserPage va) : k'.Present d va ↔ va ≠ x ∧ k.Present d va := by
  rw [Present, hk, ← Present, Proc.present_setPte_iff hw]
  by_cases hv : vpn va = vpn x
  · rw [if_pos hv]
    exact iff_of_false Bool.false_ne_true fun hc => hc.1 (hva.eq_of_vpn hx hv)
  · rw [if_neg hv]
    exact ⟨fun hp => ⟨fun hc => hv (congrArg vpn hc), hp⟩, And.right⟩

/-- `swap` moves a victim to the file, or finds no place for one; then page `a` is entered. -/
theorem Turn.swap {r : Option (Fin maxPsycPages)} (hacc : acc.Keeps) (h : k.Inv held)
    (hp : k.procs pid = some p) (hs : p.Settled k) (hfull : ∀ i, (p.memoryPages i).isUsed = true)
    (ha : UserPage a) (hpres : k.Present p.pgdir a) (hfresh : ¬ p.Tracks a)
    (hk : Kernel.swap pol acc k pid = .ok (r, k')) :
    ∃ p', k'.procs pid = some p' ∧ ∀ x : Slot, x.va = a → x.isUsed = true →
      Turn {a} k p k' (p'.storeMemSlot r x) ∧ ∀ l, ((p'.storeMemSlot r x).memoryPages l).isUsed = true := by
  obtain ⟨i, k1, p1, hka, hp1, hpa, hcase⟩ := swap_eq_ok hp hk
  have hturn : Turn {a} k p k1 p1 := .agree hs hka hpa
  have hfull1 := hpa.full hfull
  rcases hcase with ⟨rfl, rfl, -⟩ | ⟨j, k2, -, hw, hm, rfl⟩
  · exact ⟨p1, hp1, fun x _ _ => ⟨hturn.congr rfl rfl fun _ _ => rfl, hfull1⟩⟩
  · have ho := (h.agree hka).own pid p1 hp1
    have hd := ho.memDir i (hfull1 i)
    obtain ⟨pg, -, rfl⟩ := writeUserToSwapFile_idle hacc hp1 (hturn.settled.present i (hfull1 i)) hw
    obtain ⟨e, he, hk⟩ := moveToFile_eq_ok (setProc_procs_self ..) rfl hm
    change k1.walkpgdir (p1.memoryPages i).pgdir (p1.memoryPages i).va = some e at he
    have hgone : ∀ {va}, UserPage va →
        (k'.Present p1.pgdir va ↔ va ≠ (p1.memoryPages i).va ∧ k1.Present p1.pgdir va) :=
      present_evicted (hd ▸ he) (fun va => by
        rw [walkpgdir_of_kfree hk, ← hd, walkpgdir_setPte, walkpgdir_setPte]
        rfl) (ho.memVa i)
    have hfresh1 : ¬ p1.Tracks a := fun hc => hfresh (hpa.tracks.mp hc)
    refine ⟨_, by rw [procs_of_kfree hk]; exact setProc_procs_self .., fun x hx hxu => ⟨hturn.trans ?_, fun l => ?_⟩⟩
    · refine Turn.replace (i := i) hturn.settled ho rfl (fun l hl => ?_) (fun _ => ⟨?_, ?_⟩) hfresh1
        (fun _ hc => ((hgone (ho.memVa i)).mp hc).1 rfl) fun va hva _ hne => ?_
      · simp [Proc.storeMemSlot, Proc.setMemSlot, Proc.freeMemSlot, Proc.enterFile, Proc.setFileSlot,
          Proc.setSwapFile, hl]
      · simp [Proc.storeMemSlot, Proc.setMemSlot, hx]
      · refine (hgone ha).mpr ⟨fun hc => hfresh1 ⟨i, hfull1 i, hc.symm⟩, ?_⟩
        rw [hpa.pgdir]
        exact hka.present hpres
      · rw [hgone hva]
        exact ⟨And.right, fun hp => ⟨hne (hfull1 i), hp⟩⟩
    · by_cases hl : l = i
      · simp [Proc.storeMemSlot, Proc.setMemSlot, hl, hxu]
      · simpa [Proc.storeMemSlot, Proc.setMemSlot, Proc.freeMemSlot, Proc.enterFile, Proc.setFileSlot,
          Proc.setSwapFile, hl] using hfull1 l

/-- **A new page enters the queue** where there is room for it. -/
theorem Turn.trackPage (hacc : acc.Keeps) (h : k.Inv held) (hp : k.procs pid = some p) (hs : p.Settled k)
    (ha : UserPage a) (hpres : k.Present p.pgdir a) (hfresh : ¬ p.Tracks a)
    (hfits : 2 < pid → pol.aq = true → p.QueueFits (n + 1))
    (hk : Kernel.trackPage pol acc k pid p.pgdir a = .ok k') :
    ∃ p', k'.procs pid = some p' ∧ Turn {a} k p k' p' ∧ (2 < pid → pol.aq = true → p'.QueueFits n) := by
  unfold Kernel.trackPage at hk
  split at hk
  swap
  · rename_i hpid
    cases hk
    exact ⟨p, hp, .refl hs, fun hc => absurd hc hpid⟩
  rename_i hpid
  obtain ⟨⟨r, k1⟩, hc, hk⟩ := bind_eq_ok.mp hk
  obtain ⟨p1, hp1, hk⟩ := proc_bind_eq_ok.mp hk
  cases hk
  have ho := h.own pid p hp
  rcases chooseSlot_eq_ok hp hc with ⟨i, hfree, ⟨haq, rfl, rfl⟩ | ⟨haq, rfl, rfl⟩⟩ | ⟨hnone, hswap⟩
  · -- a free slot
    cases mem_unique hp hp1
    have hi : (p.memoryPages i).isUsed = false := by simpa using List.find?_some hfree
    refine ⟨_, setProc_procs_self .., ?_, fun _ hc => ?_⟩
    · exact (Turn.enter hs ho hi hpres hfresh (x := newSlot pol p p.pgdir a) rfl).congr rfl rfl fun _ _ => rfl
    · rw [haq] at hc
      cases hc
  · -- the front of the rotated queue, where the last slot was free
    rw [setProc_procs_self] at hp1
    cases Option.some.inj hp1
    have hpos := Proc.free_pos_of_nextFree hfree
    have hlast : (p.aqNext.memoryPages 0).isUsed = false := hfits hpid haq 0 (Nat.succ_pos n) hpos
    have hpa := Policy.agree_aqNext p
    have hturn : Turn {a} k p k p.aqNext := .agree hs (.refl k) hpa
    refine ⟨_, setProc_procs_self .., ?_, fun _ _ => ?_⟩
    · exact (hturn.trans (Turn.enter hturn.settled (hpa.own ho) hlast hpres (fun hc => hfresh (hpa.tracks.mp hc))
        (x := newSlot pol p.aqNext p.pgdir a) rfl)).congr rfl rfl fun _ _ => rfl
    · exact (hfits hpid haq).rotate (s := newSlot pol p.aqNext p.pgdir a) hpos rfl
  · -- an eviction
    obtain ⟨p', hp', hturn⟩ := Turn.swap hacc h hp hs (nextFreeIInMem_eq_none.mp hnone) ha hpres hfresh hswap
    cases mem_unique hp' hp1
    obtain ⟨hturn, hfull⟩ := hturn (newSlot pol p1 p.pgdir a) rfl rfl
    refine ⟨_, setProc_procs_self .., hturn.congr ?_ ?_ fun _ _ => rfl, fun _ _ => ?_⟩
    · rfl
    · rfl
    · exact queueFits_of_full hfull n

/-- The pages that are present once page `a` has been mapped. -/
theorem present_mapped {e : Pte} (e' : Pte) (hw : k.walkpgdirAlloc d a = some (e, k1)) (hep : e.p = false)
    (hep' : e'.p = true) (ha : UserPage a) :
    ¬ k.Present d a ∧ ∀ va, UserPage va → ((k1.setPte d a e').Present d va ↔ va = a ∨ k.Present d va) := by
  have hpres : ∀ va, k1.Present d va ↔ k.Present d va := by
    intro va
    rcases walkpgdir_alloc hw d va with heq | ⟨-, hnone, hz⟩
    · rw [Present, heq, Present]
    · rw [Present, Present, hnone, hz]
      simp
  have hwalk := walkpgdir_of_alloc hw
  refine ⟨fun hp => ?_, fun va hva => ?_⟩
  · obtain ⟨e1, he1, hp1⟩ := (hpres a).mpr hp
    cases mem_unique hwalk he1
    rw [hep] at hp1
    cases hp1
  · rw [present_entered hwalk hep' ha hva, hpres]

/-- **The loop of `allocuvm`**, where the queue has room for its pages; also where it fails and takes them
back. -/
theorem Turn.allocPages (hacc : acc.Keeps) (hsz : newsz ≤ kernBase) : ∀ (as : List ℕ) {k k' : Kernel}
    {p : Proc} {r : ℕ}, (∀ a ∈ as, UserPage a) → k.Inv held → k.procs pid = some p → p.Settled k →
    (2 < pid → pol.aq = true → p.QueueFits as.length) →
    Kernel.allocPages pol acc pid p.pgdir oldsz newsz as k = .ok (r, k') →
    ∃ p', k'.procs pid = some p' ∧ Turn {x | x ∈ as} k p k' p'
  | [], k, k', p, r, _, _, hp, hs, _, hk => by
    cases hk
    exact ⟨p, hp, .refl hs⟩
  | a :: as, k, k', p, r, has, h, hp, hs, hfits, hk => by
    have ha := has a mem_cons_self
    rcases allocPages_cons ha hk with
      ⟨-, -, r', hk1⟩ | ⟨f, k1, hk1, ⟨-, -, r', k2, hk2, hk3⟩ | ⟨e, k2, k3, hw, hep, hk3, hk⟩⟩
    · obtain ⟨p', hp', hturn⟩ := Turn.deallocuvm hp hs (h.own pid p hp) hsz hk1
      exact ⟨p', hp', hturn.mono (Set.empty_subset _)⟩
    all_goals
      have hspec := kalloc_spec hk1
      have h1 := (h.kalloc hk1).setMem f fun _ => 0
      have hp1 : (k1.setMem f fun _ => 0).procs pid = some p := hspec.2.2.2 ▸ hp
      have hw1 : ∀ d va, (k1.setMem f fun _ => 0).walkpgdir d va = k.walkpgdir d va := fun d va => by
        rw [setMem_walkpgdir, walkpgdir, hspec.2.2.1, walkpgdir]
      have hs1 : p.Settled (k1.setMem f fun _ => 0) := hs.of_walk hw1
    · obtain ⟨p', hp', hturn⟩ := Turn.deallocuvm hp1 hs1 (h1.own pid p hp1) hsz hk2
      have hmap : Turn ∅ k p (k1.setMem f fun _ => 0) p :=
        (Turn.refl hs).congr rfl rfl hw1
      exact ⟨p', procs_of_kfree hk3 ▸ hp', ((hmap.trans hturn).congr rfl rfl
        (walkpgdir_of_kfree hk3)).mono (Set.empty_subset _)⟩
    · -- the page is mapped and then entered
      obtain ⟨h2, -⟩ := h1.mapNewPage hp1 rfl ha hw hep hspec.1
      obtain ⟨habs, hpres⟩ := present_mapped { w := true, u := true, addr := f, p := true } hw hep rfl ha
      have hp2 : (k2.setPte p.pgdir a { w := true, u := true, addr := f, p := true }).procs pid
          = some p := (procs_of_alloc hw).trans hspec.2.2.2 ▸ hp
      have hfresh : ¬ p.Tracks a := fun h =>
        h.elim fun l hl => habs (hl.2 ▸ hs1.present l hl.1)
      have hmap : Turn {x | x ∈ a :: as} k p
          (k2.setPte p.pgdir a { w := true, u := true, addr := f, p := true }) p := by
        refine ⟨rfl, hs1.mono fun l _ hpr => (hpres _ ((h.own pid p hp).memVa l)).mpr (.inr hpr),
          fun va hva hne hpr => ⟨?_, Iff.rfl⟩⟩
        have hpr' := ((hpres va hva).mp hpr).resolve_left
          fun heq => hne (heq ▸ mem_cons_self)
        rwa [Present, hw1] at hpr'
      obtain ⟨p3, hp3, hturn3, hfits3⟩ := Turn.trackPage hacc h2 hp2 hmap.settled ha
        ((hpres a ha).mpr (.inl rfl)) hfresh hfits hk3
      obtain ⟨h3, -⟩ := h2.trackPage hacc hp2 rfl ha (.inl ⟨hmap.settled, (hpres a ha).mpr (.inl rfl),
        fun l hl hva => hfresh ⟨l, hl, hva⟩⟩) hk3
      rw [← hturn3.pgdir] at hk
      obtain ⟨p', hp', hturn'⟩ := Turn.allocPages hacc hsz as
        (fun x hx => has x (mem_cons_of_mem a hx)) h3 hp3 hturn3.settled hfits3 hk
      refine ⟨p', hp', (hmap.trans (hturn3.mono ?_)).trans (hturn'.mono ?_)⟩
      · exact Set.singleton_subset_iff.mpr mem_cons_self
      · exact fun x hx => mem_cons_of_mem a hx

/-- **A page fault**: the page comes in, and the victim, if any, goes. -/
theorem Turn.pageIn {e0 : Pte} (hacc : acc.Keeps) (h : k.Inv held) (hp : k.procs pid = some p)
    (hs : p.Settled k) (hva : UserPage va) (hw : k.walkpgdir p.pgdir va = some e0) (h0 : e0.p = false)
    (hk : Kernel.pageIn pol acc k pid va = .ok k') :
    ∃ p', k'.procs pid = some p' ∧ Turn {va} k p k' p' := by
  obtain ⟨⟨i, old, j, k1⟩, hb, hk⟩ := bind_eq_ok.mp hk
  obtain ⟨k2, hr, hk⟩ := bind_eq_ok.mp hk
  obtain ⟨k3, hl, hk⟩ := bind_eq_ok.mp hk
  obtain ⟨k4, hk4, hk⟩ := bind_eq_ok.mp hk
  obtain ⟨k5, hk5, hk⟩ := bind_eq_ok.mp hk
  cases hk
  obtain ⟨f, ka, kb, kc, q, e, hka, hkb, hkc, hq, hpa, he, hj, rfl, hold⟩ := pfBegin_eq_ok hp hb
  obtain ⟨-, rfl⟩ := pfRead_eq_ok (show (kc.setPte q.pgdir va (e.inMem f)).procs pid = some q from hq) hr
  replace hl := of_proc_bind hq hl
  cases hl
  -- the choice of the victim is a book
  have hagree : Turn {va} k p kc q := by
    obtain ⟨pa, hpa', hpaa⟩ := hka.exists_proc hp
    have hb : kb.procs pid = some pa := (kalloc_spec hkb).2.2.2 ▸ hpa'
    obtain ⟨q', hq', hqa⟩ := hkc.exists_proc hb
    cases mem_unique hq hq'
    have h1 : Turn {va} k p kb pa := (Turn.agree hs hka hpaa).congr rfl rfl fun d x => by
      rw [walkpgdir, (kalloc_spec hkb).2.2.1, walkpgdir]
    exact h1.trans (.agree h1.settled hkc hqa)
  have hown : q.Own := hpa.own (h.own pid p hp)
  have hjva := va_of_getIOfVaInFile hj
  have habs : ¬ kc.Present q.pgdir va := by
    have hbc : kb.Present q.pgdir va ↔ ka.Present q.pgdir va := by
      rw [Present, walkpgdir, (kalloc_spec hkb).2.2.1, ← walkpgdir, Present]
    rw [hkc.present_iff, hbc, hka.present_iff, hpa.pgdir]
    rintro ⟨e', he', hep'⟩
    rw [hw] at he'
    cases he'
    rw [h0] at hep'
    cases hep'
  have hfresh : ¬ q.Tracks va := fun h =>
    h.elim fun l hl => habs (hl.2 ▸ hagree.settled.present l hl.1)
  have hin : ∀ {x}, UserPage x → ((kc.setPte q.pgdir va (e.inMem f)).Present q.pgdir x ↔
      x = va ∨ kc.Present q.pgdir x) := fun hx => present_entered he rfl hva hx
  have hslot := memoryPages_loadSlot pol q i j
  -- the page has its slot, and the victim is gone
  obtain ⟨p4, hp4, hturn, hwalk⟩ : ∃ p4, k4.procs pid = some p4 ∧ Turn {va} kc q k4 p4 ∧
      k4.walkpgdir q.pgdir va = some (e.inMem f) := by
    have hself := walkpgdir_setPte_self (e.inMem f) he
    have hcore : ((loadSlot pol q i j).memoryPages i).va = va := by
      have := hslot i
      rw [if_pos rfl] at this
      simp only [Slot.core, Prod.mk.injEq] at this
      rw [this.2.1, hjva]
    rcases hold with ⟨rfl, hi⟩ | ⟨rfl, hfull⟩
    · cases hk4
      refine ⟨_, setProc_procs_self .., ?_, hself⟩
      refine Turn.replace (i := i) hagree.settled hown rfl (fun l hl => ?_)
        (fun _ => ⟨hcore, (hin hva).mpr (.inl rfl)⟩) hfresh (fun hu => ?_) fun x hx hne _ => ?_
      · rw [hslot l, if_neg hl]
      · rw [hi] at hu
        cases hu
      · exact (hin hx).trans ⟨fun hc => hc.resolve_left hne, .inr⟩
    · have hu := hfull i
      have hd := hown.memDir i hu
      have hold := (hown.memVa i)
      have hne : va ≠ (q.memoryPages i).va := fun hc => hfresh ⟨i, hu, hc.symm⟩
      obtain ⟨k6, p6, e1, e2, hw6, hp6, he1, he2, hk6⟩ := pfEvict_eq_ok hk4
      have hpres : Present ({ kc.setPte q.pgdir va (e.inMem f) with
          buffer := q.swapFile.page j }.setProc pid (loadSlot pol q i j)) (loadSlot pol q i j).pgdir
          (q.memoryPages i).va := (hin hold).mpr (.inr (hagree.settled.present i hu))
      obtain ⟨pg, -, rfl⟩ := writeUserToSwapFile_idle hacc (setProc_procs_self ..) hpres hw6
      rw [setProc_procs_self] at hp6
      cases hp6
      have he2' : (kc.setPte q.pgdir va (e.inMem f)).walkpgdir q.pgdir (q.memoryPages i).va = some e2 :=
        hd ▸ he2
      have hwalk4 : ∀ x, k4.walkpgdir q.pgdir x
          = ((kc.setPte q.pgdir va (e.inMem f)).setPte q.pgdir (q.memoryPages i).va e2.inDisk).walkpgdir
            q.pgdir x := by
        intro x
        rw [walkpgdir_of_kfree hk6, hd, walkpgdir_setPte, walkpgdir_setPte _ _ _ e2.inDisk]
        rfl
      have hgone : ∀ {x}, UserPage x → (k4.Present q.pgdir x ↔ x ≠ (q.memoryPages i).va ∧
          (kc.setPte q.pgdir va (e.inMem f)).Present q.pgdir x) := fun hx =>
        present_evicted he2' hwalk4 hold hx
      refine ⟨_, by rw [procs_of_kfree hk6]; exact setProc_procs_self .., ?_, ?_⟩
      · refine Turn.replace (i := i) hagree.settled hown rfl (fun l hl => ?_)
          (fun _ => ⟨hcore, (hgone hva).mpr ⟨hne, (hin hva).mpr (.inl rfl)⟩⟩) hfresh
          (fun _ hc => ((hgone hold).mp hc).1 rfl) fun x hx hxne hxold => ?_
        · exact (hslot l).trans (if_neg hl)
        · rw [hgone hx, hin hx]
          exact ⟨fun hc => hc.2.resolve_left hxne, fun hc => ⟨hxold hu, .inr hc⟩⟩
      · rw [hwalk4, walkpgdir_setPte_of_ne (.inr fun hv => hne (hva.eq_of_vpn hold hv)), hself]
  obtain rfl := hacc.idle hk5 (by
    rw [permits, hp4, bind_some, hturn.pgdir, hwalk]
    rfl)
  refine ⟨p4, by rw [setUserPage_procs]; exact hp4, (hagree.trans hturn).congr rfl rfl fun d x => ?_⟩
  unfold setUserPage
  split <;> rfl

/-! ### Runs -/

/-- What happens to the queue of a process: its pages are touched, a page fault runs `AQ_update_queue` and then
`handle_pf`, and the process grows and shrinks.  The bounds are those of the nested faults. -/
inductive QueueOp
  | touch (va : ℕ)
  | update
  | grow (f oldsz newsz : ℕ)
  | shrink (oldsz newsz : ℕ)
  | fault (f cr2 : ℕ)

namespace QueueOp

def run (pid : ℕ) : QueueOp → Kernel → Except String Kernel
  | touch va, k => .ok (k.markAccessed pid va)
  | update, k => Policy.aqUpdateQueue k pid
  | grow f oldsz newsz, k => do
    let p ← k.proc pid
    let (_, k) ← allocuvm .advancingQueue (access .advancingQueue f) k pid p.pgdir oldsz newsz
    return k
  | shrink oldsz newsz, k => do
    let p ← k.proc pid
    let (_, k) ← k.deallocuvm pid p.pgdir oldsz newsz
    return k
  | fault f cr2, k => do
    let (_, k) ← handlePf .advancingQueue (access .advancingQueue f) k pid cr2
    return k

/-- **A growth adds pages that are not there yet, and the free slots come last**, as many as it needs or all
that there are; and only user pages are released or come in. -/
def Fits (pid : ℕ) : QueueOp → Kernel → Prop
  | touch _, _ => True
  | update, _ => True
  | grow _ oldsz newsz, k => ∀ p, k.procs pid = some p →
      (∀ va ∈ pagesFrom (pgRoundUp oldsz) newsz, ¬ k.Present p.pgdir va) ∧
      (2 < pid → p.QueueFits (pagesFrom (pgRoundUp oldsz) newsz).length)
  | shrink oldsz _, _ => oldsz ≤ kernBase
  | fault _ cr2, _ => cr2 < kernBase

end QueueOp

/-- The kernel invariant, and the used slots of the process name present pages, each a different one. -/
def Queued (pid : ℕ) (k : Kernel) : Prop :=
  k.Inv 0 ∧ ∃ p, k.procs pid = some p ∧ p.Settled k

theorem Queued.of_turn (h : k.Queued pid) (hp : k.procs pid = some p) (hi : k'.Inv 0)
    (ht : ∃ p', k'.procs pid = some p' ∧ Turn s k p k' p')
    (hnew : ∀ va ∈ s, ¬ k.Present p.pgdir va) : Remembers pid k k' ∧ k'.Queued pid := by
  obtain ⟨q, hq, hs⟩ := h.2
  cases mem_unique hp hq
  obtain ⟨p', hp', ht⟩ := ht
  exact ⟨ht.remembers hp hp' hs (h.1.own pid p hp) (hi.own pid p' hp') hnew, hi, p', hp', ht.settled⟩

theorem Queued.agree (h : k.Queued pid) (hk : k.Agree k') : Remembers pid k k' ∧ k'.Queued pid := by
  obtain ⟨hi, p, hp, hs⟩ := h
  obtain ⟨p', hp', hpa⟩ := hk.exists_proc hp
  exact Queued.of_turn ⟨hi, p, hp, hs⟩ hp (hi.agree hk) ⟨p', hp', .agree (s := ∅) hs hk hpa⟩ (by simp)

theorem Queued.grow {r : ℕ} (hacc : acc.Keeps) (h : k.Queued pid) (hp : k.procs pid = some p)
    (hfree : ∀ va ∈ pagesFrom (pgRoundUp oldsz) newsz, ¬ k.Present p.pgdir va)
    (hfits : 2 < pid → p.QueueFits (pagesFrom (pgRoundUp oldsz) newsz).length)
    (hk : Kernel.allocuvm .advancingQueue acc k pid p.pgdir oldsz newsz = .ok (r, k')) :
    Remembers pid k k' ∧ k'.Queued pid := by
  obtain ⟨q, hq, hs⟩ := h.2
  cases mem_unique hp hq
  refine h.of_turn hp (h.1.allocuvm hacc hp hk).1 (s := {x | x ∈ pagesFrom (pgRoundUp oldsz) newsz}) ?_ hfree
  rcases allocuvm_eq_ok hk with ⟨rfl, -⟩ | ⟨hsz, -, has, hk⟩
  · exact ⟨p, hp, .refl hs⟩
  · exact Turn.allocPages hacc hsz.le _ has h.1 hp hs (fun hpid _ => hfits hpid) hk

theorem Queued.fault {r : Bool} {cr2 : ℕ} (hacc : acc.Keeps) (h : k.Queued pid) (hcr2 : cr2 < kernBase)
    (hk : Kernel.handlePf pol acc k pid cr2 = .ok (r, k')) : Remembers pid k k' ∧ k'.Queued pid := by
  obtain ⟨p, hp, hs⟩ := h.2
  have hi := (h.1.handlePf hacc hk).1
  obtain ⟨q, e, hq, he, ⟨-, rfl⟩ | ⟨-, hep, -, hin⟩⟩ := handlePf_eq_ok hk
  · exact h.agree (.refl k')
  · cases mem_unique hp hq
    refine h.of_turn hp hi (Turn.pageIn hacc h.1 hp hs (userPage_pgRoundDown hcr2) he hep hin) ?_
    rintro va rfl ⟨e', he', hep'⟩
    cases mem_unique he he'
    rw [hep] at hep'
    cases hep'

theorem Queued.step (h : k.Queued pid) {op : QueueOp} (hfits : op.Fits pid k)
    (hk : op.run pid k = .ok k') : Remembers pid k k' ∧ k'.Queued pid := by
  obtain ⟨p, hp, hs⟩ := h.2
  cases op with
  | touch va =>
    cases hk
    exact h.agree (agree_markAccessed k pid va)
  | update => exact h.agree (Policy.advancingQueue.hook_agree hk)
  | grow f oldsz newsz =>
    replace hk := of_proc_bind hp hk
    obtain ⟨⟨r, k1⟩, hk1, hk⟩ := bind_eq_ok.mp hk
    cases hk
    obtain ⟨hfree, hroom⟩ := hfits p hp
    exact h.grow (keeps_access _ f) hp hfree hroom hk1
  | shrink oldsz newsz =>
    replace hk := of_proc_bind hp hk
    obtain ⟨⟨r, k1⟩, hk1, hk⟩ := bind_eq_ok.mp hk
    cases hk
    have hun : k.Unowned pid p.pgdir := fun q s hs hsd => h.1.apart q pid s p hs hp hsd
    exact h.of_turn hp (h.1.deallocuvm hun hfits hk1).1
      (Turn.deallocuvm hp hs (h.1.own pid p hp) hfits hk1) (by simp)
  | fault f cr2 =>
    obtain ⟨⟨r, k1⟩, hk1, hk⟩ := bind_eq_ok.mp hk
    cases hk
    exact h.fault (keeps_access _ f) hfits hk1

end Kernel

end Xv6
