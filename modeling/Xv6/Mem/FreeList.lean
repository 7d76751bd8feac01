import Xv6.Mem.FreePages

/-!
# Mem/FreeList — the free list in the free pages

The free list of `kalloc.c` is a chain through the pages themselves: the first word of a free page points
to the next one.  `RawKMem` has that chain, and counts of 32 bits.  Whoever owns a page writes to it, so the
words of the pages off the list are arbitrary.

`Shows` reads a `KMem` off the chain; each call then is the call of `KMem`, as long as `inc_counter` does not
wrap a count.  A count that wraps leaves a frame that is neither free nor referenced, so the list is intact
along a run exactly if no count does (`freelist_intact_iff`).
-/

namespace Xv6

open Outcome Function List

/-- `P2V` of the first byte of a frame. -/
def p2v (f : ℕ) : ℕ := kernBase + f * pgSize

/-- `V2P(r) >> PGSHIFT`. -/
def v2f (r : ℕ) : ℕ := (r - kernBase) / pgSize

@[simp] theorem v2f_p2v (f : ℕ) : v2f (p2v f) = f := by
  simp only [v2f, p2v, pgSize]
  omega

theorem p2v_ne_zero (f : ℕ) : p2v f ≠ 0 := by
  simp only [p2v, kernBase]
  omega

theorem toNat_eq_zero {c : UInt32} : c.toNat = 0 ↔ c = 0 := UInt32.toNat_inj (b := 0)

/-- `struct kmem` as it is in memory: `freelist` is a pointer, and `next` gives the first word of every
page. -/
structure RawKMem where
  kend : ℕ
  useLock : Bool
  freelist : ℕ
  next : ℕ → ℕ
  referencesCount : ℕ → UInt32
  freePages : UInt32

namespace RawKMem

/-- Before `kinit1`: static storage is zero, and the pages hold whatever they hold. -/
def boot (kend : ℕ) (next : ℕ → ℕ) : RawKMem := ⟨kend, false, 0, next, fun _ => 0, 0⟩

/-- `set_counter`. -/
def setCounter (m : RawKMem) (f : ℕ) (i : UInt32) : RawKMem :=
  { m with referencesCount := Function.update m.referencesCount f i }

/-- `inc_counter`. -/
def incCounter (m : RawKMem) (f : ℕ) : RawKMem := m.setCounter f (m.referencesCount f + 1)

/-- `dec_counter`. -/
def decCounter (m : RawKMem) (f : ℕ) : RawKMem := m.setCounter f (m.referencesCount f - 1)

/-- `kfree`.  The page is filled with junk, and its first word becomes the link. -/
def kfree (m : RawKMem) (f : ℕ) : Except String RawKMem :=
  if m.kend ≤ f * pgSize ∧ f * pgSize < physTop then
    let c := if 0 < m.referencesCount f then m.referencesCount f - 1 else m.referencesCount f
    let m' := { m.setCounter f c with freePages := m.freePages + 1 }
    if c ≠ 0 then .ok m'
    else .ok { m' with next := Function.update m.next f m.freelist, freelist := p2v f }
  else .error "kfree"

/-- `kalloc`. -/
def kalloc (m : RawKMem) : Option (ℕ × RawKMem) :=
  if m.freelist = 0 then none
  else
    let f := v2f m.freelist
    some (f, { m.setCounter f 1 with
      freelist := m.next f, freePages := m.freePages - 1 })

/-- The loop of `freerange`. -/
def freerangeFrom (vend : ℕ) : ℕ → ℕ → RawKMem → Except String RawKMem
  | 0, _, m => .ok m
  | n + 1, p, m =>
    if p + pgSize ≤ vend then do
      let m ← (m.setCounter (p / pgSize) 0).kfree (p / pgSize)
      freerangeFrom vend n (p + pgSize) m
    else .ok m

/-- `freerange`. -/
def freerange (m : RawKMem) (vstart vend : ℕ) : Except String RawKMem :=
  freerangeFrom vend (vend / pgSize + 1) (pgRoundUp vstart) m

/-- `kinit1`. -/
def kinit1 (m : RawKMem) (vstart vend : ℕ) : Except String RawKMem :=
  { m with useLock := false, freePages := 0 }.freerange vstart vend

/-- `kinit2`. -/
def kinit2 (m : RawKMem) (vstart vend : ℕ) : Except String RawKMem := do
  let m ← m.freerange vstart vend
  return { m with useLock := true }

/-- The pages from the pointer `r` on. -/
def Threads (next : ℕ → ℕ) : ℕ → List ℕ → Prop
  | r, [] => r = 0
  | r, f :: fs => r = p2v f ∧ Threads next (next f) fs

/-- The frames handed to the allocator so far end here: `kinit2` sets `use_lock`. -/
def top (m : RawKMem) : ℕ := if m.useLock then physTop else 0x400000

/-- **The free list is intact**: the chain ends, has no frame twice, and has exactly the frames of the
allocator with count 0. -/
def Intact (m : RawKMem) : Prop :=
  ∃ fs, Threads m.next m.freelist fs ∧ fs.Nodup ∧
    ∀ f, f ∈ fs ↔ (m.kend ≤ f * pgSize ∧ f * pgSize < m.top) ∧ m.referencesCount f = 0

/-- The frame is on the list. -/
def Free (m : RawKMem) (f : ℕ) : Prop := ∃ fs, Threads m.next m.freelist fs ∧ f ∈ fs

end RawKMem

/-- What other code does with the allocator and its pages: calls, and writes to the first word of a page. -/
inductive KOp where
  | call (c : KCall)
  | write (f w : ℕ)

namespace KOp

/-- The effect on `kmem`. -/
def run : KOp → RawKMem → Except String RawKMem
  | .call .kalloc, m => .ok ((m.kalloc.map Prod.snd).getD m)
  | .call (.kfree f), m => m.kfree f
  | .call (.incCounter f), m => .ok (m.incCounter f)
  | .call (.decCounter f), m => .ok (m.decCounter f)
  | .call .kinit2, m => m.kinit2 0x400000 physTop
  | .write f w, m => .ok { m with next := Function.update m.next f w }

/-- The contract: a reference is counted, dropped or written through only by its holder, and `kinit2` is
called once. -/
def Legal : KOp → RawKMem → Prop
  | .call .kalloc, _ => True
  | .call (.kfree f), m => 1 ≤ m.referencesCount f
  | .call (.incCounter f), m => 1 ≤ m.referencesCount f
  | .call (.decCounter f), m => 2 ≤ m.referencesCount f
  | .call .kinit2, m => m.useLock = false
  | .write f _, m => 1 ≤ m.referencesCount f

instance : ∀ (op : KOp) (m : RawKMem), Decidable (op.Legal m)
  | .call .kalloc, _ => inferInstanceAs (Decidable True)
  | .call (.kfree _), _ => inferInstanceAs (Decidable (_ ≤ _))
  | .call (.incCounter _), _ => inferInstanceAs (Decidable (_ ≤ _))
  | .call (.decCounter _), _ => inferInstanceAs (Decidable (_ ≤ _))
  | .call .kinit2, _ => inferInstanceAs (Decidable (_ = _))
  | .write _ _, _ => inferInstanceAs (Decidable (_ ≤ _))

/-- `inc_counter` wraps the count. -/
def Wraps : KOp → RawKMem → Prop
  | .call (.incCounter f), m => m.referencesCount f + 1 = 0
  | _, _ => False

instance : ∀ (op : KOp) (m : RawKMem), Decidable (op.Wraps m)
  | .call .kalloc, _ => inferInstanceAs (Decidable False)
  | .call (.kfree _), _ => inferInstanceAs (Decidable False)
  | .call (.incCounter _), _ => inferInstanceAs (Decidable (_ = _))
  | .call (.decCounter _), _ => inferInstanceAs (Decidable False)
  | .call .kinit2, _ => inferInstanceAs (Decidable False)
  | .write _ _, _ => inferInstanceAs (Decidable False)

/-- **What the integrity of the list is for**: `kalloc` hands out a frame without references, and a frame
comes back to the list exactly with its last reference. -/
def Serves : KOp → RawKMem → RawKMem → Prop
  | .call .kalloc, m, _ => ∀ f m', m.kalloc = some (f, m') → m.referencesCount f = 0
  | .call (.kfree f), m, m' => ¬ m.Free f ∧ (m'.Free f ↔ m.referencesCount f = 1)
  | .call (.incCounter f), m, m' => ¬ m.Free f ∧ ¬ m'.Free f
  | .call (.decCounter f), m, m' => ¬ m.Free f ∧ ¬ m'.Free f
  | .call .kinit2, _, _ => True
  | .write f _, m, m' => ¬ m.Free f ∧ ¬ m'.Free f

end KOp

namespace RawKMem

variable {m m' : RawKMem} {a a' : KMem} {f g r w : ℕ} {next : ℕ → ℕ} {fs gs : List ℕ}

/-! ## Chains -/

/-- A pointer is the head of one chain. -/
theorem Threads.unique : ∀ {r : ℕ} {fs gs : List ℕ}, Threads next r fs → Threads next r gs → fs = gs
  | _, [], [], _, _ => rfl
  | _, [], g :: _, h, h' => absurd (h'.1.symm.trans h) (p2v_ne_zero g)
  | _, f :: _, [], h, h' => absurd (h.1.symm.trans h') (p2v_ne_zero f)
  | _, f :: fs, g :: gs, h, h' => by
    have hfg : f = g := by
      rw [← v2f_p2v f, ← h.1, h'.1, v2f_p2v]
    subst hfg
    rw [Threads.unique h.2 h'.2]

/-- Words off the chain may be written. -/
theorem Threads.update (w : ℕ) : ∀ {r : ℕ} {fs : List ℕ}, f ∉ fs → Threads next r fs →
    Threads (Function.update next f w) r fs
  | _, [], _, h => h
  | _, g :: gs, hf, h => by
    have hne : g ≠ f := fun he => hf (he ▸ mem_cons_self)
    refine ⟨h.1, ?_⟩
    rw [update_of_ne hne]
    exact Threads.update w (fun hm => hf (mem_cons_of_mem _ hm)) h.2

/-- A page joins the chain at its head. -/
theorem Threads.push (hf : f ∉ fs) (h : Threads next r fs) :
    Threads (Function.update next f r) (p2v f) (f :: fs) := by
  refine ⟨rfl, ?_⟩
  rw [update_self]
  exact h.update r hf

/-! ## The calls of `KMem` -/

/-- **The allocator state that the memory shows.** -/
structure Shows (m : RawKMem) (a : KMem) : Prop where
  kend : m.kend = a.kend
  threads : Threads m.next m.freelist a.freelist
  referencesCount : ∀ f, (m.referencesCount f).toNat = a.referencesCount f
  freePages : m.freePages.toNat = a.freePages

theorem Shows.free_iff (h : m.Shows a) : m.Free f ↔ f ∈ a.freelist :=
  ⟨fun ⟨_, ht, hf⟩ => ht.unique h.threads ▸ hf, fun hf => ⟨_, h.threads, hf⟩⟩

theorem Shows.ne_zero (h : m.Shows a) (hf : 1 ≤ m.referencesCount f) : a.referencesCount f ≠ 0 := by
  rw [← h.referencesCount]
  exact Nat.one_le_iff_ne_zero.mp (UInt32.le_iff_toNat_le.mp hf)

theorem Shows.setCounter (h : m.Shows a) (f : ℕ) {i : UInt32} {n : ℕ} (hi : i.toNat = n) :
    (m.setCounter f i).Shows (a.setCounter f n) where
  kend := h.kend
  threads := h.threads
  referencesCount g := by
    by_cases hg : g = f
    · subst hg
      simpa [RawKMem.setCounter] using hi
    · simpa [RawKMem.setCounter, hg] using h.referencesCount g
  freePages := h.freePages

theorem Shows.kfree (h : m.Shows a) (hf : f ∉ a.freelist) (hk : m.kfree f = .ok m') :
    ∃ a', a.kfree f = .ok a' ∧ m'.Shows a' ∧ m'.useLock = m.useLock := by
  unfold RawKMem.kfree at hk
  split at hk
  · rename_i hm
    obtain ⟨c, hcdef⟩ : ∃ c, c = if 0 < m.referencesCount f then m.referencesCount f - 1
      else m.referencesCount f := ⟨_, rfl⟩
    have hc : c.toNat = a.referencesCount f - 1 := by
      rw [hcdef, ← h.referencesCount]
      split
      · rename_i hpos
        exact UInt32.toNat_sub_of_le _ _ (UInt32.le_iff_toNat_le.mpr (UInt32.lt_iff_toNat_lt.mp hpos))
      · rename_i hpos
        have := mt UInt32.lt_iff_toNat_lt.mpr hpos
        simp only [UInt32.toNat_zero] at this
        omega
    rw [h.kend] at hm
    simp only [← hcdef] at hk
    have hcount := (h.setCounter f hc).referencesCount
    have hpages : (m.freePages + 1).toNat = (a.freePages + 1) % 2 ^ 32 := by
      rw [UInt32.toNat_add, h.freePages]
      rfl
    refine ⟨_, KMem.kfree_eq_ok.mpr ⟨hm, rfl⟩, ?_⟩
    split at hk
    · rename_i hne
      cases hk
      refine ⟨⟨h.kend, ?_, hcount, hpages⟩, rfl⟩
      have : c.toNat ≠ 0 := mt toNat_eq_zero.mp hne
      rw [if_neg (by omega)]
      exact h.threads
    · rename_i hz
      cases hk
      refine ⟨⟨h.kend, ?_, hcount, hpages⟩, rfl⟩
      have : c.toNat = 0 := toNat_eq_zero.mpr (not_not.mp hz)
      rw [if_pos (by omega)]
      exact h.threads.push hf
  · cases hk

theorem Shows.kalloc (h : m.Shows a) (hk : m.kalloc = some (f, m')) :
    ∃ a', a.kalloc = some (f, a') ∧ m'.Shows a' ∧ m'.useLock = m.useLock := by
  unfold RawKMem.kalloc at hk
  split at hk
  · cases hk
  · rename_i hne
    cases hk
    have ht := h.threads
    cases hl : a.freelist with
    | nil =>
      rw [hl] at ht
      exact absurd ht hne
    | cons g gs =>
      rw [hl] at ht
      have hg : v2f m.freelist = g := by rw [ht.1, v2f_p2v]
      have hpages : (m.freePages - 1).toNat = (a.freePages + (2 ^ 32 - 1)) % 2 ^ 32 := by
        rw [UInt32.toNat_sub, h.freePages, Nat.add_comm]
        rfl
      rw [KMem.kalloc, hl, hg]
      exact ⟨_, rfl, ⟨h.kend, ht.2, (h.setCounter g (i := 1) (n := 1) rfl).referencesCount, hpages⟩, rfl⟩

theorem Shows.freerangeFrom {vend : ℕ} : ∀ (n p : ℕ) {m m' : RawKMem} {a : KMem}, m.Shows a →
    p % pgSize = 0 → (∀ f, p / pgSize ≤ f → f ∉ a.freelist) → freerangeFrom vend n p m = .ok m' →
    ∃ a', KMem.freerangeFrom vend n p a = .ok a' ∧ m'.Shows a' ∧ m'.useLock = m.useLock
  | 0, _, _, _, a, h, _, _, hk => by
    cases hk
    exact ⟨a, rfl, h, rfl⟩
  | n + 1, p, m, m', a, h, hp, hoff, hk => by
    rw [RawKMem.freerangeFrom] at hk
    rw [KMem.freerangeFrom]
    split
    · rename_i hle
      rw [if_pos hle] at hk
      obtain ⟨m1, hk1, hk⟩ := bind_eq_ok.mp hk
      obtain ⟨a1, ha1, h1, hu1⟩ := (h.setCounter (p / pgSize) (i := 0) (n := 0) rfl).kfree (hoff _ le_rfl) hk1
      have hp1 : (p + pgSize) % pgSize = 0 := by simp only [pgSize] at *; omega
      have hoff1 : ∀ g, (p + pgSize) / pgSize ≤ g → g ∉ a1.freelist := fun g hg hmem => by
        obtain ⟨-, rfl⟩ := KMem.kfree_eq_ok.mp ha1
        have hgp : p / pgSize < g := by simp only [pgSize] at *; omega
        simp only [KMem.setCounter_referencesCount, update_self, zero_le, if_true,
          KMem.setCounter_freelist] at hmem
        rcases mem_cons.mp hmem with rfl | hmem
        · omega
        · exact hoff g (by omega) hmem
      obtain ⟨a', ha', h', hu'⟩ := Shows.freerangeFrom n (p + pgSize) h1 hp1 hoff1 hk
      refine ⟨a', ?_, h', hu'.trans hu1⟩
      rw [ha1, ok_bind, ha']
    · rename_i hle
      rw [if_neg hle] at hk
      cases hk
      exact ⟨a, rfl, h, rfl⟩

end RawKMem

/-! ## Exactly the unreferenced frames are free -/

namespace KMem

variable {a a' : KMem} {f g top : ℕ}

/-- **The free list of the frames below `top`**: all of them without references, each once; no other frame
has references. -/
structure Exact (a : KMem) (top : ℕ) : Prop where
  nodup : a.freelist.Nodup
  free : ∀ f, f ∈ a.freelist ↔ (a.kend ≤ f * pgSize ∧ f * pgSize < top) ∧ a.referencesCount f = 0
  within : ∀ f, a.referencesCount f ≠ 0 → a.kend ≤ f * pgSize ∧ f * pgSize < top

theorem Exact.notMem (h : a.Exact top) (hf : a.referencesCount f ≠ 0) : f ∉ a.freelist :=
  fun hm => hf ((h.free f).mp hm).2

/-- A referenced frame may get other references. -/
theorem Exact.setCounter (h : a.Exact top) (hf : a.referencesCount f ≠ 0) {i : ℕ} (hi : i ≠ 0) :
    (a.setCounter f i).Exact top where
  nodup := h.nodup
  free g := by
    by_cases hg : g = f
    · subst hg
      simp [hi, h.notMem hf]
    · simpa [hg] using h.free g
  within g hc := by
    by_cases hg : g = f
    · subst hg
      exact h.within g hf
    · exact h.within g (by simpa [hg] using hc)

theorem Exact.kalloc (h : a.Exact top) (hk : a.kalloc = some (f, a')) :
    a'.Exact top ∧ a.referencesCount f = 0 := by
  obtain ⟨hl, ha'⟩ := kalloc_eq_some.mp hk
  have hnd := h.nodup
  rw [hl, nodup_cons] at hnd
  obtain ⟨hin, hzero⟩ := (h.free f).mp (hl ▸ mem_cons_self)
  refine ⟨?_, hzero⟩
  rw [ha']
  refine ⟨hnd.2, fun g => ?_, fun g hc => ?_⟩
  · by_cases hg : g = f
    · subst hg
      simp [hnd.1]
    · have := h.free g
      rw [hl, mem_cons, or_iff_right hg] at this
      simpa [hg] using this
  · by_cases hg : g = f
    · subst hg
      exact hin
    · exact h.within g (by simpa [hg] using hc)

/-- **The last reference brings a frame back**, and no other does. -/
theorem Exact.kfree (h : a.Exact top) (hf : a.referencesCount f ≠ 0) (hk : a.kfree f = .ok a') :
    a'.Exact top ∧ (f ∈ a'.freelist ↔ a.referencesCount f = 1) := by
  obtain ⟨-, rfl⟩ := kfree_eq_ok.mp hk
  have hoff := h.notMem hf
  by_cases hlast : a.referencesCount f = 1
  · simp only [hlast, le_refl, if_true, Nat.sub_self]
    refine ⟨⟨nodup_cons.mpr ⟨hoff, h.nodup⟩, fun g => ?_, fun g hc => ?_⟩, by simp⟩
    · by_cases hg : g = f
      · subst hg
        simpa using h.within g hf
      · simpa [hg] using h.free g
    · by_cases hg : g = f
      · subst hg
        exact h.within g hf
      · exact h.within g (by simpa [hg] using hc)
  · have hmore : ¬ a.referencesCount f ≤ 1 := by omega
    have hexact := h.setCounter hf (i := a.referencesCount f - 1) (by omega)
    simp only [hmore, if_false]
    exact ⟨⟨hexact.nodup, hexact.free, hexact.within⟩, iff_of_false hoff hlast⟩

/-- What `freerange` has done when it returns. -/
theorem freerangeFrom_eq {vend n p : ℕ} (hv : vend ≤ physTop) (hp : p % pgSize = 0)
    (hn : vend < p + (n + 1) * pgSize) (hc : ∀ f, p / pgSize ≤ f → a.referencesCount f = 0)
    (h : freerangeFrom vend n p a = .ok a') :
    a'.kend = a.kend ∧ a'.referencesCount = a.referencesCount ∧
      a'.freelist = (List.range' (p / pgSize) ((vend - p) / pgSize)).reverse ++ a.freelist ∧
      (p + pgSize ≤ vend → a.kend ≤ p) := by
  by_cases hle : p + pgSize ≤ vend
  · have hend : a.kend ≤ p := by
      cases n with
      | zero => omega
      | succ n =>
        rw [freerangeFrom, if_pos hle] at h
        obtain ⟨a1, hk, -⟩ := bind_eq_ok.mp h
        have hm := (kfree_eq_ok.mp hk).1.1
        simp only [setCounter_kend, pgSize] at *
        omega
    obtain ⟨b, hb, h1, h2, h3⟩ := freerangeFrom_ok vend hv n p a hp hend hn hc
    cases Except.ok.inj (hb.symm.trans h)
    exact ⟨h1, h2, h3, fun _ => hend⟩
  · have hsame : a' = a := by
      cases n with
      | zero => exact (Except.ok.inj h).symm
      | succ n =>
        rw [freerangeFrom, if_neg hle] at h
        exact (Except.ok.inj h).symm
    have hnone : (vend - p) / pgSize = 0 := by simp only [pgSize] at *; omega
    subst hsame
    exact ⟨rfl, rfl, by simp [hnone], fun h => absurd h hle⟩

/-- **`kinit1` frees the pages from `end` to 4 MB.** -/
theorem exact_kinit1 {kend : ℕ} (h : (boot kend).kinit1 kend 0x400000 = .ok a) : a.Exact 0x400000 := by
  have hfuel : 0x400000 < pgRoundUp kend + (0x400000 / pgSize + 1 + 1) * pgSize := by
    simp only [pgSize]
    omega
  unfold kinit1 freerange at h
  obtain ⟨hk, hc, hl, hend⟩ := freerangeFrom_eq (by decide) (pgRoundUp_mod _) hfuel (fun _ _ => rfl) h
  have hcount : ∀ f, a.referencesCount f = 0 := fun f => by rw [hc]; rfl
  have hnil : (boot kend).freelist = [] := rfl
  rw [hnil, append_nil] at hl
  change a.kend = kend at hk
  change _ → kend ≤ pgRoundUp kend at hend
  refine ⟨?_, fun f => ?_, fun f hf => absurd (hcount f) hf⟩
  · rw [hl]
    exact nodup_reverse.mpr nodup_range'
  · rw [hl, mem_reverse, mem_range'_1, hk, hcount]
    simp only [pgRoundUp, pgSize, and_true] at *
    omega

/-- **`kinit2` adds the pages from 4 MB to `PHYSTOP`.** -/
theorem Exact.kinit2 (h : a.Exact 0x400000) (hk : a.kinit2 0x400000 physTop = .ok a') :
    a'.Exact physTop := by
  have hzero : ∀ f, pgRoundUp 0x400000 / pgSize ≤ f → a.referencesCount f = 0 := fun f hf => by
    by_contra hc
    have := (h.within f hc).2
    simp only [pgRoundUp, pgSize] at *
    omega
  unfold KMem.kinit2 freerange at hk
  obtain ⟨hkend, hc, hl, hend⟩ := freerangeFrom_eq le_rfl (pgRoundUp_mod _) (by decide) hzero hk
  have hlow : a.kend ≤ 0x400000 := hend (by decide)
  have hlist : a'.freelist = (List.range' 1024 56320).reverse ++ a.freelist := hl
  refine ⟨?_, fun f => ?_, fun f hf => ?_⟩
  · rw [hlist]
    refine nodup_append.mpr ⟨nodup_reverse.mpr nodup_range', h.nodup, ?_⟩
    rintro f hf g hg rfl
    rw [mem_reverse, mem_range'_1] at hf
    have := ((h.free f).mp hg).1.2
    simp only [pgSize] at this
    omega
  · rw [hlist, mem_append, mem_reverse, mem_range'_1, h.free, hkend, hc]
    have := hzero f
    simp only [pgRoundUp, pgSize, physTop] at *
    omega
  · rw [hc] at hf
    rw [hkend]
    have := h.within f hf
    simp only [pgSize, physTop] at *
    omega

end KMem

namespace RawKMem

variable {m m' : RawKMem} {a : KMem} {f : ℕ}

/-- The invariant of the runs. -/
def Inv (m : RawKMem) : Prop := ∃ a, m.Shows a ∧ a.Exact m.top

theorem Inv.intact (h : m.Inv) : m.Intact := by
  obtain ⟨a, hs, he⟩ := h
  refine ⟨a.freelist, hs.threads, he.nodup, fun f => ?_⟩
  rw [he.free, hs.kend, ← hs.referencesCount, toNat_eq_zero]

theorem inv_kinit1 {kend : ℕ} {next : ℕ → ℕ} (h : (boot kend next).kinit1 kend 0x400000 = .ok m) :
    m.Inv := by
  have hs : ({ boot kend next with useLock := false, freePages := 0 } : RawKMem).Shows (KMem.boot kend) :=
    ⟨rfl, rfl, fun _ => rfl, rfl⟩
  unfold kinit1 freerange at h
  obtain ⟨a, ha, hs', hu⟩ := hs.freerangeFrom _ _ (pgRoundUp_mod _) nofun h
  have ha' : (KMem.boot kend).kinit1 kend 0x400000 = .ok a := by
    unfold KMem.kinit1 KMem.freerange
    exact ha
  refine ⟨a, hs', ?_⟩
  rw [top, hu]
  exact KMem.exact_kinit1 ha'

theorem Inv.kinit2 (h : m.Inv) (hu : m.useLock = false) (hk : m.kinit2 0x400000 physTop = .ok m') :
    m'.Inv := by
  obtain ⟨a, hs, he⟩ := h
  rw [top, hu, if_neg Bool.false_ne_true] at he
  obtain ⟨m1, hm1, hk⟩ := bind_eq_ok.mp hk
  cases hk
  unfold freerange at hm1
  have hoff : ∀ f, pgRoundUp 0x400000 / pgSize ≤ f → f ∉ a.freelist := fun f hf hm => by
    have := ((he.free f).mp hm).1.2
    simp only [pgRoundUp, pgSize] at *
    omega
  obtain ⟨a', ha', hs', -⟩ := hs.freerangeFrom _ _ (pgRoundUp_mod _) hoff hm1
  have hk' : a.kinit2 0x400000 physTop = .ok a' := by
    unfold KMem.kinit2 KMem.freerange
    exact ha'
  exact ⟨a', ⟨hs'.kend, hs'.threads, hs'.referencesCount, hs'.freePages⟩, he.kinit2 hk'⟩

/-- A count moves between positive values, and the frame stays off the list. -/
theorem Inv.setCounter (h : m.Inv) (hf : 1 ≤ m.referencesCount f) {i : UInt32} (hi : i ≠ 0) :
    (m.setCounter f i).Inv ∧ ¬ m.Free f ∧ ¬ (m.setCounter f i).Free f := by
  obtain ⟨a, hs, he⟩ := h
  have hs' := hs.setCounter f (i := i) rfl
  refine ⟨⟨_, hs', he.setCounter (hs.ne_zero hf) (mt toNat_eq_zero.mp hi)⟩, ?_⟩
  rw [hs.free_iff, hs'.free_iff]
  exact ⟨he.notMem (hs.ne_zero hf), he.notMem (hs.ne_zero hf)⟩

/-- **A count that wraps breaks the list**: the frame has no references and is not on it. -/
theorem Inv.not_intact (h : m.Inv) (hf : 1 ≤ m.referencesCount f) : ¬ (m.setCounter f 0).Intact := by
  obtain ⟨a, hs, he⟩ := h
  rintro ⟨fs, ht, -, hfs⟩
  obtain rfl := ht.unique hs.threads
  refine he.notMem (hs.ne_zero hf) ((hfs f).mpr ⟨?_, ?_⟩)
  · have := he.within f (hs.ne_zero hf)
    rw [← hs.kend] at this
    exact this
  · exact update_self ..

end RawKMem

/-- **One step**: without a wrapped count the invariant is kept, and the step serves its purpose. -/
theorem KOp.inv_of_step {op : KOp} {m m' : RawKMem} (h : m.Inv) (hl : op.Legal m)
    (hr : op.run m = .ok m') (hw : ¬ op.Wraps m) : m'.Inv ∧ op.Serves m m' := by
  cases op with
  | write f w =>
    obtain ⟨a, hs, he⟩ := h
    have hoff := he.notMem (hs.ne_zero hl)
    cases hr
    have hs' : RawKMem.Shows { m with next := Function.update m.next f w } a :=
      ⟨hs.kend, hs.threads.update w hoff, hs.referencesCount, hs.freePages⟩
    refine ⟨⟨a, hs', he⟩, ?_⟩
    rw [Serves, hs.free_iff, hs'.free_iff]
    exact ⟨hoff, hoff⟩
  | call c =>
    cases c with
    | kalloc =>
      cases hk : m.kalloc with
      | none =>
        simp only [run, hk, Option.map_none, Option.getD_none, Except.ok.injEq] at hr
        subst hr
        refine ⟨h, fun f m' hf => ?_⟩
        rw [hk] at hf
        cases hf
      | some x =>
        obtain ⟨f, m1⟩ := x
        simp only [run, hk, Option.map_some, Option.getD_some, Except.ok.injEq] at hr
        subst hr
        obtain ⟨a, hs, he⟩ := h
        obtain ⟨a', ha', hs', hu⟩ := hs.kalloc hk
        obtain ⟨he', hzero⟩ := he.kalloc ha'
        refine ⟨⟨a', hs', ?_⟩, fun g m' hg => ?_⟩
        · rwa [RawKMem.top, hu]
        · rw [hk] at hg
          cases hg
          rw [← toNat_eq_zero, hs.referencesCount, hzero]
    | kfree f =>
      obtain ⟨a, hs, he⟩ := h
      have hoff := he.notMem (hs.ne_zero hl)
      obtain ⟨a', ha', hs', hu⟩ := hs.kfree hoff hr
      obtain ⟨he', hlast⟩ := he.kfree (hs.ne_zero hl) ha'
      refine ⟨⟨a', hs', ?_⟩, ?_⟩
      · rwa [RawKMem.top, hu]
      · rw [Serves, hs.free_iff, hs'.free_iff, hlast, ← hs.referencesCount]
        exact ⟨hoff, UInt32.toNat_inj (b := 1)⟩
    | incCounter f =>
      cases hr
      exact h.setCounter hl hw
    | decCounter f =>
      cases hr
      have hge : 2 ≤ (m.referencesCount f).toNat := UInt32.le_iff_toNat_le.mp hl
      have hone : 1 ≤ m.referencesCount f := UInt32.le_iff_toNat_le.mpr (Nat.le_of_succ_le hge)
      refine h.setCounter hone fun h0 => ?_
      have := UInt32.toNat_sub_of_le _ _ hone
      rw [h0] at this
      change 0 = _ - 1 at this
      omega
    | kinit2 => exact ⟨h.kinit2 hl hr, trivial⟩

/-- **The free list is intact along a run exactly if no count wraps.**  Then no frame is handed out that has
a reference, and a shared frame comes back with its last one. -/
theorem freelist_intact_iff {kend : ℕ} {next : ℕ → ℕ} {m : RawKMem} {ops : List KOp}
    (h : (RawKMem.boot kend next).kinit1 kend 0x400000 = .ok m)
    (hl : Each KOp.run (fun op m _ => op.Legal m) ops m) :
    (m.Intact ∧ Each KOp.run (fun op m m' => m'.Intact ∧ op.Serves m m') ops m)
      ↔ Each KOp.run (fun op m _ => ¬ op.Wraps m) ops m := by
  have hinv := RawKMem.inv_kinit1 h
  have hstep : ∀ (op : KOp) (m m' : RawKMem), m.Inv → op.run m = .ok m' → op.Legal m →
      (m'.Intact ∧ op.Serves m m' ↔ ¬ op.Wraps m) := by
    intro op m m' hi hr hlegal
    refine ⟨fun ⟨hintact, _⟩ hw => ?_, fun hw => ?_⟩
    · match op, hw with
      | .call (.incCounter f), hw =>
        cases hr
        refine hi.not_intact hlegal ?_
        rwa [RawKMem.incCounter, show m.referencesCount f + 1 = 0 from hw] at hintact
    · obtain ⟨hi', hs⟩ := KOp.inv_of_step hi hlegal hr hw
      exact ⟨hi'.intact, hs⟩
  refine Iff.trans (and_iff_right hinv.intact) ?_
  exact each_iff RawKMem.Inv (L := fun op m _ => op.Legal m) hstep
    (fun op m m' hi hr hlegal hR =>
      (KOp.inv_of_step hi hlegal hr ((hstep op m m' hi hr hlegal).mp hR)).1) ops m hinv hl

/-- A page is taken, shared and released twice. -/
theorem freelist_intact_run : ∃ m, (RawKMem.boot 0x3FE000 fun _ => 0).kinit1 0x3FE000 0x400000 = .ok m ∧
    Each KOp.run (fun op m m' => m'.Intact ∧ op.Serves m m') [.call .kalloc, .call (.incCounter 1023),
      .write 1023 5, .call (.kfree 1023), .call (.kfree 1023)] m := by
  obtain ⟨m, hm⟩ : ∃ m, (RawKMem.boot 0x3FE000 fun _ => 0).kinit1 0x3FE000 0x400000 = .ok m := ⟨_, rfl⟩
  refine ⟨m, hm, ((freelist_intact_iff hm ?_).mpr ?_).2⟩ <;> cases hm
  · decide +kernel
  · decide +kernel

/-- Counting references, up to the one that wraps. -/
theorem RawKMem.run_incCounter {f : ℕ} : ∀ (n : ℕ) (m : RawKMem), 1 ≤ m.referencesCount f →
    (m.referencesCount f).toNat + n < 2 ^ 32 →
    Each KOp.run (fun op m _ => op.Legal m) (List.replicate (n + 1) (.call (.incCounter f))) m ∧
      loop KOp.run (List.replicate (n + 1) (.call (.incCounter f))) m
        = .ok (m.setCounter f (m.referencesCount f + UInt32.ofNat (n + 1)))
  | 0, m, hone, _ => ⟨fun _ _ => ⟨hone, trivial⟩, rfl⟩
  | n + 1, m, hone, hlt => by
    have hc : (m.incCounter f).referencesCount f = m.referencesCount f + 1 := update_self ..
    have hnat : (m.referencesCount f + 1).toNat = (m.referencesCount f).toNat + 1 := by
      rw [UInt32.toNat_add]
      exact Nat.mod_eq_of_lt (by
        change _ + 1 < 2 ^ 32
        omega)
    obtain ⟨hlegal, hrun⟩ := RawKMem.run_incCounter n (m.incCounter f)
      (by rw [hc, UInt32.le_iff_toNat_le, hnat]; exact Nat.succ_pos _) (by rw [hc, hnat]; omega)
    rw [replicate_succ]
    refine ⟨fun m1 h1 => ?_, ?_⟩
    · cases h1
      exact ⟨hone, hlegal⟩
    · rw [loop_cons]
      refine hrun.trans ?_
      rw [hc, RawKMem.incCounter, RawKMem.setCounter, RawKMem.setCounter, RawKMem.setCounter]
      simp only [update_idem]
      rw [UInt32.add_assoc, UInt32.add_comm 1, UInt32.ofNat_add (n + 1) 1]
      rfl

/-- A frame gets as many references as a `uint` counts.  Its count is 0 then, and it is not on the list. -/
theorem freelist_loses_frame : ∃ m, (RawKMem.boot 0x3FE000 fun _ => 0).kinit1 0x3FE000 0x400000 = .ok m ∧
    Each KOp.run (fun op m _ => op.Legal m)
      (.call .kalloc :: List.replicate (2 ^ 32 - 1) (.call (.incCounter 1023))) m ∧
    ∃ m', loop KOp.run (.call .kalloc :: List.replicate (2 ^ 32 - 1) (.call (.incCounter 1023))) m = .ok m' ∧
      ¬ m'.Intact := by
  obtain ⟨m, hm⟩ : ∃ m, (RawKMem.boot 0x3FE000 fun _ => 0).kinit1 0x3FE000 0x400000 = .ok m := ⟨_, rfl⟩
  have hinv := RawKMem.inv_kinit1 hm
  obtain ⟨m₁, hm₁, hone⟩ : ∃ m₁, KOp.run (.call .kalloc) m = .ok m₁ ∧ m₁.referencesCount 1023 = 1 := by
    cases hm
    exact ⟨_, rfl, rfl⟩
  have hlegal₁ : KOp.Legal (.call .kalloc) m := trivial
  have hinv₁ := (KOp.inv_of_step hinv hlegal₁ hm₁ id).1
  have hpos : 1 ≤ m₁.referencesCount 1023 := by rw [hone]; decide
  obtain ⟨hlegal, hrun⟩ := RawKMem.run_incCounter (2 ^ 32 - 2) m₁ hpos (by rw [hone]; decide)
  have hlast : m₁.referencesCount 1023 + UInt32.ofNat (2 ^ 32 - 2 + 1) = 0 := by
    rw [hone]
    decide
  rw [hlast] at hrun
  refine ⟨m, hm, fun m₂ h₂ => ?_, _, ?_, hinv₁.not_intact hpos⟩
  · cases Except.ok.inj (hm₁.symm.trans h₂)
    exact ⟨trivial, hlegal⟩
  · rw [loop_cons, hm₁, ok_bind]
    exact hrun

end Xv6
