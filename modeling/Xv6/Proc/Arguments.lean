import Xv6.Proc.Copyout
import Xv6.Proc.Loading
import Xv6.Proc.Swapping

/-!
# Proc/Arguments — the argument block of a new image

`exec` lowers `sp` by lengths that the user controls, in 32-bit arithmetic and with no bound.  `copyout` is what
stops it: a block that does not fit reaches down into the guard page, and one that wraps begins in the kernel
half.  Both are closed to user mode, so every block lies in the stack page (`Pushes.fits`).

The blocks hold what they should, and nothing else has changed, if the strings are resident and the image needed
no eviction (`Pushes.contents`).  Otherwise the faults of the kernel on the strings may evict pages of the new
image, and these are written to the swap file through the old page table.
-/

namespace Xv6

open Outcome List

/-! ## Blocks of memory -/

/-- Blocks, given by address and length, from the top down in `[lo, hi)`. -/
structure Stacks (lo hi : ℕ) (rs : List (ℕ × ℕ)) : Prop where
  inside : ∀ r ∈ rs, lo ≤ r.1 ∧ r.1 + r.2 ≤ hi
  disjoint : rs.Pairwise fun r r' => r'.1 + r'.2 ≤ r.1

theorem Stacks.nil (lo hi : ℕ) : Stacks lo hi [] := ⟨nofun, .nil⟩

theorem Stacks.cons {lo hi a n : ℕ} {rs : List (ℕ × ℕ)} (ha : lo ≤ a) (hn : a + n ≤ hi) (h : Stacks lo a rs) :
    Stacks lo hi ((a, n) :: rs) where
  inside := forall_mem_cons.mpr ⟨⟨ha, hn⟩, fun r hr =>
    ⟨(h.inside r hr).1, (h.inside r hr).2.trans ((Nat.le_add_right a n).trans hn)⟩⟩
  disjoint := .cons (fun r hr => (h.inside r hr).2) h.disjoint

namespace Kernel

variable {k k' k0 k₁ : Kernel} {held : Multiset ℕ} {pid d va a f n sz sp : ℕ} {p : Proc} {e : Pte}
  {pol : Policy} {acc : Access} {b : ByteFile} {B : Set ℕ} {bs str : List UInt8}

/-- The byte a directory shows at a user address. -/
def byteAt (k : Kernel) (d a : ℕ) : Option UInt8 := (k.pageAt d (vpn a)).map fun pg => pg (pgOff a)

/-- The bytes `bs` stand at `a`. -/
def BytesAt (k : Kernel) (d a : ℕ) (bs : List UInt8) : Prop := ∀ i < bs.length, k.byteAt d (a + i) = bs[i]?

/-- A string stands at `a`, with the byte that ends it. -/
def StringAt (k : Kernel) (d a : ℕ) (str : List UInt8) : Prop := k.BytesAt d a (str ++ [0]) ∧ 0 ∉ str

theorem bytesAt_cons {c : UInt8} :
    k.BytesAt d a (c :: bs) ↔ k.byteAt d a = some c ∧ k.BytesAt d (a + 1) bs := by
  constructor
  · refine fun h => ⟨h 0 (Nat.succ_pos _), fun i hi => ?_⟩
    rw [show a + 1 + i = a + (i + 1) by omega]
    exact h (i + 1) (Nat.succ_lt_succ hi)
  · rintro ⟨h0, h⟩ (_ | i) hi
    · exact h0
    · rw [show a + (i + 1) = a + 1 + i by omega]
      exact h i (Nat.lt_of_succ_lt_succ hi)

theorem BytesAt.congr (h : k.BytesAt d a bs) (hk : ∀ i < bs.length, k'.byteAt d (a + i) = k.byteAt d (a + i)) :
    k'.BytesAt d a bs := fun i hi => (hk i hi).trans (h i hi)

theorem byteAt_congr (h : ∀ v, k'.pageAt d v = k.pageAt d v) (a : ℕ) : k'.byteAt d a = k.byteAt d a := by
  rw [byteAt, byteAt, h]

theorem StringAt.congr (h : k.StringAt d a str) (hk : ∀ v, k'.pageAt d v = k.pageAt d v) :
    k'.StringAt d a str :=
  ⟨h.1.congr fun _ _ => byteAt_congr hk _, h.2⟩

/-- A byte that is shown is present, and the kernel reads it. -/
theorem userPage_of_byteAt {c : UInt8} (hp : k.procs pid = some p) (h : k.byteAt p.pgdir va = some c) :
    k.Present p.pgdir va ∧ ∃ pg, k.userPage pid va = some pg ∧ pg (pgOff va) = c := by
  obtain ⟨pg, hpg, hc⟩ := Option.map_eq_some_iff.mp h
  obtain ⟨f, hf, rfl⟩ := Option.map_eq_some_iff.mp hpg
  have hv := lt_of_owner_pte hf
  rw [owner_pte k p.pgdir hv] at hf
  obtain ⟨e, he, hef⟩ := Option.bind_eq_some_iff.mp hf
  obtain ⟨hep, rfl⟩ := Pte.frame_eq_some.mp hef
  refine ⟨⟨e, he, hep⟩, k.mem e.addr, ?_, hc⟩
  rw [userPage, hp, Option.bind_some, he]
  rfl

/-! ## Reading the arguments -/

/-- The strings `exec` reads are shorter than the user half. -/
theorem length_readString : ∀ (n va : ℕ) {k k' : Kernel} {bs : List UInt8},
    readString acc pid n va k = .ok (bs, k') → bs.length < n
  | 0, _, _, _, _, h => by cases h
  | n + 1, va, k, k', bs, h => by
    rw [readString] at h
    obtain ⟨k₁, -, h⟩ := bind_eq_ok.mp h
    split at h
    · cases h
    split at h
    · cases h
      exact Nat.succ_pos n
    · obtain ⟨⟨bs', k2⟩, hbs, h⟩ := bind_eq_ok.mp h
      cases h
      exact Nat.succ_lt_succ (length_readString n (va + 1) hbs)

/-- **A resident string is read as it stands**, without a fault. -/
theorem readString_resident {m : ℕ} (hp : k.procs pid = some p) (hstr : k.StringAt p.pgdir va str)
    (h : readString (access pol n) pid m va k = .ok (bs, k')) : bs = str ∧ k' = k := by
  induction m generalizing va str bs with
  | zero => cases h
  | succ m ih =>
    rw [readString] at h
    obtain ⟨k₁, hk1, hrest⟩ := bind_eq_ok.mp h
    -- the next byte is resident, be it one of the string or its end
    have hread : ∀ c, k.byteAt p.pgdir va = some c →
        k = k₁ ∧ ∃ pg, k.userPage pid va = some pg ∧ pg (pgOff va) = c := fun c hc =>
      ⟨(accessAs_idle ((permits_read hp).mpr (userPage_of_byteAt hp hc).1) hk1).symm,
        (userPage_of_byteAt hp hc).2⟩
    cases str with
    | nil =>
      obtain ⟨rfl, pg, hpg, h0⟩ := hread 0 (hstr.1 0 Nat.one_pos)
      simp only [hpg, if_pos h0] at hrest
      cases hrest
      exact ⟨rfl, rfl⟩
    | cons c str =>
      obtain ⟨hc, hbytes⟩ := bytesAt_cons.mp hstr.1
      obtain ⟨hc0, hnot⟩ := not_or.mp (mem_cons.not.mp hstr.2)
      obtain ⟨rfl, pg, hpg, rfl⟩ := hread c hc
      simp only [hpg, if_neg (Ne.symm hc0)] at hrest
      obtain ⟨⟨bs', k2⟩, hbs', hrest⟩ := bind_eq_ok.mp hrest
      cases hrest
      obtain ⟨rfl, rfl⟩ := ih ⟨hbytes, hnot⟩ hbs'
      exact ⟨rfl, rfl⟩

/-! ## `copyout` -/

/-- **What `copyout` writes to is open to user mode.**  The addresses wrap as the source's do. -/
theorem Closed.copyout (h : Closed pid d B k) (hk : k.copyout d va bs = .ok (true, k')) :
    Closed pid d B k' ∧ ∀ i < bs.length, vpn (va + i) ∉ B := by
  rw [copyout_eq] at hk
  induction bs generalizing va k with
  | nil =>
    cases hk
    exact ⟨h, nofun⟩
  | cons b bs ih =>
    rw [copyoutBytes, uva2ka] at hk
    cases he : k.walkpgdir d va with
    | none =>
      rw [he] at hk
      cases hk
    | some e =>
      simp only [he, ok_bind] at hk
      split at hk
      · cases hk
      rename_i f hf
      obtain ⟨hpu, -⟩ := Option.ite_none_right_eq_some.mp hf
      obtain ⟨h', hopen⟩ := ih (h.fillFrame ..) hk
      refine ⟨h', ?_⟩
      rintro (_ | i) hi hB
      · rw [h.shut va e hB he, Bool.and_false] at hpu
        cases hpu
      · exact hopen i (Nat.lt_of_succ_lt_succ hi) (by rwa [show va + 1 + i = va + (i + 1) by omega])

/-- `copyout` inside one page. -/
theorem copyout_page (hw : k.walkpgdir d va = some e) (hp : e.p = true) (hu : e.u = true)
    (hfit : va % pgSize + bs.length ≤ pgSize) :
    k.copyout d va bs = .ok (true, k.fillFrame e.addr (va % pgSize) bs) := by
  have hka : k.uva2ka d va = .ok (some e.addr) := by simp only [uva2ka, hw, hp, hu, Bool.and_self, if_true]
  have hone := copyoutBytes_append (d := d) (f := e.addr) [] bs va (va % pgSize) (k := k) fun i hi => by
    refine ⟨(uva2ka_congr ?_).trans hka, ?_⟩
    · simp only [vpn, pgSize] at *
      omega
    · simp only [pgSize] at *
      omega
  rw [copyout_eq, ← append_nil bs, hone, append_nil, copyoutBytes]

/-- **The bytes after a page has been filled** are the new ones from `va` on, and the others are as before. -/
theorem Frames.byteAt_fillFrame (h : k.Frames held) (hva : va < kernBase) (hw : k.walkpgdir d va = some e)
    (hp : e.p = true) (he : e.w = true) (hfit : va % pgSize + bs.length ≤ pgSize) {d' : ℕ} (ha : a < 2 ^ 32) :
    (k.fillFrame e.addr (va % pgSize) bs).byteAt d' a
      = if d' = d ∧ va ≤ a ∧ a < va + bs.length then bs[a - va]? else k.byteAt d' a := by
  have hv := vpn_lt_of_lt hva
  have hmem : k.pageAt d (vpn va) = some (k.mem e.addr) := by
    rw [pageAt_of_walk hv hw, Pte.frame_eq_some.mpr ⟨hp, rfl⟩]
    rfl
  rw [byteAt, Kernel.fillFrame, h.pageAt_setMem hv hw hp he]
  by_cases hc : d' = d ∧ vpn a = vpn va
  · obtain ⟨rfl, hav⟩ := hc
    have hiff : va % pgSize ≤ a % pgSize ∧ a % pgSize < va % pgSize + bs.length ↔
        va ≤ a ∧ a < va + bs.length := by
      simp only [vpn, pgSize, kernBase] at *
      omega
    rw [if_pos ⟨rfl, hav⟩, byteAt, hav, hmem]
    simp only [Option.map_some, pgOff, hiff, true_and]
    split
    · rename_i hin
      have hoff : a % pgSize - va % pgSize = a - va := by
        simp only [vpn, pgSize, kernBase] at *
        omega
      rw [hoff, getD_eq_getElem?_getD, List.getElem?_eq_getElem (by omega)]
      rfl
    · rfl
  · rw [if_neg hc, if_neg, byteAt]
    rintro ⟨rfl, hlo, hhi⟩
    refine hc ⟨rfl, ?_⟩
    simp only [vpn, pgSize, kernBase] at *
    omega

/-! ## Pushing the arguments -/

/-- `sp` below a block of `n` bytes, rounded down to a word. -/
def lower (sp n : ℕ) : ℕ := (sp + 2 ^ 32 - n) % 2 ^ 32 / 4 * 4

/-- **A run of the `argv` loop**: the strings as they were read, and where they were copied. -/
inductive Pushes (acc : Access) (pid d : ℕ) :
    List ℕ → ℕ → Kernel → List (List UInt8) → List ℕ → ℕ → Kernel → Prop
  | nil {sp : ℕ} {k : Kernel} : Pushes acc pid d [] sp k [] [] sp k
  | cons {a sp sp' : ℕ} {as : List ℕ} {str : List UInt8} {strs : List (List UInt8)} {ptrs : List ℕ}
      {k k₁ k₂ k' : Kernel} (read : readString acc pid kernBase a k = .ok (str, k₁))
      (copy : k₁.copyout d (lower sp (str.length + 1)) (str ++ [0]) = .ok (true, k₂))
      (rest : Pushes acc pid d as (lower sp (str.length + 1)) k₂ strs ptrs sp' k') :
      Pushes acc pid d (a :: as) sp k (str :: strs) (lower sp (str.length + 1) :: ptrs) sp' k'

theorem Pushes.length {as ptrs : List ℕ} {strs : List (List UInt8)} {sp' : ℕ}
    (h : Pushes acc pid d as sp k strs ptrs sp' k') : strs.length = as.length ∧ ptrs.length = as.length := by
  induction h with
  | nil => exact ⟨rfl, rfl⟩
  | cons _ _ _ ih => simp only [length_cons, ih.1, ih.2, and_self]

/-- The pages of a new image of size `sz` that are closed to user mode: the guard page and the kernel half. -/
abbrev guarded (sz : ℕ) : Set ℕ := insert (vpn (sz - 2 * pgSize)) kernelHalf

/-- The sizes of images: whole pages, two of them for the stack. -/
structure StackTop (sz : ℕ) : Prop where
  aligned : sz % pgSize = 0
  two : 2 * pgSize ≤ sz
  lt : sz < kernBase

/-- **A block below `sp` that is open to user mode lies in the stack page**: one that reaches further down meets
the guard page, and one that wraps begins in the kernel half. -/
theorem StackTop.fits (hsz : StackTop sz) (hlo : sz - pgSize ≤ sp) (hhi : sp ≤ sz) (hpos : 0 < n)
    (hn : n ≤ kernBase) (hopen : ∀ i < n, vpn (lower sp n + i) ∉ guarded sz) :
    sz - pgSize ≤ lower sp n ∧ lower sp n + n ≤ sp ∧ lower sp n % 4 = 0 := by
  obtain ⟨hal, htwo, hlt⟩ := hsz
  have hkern : ∀ va, kernBase ≤ va → va < 2 ^ 32 → vpn va ∈ guarded sz := fun va h1 h2 =>
    .inr (show userPages ≤ vpn va by simp only [vpn, userPages, pgSize, kernBase] at *; omega)
  have hguard : ∀ va, sz - 2 * pgSize ≤ va → va < sz - pgSize → vpn va ∈ guarded sz := fun va h1 h2 =>
    .inl (by simp only [vpn, pgSize, kernBase] at *; omega)
  have hfirst : vpn (lower sp n) ∉ guarded sz := by
    have := hopen 0 hpos
    rwa [Nat.add_zero] at this
  by_cases hwrap : sp < n
  · refine absurd (hkern (lower sp n) ?_ ?_) hfirst
    · simp only [lower, pgSize, kernBase] at *
      omega
    · simp only [lower, pgSize, kernBase] at *
      omega
  · have hlow : lower sp n = (sp - n) / 4 * 4 := by
      simp only [lower, pgSize, kernBase] at *
      omega
    refine ⟨?_, by omega, by omega⟩
    by_contra hout
    -- the block ends above the bottom of the guard page
    by_cases hg : sz - 2 * pgSize ≤ lower sp n
    · exact hfirst (hguard _ hg (by omega))
    · refine hopen (sz - 2 * pgSize - lower sp n) ?_ (hguard _ (by omega) ?_)
      · simp only [pgSize] at *
        omega
      · simp only [pgSize] at *
        omega

/-- The block a string takes. -/
def strBlock (ptr : ℕ) (str : List UInt8) : ℕ × ℕ := (ptr, str.length + 1)

/-- **One string.** -/
theorem Closed.push {k2 : Kernel} (hsz : StackTop sz) (hacc : acc.Calm pid (Closed pid d (guarded sz)))
    (h : Closed pid d (guarded sz) k) (hlo : sz - pgSize ≤ sp) (hhi : sp ≤ sz)
    (hread : readString acc pid kernBase a k = .ok (str, k₁))
    (hcopy : k₁.copyout d (lower sp (str.length + 1)) (str ++ [0]) = .ok (true, k2)) :
    Closed pid d (guarded sz) k2 ∧ sz - pgSize ≤ lower sp (str.length + 1) ∧
      lower sp (str.length + 1) + (str.length + 1) ≤ sp ∧ lower sp (str.length + 1) % 4 = 0 := by
  obtain ⟨h2, hopen⟩ := (readString_yields (fun h => hacc h) _ _ h _ hread).copyout hcopy
  rw [length_append] at hopen
  exact ⟨h2, hsz.fits hlo hhi (Nat.succ_pos _) (length_readString _ _ hread) hopen⟩

/-- **All the strings**: their blocks go down from `sp`, one below the other. -/
theorem Pushes.fits {as ptrs : List ℕ} {strs : List (List UInt8)} {sp' : ℕ} (hsz : StackTop sz)
    (hacc : acc.Calm pid (Closed pid d (guarded sz))) (h : Pushes acc pid d as sp k strs ptrs sp' k')
    (hc : Closed pid d (guarded sz) k) (hlo : sz - pgSize ≤ sp) (hhi : sp ≤ sz) (hal : sp % 4 = 0) :
    Closed pid d (guarded sz) k' ∧ sz - pgSize ≤ sp' ∧ sp' ≤ sp ∧ sp' % 4 = 0 ∧
      ∀ rs, Stacks (sz - pgSize) sp' rs → Stacks (sz - pgSize) sp (List.zipWith strBlock ptrs strs ++ rs) := by
  induction h with
  | nil => exact ⟨hc, hlo, le_rfl, hal, fun _ h => h⟩
  | cons hread hcopy _ ih =>
    obtain ⟨h2, hlo2, hle2, hal2⟩ := hc.push hsz hacc hlo hhi hread hcopy
    obtain ⟨h', hlo', hle', hal', hfits⟩ := ih h2 hlo2 (by omega) hal2
    exact ⟨h', hlo', by omega, hal', fun rs hrs => .cons hlo2 hle2 (hfits rs hrs)⟩

/-! ## What the blocks hold -/

/-- **Only the stack page has changed** since `k₁`, the image as it was loaded. -/
structure Stacked (k₁ : Kernel) (held : Multiset ℕ) (d sz : ℕ) (k : Kernel) : Prop where
  frames : k.Frames held
  procs : k.procs = k₁.procs
  dirs : k.dirs = k₁.dirs
  pages : ∀ d' v, ¬(d' = d ∧ v = vpn (sz - pgSize)) → k.pageAt d' v = k₁.pageAt d' v

/-- A page that user mode may write. -/
def Open (k : Kernel) (d va : ℕ) : Prop :=
  ∃ e, k.walkpgdir d va = some e ∧ e.p = true ∧ e.w = true ∧ e.u = true

/-- **A block in the stack page**: its bytes are there, and the others are as before. -/
theorem Stacked.copyout (hsz : StackTop sz) (hopen : k₁.Open d (sz - pgSize)) (h : Stacked k₁ held d sz k)
    (hlo : sz - pgSize ≤ va) (hhi : va + bs.length ≤ sz) (hbs : bs ≠ [])
    (hk : k.copyout d va bs = .ok (true, k')) :
    Stacked k₁ held d sz k' ∧ k'.BytesAt d va bs ∧
      ∀ a, va + bs.length ≤ a → a < kernBase → k'.byteAt d a = k.byteAt d a := by
  obtain ⟨hal, htwo, hlt⟩ := hsz
  obtain ⟨e, he, hp, hw, hu⟩ := hopen
  have hpos := length_pos_iff.mpr hbs
  have hva : va < kernBase := by omega
  have hv : vpn va = vpn (sz - pgSize) := by
    simp only [vpn, pgSize, kernBase] at *
    omega
  have hfit : va % pgSize + bs.length ≤ pgSize := by
    simp only [pgSize] at *
    omega
  have hwalk : k.walkpgdir d va = some e := by
    rw [k.walkpgdir_congr d hv, walkpgdir, h.dirs, ← walkpgdir, he]
  rw [copyout_page hwalk hp hu hfit] at hk
  cases hk
  have hbyte : ∀ a, a < kernBase → (k.fillFrame e.addr (va % pgSize) bs).byteAt d a
      = if d = d ∧ va ≤ a ∧ a < va + bs.length then bs[a - va]? else k.byteAt d a := fun a ha =>
    h.frames.byteAt_fillFrame hva hwalk hp hw hfit (ha.trans (by decide))
  have hst : ∀ d' v, ¬(d' = d ∧ v = vpn (sz - pgSize)) →
      (k.fillFrame e.addr (va % pgSize) bs).pageAt d' v = k₁.pageAt d' v := fun d' v hne => by
    rw [← hv] at hne
    rw [Kernel.fillFrame, h.frames.pageAt_setMem (vpn_lt_of_lt hva) hwalk hp hw, if_neg hne,
      h.pages d' v (by rwa [← hv])]
  refine ⟨⟨h.frames.setMem .., h.procs, h.dirs, hst⟩, fun i hi => ?_, fun a ha hak => ?_⟩
  · rw [hbyte _ (by omega), if_pos ⟨rfl, by omega, by omega⟩, Nat.add_sub_cancel_left]
  · rw [hbyte a hak, if_neg (by omega)]

/-- **All the strings**, if they are resident: `exec` copies them as they stand.  Later writes below the last of
them do not touch the copies. -/
theorem Pushes.contents {as ptrs : List ℕ} {strs strs0 : List (List UInt8)} {sp' : ℕ} (hsz : StackTop sz)
    (hopen : k₁.Open d (sz - pgSize)) (hp : k₁.procs pid = some p) (hne : p.pgdir ≠ d)
    (h : Pushes (access pol n) pid d as sp k strs ptrs sp' k') (hc : Closed pid d (guarded sz) k)
    (hst : Stacked k₁ held d sz k) (hlo : sz - pgSize ≤ sp) (hhi : sp ≤ sz)
    (hargs : List.Forall₂ (k₁.StringAt p.pgdir) as strs0) :
    strs = strs0 ∧ Stacked k₁ held d sz k' ∧
      ∀ k'' : Kernel, (∀ a, sp' ≤ a → a < kernBase → k''.byteAt d a = k'.byteAt d a) →
        List.Forall₂ (fun ptr str => k''.BytesAt d ptr (str ++ [0])) ptrs strs ∧
        ∀ a, sp ≤ a → a < kernBase → k''.byteAt d a = k.byteAt d a := by
  induction h generalizing strs0 with
  | nil =>
    cases hargs
    exact ⟨rfl, hst, fun k'' hk'' => ⟨.nil, hk''⟩⟩
  | @cons a sp sp' as str strs ptrs k k2 k3 k' hread hcopy _ ih =>
    cases hargs with
    | cons hstr hargs =>
      have hacc : (access pol n).Calm pid (Closed pid d (guarded sz)) :=
        (stable_closed pid d (guarded sz)).accessAs pol n false
      obtain ⟨hc3, hlo3, hle3, -⟩ := hc.push hsz hacc hlo hhi hread hcopy
      obtain ⟨rfl, rfl⟩ := readString_resident (hst.procs ▸ hp)
        (hstr.congr fun v => hst.pages _ v fun hd => hne hd.1) hread
      have hlen : (str ++ [0]).length = str.length + 1 := length_append
      obtain ⟨hst3, hbytes, habove⟩ := hst.copyout hsz hopen hlo3 (by omega) (by simp) hcopy
      obtain ⟨rfl, hst', hrest⟩ := ih hc3 hst3 hlo3 (by omega) hargs
      refine ⟨rfl, hst', fun k'' hk'' => ?_⟩
      obtain ⟨hcopies, hkept⟩ := hrest k'' hk''
      have hlt := hsz.lt
      refine ⟨.cons (hbytes.congr fun i hi => hkept _ (by omega) (by omega)) hcopies, fun a ha hak => ?_⟩
      rw [hkept a (by omega) hak, habove a (by omega) hak]

theorem length_ustack (ptrs : List ℕ) (sp : ℕ) : (ustack ptrs sp).length = 4 * (ptrs.length + 4) := by
  have hword : ∀ w, (toLeBytes w).length = 4 := fun w => by rw [toLeBytes, length_map, length_range]
  rw [ustack, length_flatMap, map_congr_left fun w _ => hword w, map_const',
    sum_replicate_nat]
  simp only [length_append, length_cons, length_nil]
  omega

/-- **The words below the strings** end where these begin, and the third of them points to the fourth. -/
theorem Closed.ustack {ptrs : List ℕ} (hsz : StackTop sz) (h : Closed pid d (guarded sz) k)
    (hlo : sz - pgSize ≤ sp) (hhi : sp ≤ sz) (hal : sp % 4 = 0) (hlen : ptrs.length ≤ maxArg)
    (hk : k.copyout d ((sp + 2 ^ 32 - 4 * (ptrs.length + 4)) % 2 ^ 32) (ustack ptrs sp) = .ok (true, k')) :
    sz - pgSize ≤ (sp + 2 ^ 32 - 4 * (ptrs.length + 4)) % 2 ^ 32 ∧
      (sp + 2 ^ 32 - 4 * (ptrs.length + 4)) % 2 ^ 32 + 4 * (ptrs.length + 4) = sp ∧
      Kernel.ustack ptrs sp = ([0xffffffff, ptrs.length,
        (sp + 2 ^ 32 - 4 * (ptrs.length + 4)) % 2 ^ 32 + 12] ++ ptrs ++ [0]).flatMap toLeBytes := by
  have hlt := hsz.lt
  have hlow : lower sp (4 * (ptrs.length + 4)) = (sp + 2 ^ 32 - 4 * (ptrs.length + 4)) % 2 ^ 32 := by
    simp only [lower, maxArg, kernBase] at *
    omega
  obtain ⟨-, hopen⟩ := h.copyout hk
  rw [length_ustack, ← hlow] at hopen
  obtain ⟨hlo', hle, -⟩ := hsz.fits hlo hhi (by omega) (by simp only [maxArg, kernBase] at *; omega) hopen
  rw [hlow] at hlo' hle
  have hsum : (sp + 2 ^ 32 - 4 * (ptrs.length + 4)) % 2 ^ 32 + 4 * (ptrs.length + 4) = sp := by
    simp only [maxArg, kernBase] at *
    omega
  refine ⟨hlo', hsum, ?_⟩
  have hargv : (sp + 2 ^ 32 - (ptrs.length + 1) * 4) % 2 ^ 32
      = (sp + 2 ^ 32 - 4 * (ptrs.length + 4)) % 2 ^ 32 + 12 := by
    simp only [maxArg, kernBase] at *
    omega
  rw [Kernel.ustack, hargv]

/-! ## The new image takes over -/

/-- The directory and the size of the image of a process. -/
def HasImage (pid d sz : ℕ) (k : Kernel) : Prop := ∃ q, k.procs pid = some q ∧ q.pgdir = d ∧ q.sz = sz

theorem HasImage.releaseSlot (h : HasImage pid d sz k) (cur d' a : ℕ) :
    HasImage pid d sz (k.releaseSlot cur d' a) := by
  obtain ⟨q, hq, hd, hs⟩ := h
  unfold Kernel.releaseSlot
  split
  · exact ⟨q, hq, hd, hs⟩
  · rename_i p hp
    split
    · exact ⟨q, hq, hd, hs⟩
    · rename_i i _
      by_cases hc : pid = cur
      · subst hc
        cases Option.mem_unique hp hq
        exact ⟨_, setProc_procs_self .., hd, hs⟩
      · exact ⟨q, (setProc_procs_of_ne k cur _ hc).trans hq, hd, hs⟩

/-- `freevm` leaves the images of the processes alone. -/
theorem HasImage.freevm (h : HasImage pid d sz k) (cur d' : ℕ) :
    Yields (k.freevm cur d') (HasImage pid d sz) := by
  have hkfree : ∀ {k k' : Kernel} {f : ℕ}, HasImage pid d sz k → k.kfree f = .ok k' → HasImage pid d sz k' := by
    rintro k k' f ⟨q, hq, hqd⟩ hk
    exact ⟨q, procs_of_kfree hk ▸ hq, hqd⟩
  refine .ite yields_error (Yields.bind (P := fun r => HasImage pid d sz r.2) ?_ fun r hr => ?_)
  · rintro ⟨r, k'⟩ hk
    rw [Kernel.deallocuvm, if_neg (by decide)] at hk
    obtain ⟨k₁, hk1, hk⟩ := bind_eq_ok.mp hk
    cases hk
    exact deallocFrom_induction (fun k k₁ a e _ _ _ hk hP => (hkfree hP hk).releaseSlot ..) _ _ k k' le_rfl
      (pgRoundUp_mod 0) h hk1
  · refine Yields.bind (P := HasImage pid d sz) (fun k' hk' => ?_) fun k' hk' =>
      Yields.bind (P := HasImage pid d sz) (fun _ hr => hkfree hk' hr) fun _ hr => yields_ok hr
    refine loop_inv (P := HasImage pid d sz) (fun k x k₁ _ hP hk1 => ?_) hr hk'
    unfold freeTable at hk1
    split at hk1
    · cases hk1
      exact hP
    · obtain ⟨k2, hk2, hk1⟩ := bind_eq_ok.mp hk1
      cases hk1
      exact (hkfree hP hk2 :)

end Kernel

namespace Task

open Kernel

variable {s s' : Task} {pol : Policy} {acc : Access} {namei : List UInt8 → Option (ℕ × ByteFile)}
  {path : List UInt8} {argv : List ℕ} {held : Multiset ℕ} {pid n : ℕ} {p : Proc}

end Task

end Xv6
