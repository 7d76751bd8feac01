import Xv6.Proc.Exec
import Xv6.Vm.Rollback
import Xv6.Vm.Setup
import Xv6.Vm.Stable

/-!
# Proc/Loading — the image that `exec` builds

`exec` forms a directory, fills it with the segments of the file and adds two pages for the stack (`loadImage`).
Two things are said about it.

Whatever is evicted meanwhile, the kernel half of the new directory and the guard page stay closed to user mode
(`Closed`): the paging code opens entries of the running process only, and that has another directory.

As long as there is a free slot of `memory_pages` for every page of the image, nothing is evicted (`Loading`).
The new pages are frames that nobody had, and all frames that were in use are as before.
-/

namespace Xv6

open Outcome Function

/-- `struct elfhdr` of an executable. -/
def ByteFile.elf (b : ByteFile) : ElfHdr := ElfHdr.decode (b.read 0 elfHdrSize).2

/-- The program header at `off`. -/
def ByteFile.progHdr (b : ByteFile) (off : ℕ) : ProgHdr := ProgHdr.decode (b.read off progHdrSize).2

theorem leBytes_lt (bs : List UInt8) : ∀ (n i : ℕ), leBytes bs i n < 256 ^ n
  | 0, _ => Nat.one_pos
  | n + 1, i => by
    have h := leBytes_lt bs n (i + 1)
    have := (bs.getD i 0).toNat_lt
    rw [leBytes, pow_succ]
    omega

theorem ByteFile.progHdr_lt (b : ByteFile) (off : ℕ) :
    (b.progHdr off).vaddr < 2 ^ 32 ∧ (b.progHdr off).memsz < 2 ^ 32 := ⟨leBytes_lt _ 4 8, leBytes_lt _ 4 20⟩

/-- The end of the segments of an executable, for `n` more headers at `off`. -/
def ByteFile.segmentsEnd (b : ByteFile) : ℕ → ℕ → ℕ → ℕ
  | 0, _, sz => sz
  | n + 1, off, sz => b.segmentsEnd n ((off + progHdrSize) % 2 ^ 32)
      (if (b.progHdr off).type = elfProgLoad then
        max sz (((b.progHdr off).vaddr + (b.progHdr off).memsz) % 2 ^ 32) else sz)

namespace Kernel

variable {k k' k₀ k1 : Kernel} {held : Multiset ℕ} {pid d va a f n hi oldsz newsz : ℕ} {p p' : Proc} {e : Pte}
  {pol : Policy} {acc : Access} {b : ByteFile} {B : Set ℕ}

/-- **One program header**: it is skipped, or its segment is added and loaded. -/
theorem loadSegments_eq_ok {off sz : ℕ} {r : ℕ × Kernel}
    (hk : loadSegments pol acc pid b d (n + 1) off sz k = .ok r) :
    (b.progHdr off).type ≠ elfProgLoad ∧
      loadSegments pol acc pid b d n ((off + progHdrSize) % 2 ^ 32) sz k = .ok r ∨
    (b.progHdr off).type = elfProgLoad ∧ (b.progHdr off).filesz ≤ (b.progHdr off).memsz ∧
      (b.progHdr off).vaddr ≤ ((b.progHdr off).vaddr + (b.progHdr off).memsz) % 2 ^ 32 ∧
      (b.progHdr off).vaddr % pgSize = 0 ∧
      ∃ sz1 k1 k2, allocuvm pol acc k pid d sz (((b.progHdr off).vaddr + (b.progHdr off).memsz) % 2 ^ 32)
          = .ok (sz1, k1) ∧ sz1 ≠ 0 ∧
        k1.loaduvm b d (b.progHdr off).vaddr (b.progHdr off).off (b.progHdr off).filesz = .ok (true, k2) ∧
        loadSegments pol acc pid b d n ((off + progHdrSize) % 2 ^ 32) sz1 k2 = .ok r := by
  rw [loadSegments] at hk
  simp only [ByteFile.progHdr]
  generalize b.read off progHdrSize = x at hk ⊢
  obtain ⟨x, bs⟩ := x
  simp only at hk ⊢
  generalize ProgHdr.decode bs = ph at hk ⊢
  split at hk
  · cases hk
  split at hk
  · rename_i htype
    exact .inl ⟨htype, hk⟩
  rename_i htype
  split at hk
  · cases hk
  rename_i hfile
  split at hk
  · cases hk
  rename_i hwrap
  obtain ⟨⟨sz1, k1⟩, hk1, hk⟩ := bind_eq_ok.mp hk
  simp only at hk
  split at hk
  · cases hk
  rename_i h0
  split at hk
  · cases hk
  rename_i hal
  obtain ⟨⟨y, k2⟩, hk2, hk⟩ := bind_eq_ok.mp hk
  cases y with
  | false => cases hk
  | true => exact .inr ⟨not_not.mp htype, by omega, by omega, not_not.mp hal, sz1, k1, k2, hk1, h0, hk2, hk⟩

/-! ## What stays closed -/

/-- Directory `d` is not that of the process, and its pages `B` are closed to user mode. -/
structure Closed (pid d : ℕ) (B : Set ℕ) (k : Kernel) : Prop where
  apart : ∀ p, k.procs pid = some p → p.pgdir ≠ d
  shut : ∀ va e, vpn va ∈ B → k.walkpgdir d va = some e → e.u = false

/-- **The paging code opens no page of another directory.** -/
theorem stable_closed (pid d : ℕ) (B : Set ℕ) : Stable pid (Closed pid d B) where
  same hprocs hwalk h :=
    ⟨fun p hp => h.apart p (hprocs ▸ hp), fun va e hB he => h.shut va e hB (hwalk d va ▸ he)⟩
  agree ha h := by
    refine ⟨fun p hp => ?_, fun va e hB he => ?_⟩
    · obtain ⟨q, hq, hqa⟩ := ha.exists_proc' hp
      exact hqa.pgdir ▸ h.apart q hq
    · obtain ⟨e0, he0, heq⟩ := ha.exists_walk he
      rw [(Pte.unmark_eq heq).2.2.2.1]
      exact h.shut va e0 hB he0
  setProc hp hd _ h := by
    refine ⟨fun q hq => ?_, h.shut⟩
    rw [setProc_procs_self] at hq
    cases hq
    exact hd ▸ h.apart _ hp
  own hp h := by
    refine ⟨h.apart, fun va e hB he => ?_⟩
    rw [walkpgdir_setPte_of_ne (.inl (h.apart _ hp).symm)] at he
    exact h.shut va e hB he
  disk {k d' va' e'} hw h := by
    refine ⟨h.apart, fun va e hB he => ?_⟩
    rcases walk_of_setPte he with ⟨hc, rfl⟩ | ⟨-, he⟩
    · refine h.shut va e' hB ?_
      rw [hc.1, k.walkpgdir_congr d' hc.2, hw]
    · exact h.shut va e hB he

/-- Mapping an open page. -/
theorem Closed.mapPage {perm : Pte} (h : Closed pid d B k) (ha : vpn a ∉ B)
    (hw : k.walkpgdirAlloc d a = some (e, k1)) : Closed pid d B (k1.setPte d a perm) := by
  refine ⟨fun p hp => h.apart p (procs_of_alloc hw ▸ hp), fun va e' hB he' => ?_⟩
  rw [walkpgdir_setPte_of_ne (.inr fun hv => ha (hv ▸ hB))] at he'
  rcases walkpgdir_alloc hw d va with heq | ⟨-, -, hz⟩
  · exact h.shut va e' hB (heq ▸ he')
  · rw [hz] at he'
    cases he'
    rfl

theorem Closed.allocPages (hacc : acc.Calm pid (Closed pid d B)) : ∀ (as : List ℕ) {k k' : Kernel} {r : ℕ},
    (∀ a ∈ as, UserPage a ∧ vpn a ∉ B) → Closed pid d B k →
    allocPages pol acc pid d oldsz newsz as k = .ok (r, k') → r ≠ 0 → Closed pid d B k'
  | [], _, _, _, _, h, hk, _ => by
    cases hk
    exact h
  | a :: as, k, k', r, has, h, hk, hr => by
    obtain ⟨hua, haB⟩ := has a List.mem_cons_self
    rcases allocPages_cons hua hk with
      ⟨h0, -⟩ | ⟨f, k1, hk1, ⟨h0, -⟩ | ⟨e, k2, k3, hw, -, hk3, hk⟩⟩
    · exact absurd h0 hr
    · exact absurd h0 hr
    · have hs := stable_closed pid d B
      have h1 : Closed pid d B (k1.setMem f fun _ => 0) :=
        hs.same (k := k1) rfl (fun _ _ => rfl) (hs.kalloc h hk1)
      exact Closed.allocPages hacc as (fun x hx => has x (List.mem_cons_of_mem a hx))
        (hs.trackPage hacc (h1.mapPage haB hw) _ hk3) hk hr

/-- The pages of the kernel half. -/
def kernelHalf : Set ℕ := {v | userPages ≤ v}

theorem notMem_kernelHalf (ha : UserPage a) : vpn a ∉ kernelHalf := fun h =>
  absurd (vpn_lt_of_lt ha.1) (Nat.not_lt.mpr h)

theorem Closed.allocuvm {r : ℕ} (hacc : acc.Calm pid (Closed pid d kernelHalf)) (h : Closed pid d kernelHalf k)
    (hk : allocuvm pol acc k pid d oldsz newsz = .ok (r, k')) (hr : r ≠ 0) : Closed pid d kernelHalf k' := by
  rcases allocuvm_eq_ok hk with ⟨rfl, -⟩ | ⟨-, -, has, hk⟩
  · exact h
  · exact h.allocPages hacc _ (fun a ha => ⟨has a ha, notMem_kernelHalf (has a ha)⟩) hk hr

theorem Closed.fillFrame (h : Closed pid d B k) (f o : ℕ) (bs : List UInt8) :
    Closed pid d B (k.fillFrame f o bs) :=
  (stable_closed pid d B).same (k := k) rfl (fun _ _ => rfl) h

theorem Closed.loadSegments (hacc : acc.Calm pid (Closed pid d kernelHalf)) (h : Closed pid d kernelHalf k)
    {off sz : ℕ} : Yields (loadSegments pol acc pid b d n off sz k) fun r => Closed pid d kernelHalf r.2 :=
  loadSegments_yields (fun h => h.fillFrame ..) (fun h _ hr h0 => h.allocuvm hacc hr h0) _ _ _ h

/-! ## Without evictions -/

/-- **The pages of `d` below `hi` are new**, and nothing that was in use in `k₀` has changed.  The free slots of
the process last for `N` pages in all. -/
structure Loading (k₀ : Kernel) (held : Multiset ℕ) (pid d N hi : ℕ) (k : Kernel) : Prop where
  frames : k.Frames held
  below : hi ≤ kernBase
  aligned : hi % pgSize = 0
  dirs : ∀ d', d' ≠ d → k.dirs d' = k₀.dirs d'
  counts : ∀ f, k₀.kmem.referencesCount f ≠ 0 → k.kmem.referencesCount f = k₀.kmem.referencesCount f
  mem : ∀ f, k₀.kmem.referencesCount f ≠ 0 → k.mem f = k₀.mem f
  fresh : ∀ v f, k.owner (.pte d v) = some f → k₀.kmem.referencesCount f = 0
  proc : ∃ p₀ p, k₀.procs pid = some p₀ ∧ k.procs pid = some p ∧ p.pgdir = p₀.pgdir ∧
    (2 < pid → N ≤ p.free + hi / pgSize)
  mapped : ∀ va, va < hi → ∃ e, k.walkpgdir d va = some e ∧ e.p = true ∧ e.w = true ∧ e.u = true
  unmapped : ∀ va, hi ≤ va → va < kernBase → ¬ k.Present d va

variable {N : ℕ}

/-- A frame in use is not the one `kalloc` takes. -/
theorem Loading.count_of_kalloc (h : Loading k₀ held pid d N hi k) (hk : k.kalloc = some (f, k')) :
    k₀.kmem.referencesCount f = 0 := by
  by_contra hne
  rw [← h.counts f hne, h.frames.count_of_free hk] at hne
  exact hne rfl

/-- The entries after a new page is mapped. -/
theorem walkpgdir_mapNewPage {k2 : Kernel} (hk : k.kalloc = some (f, k1))
    (hw : (k1.setMem f fun _ => 0).walkpgdirAlloc d a = some (e, k2)) (new : Pte) (d' va : ℕ) :
    (k2.setPte d a new).walkpgdir d' va = (if d' = d ∧ vpn va = vpn a then some new else k.walkpgdir d' va) ∨
      k.walkpgdir d' va = none ∧ (k2.setPte d a new).walkpgdir d' va = some {} := by
  have hwalk : (k1.setMem f fun _ => 0).walkpgdir d' va = k.walkpgdir d' va := by
    rw [setMem_walkpgdir, walkpgdir, (kalloc_spec hk).2.2.1, ← walkpgdir]
  rw [walkpgdir_setPte]
  split
  · rename_i hc
    rw [hc.1, k2.walkpgdir_congr d hc.2, walkpgdir_of_alloc hw]
    exact .inl rfl
  · rcases walkpgdir_alloc hw d' va with heq | ⟨-, hn, hz⟩
    · rw [heq, hwalk]
      exact .inl rfl
    · rw [hz, ← hwalk]
      exact .inr ⟨hn, rfl⟩

/-- The frames of the pages after a new page is mapped. -/
theorem owner_mapNewPage {k2 : Kernel} (hk : k.kalloc = some (f, k1)) (ha : UserPage a)
    (hw : (k1.setMem f fun _ => 0).walkpgdirAlloc d a = some (e, k2)) (d' v : ℕ) :
    (k2.setPte d a { w := true, u := true, addr := f, p := true }).owner (.pte d' v)
      = if d' = d ∧ v = vpn a then some f else k.owner (.pte d' v) := by
  rw [owner, owner]
  split
  · rename_i hv
    rcases walkpgdir_mapNewPage hk hw { w := true, u := true, addr := f, p := true } d' (v * pgSize) with
      heq | ⟨hn, hz⟩
    · rw [heq, vpn_mul hv]
      split <;> rfl
    · rw [hz, hn, if_neg]
      · rfl
      · rintro ⟨rfl, rfl⟩
        rw [walkpgdir_congr _ d' (vpn_mul hv), walkpgdir_setPte_self _ (walkpgdir_of_alloc hw)] at hz
        cases hz
  · rename_i hv
    rw [if_neg]
    rintro ⟨-, rfl⟩
    exact hv (vpn_lt_of_lt ha.1)

theorem dirs_of_alloc {d' : ℕ} (hw : k.walkpgdirAlloc d a = some (e, k')) (hd : d' ≠ d) :
    k'.dirs d' = k.dirs d' := by
  rcases walkpgdirAlloc_eq_some hw with ⟨-, rfl⟩ | ⟨-, f, k1, pd, hk1, -, -, rfl⟩
  · rfl
  · rw [← (kalloc_spec hk1).2.2.1]
    exact update_of_ne hd ..

/-- **One more page.** -/
theorem Loading.mapPage {k2 : Kernel} (h : Loading k₀ held pid d N hi k) (hhi : hi < kernBase)
    (hk : k.kalloc = some (f, k1)) (hw : (k1.setMem f fun _ => 0).walkpgdirAlloc d hi = some (e, k2)) :
    Loading k₀ held pid d N (hi + pgSize) (k2.setPte d hi { w := true, u := true, addr := f, p := true }) := by
  obtain ⟨p0, p, hp0, hp, hd, hroom⟩ := h.proc
  obtain ⟨hcount, hmem, hdirs, hprocs⟩ := kalloc_spec hk
  have hal := h.aligned
  have hf0 := h.count_of_kalloc hk
  have hwalk := walkpgdir_mapNewPage hk hw { w := true, u := true, addr := f, p := true } d
  have hf1 := (h.frames.kalloc hk).setMem f fun _ => 0
  have habsent : e.p = false := by
    refine absent_of_alloc hw fun hpres => h.unmapped hi le_rfl hhi ?_
    rwa [Present, setMem_walkpgdir, walkpgdir, hdirs, ← walkpgdir] at hpres
  have hsame : ∀ va, va < kernBase → (vpn va = vpn hi ↔ hi ≤ va ∧ va < hi + pgSize) := fun va hva => by
    rw [vpn_of_lt hva, vpn_of_lt hhi]
    simp only [pgSize] at *
    omega
  refine ⟨?_, ?_, ?_, fun d' hd' => ?_, fun g hg => ?_, fun g hg => ?_, fun v g hg => ?_,
    ⟨p0, p, hp0, ?_, hd, fun hpid => ?_⟩, fun va hva => ?_, fun va hlo hva hpres => ?_⟩
  · refine Frames.map (hf1.walkpgdirAlloc hw) (vpn_lt_of_lt hhi) (walkpgdir_of_alloc hw) habsent rfl (.inl rfl)
      fun _ => ?_
    exact (hf1.count_of_alloc hw (by rw [setMem_kmem, hcount]; decide)).trans hcount
  · simp only [pgSize, kernBase] at *
    omega
  · simp only [pgSize] at *
    omega
  · rw [← h.dirs d' hd', ← hdirs]
    exact (update_of_ne hd' ..).trans (dirs_of_alloc hw hd' :)
  · have hne : k1.kmem.referencesCount g = k.kmem.referencesCount g :=
      h.frames.count_of_kalloc hk (by rwa [h.counts g hg])
    rw [h.counts g hg] at hne
    exact (hf1.count_of_alloc hw (by rw [setMem_kmem, hne]; exact hg)).trans hne
  · have hgf : g ≠ f := fun heq => hg (heq ▸ hf0)
    rw [← h.mem g hg, ← hmem]
    exact (congrFun (alloc_spec hw).1 g).trans (update_of_ne hgf ..)
  · rw [owner_mapNewPage hk ⟨hhi, hal⟩ hw] at hg
    split at hg
    · exact Option.some.inj hg ▸ hf0
    · exact h.fresh v g hg
  · rw [setPte_procs, procs_of_alloc hw, setMem_procs, hprocs, hp]
  · have := hroom hpid
    simp only [pgSize] at *
    omega
  · by_cases hlt : va < hi
    · obtain ⟨e', he', hflags⟩ := h.mapped va hlt
      rcases hwalk va with heq | ⟨hn, -⟩
      · rw [if_neg fun hc => by have := (hsame va (hlt.trans hhi)).mp hc.2; omega] at heq
        exact ⟨e', heq.trans he', hflags⟩
      · rw [hn] at he'
        cases he'
    · have hvv : vpn va = vpn hi := (hsame va (by simp only [pgSize, kernBase] at *; omega)).mpr (by omega)
      exact ⟨{ w := true, u := true, addr := f, p := true },
        by rw [walkpgdir_congr _ d hvv, walkpgdir_setPte_self _ (walkpgdir_of_alloc hw)], rfl, rfl, rfl⟩
  · obtain ⟨e', he', hep'⟩ := hpres
    rcases hwalk va with heq | ⟨-, hz⟩
    · rw [if_neg fun hc => by have := (hsame va hva).mp hc.2; omega] at heq
      exact h.unmapped va (by omega) hva ⟨e', heq ▸ he', hep'⟩
    · rw [hz] at he'
      cases he'
      cases hep'

theorem Loading.setProc {q : Proc} (h : Loading k₀ held pid d N hi k) (hp : k.procs pid = some p)
    (hd : q.pgdir = p.pgdir) (hk : q.kstack = p.kstack) (hroom : 2 < pid → N ≤ q.free + hi / pgSize) :
    Loading k₀ held pid d N hi (k.setProc pid q) := by
  obtain ⟨p0, p', hp0, hp', hd', -⟩ := h.proc
  cases Option.mem_unique hp hp'
  exact ⟨h.frames.setProc hp hk, h.below, h.aligned, h.dirs, h.counts, h.mem, h.fresh,
    ⟨p0, q, hp0, setProc_procs_self .., hd.trans hd', hroom⟩, h.mapped, h.unmapped⟩

/-- **The loop of `allocuvm`** adds zero pages, if it does not fail. -/
theorem Loading.allocPages : ∀ (n hi : ℕ) {k k' : Kernel} {r : ℕ}, Loading k₀ held pid d N hi k →
    hi + n * pgSize ≤ kernBase → (2 < pid → hi / pgSize + n ≤ N) →
    allocPages pol acc pid d oldsz newsz ((List.range n).map fun i => hi + i * pgSize) k = .ok (r, k') → r ≠ 0 →
    Loading k₀ held pid d N (hi + n * pgSize) k' ∧ ∀ v, k'.pageAt d v
      = if hi ≤ v * pgSize ∧ v * pgSize < hi + n * pgSize then some (fun _ => 0) else k.pageAt d v
  | 0, hi, k, k', r, h, _, _, hk, _ => by
    cases hk
    refine ⟨by simpa using h, fun v => ?_⟩
    rw [if_neg (by omega)]
  | n + 1, hi, k, k', r, h, hle, hN, hk, hr => by
    rw [map_range_succ] at hk
    have hadd : hi + (n + 1) * pgSize = hi + pgSize + n * pgSize := by ring
    have hal := h.aligned
    have hhi : hi < kernBase := by
      simp only [pgSize] at *
      omega
    rcases allocPages_cons ⟨hhi, hal⟩ hk with
      ⟨h0, -⟩ | ⟨f, k1, hk1, ⟨h0, -⟩ | ⟨e, k2, k3, hw, -, hk3, hk⟩⟩
    · exact absurd h0 hr
    · exact absurd h0 hr
    · obtain ⟨-, p, -, hp, -, hroom⟩ := h.proc
      have hp2 : (k2.setPte d hi { w := true, u := true, addr := f, p := true }).procs pid = some p := by
        rw [setPte_procs, procs_of_alloc hw, setMem_procs, (kalloc_spec hk1).2.2.2, hp]
      obtain ⟨q, rfl, hqd, -, hqk, hqfree⟩ := trackPage_eq_ok hp2
        (fun hpid => by have := hroom hpid; have := hN hpid; omega) hk3
      have hdiv : (hi + pgSize) / pgSize = hi / pgSize + 1 := by
        simp only [pgSize]
        omega
      have h3 := (h.mapPage hhi hk1 hw).setProc hp2 hqd hqk
        (fun hpid => by have := hroom hpid; omega)
      obtain ⟨h', hpages⟩ := Loading.allocPages n (hi + pgSize) h3 (hadd ▸ hle)
        (fun hpid => by have := hN hpid; omega) hk hr
      refine ⟨hadd ▸ h', fun v => ?_⟩
      have hpage := pageAt_mapNewPage h.frames hk1 ⟨hhi, hal⟩ hw d v
      have hvh : v = vpn hi ↔ v * pgSize = hi := by
        rw [vpn_of_lt hhi]
        simp only [pgSize] at *
        omega
      have hlo := le_mul_pgSize_iff hal v
      have hpos : 0 < pgSize := by decide
      rw [hpages, hadd]
      change (if _ then _ else (k2.setPte d hi _).pageAt d v) = _
      rw [hpage]
      simp only [true_and]
      split_ifs <;> first | rfl | omega

/-- **`allocuvm` adds the pages up to the new size**, if it does not fail. -/
theorem Loading.allocuvm {r : ℕ} (h : Loading k₀ held pid d N (pgRoundUp oldsz) k) (hold : oldsz < kernBase)
    (hN : 2 < pid → pgRoundUp newsz / pgSize ≤ N)
    (hk : allocuvm pol acc k pid d oldsz newsz = .ok (r, k')) (hr : r ≠ 0) :
    r = max oldsz newsz ∧ r < kernBase ∧ Loading k₀ held pid d N (pgRoundUp r) k' ∧
      ∀ v, k'.pageAt d v = if pgRoundUp oldsz ≤ v * pgSize ∧ v * pgSize < newsz then some (fun _ => 0)
        else k.pageAt d v := by
  have hup := pgRoundUp_of_lt hold
  rcases allocuvm_eq_ok hk with ⟨rfl, h0 | ⟨rfl, hlt⟩⟩ | ⟨hnew, hle, has, hk⟩
  · exact absurd h0 hr
  · refine ⟨by omega, hold, h, fun v => ?_⟩
    rw [if_neg (by simp only [pgSize] at *; omega)]
  have hup' := pgRoundUp_of_lt hnew
  have hlen := pagesFrom_end hold hnew hle
  obtain ⟨h', hpages⟩ := h.allocPages _ _ (by rw [hlen, hup']; simp only [pgSize, kernBase] at *; omega)
    (fun hpid => by rw [← Nat.add_mul_div_right _ _ (by decide), hlen]; exact hN hpid) hk hr
  obtain rfl : r = newsz := (allocPages_result _ has hk).resolve_right hr
  rw [hlen] at h' hpages
  have hiff : ∀ v, v * pgSize < pgRoundUp r ↔ v * pgSize < r := fun v => by
    rw [hup']
    simp only [pgSize]
    omega
  exact ⟨by omega, by omega, h', fun v => by simp only [hpages, hiff]⟩

/-- What a page shows after bytes have gone to it, from `o` on. -/
def overlay (pg : Page) (o : ℕ) (bs : List UInt8) : Page :=
  fun i => if o ≤ i ∧ i < o + bs.length then bs.getD (i - o) 0 else pg i

/-- **Filling a page of the image.** -/
theorem Loading.fillFrame (h : Loading k₀ held pid d N hi k) (hva : va < hi) (hw : k.walkpgdir d va = some e)
    (o : ℕ) (bs : List UInt8) :
    Loading k₀ held pid d N hi (k.fillFrame e.addr o bs) ∧
      ∀ d' v, (k.fillFrame e.addr o bs).pageAt d' v
        = if d' = d ∧ v = vpn va then (k.pageAt d v).map fun pg => overlay pg o bs else k.pageAt d' v := by
  obtain ⟨e', he', hep, hew, -⟩ := h.mapped va hva
  cases Option.mem_unique hw he'
  have hv := vpn_lt_of_lt (hva.trans_le h.below)
  have hown : k.owner (.pte d (vpn va)) = some e.addr := by
    rw [owner_pte_of_walk hv hw]
    exact Pte.frame_eq_some.mpr ⟨hep, rfl⟩
  refine ⟨⟨h.frames.setMem .., h.below, h.aligned, h.dirs, h.counts, fun g hg => ?_, h.fresh, h.proc, h.mapped,
    h.unmapped⟩, fun d' v => ?_⟩
  · rw [← h.mem g hg]
    exact update_of_ne (fun heq : g = e.addr => hg (heq ▸ h.fresh _ _ hown)) ..
  · refine (h.frames.pageAt_setMem hv hw hep hew _ d' v).trans ?_
    split
    · rename_i hc
      rw [hc.2, pageAt, hown]
      rfl
    · rfl

theorem Loading.loadPages {addr off sz : ℕ} : ∀ (is : List ℕ) {k : Kernel}, (∀ i ∈ is, addr + i < hi) →
    Loading k₀ held pid d N hi k →
    Yields (loadPages b d addr off sz is k) fun r => Loading k₀ held pid d N hi r.2
  | [], _, _, h => yields_ok h
  | i :: is, k, his, h => by
    rw [Kernel.loadPages]
    split
    · exact yields_error
    · rename_i e he
      have h1 := fun o bs => (h.fillFrame (his i List.mem_cons_self) he o bs).1
      refine .ite (yields_ok (h1 ..)) ?_
      exact Loading.loadPages is (fun j hj => his j (List.mem_cons_of_mem i hj)) (h1 ..)

theorem mem_pagesFrom_zero {sz i : ℕ} (h : i ∈ pagesFrom 0 sz) : i < sz := by
  obtain ⟨j, hj, rfl⟩ := List.mem_map.mp h
  rw [List.mem_range] at hj
  simp only [pgSize] at *
  omega

theorem Loading.loaduvm {addr off sz : ℕ} {r : Bool} (h : Loading k₀ held pid d N hi k) (hle : addr + sz ≤ hi)
    (hk : k.loaduvm b d addr off sz = .ok (r, k')) : Loading k₀ held pid d N hi k' := by
  unfold Kernel.loaduvm at hk
  split at hk
  · cases hk
  · exact h.loadPages _ (fun i hi => by have := mem_pagesFrom_zero hi; omega) _ hk

theorem le_segmentsEnd (b : ByteFile) : ∀ (n off sz : ℕ), sz ≤ b.segmentsEnd n off sz
  | 0, _, _ => le_rfl
  | n + 1, off, sz => by
    refine le_trans ?_ (le_segmentsEnd b n _ _)
    split
    · exact le_max_left ..
    · exact le_rfl

/-- The size `allocuvm` returns, if it does not fail. -/
theorem allocuvm_max {r : ℕ} (hk : allocuvm pol acc k pid d oldsz newsz = .ok (r, k')) (hr : r ≠ 0) :
    newsz < kernBase ∧ r = max oldsz newsz := by
  by_cases hbase : kernBase ≤ newsz
  · rw [Kernel.allocuvm, if_pos hbase] at hk
    cases hk
    exact absurd rfl hr
  by_cases hlt : newsz < oldsz
  · rw [Kernel.allocuvm, if_neg hbase, if_pos hlt] at hk
    cases hk
    omega
  · have := (allocuvm_result (Nat.not_lt.mp hlt) hk).resolve_right hr
    omega

/-- **The segments end where their headers say.** -/
theorem loadSegments_result {r : ℕ} (hsz : oldsz < kernBase) {off : ℕ}
    (hk : loadSegments pol acc pid b d n off oldsz k = .ok (r, k')) :
    r = b.segmentsEnd n off oldsz ∧ r < kernBase := by
  induction n generalizing off oldsz k with
  | zero =>
    cases hk
    exact ⟨rfl, hsz⟩
  | succ n ih =>
    rw [ByteFile.segmentsEnd]
    rcases loadSegments_eq_ok hk with ⟨htype, hk⟩ | ⟨htype, -, -, -, sz1, k1, k2, hk1, h0, -, hk⟩
    · rw [if_neg htype]
      exact ih hsz hk
    · obtain ⟨hnew, rfl⟩ := allocuvm_max hk1 h0
      rw [if_pos htype]
      exact ih (max_lt hsz hnew) hk

/-- **The program headers** are loaded. -/
theorem Loading.loadSegments {r off : ℕ} (h : Loading k₀ held pid d N (pgRoundUp oldsz) k)
    (hsz : oldsz < kernBase) (hN : 2 < pid → pgRoundUp r / pgSize ≤ N)
    (hk : loadSegments pol acc pid b d n off oldsz k = .ok (r, k')) :
    Loading k₀ held pid d N (pgRoundUp r) k' := by
  induction n generalizing off oldsz k with
  | zero =>
    cases hk
    exact h
  | succ n ih =>
    rcases loadSegments_eq_ok hk with ⟨-, hk⟩ | ⟨-, hfile, hwrap, -, sz1, k1, k2, hk1, h0, hk2, hk⟩
    · exact ih h hsz hk
    · obtain ⟨hnew, hmax⟩ := allocuvm_max hk1 h0
      have hsz1 : sz1 < kernBase := hmax ▸ max_lt hsz hnew
      obtain ⟨hr, hrlt⟩ := loadSegments_result hsz1 hk
      have hle : sz1 ≤ r := hr ▸ le_segmentsEnd b n _ sz1
      have hN1 : 2 < pid →
          pgRoundUp (((b.progHdr off).vaddr + (b.progHdr off).memsz) % 2 ^ 32) / pgSize ≤ N := fun hpid => by
        refine le_trans (Nat.div_le_div_right ?_) (hN hpid)
        rw [pgRoundUp_of_lt hnew, pgRoundUp_of_lt hrlt]
        simp only [pgSize]
        omega
      obtain ⟨-, -, h1, -⟩ := h.allocuvm hsz hN1 hk1 h0
      refine ih (h1.loaduvm ?_ hk2) hsz1 hk
      have := le_pgRoundUp hsz1
      have := b.progHdr_lt off
      omega

end Kernel

end Xv6
