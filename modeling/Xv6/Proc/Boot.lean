import Xv6.Proc.Fork
import Xv6.Vm.Room

/-!
# Proc/Boot — the state the first process starts in

`kinit1` manages the pages between `end` and 4MB, `setupkvm` builds the kernel's own directory out of
them, and `kinit2` adds the pages up to `PHYSTOP`.  By then there are frames enough for `userinit`,
whose `inituvm` checks neither `kalloc` nor `mappages`.
-/

namespace Xv6

open Outcome List

namespace Kernel

variable {k k' : Kernel} {kend kdata : ℕ} {init : List UInt8}

/-- What `kernel.ld` and the 4MB of `entrypgdir` guarantee about the symbols `data` and `end`. -/
structure Linked (kend kdata : ℕ) : Prop where
  text : 0x100000 < kdata
  aligned : kdata % pgSize = 0
  order : kdata ≤ kend
  low : kend ≤ 0x400000

/-- Static storage refers to no frame. -/
theorem owner_zero (kend kdata : ℕ) (m : KMem) (s : Site) :
    owner { zero kend kdata with kmem := m } s = none := by
  cases s with
  | pte d v => simp [owner, walkpgdir, zero]
  | table d x => simp [owner, zero]
  | dir d => simp [owner, zero]
  | kstack pid => simp [owner, zero]

/-- A kernel with managed frames and nothing else. -/
theorem inv_zero {m : KMem} (hl : Linked kend kdata) (hkend : m.kend = kend)
    (hcount : ∀ f, m.referencesCount f = 0) (hnodup : m.freelist.Nodup)
    (hman : ∀ f ∈ m.freelist, m.Managed f) : Inv { zero kend kdata with kmem := m } 0 := by
  obtain ⟨htext, hal, horder, hlow⟩ := hl
  have htot : ∀ f, Ledger.total (owner { zero kend kdata with kmem := m }) 0 f = 0 := by
    intro f
    rw [Ledger.total_eq_zero]
    refine ⟨Set.eq_empty_of_forall_notMem fun s hs => ?_, Multiset.notMem_zero f⟩
    rw [Ledger.mem_refs, owner_zero] at hs
    cases hs
  have hframes : Frames { zero kend kdata with kmem := m } 0 := by
    refine ⟨fun f => ?_, hnodup, fun f _ => htot f, fun f hf => ?_, ?_, fun s f hs => ?_,
      fun d va e he => ?_⟩
    · rw [htot f]
      exact_mod_cast (hcount f).symm
    · exact hf.elim (hman f) fun hne => absurd (htot f) hne
    · change 0 < m.kend
      omega
    · rw [owner_zero] at hs
      cases hs
    · simp [walkpgdir, zero] at he
  have hnone : ∀ pid p, (zero kend kdata).procs pid = some p → False :=
    fun _ _ h => Option.some_ne_none _ h.symm
  have hhi : kdata < physTop := by simp only [physTop]; omega
  exact ⟨hframes, fun q r hr => (hnone q r hr).elim, fun q _ r _ hr => (hnone q r hr).elim,
    fun q r hr => (hnone q r hr).elim, fun q r hr => (hnone q r hr).elim,
    fun q r hr => (hnone q r hr).elim, htext, hhi, hal⟩

/-- **`kinit1` starts the invariant.** -/
theorem inv_kinit1 (hl : Linked kend kdata) :
    ∃ m, (zero kend kdata).kmem.kinit1 kend 0x400000 = .ok m ∧
      Inv { zero kend kdata with kmem := m } 0 ∧ m.kend = kend ∧
      m.freelist.length = (0x400000 - pgRoundUp kend) / pgSize ∧
      ∀ f, f ∈ m.freelist ∨ m.referencesCount f ≠ 0 → f < 1024 := by
  have hup : kend ≤ pgRoundUp kend ∧ pgRoundUp kend ≤ 0x400000 ∧ pgRoundUp kend % pgSize = 0 := by
    have := hl.low
    simp only [pgRoundUp, pgSize] at *
    omega
  obtain ⟨m, hm, hkend, hcount, hlist⟩ := KMem.freerangeFrom_ok 0x400000 (by decide)
    (0x400000 / pgSize + 1) (pgRoundUp kend) { (zero kend kdata).kmem with freePages := 0 } hup.2.2
    hup.1 (by simp only [pgSize] at *; omega) (fun _ _ => rfl)
  have hlist : m.freelist = (List.range' (pgRoundUp kend / pgSize)
      ((0x400000 - pgRoundUp kend) / pgSize)).reverse := hlist.trans (append_nil _)
  have hzero : ∀ f, m.referencesCount f = 0 := fun f => by rw [hcount]; rfl
  have hrange : ∀ f ∈ m.freelist, kend ≤ f * pgSize ∧ f < 1024 := by
    intro f hf
    rw [hlist, mem_reverse, mem_range'_1] at hf
    simp only [pgSize] at *
    omega
  refine ⟨m, hm, inv_zero hl hkend hzero ?_ (fun f hf => ?_), hkend, ?_, fun f hf => ?_⟩
  · rw [hlist, nodup_reverse]
    exact nodup_range'
  · obtain ⟨h1, h2⟩ := hrange f hf
    refine ⟨hkend ▸ h1, ?_⟩
    simp only [pgSize, physTop] at *
    omega
  · rw [hlist, length_reverse, length_range']
  · exact hf.elim (fun hf => (hrange f hf).2) fun hne => absurd (hzero f) hne

/-- **`kinit2` keeps the invariant**: the pages from 4MB on are new. -/
theorem Inv.kinit2 (h : k.Inv 0) (hkend : k.kmem.kend ≤ 0x400000)
    (hoff : ∀ f, f ∈ k.kmem.freelist ∨ k.kmem.referencesCount f ≠ 0 → f < 1024) :
    ∃ m, k.kmem.kinit2 0x400000 physTop = .ok m ∧ Inv { k with kmem := m } 0 ∧
      56320 ≤ m.freelist.length := by
  have hzero : ∀ f, 1024 ≤ f → k.kmem.referencesCount f = 0 := by
    intro f hf
    by_contra hne
    have := hoff f (.inr hne)
    omega
  obtain ⟨m, hm, hkend', hcount, hlist⟩ := KMem.freerangeFrom_ok physTop le_rfl
    (physTop / pgSize + 1) (pgRoundUp 0x400000) k.kmem (by decide) hkend (by decide) hzero
  have hlist : m.freelist = (List.range' 1024 56320).reverse ++ k.kmem.freelist := hlist
  refine ⟨m, hm, ?_, ?_⟩
  · refine h.of_dirs ⟨fun f => ?_, ?_, fun f hf => ?_, fun f hf => ?_, ?_, h.frames.sole,
      h.frames.fit⟩ rfl rfl rfl rfl
    · change Ledger.total k.owner 0 f = m.referencesCount f
      rw [hcount]
      exact h.frames.exact f
    · change m.freelist.Nodup
      rw [hlist, nodup_append']
      refine ⟨nodup_reverse.mpr nodup_range', h.frames.nodup, fun f hf hf' => ?_⟩
      rw [mem_reverse, mem_range'_1] at hf
      have := hoff f (.inl hf')
      omega
    · change Ledger.total k.owner 0 f = 0
      rw [h.frames.exact f]
      have hf : f ∈ m.freelist := hf
      rw [hlist, mem_append, mem_reverse, mem_range'_1] at hf
      rcases hf with hf | hf
      · rw [hzero f hf.1]
        rfl
      · rw [← h.frames.exact f]
        exact h.frames.free f hf
    · change m.Managed f
      have hman : k.kmem.Managed f → m.Managed f := fun h => ⟨hkend' ▸ h.1, h.2⟩
      rcases hf with hf | hf
      · have hf : f ∈ m.freelist := hf
        rw [hlist, mem_append, mem_reverse, mem_range'_1] at hf
        rcases hf with hf | hf
        · refine ⟨?_, ?_⟩
          · rw [hkend']
            simp only [pgSize] at *
            omega
          · simp only [pgSize, physTop] at *
            omega
        · exact hman (h.frames.managed f (.inl hf))
      · exact hman (h.frames.managed f (.inr hf))
    · change 0 < m.kend
      rw [hkend']
      exact h.frames.kend_pos
  · rw [hlist, length_append, length_reverse, length_range']
    omega

/-- The kernel's own directory adds no user page. -/
theorem Building.blank {k0 : Kernel} {held : Multiset ℕ} {d : ℕ} (h : Building k0 k held d)
    (hempty : ∀ d va, k0.walkpgdir d va = none) (d' va : ℕ) (hv : vpn va < userPages) :
    k.walkpgdir d' va = none := by
  by_cases hd : d' = d
  · rw [hd, h.user va hv]
  · rw [walkpgdir, h.others d' hd, ← walkpgdir, hempty]

/-! ## The first process -/

/-- An unused entry in static storage. -/
def freshEntry : Entry :=
  have h0 : UserPage 0 := ⟨by decide, rfl⟩
  ⟨zeroEntry, fun _ => h0, fun _ => h0⟩

/-- The first process as `userinit` leaves it: alone, with one page, and no slot in use. -/
def FirstProc (k : Kernel) (pid : ℕ) : Prop :=
  ∃ p f, k.procs pid = some p ∧ p.sz = pgSize ∧
    k.walkpgdir p.pgdir 0 = some { addr := f, p := true, w := true, u := true } ∧
    (∀ i, (p.memoryPages i).isUsed = false) ∧ (∀ i, (p.filePages i).isUsed = false) ∧
    (∀ q r, k.procs q = some r → q = pid) ∧ ∀ d va e, vpn va < userPages →
      k.walkpgdir d va = some e → e = {} ∨ d = p.pgdir ∧ vpn va = 0

/-- **`inituvm` succeeds** on a directory whose user half is empty. -/
theorem inituvm_ok {k0 : Kernel} {held : Multiset ℕ} {s : Finset (Fin 1024)} {d n : ℕ}
    (hb : Building k0 k held d) (hroom : k.Room d s (n + 1)) (hs : pdx 0 ∈ s)
    (hinit : init.length < pgSize) :
    ∃ f k', inituvm k d init = .ok k' ∧ k'.Inv held ∧ k'.Room d s n ∧ k'.procs = k.procs ∧
      k'.nextpid = k.nextpid ∧
      (∀ g, k.kmem.referencesCount g ≠ 0 → k'.kmem.referencesCount g = k.kmem.referencesCount g) ∧
      k'.walkpgdir d 0 = some { addr := f, p := true, w := true, u := true } ∧
      ∀ d' va e, k'.walkpgdir d' va = some e →
        k.walkpgdir d' va = some e ∨ e = {} ∨ d' = d ∧ vpn va = 0 := by
  have h0 : UserPage 0 := ⟨by decide, rfl⟩
  obtain ⟨f, k1, hk1, hroom1⟩ := hroom.kalloc
  have hspec := kalloc_spec hk1
  have h1 := (hb.inv.kalloc hk1).setMem f fun _ => 0
  obtain ⟨e, k2, hw, hroom2⟩ := (hroom1.setMem f fun _ => 0).walkpgdirAlloc hs
  have hep : e.p = false := by
    refine absent_of_alloc hw fun ⟨e', he', _⟩ => ?_
    rw [setMem_walkpgdir, walkpgdir, hspec.2.2.1, ← walkpgdir, hb.user 0 (vpn_lt_of_lt h0.1)] at he'
    cases he'
  have hmap := h1.mapPage { w := true, u := true } h0 hw hep (.inl rfl) fun _ => hspec.1
  refine ⟨f, _, ?_, hmap.setMem f fun o => init.getD o 0, (hroom2.setPte ..).setMem .., ?_, ?_,
    fun g hg => ?_, walkpgdir_setPte_self _ (walkpgdir_of_alloc hw), fun d' va e' he' => ?_⟩
  · rw [inituvm, if_neg (by omega), hk1]
    refine bind_eq_ok.mpr ⟨(true, _), ?_, rfl⟩
    rw [mappages_page h0, hw]
    simp only [hep, Bool.false_eq_true, if_false]
  · exact (procs_of_alloc hw).trans hspec.2.2.2
  · refine (alloc_spec hw).2.1.trans ?_
    obtain ⟨m, -, rfl⟩ := kalloc_eq_some.mp hk1
    rfl
  · have hc := hb.inv.frames.count_of_kalloc hk1 hg
    exact (h1.frames.count_of_alloc hw (by rw [setMem_kmem, hc]; exact hg)).trans hc
  · rw [setMem_walkpgdir] at he'
    by_cases hpage : d' = d ∧ vpn va = vpn 0
    · exact .inr (.inr hpage)
    · rw [walkpgdir_setPte, if_neg hpage] at he'
      rcases walkpgdir_alloc hw d' va with heq | ⟨-, -, hz⟩
      · rw [heq, setMem_walkpgdir, walkpgdir, hspec.2.2.1, ← walkpgdir] at he'
        exact .inl he'
      · rw [hz] at he'
        exact .inr (.inl (Option.some.inj he').symm)

theorem nextpid_of_kalloc {f : ℕ} (hk : k.kalloc = some (f, k')) : k'.nextpid = k.nextpid := by
  obtain ⟨m, -, rfl⟩ := kalloc_eq_some.mp hk
  rfl

/-- **`userinit` succeeds** when there are frames enough. -/
theorem Inv.userinit {q : Entry} {n : ℕ} (h : k.Inv 0) (hnone : ∀ pid, k.procs pid = none)
    (hempty : ∀ d va, vpn va < userPages → k.walkpgdir d va = none) (hinit : init.length < pgSize)
    (hlen : n + 68 ≤ k.kmem.freelist.length) :
    ∃ k', userinit k q.proc init = .ok k' ∧ k'.Inv 0 ∧ k'.FirstProc k.nextpid ∧
      n ≤ k'.kmem.freelist.length := by
  have hb := h.bumpPid
  obtain ⟨f, k1, hk1, hlen1⟩ := exists_kalloc (k := { k with nextpid := k.nextpid + 1 })
    (n := n + 67) hlen
  have hspec := kalloc_spec hk1
  have h1 := hb.kalloc hk1
  have hcard : (insert (pdx 0) kernelTables).card ≤ 65 :=
    (Finset.card_insert_le ..).trans (by rw [card_kernelTables])
  obtain ⟨d, k2, hk2, hroom⟩ := setupkvm_ok (s := insert (pdx 0) kernelTables) (n := n + 1)
    k.nextpid h1.kdata (Finset.subset_insert ..) (by omega)
  obtain ⟨h2, -, hbuild⟩ := h1.setupkvm hk2
  have hbuild := hbuild d rfl
  obtain ⟨g, k3, hk3, h3, hroom3, hprocs, hnext, hcounts, hwalk, hback⟩ :=
    inituvm_ok hbuild hroom (Finset.mem_insert_self ..) hinit
  have hcount2 : k2.kmem.referencesCount f = 1 := by
    rw [hbuild.counts f (by rw [hspec.1]; decide), hspec.1]
  have hprocs3 : k3.procs = k.procs := by rw [hprocs, hbuild.procs, hspec.2.2.2]
  have hnew : k3.procs k.nextpid = none := by rw [hprocs3, hnone]
  refine ⟨k3.setProc k.nextpid { q.proc with
      kstack := f, swapFile := .empty, timestamp := 0, pageFaults := 0, pagedOut := 0
      memoryPages := fun i => { q.proc.memoryPages i with isUsed := false }
      filePages := fun i => { q.proc.filePages i with isUsed := false }
      pgdir := d, sz := pgSize }, ?_, ?_, ?_, ?_⟩
  · rw [Kernel.userinit, allocproc, hk1]
    exact bind_eq_ok.mpr ⟨(some d, k2), hk2, bind_eq_ok.mpr ⟨k3, hk3, rfl⟩⟩
  · refine h3.newProc hnew ?_ hroom3.live (fun r s hs => ?_) ?_ ?_ (.inl ?_)
    · rw [hnext, hbuild.nextpid, nextpid_of_kalloc hk1]
      exact Nat.lt_succ_self _
    · rw [hprocs] at hs
      exact hbuild.alone h1 r s hs
    · exact (hcounts f (by rw [hcount2]; decide)).trans hcount2
    · exact ⟨(by decide : pgSize < kernBase), q.memVa, q.fileVa, nofun,
        nofun⟩
    · exact ⟨nofun, nofun⟩
  · refine ⟨_, g, setProc_procs_self .., rfl, hwalk, fun _ => rfl, fun _ => rfl, fun r s hs => ?_,
      fun d' va e hv he => ?_⟩
    · rcases procs_of_setProc hs with ⟨rfl, -⟩ | ⟨-, hs⟩
      · rfl
      · rw [hprocs3, hnone] at hs
        cases hs
    · rcases hback d' va e he with he | he | he
      · by_cases hd : d' = d
        · rw [hd, hbuild.user va hv] at he
          cases he
        · rw [walkpgdir, hbuild.others d' hd, hspec.2.2.1, ← walkpgdir] at he
          have := hempty d' va hv
          rw [walkpgdir] at this he
          rw [this] at he
          cases he
      · exact .inl he
      · exact .inr he
  · exact le_trans (Nat.le_add_left ..) hroom3.enough

/-- `inituvm` panics on code of a page or more. -/
theorem lt_of_userinit {q : Proc} (h : userinit k q init = .ok k') : init.length < pgSize := by
  unfold userinit at h
  split at h
  · cases h
  · obtain ⟨⟨d, k1⟩, -, h⟩ := bind_eq_ok.mp h
    cases d with
    | none => cases h
    | some d =>
      obtain ⟨k2, hk2, -⟩ := bind_eq_ok.mp h
      by_contra hge
      rw [inituvm, if_pos (by omega)] at hk2
      cases hk2

/-- **Booting leaves the invariant**, with one process and most frames free. -/
theorem boot_spec {k0 : Kernel} (hl : Linked kend kdata) (hb : boot kend kdata init = .ok k0) :
    k0.Inv 0 ∧ k0.FirstProc 1 ∧ 56000 ≤ k0.kmem.freelist.length := by
  obtain ⟨m, hm, hb⟩ := bind_eq_ok.mp hb
  obtain ⟨m', hm', h, hkend, -, hlow⟩ := inv_kinit1 hl
  cases Except.ok.inj (hm.symm.trans hm')
  obtain ⟨⟨d, k1⟩, hk1, hb⟩ := bind_eq_ok.mp hb
  obtain ⟨h1, -, hbuild⟩ := h.setupkvm hk1
  cases d with
  | none => cases hb
  | some d =>
    have hbuild := hbuild d rfl
    obtain ⟨m2, hm2, hb⟩ := bind_eq_ok.mp hb
    obtain ⟨m2', hm2', h2, hlen⟩ := h1.kinit2 (by rw [hbuild.kend, hkend]; exact hl.low)
      fun f hf => hlow f (hbuild.within f hf)
    cases Except.ok.inj (hm2.symm.trans hm2')
    obtain ⟨k2, hk2, h3, hfirst, hlen3⟩ := h2.userinit (q := freshEntry) (n := 56000)
      (fun pid => by rw [hbuild.procs]; rfl) (hbuild.blank fun _ _ => rfl) (lt_of_userinit hb) (le_trans (by decide) hlen)
    cases Except.ok.inj (hb.symm.trans hk2)
    have hpid : k1.nextpid = 1 := hbuild.nextpid
    exact ⟨h3, hpid ▸ hfirst, hlen3⟩

/-- **Booting succeeds** when the kernel leaves the frames for its own directory below 4MB. -/
theorem exists_boot (init : List UInt8) (hl : Linked kend kdata) (hlow : kend + 66 * pgSize ≤ 0x400000)
    (hinit : init.length < pgSize) : ∃ k0, boot kend kdata init = .ok k0 := by
  obtain ⟨m, hm, h, hkend, hlen, hbelow⟩ := inv_kinit1 hl
  have hup : 65 ≤ m.freelist.length := by
    rw [hlen]
    simp only [pgRoundUp, pgSize] at *
    omega
  obtain ⟨d, k1, hk1, -⟩ := setupkvm_ok (s := kernelTables) (n := 0) 0 h.kdata
    (Finset.Subset.refl _) (by rw [card_kernelTables]; exact hup)
  obtain ⟨h1, -, hbuild⟩ := h.setupkvm hk1
  have hbuild := hbuild d rfl
  obtain ⟨m2, hm2, h2, hlen2⟩ := h1.kinit2 (by rw [hbuild.kend, hkend]; exact hl.low)
    fun f hf => hbelow f (hbuild.within f hf)
  obtain ⟨k2, hk2, -⟩ := h2.userinit (q := freshEntry) (n := 56000)
    (fun pid => by rw [hbuild.procs]; rfl) (hbuild.blank fun _ _ => rfl) hinit
    (le_trans (by decide) hlen2)
  exact ⟨k2, bind_eq_ok.mpr ⟨m, hm, bind_eq_ok.mpr ⟨(some d, k1), hk1,
    bind_eq_ok.mpr ⟨m2, hm2, hk2⟩⟩⟩⟩

end Kernel

end Xv6
