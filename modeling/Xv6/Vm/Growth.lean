import Xv6.Vm.Space

/-!
# Vm/Growth — `allocuvm` keeps the invariant

A new page is mapped first and entered in `memory_pages` afterwards, and making room for its slot may
evict another page in between.  In a settled process the new page has no slot yet, so it is not the
one evicted (`Ready`).
-/

namespace Xv6

open Outcome

/-- Page `a` is present and has no slot yet; or the slots need not tell. -/
def Proc.Ready (p : Proc) (k : Kernel) (a : ℕ) : Prop :=
  (p.Settled k ∧ k.Present p.pgdir a ∧
    ∀ l, (p.memoryPages l).isUsed = true → (p.memoryPages l).va ≠ a) ∨ p.AllOwn

namespace Kernel

variable {k k' : Kernel} {held : Multiset ℕ} {pid d a f oldsz newsz : ℕ} {p p' : Proc}
  {i : Fin maxPsycPages} {r : Option (Fin maxPsycPages)} {pol : Policy} {acc : Access}

theorem Agree.ready (h : k.Agree k') (hp : p.Agree p') (hr : p.Ready k a) : p'.Ready k' a := by
  refine hr.imp (fun ⟨hset, hpres, hne⟩ => ⟨hp.settled (fun va => h.present) hset, ?_, fun l hl => ?_⟩)
    hp.allOwn
  · rw [hp.pgdir]
    exact h.present hpres
  · obtain ⟨m, -, hva, hu⟩ := hp.exists_slot l
    rw [hva]
    exact hne m (hu ▸ hl)

/-- `swap` leaves the new page alone. -/
theorem Inv.swap_ready (hacc : acc.Keeps) (h : k.Inv held) (hp : k.procs pid = some p)
    (hfull : ∀ i, (p.memoryPages i).isUsed = true) (ha : UserPage a) (hr : p.Ready k a)
    (hs : Kernel.swap pol acc k pid = .ok (r, k')) :
    ∃ p', k'.procs pid = some p' ∧ p'.pgdir = p.pgdir ∧ p'.Ready k' a := by
  obtain ⟨-, hstay⟩ := h.swap hacc hp hfull hs
  rcases hr with ⟨hset, hpres, hne⟩ | hall
  · obtain ⟨i, k1, p1, hka, hp1, hpa, hcase⟩ := swap_eq_ok hp hs
    rcases hcase with ⟨-, rfl, -⟩ | ⟨j, k2, -, hw, hm, -⟩
    · exact ⟨p1, hp1, hpa.pgdir, hka.ready hpa (.inl ⟨hset, hpres, hne⟩)⟩
    · have h1 := h.agree hka
      have hu : (p1.memoryPages i).isUsed = true := by
        obtain ⟨l, -, -, hl⟩ := hpa.exists_slot i
        rw [hl, hfull l]
      have hne1 : ∀ l, (p1.memoryPages l).isUsed = true → (p1.memoryPages l).va ≠ a := by
        intro l hl
        obtain ⟨m, -, hva, hm⟩ := hpa.exists_slot l
        rw [hva]
        exact hne m (hm ▸ hl)
      have hset1 := hpa.settled (fun va => hka.present) hset
      have ho1 := h1.own pid p1 hp1
      obtain ⟨pg, -, rfl⟩ := writeUserToSwapFile_idle hacc hp1 (hset1.present i hu) hw
      have hset2 : (p1.setSwapFile (p1.swapFile.write (j * pgSize) pg)).Settled
          (k1.setProc pid (p1.setSwapFile (p1.swapFile.write (j * pgSize) pg))) :=
        (hset1.setSwapFile _).of_walk fun _ _ => rfl
      obtain ⟨-, -, hq⟩ := (h1.setSwapFile hp1 (p1.swapFile.write (j * pgSize) pg)).moveToFile
        (setProc_procs_self ..) (ho1.memDir i hu) (.inl ⟨hset2, hu⟩) hm
      obtain ⟨q, hq, hqd, hqs, hql, hqp⟩ := hq hset2 hu
      refine ⟨q, hq, hqd.trans hpa.pgdir, .inl ⟨hqs, ?_, fun l hl heq => ?_⟩⟩
      · rw [hqd]
        refine hqp a (fun hv => hne1 i hu ((ho1.memVa i).eq_of_vpn ha hv.symm)) ?_
        have := hka.present hpres
        rwa [← hpa.pgdir] at this
      · obtain ⟨-, hleq⟩ := hql l hl
        rw [hleq] at hl heq
        exact hne1 l hl heq
  · obtain ⟨p', hp', hd', ho'⟩ := hstay p hp
    exact ⟨p', hp', hd', .inr (ho' hall)⟩

/-- **What `chooseSlot` can do**: take a free slot (under `AQ`, the front of the rotated queue), or
`swap`. -/
theorem chooseSlot_eq_ok (hp : k.procs pid = some p) (h : chooseSlot pol acc k pid = .ok (r, k')) :
    (∃ i, p.nextFreeIInMem = some i ∧ (pol.aq = false ∧ r = some i ∧ k' = k ∨
      pol.aq = true ∧ r = some 0 ∧ k' = k.setProc pid p.aqNext)) ∨
    p.nextFreeIInMem = none ∧ swap pol acc k pid = .ok (r, k') := by
  replace h := of_proc_bind hp h
  split at h
  · rename_i i hi
    split at h
    · rename_i haq
      cases h
      exact .inl ⟨i, hi, .inr ⟨haq, rfl, rfl⟩⟩
    · rename_i haq
      cases h
      exact .inl ⟨i, hi, .inl ⟨by simpa using haq, rfl, rfl⟩⟩
  · rename_i hnone
    exact .inr ⟨hnone, h⟩

theorem Inv.chooseSlot (hacc : acc.Keeps) (h : k.Inv held) (hp : k.procs pid = some p)
    (ha : UserPage a) (hr : p.Ready k a) (hc : chooseSlot pol acc k pid = .ok (r, k')) :
    k'.Inv held ∧ ∃ p', k'.procs pid = some p' ∧ p'.pgdir = p.pgdir ∧ (p.AllOwn → p'.AllOwn) ∧
      p'.Ready k' a := by
  rcases chooseSlot_eq_ok hp hc with ⟨i, -, ⟨-, -, rfl⟩ | ⟨-, -, rfl⟩⟩ | ⟨hfull, hs⟩
  · exact ⟨h, p, hp, rfl, id, hr⟩
  · have hpa := Policy.agree_aqNext p
    have hka : k.Agree (k.setProc pid p.aqNext) := .setProc hp hpa
    exact ⟨h.agree hka, p.aqNext, setProc_procs_self .., rfl, hpa.allOwn, hka.ready hpa hr⟩
  · rw [nextFreeIInMem_eq_none] at hfull
    obtain ⟨h', hst⟩ := h.swap hacc hp hfull hs
    obtain ⟨p', hp', hd', hr'⟩ := h.swap_ready hacc hp hfull ha hr hs
    obtain ⟨q, hq, -, hqo⟩ := hst p hp
    cases Option.mem_unique hp' hq
    exact ⟨h', p', hp', hd', hqo, hr'⟩

/-- **Entering a new page keeps the invariant.** -/
theorem Inv.trackPage (hacc : acc.Keeps) (h : k.Inv held) (hp : k.procs pid = some p)
    (hd : d = p.pgdir) (ha : UserPage a) (hr : p.Ready k a)
    (ht : trackPage pol acc k pid d a = .ok k') : k'.Inv held ∧ k.Stays k' pid := by
  unfold Kernel.trackPage at ht
  split at ht
  · obtain ⟨⟨r, k1⟩, hc, ht⟩ := bind_eq_ok.mp ht
    obtain ⟨h1, p1, hp1, hd1, ho1, hr1⟩ := h.chooseSlot hacc hp ha hr hc
    replace ht := of_proc_bind hp1 ht
    cases ht
    have hown := h1.own pid p1 hp1
    have hdir : (newSlot pol p1 d a).pgdir = p1.pgdir := by rw [hd1, ← hd]; rfl
    have hpgdir : ({ p1.storeMemSlot r (newSlot pol p1 d a) with
        timestamp := incUint p1.timestamp } : Proc).pgdir = p1.pgdir := by cases r <;> rfl
    have hkstack : ({ p1.storeMemSlot r (newSlot pol p1 d a) with
        timestamp := incUint p1.timestamp } : Proc).kstack = p1.kstack := by cases r <;> rfl
    have hown' : (p1.storeMemSlot r (newSlot pol p1 d a)).Own := by
      cases r with
      | none => exact hown.setFileSlot ha fun _ => hdir
      | some i => exact hown.setMemSlot ha fun _ => hdir
    have hall' : p1.AllOwn → (p1.storeMemSlot r (newSlot pol p1 d a)).AllOwn := by
      intro hall
      cases r with
      | none => exact hall.setFileSlot hdir
      | some i => exact hall.setMemSlot hdir
    have hst' : (p1.storeMemSlot r (newSlot pol p1 d a)).Steady k1 := by
      refine hr1.imp (fun ⟨hset, hpres, hne⟩ => ?_) hall'
      cases r with
      | none => exact hset.setFileSlot
      | some i => exact hset.setMemSlot fun _ => ⟨hpres, fun l _ hl => hne l hl⟩
    refine ⟨h1.setProc hp1 hpgdir hkstack
      ⟨hown'.size, hown'.memVa, hown'.fileVa, hown'.memDir, hown'.fileDir⟩
      (hst'.imp (fun h => ⟨h.present, h.inj⟩) fun h => ⟨h.mem, h.file⟩), fun q hq => ?_⟩
    cases Option.mem_unique hp hq
    refine ⟨_, setProc_procs_self .., hpgdir.trans hd1, fun hall => ?_⟩
    have := hall' (ho1 hall)
    exact ⟨this.mem, this.file⟩
  · cases ht
    exact ⟨h, .refl k pid⟩

/-- The page `allocuvm` has just mapped is ready for its slot. -/
theorem Inv.mapNewPage {e : Pte} {k1 : Kernel} (h : k.Inv (f ::ₘ held)) (hp : k.procs pid = some p)
    (hd : p.pgdir = d) (ha : UserPage a) (hw : k.walkpgdirAlloc d a = some (e, k1))
    (hep : e.p = false) (hc : k.kmem.referencesCount f = 1) :
    (k1.setPte d a { w := true, u := true, addr := f, p := true }).Inv held ∧
      p.Ready (k1.setPte d a { w := true, u := true, addr := f, p := true }) a := by
  subst hd
  have h' := h.mapPage { w := true, u := true } ha hw hep (.inl rfl) fun _ => hc
  have h1 := h.walkpgdirAlloc hw
  have hw1 := walkpgdir_of_alloc hw
  have hp1 : k1.procs pid = some p := procs_of_alloc hw ▸ hp
  refine ⟨h', (h1.steady pid p hp1).imp_left fun hset => ?_⟩
  refine ⟨hset.mono fun l _ hpr => hpr.setPte (.inl rfl), ⟨_, walkpgdir_setPte_self _ hw1, rfl⟩,
    fun l hl heq => ?_⟩
  -- a slot that named it would name a present page
  obtain ⟨e', he', hp'⟩ := hset.present l hl
  rw [heq, hw1] at he'
  cases he'
  rw [hep] at hp'
  cases hp'

theorem userPage_of_pagesFrom {x : ℕ} (ha : a % pgSize = 0) (hk : newsz ≤ kernBase)
    (hx : x ∈ pagesFrom a newsz) : UserPage x ∧ a ≤ x ∧ x < newsz := by
  simp only [pagesFrom, List.mem_map, List.mem_range] at hx
  obtain ⟨i, hi, rfl⟩ := hx
  simp only [UserPage, pgSize, kernBase] at *
  omega

/-- The pages that `allocuvm` adds end at the new size, rounded up. -/
theorem pagesFrom_end (hold : oldsz < kernBase) (hnew : newsz < kernBase) (hle : oldsz ≤ newsz) :
    pgRoundUp oldsz + (newsz + (pgSize - 1) - pgRoundUp oldsz) / pgSize * pgSize = pgRoundUp newsz := by
  rw [pgRoundUp_of_lt hold, pgRoundUp_of_lt hnew]
  simp only [pgSize]
  omega

/-- **One page of the loop of `allocuvm`**: no frame, no frame for its table, or the page is there. -/
theorem allocPages_cons {as : List ℕ} {r : ℕ} (ha : UserPage a)
    (h : allocPages pol acc pid d oldsz newsz (a :: as) k = .ok (r, k')) :
    (r = 0 ∧ k.kalloc = none ∧ ∃ r', k.deallocuvm pid d newsz oldsz = .ok (r', k')) ∨
    ∃ f k1, k.kalloc = some (f, k1) ∧
      ((r = 0 ∧ (k1.setMem f fun _ => 0).walkpgdirAlloc d a = none ∧ ∃ r' k2,
        (k1.setMem f fun _ => 0).deallocuvm pid d newsz oldsz = .ok (r', k2) ∧ k2.kfree f = .ok k') ∨
      ∃ e k2 k3, (k1.setMem f fun _ => 0).walkpgdirAlloc d a = some (e, k2) ∧ e.p = false ∧
        trackPage pol acc (k2.setPte d a { w := true, u := true, addr := f, p := true }) pid d a = .ok k3 ∧
        allocPages pol acc pid d oldsz newsz as k3 = .ok (r, k')) := by
  rw [Kernel.allocPages] at h
  split at h
  · rename_i hnone
    obtain ⟨⟨r', k1⟩, hk1, h⟩ := bind_eq_ok.mp h
    cases h
    exact .inl ⟨rfl, hnone, r', hk1⟩
  · rename_i f k1 hk1
    refine .inr ⟨f, k1, hk1, ?_⟩
    rw [mappages_page ha] at h
    split at h
    · rename_i hnone
      rw [ok_bind] at h
      obtain ⟨⟨r', k2⟩, hk2, h⟩ := bind_eq_ok.mp h
      obtain ⟨k3, hk3, h⟩ := bind_eq_ok.mp h
      cases h
      exact .inl ⟨rfl, hnone, r', k2, hk2, hk3⟩
    · rename_i e k2 hw
      split at h
      · cases h
      · rename_i hep
        rw [ok_bind] at h
        obtain ⟨k3, hk3, h⟩ := bind_eq_ok.mp h
        exact .inr ⟨e, k2, k3, hw, by simpa using hep, hk3, h⟩

/-- The loop of `allocuvm` returns the new size or fails. -/
theorem allocPages_result : ∀ (as : List ℕ) {k k' : Kernel} {r : ℕ}, (∀ a ∈ as, UserPage a) →
    allocPages pol acc pid d oldsz newsz as k = .ok (r, k') → r = newsz ∨ r = 0
  | [], _, _, _, _, h => by
    cases h
    exact .inl rfl
  | a :: as, k, k', r, has, h => by
    rcases allocPages_cons (has a List.mem_cons_self) h with
      ⟨h0, -⟩ | ⟨f, k1, -, ⟨h0, -⟩ | ⟨e, k2, k3, -, -, -, h⟩⟩
    · exact .inr h0
    · exact .inr h0
    · exact allocPages_result as (fun x hx => has x (List.mem_cons_of_mem a hx)) h

/-- **`allocuvm`** refuses and changes nothing, or runs its loop. -/
theorem allocuvm_eq_ok {r : ℕ} (h : allocuvm pol acc k pid d oldsz newsz = .ok (r, k')) :
    (k' = k ∧ (r = 0 ∨ r = oldsz ∧ newsz < oldsz)) ∨
    newsz < kernBase ∧ oldsz ≤ newsz ∧ (∀ a ∈ pagesFrom (pgRoundUp oldsz) newsz, UserPage a) ∧
      allocPages pol acc pid d oldsz newsz (pagesFrom (pgRoundUp oldsz) newsz) k = .ok (r, k') := by
  unfold Kernel.allocuvm at h
  split at h
  · cases h
    exact .inl ⟨rfl, .inl rfl⟩
  split at h
  · rename_i hlt
    cases h
    exact .inl ⟨rfl, .inr ⟨rfl, hlt⟩⟩
  split at h
  · cases h
    exact .inl ⟨rfl, .inl rfl⟩
  · have hsz : newsz < kernBase := by omega
    exact .inr ⟨hsz, by omega, fun a ha => (userPage_of_pagesFrom (pgRoundUp_mod oldsz) hsz.le ha).1, h⟩

/-- **The loop of `allocuvm` keeps the invariant**, also where it fails and takes the pages back. -/
theorem Inv.allocPages (hacc : acc.Keeps) (hsz : newsz ≤ kernBase) : ∀ (as : List ℕ)
    {k k' : Kernel} {p : Proc} {r : ℕ}, (∀ a ∈ as, UserPage a) → k.Inv held →
    k.procs pid = some p → p.pgdir = d → allocPages pol acc pid d oldsz newsz as k = .ok (r, k') →
    k'.Inv held ∧ k.Stays k' pid
  | [], k, k', p, r, _, h, _, _, hk => by cases hk; exact ⟨h, .refl k pid⟩
  | a :: as, k, k', p, r, has, h, hp, hd, hk => by
    have ha := has a List.mem_cons_self
    rcases allocPages_cons ha hk with
      ⟨-, -, r', hk1⟩ | ⟨f, k1, hk1, ⟨-, -, r', k2, hk2, hk3⟩ | ⟨e, k2, k3, hw, hep, hk3, hk⟩⟩
    · exact h.deallocuvm (fun q s hs hsd => h.apart q pid s p hs hp (hsd.trans hd.symm)) hsz hk1
    all_goals
      have hspec := kalloc_spec hk1
      have h1 := (h.kalloc hk1).setMem f fun _ => 0
      have hp1 : (k1.setMem f fun _ => 0).procs pid = some p := hspec.2.2.2 ▸ hp
    · obtain ⟨h2, hst2⟩ := h1.deallocuvm
        (fun q s hs hsd => h1.apart q pid s p hs hp1 (hsd.trans hd.symm)) hsz hk2
      refine ⟨h2.kfree hk3, ?_⟩
      have hst1 : k.Stays (k1.setMem f fun _ => 0) pid := .of_procs hspec.2.2.2 pid
      exact (hst1.trans hst2).trans (.of_procs (procs_of_kfree hk3) pid)
    · obtain ⟨h2, hr2⟩ := h1.mapNewPage hp1 hd ha hw hep hspec.1
      have hprocs : (k2.setPte d a
          { w := true, u := true, addr := f, p := true }).procs = k.procs :=
        (procs_of_alloc hw).trans hspec.2.2.2
      obtain ⟨h3, hst3⟩ := h2.trackPage hacc (hprocs ▸ hp) hd.symm ha hr2 hk3
      obtain ⟨p3, hp3, hd3, -⟩ := hst3 p (hprocs ▸ hp)
      obtain ⟨h', hst'⟩ := Inv.allocPages hacc hsz as
        (fun x hx => has x (List.mem_cons_of_mem a hx)) h3 hp3 (hd3.trans hd) hk
      exact ⟨h', ((Stays.of_procs hprocs pid).trans hst3).trans hst'⟩

/-- **`allocuvm` keeps the invariant**, on the directory of the running process. -/
theorem Inv.allocuvm {r : ℕ} (hacc : acc.Keeps) (h : k.Inv held) (hp : k.procs pid = some p)
    (hk : allocuvm pol acc k pid p.pgdir oldsz newsz = .ok (r, k')) :
    k'.Inv held ∧ k.Stays k' pid := by
  rcases allocuvm_eq_ok hk with ⟨rfl, -⟩ | ⟨hsz, -, has, hk⟩
  · exact ⟨h, .refl _ pid⟩
  · exact h.allocPages hacc hsz.le _ has hp rfl hk

end Kernel

end Xv6
