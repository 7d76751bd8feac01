import Xv6.Vm.Invariant

/-!
# Vm/Faults — evictions and page faults keep the invariant

Each piece of the code comes with its effect, as one equation between the states, and the lemma that
it keeps `Kernel.Inv`.  The bound on nested faults is what `accessAs` recurses on, so everything here
assumes that the accesses it makes keep the invariant (`Access.Keeps`), and `keeps_accessAs` ties the
knot.
-/

namespace Xv6

open Outcome Option

/-- The process keeps its directory, and its slots if all are its own. -/
def Kernel.Stays (k k' : Kernel) (pid : ℕ) : Prop :=
  ∀ p, k.procs pid = some p → ∃ p', k'.procs pid = some p' ∧ p'.pgdir = p.pgdir ∧
    (p.AllOwn → p'.AllOwn)

/-- What the paging code needs of the accesses it makes. -/
structure Access.Keeps (acc : Access) : Prop where
  idle : ∀ {w k pid va k'}, acc w k pid va = .ok k' → k.permits false w pid va = true → k' = k
  inv : ∀ {w k pid va k' held}, k.Inv held → acc w k pid va = .ok k' →
    k'.Inv held ∧ k.Stays k' pid

namespace Kernel

variable {k k' k'' : Kernel} {held : Multiset ℕ} {pid d va off f : ℕ} {p p' : Proc} {e : Pte}
  {i j : Fin maxPsycPages} {s : Slot} {pol : Policy} {acc : Access}

theorem Stays.refl (k : Kernel) (pid : ℕ) : k.Stays k pid := fun p hp => ⟨p, hp, rfl, id⟩

theorem Stays.trans (h : k.Stays k' pid) (h' : k'.Stays k'' pid) : k.Stays k'' pid := by
  intro p hp
  obtain ⟨q, hq, hqd, hqo⟩ := h p hp
  obtain ⟨r, hr, hrd, hro⟩ := h' q hq
  exact ⟨r, hr, hrd.trans hqd, fun ho => hro (hqo ho)⟩

theorem Stays.of_procs (h : k'.procs = k.procs) (pid : ℕ) : k.Stays k' pid :=
  fun p hp => ⟨p, h ▸ hp, rfl, id⟩

theorem Stays.setProc (hp : k.procs pid = some p) (hd : p'.pgdir = p.pgdir)
    (ho : p.AllOwn → p'.AllOwn) : k.Stays (k.setProc pid p') pid := by
  intro q hq
  rw [hp] at hq
  cases hq
  exact ⟨p', setProc_procs_self .., hd, ho⟩

theorem Agree.stays (h : k.Agree k') (pid : ℕ) : k.Stays k' pid := by
  intro p hp
  obtain ⟨p', hp', ha⟩ := h.exists_proc hp
  exact ⟨p', hp', ha.pgdir, ha.allOwn⟩

theorem setProc_setProc (k : Kernel) (pid : ℕ) (p p' : Proc) :
    (k.setProc pid p).setProc pid p' = k.setProc pid p' := by
  simp [setProc]

/-- A kernel read of a present page is let through. -/
theorem permits_read (hp : k.procs pid = some p) : k.permits false false pid va = true ↔
    k.Present p.pgdir va := by
  rw [permits, hp, bind_some, Present]
  cases k.walkpgdir p.pgdir va <;> simp

/-! ## Eviction by `swap` -/

/-- **Writing a user page to the swap file** is the access and a change of the file. -/
theorem writeUserToSwapFile_eq_some
    (h : writeUserToSwapFile acc k pid va off = .ok (some k')) :
    ∃ k1 p pg, acc false k pid va = .ok k1 ∧ k1.procs pid = some p ∧
      k1.userPage pid va = some pg ∧ k' = k1.setProc pid (p.setSwapFile (p.swapFile.write off pg)) := by
  obtain ⟨p0, hp0, h⟩ := bind_eq_ok.mp h
  split at h
  · cases h
  · obtain ⟨k1, hk1, h⟩ := bind_eq_ok.mp h
    split at h
    · cases h
    · rename_i pg hpg
      obtain ⟨p, hp, h⟩ := bind_eq_ok.mp h
      split at h
      · cases h
      · cases h
        exact ⟨k1, p, pg, hk1, proc_eq_ok.mp hp, hpg, rfl⟩

theorem Inv.setSwapFile (h : k.Inv held) (hp : k.procs pid = some p) (sf : SwapFile) :
    (k.setProc pid (p.setSwapFile sf)).Inv held :=
  h.setProc hp rfl rfl ((h.own pid p hp).setSwapFile sf)
    ((h.steady pid p hp).imp (fun h => h.setSwapFile sf) fun h => h.setSwapFile sf)

theorem Inv.writeUserToSwapFile (hacc : acc.Keeps) (h : k.Inv held)
    (hw : writeUserToSwapFile acc k pid va off = .ok (some k')) : k'.Inv held ∧ k.Stays k' pid := by
  obtain ⟨k1, p, pg, hk1, hp, -, rfl⟩ := writeUserToSwapFile_eq_some hw
  obtain ⟨hi, hs⟩ := hacc.inv h hk1
  exact ⟨hi.setSwapFile hp _, hs.trans (.setProc hp rfl fun h => h.setSwapFile _)⟩

/-- The page of a present victim is written without a fault. -/
theorem writeUserToSwapFile_idle (hacc : acc.Keeps) (hp : k.procs pid = some p)
    (hpres : k.Present p.pgdir va) (hw : writeUserToSwapFile acc k pid va off = .ok (some k')) :
    ∃ pg, k.userPage pid va = some pg ∧
      k' = k.setProc pid (p.setSwapFile (p.swapFile.write off pg)) := by
  obtain ⟨k1, p1, pg, hk1, hp1, hpg, rfl⟩ := writeUserToSwapFile_eq_some hw
  obtain rfl := hacc.idle hk1 ((permits_read hp).mpr hpres)
  cases mem_unique hp hp1
  exact ⟨pg, hpg, rfl⟩

/-- **`moveToFile`** marks the page paged out and drops its frame. -/
theorem moveToFile_eq_ok (hp : k.procs pid = some p) (hs : p.memoryPages i = s)
    (h : moveToFile k pid i j = .ok k') :
    ∃ e, k.walkpgdir s.pgdir s.va = some e ∧
      ((k.setProc pid ((p.enterFile j s.pgdir s.va).freeMemSlot i)).setPte s.pgdir s.va
        e.inDisk).kfree e.addr = .ok k' := by
  subst hs
  replace h := of_proc_bind hp h
  obtain ⟨k1, hk1, h⟩ := bind_eq_ok.mp h
  cases hw : k.walkpgdir (p.memoryPages i).pgdir (p.memoryPages i).va with
  | none => simp [findPa, hw, kfreePa] at hk1
  | some e =>
    simp only [findPa, setProc_walkpgdir, hw, map_some, kfreePa] at hk1
    refine ⟨e, rfl, ?_⟩
    obtain ⟨p1, hp1, h⟩ := bind_eq_ok.mp h
    rw [proc_eq_ok, procs_of_kfree hk1, setProc_procs_self] at hp1
    cases hp1
    rw [setPageFlagsInDisk, setProc_walkpgdir, walkpgdir_of_kfree hk1, setProc_walkpgdir, hw] at h
    cases h
    have hk2 := kfree_setProc hk1 pid
      ((p.enterFile j (p.memoryPages i).pgdir (p.memoryPages i).va).freeMemSlot i)
    rw [setProc_setProc] at hk2
    exact kfree_setPte hk2 ..

/-- **Paging a page out keeps the invariant**, once no slot the process relies on names it: the entry
is marked and its frame dropped. -/
theorem Inv.pageOut (h : k.Inv held) (hp : k.procs pid = some p)
    (hk : ((k.setProc pid p').setPte p.pgdir va e.inDisk).kfree e.addr = .ok k')
    (hd : p'.pgdir = p.pgdir) (hstack : p'.kstack = p.kstack) (hown : p'.Own) (hva : UserPage va)
    (hst : p'.Settled k ∧ (∀ l, (p'.memoryPages l).isUsed = true → (p'.memoryPages l).va ≠ va) ∨
      p'.AllOwn)
    (hw : k.walkpgdir p.pgdir va = some e) (hep : e.p = true) :
    k'.Inv held ∧ k'.procs pid = some p' ∧
      ∀ va', vpn va' ≠ vpn va → k.Present p.pgdir va' → k'.Present p.pgdir va' := by
  have h0 : (k.setProc pid p').Inv held := h.setProc hp hd hstack hown (hst.imp_left And.left)
  have hf := h0.frames.unmap (e := e.inDisk) (vpn_lt_of_lt hva.1) hw hep rfl rfl
  refine ⟨(h0.setPte hf (.inr fun q r hr _ hrd => ?_)).kfree hk, ?_, fun va' hne hpr => ?_⟩
  · -- only the process itself relies on a page of its directory, and no longer on this one
    obtain rfl : q = pid := h0.apart q pid r p' hr (setProc_procs_self ..) (by rw [hrd, hd])
    rw [setProc_procs_self] at hr
    cases hr
    refine hst.symm.imp_right fun hset l hl hv => hset.2 l hl ((hown.memVa l).eq_of_vpn hva hv)
  · rw [procs_of_kfree hk]
    exact setProc_procs_self ..
  · rw [Present, walkpgdir_of_kfree hk]
    exact Present.setPte (k := k.setProc pid p') hpr (.inr (.inr hne))

/-- A frame that `kfree` took was mapped. -/
theorem Inv.present_of_kfree {k1 : Kernel} (h : k.Inv held) (hva : UserPage va)
    (hw : k.walkpgdir d va = some e) (hk : k1.kfree e.addr = .ok k')
    (hkend : 0 < k1.kmem.kend) : e.p = true := by
  by_contra hep
  have h0 := (h.frames.fit _ _ e hw).absent (vpn_lt_of_lt hva.1) (by simpa using hep)
  rw [h0] at hk
  exact kfree_zero hk hkend

/-- **An eviction by `swap` keeps the invariant**, and a settled process settled. -/
theorem Inv.moveToFile (h : k.Inv held) (hp : k.procs pid = some p)
    (hd : (p.memoryPages i).pgdir = p.pgdir)
    (hst : p.Settled k ∧ (p.memoryPages i).isUsed = true ∨ p.AllOwn)
    (hm : moveToFile k pid i j = .ok k') :
    k'.Inv held ∧ k.Stays k' pid ∧ (p.Settled k → (p.memoryPages i).isUsed = true →
      ∃ q, k'.procs pid = some q ∧ q.pgdir = p.pgdir ∧ q.Settled k' ∧
        (∀ l, (q.memoryPages l).isUsed = true → l ≠ i ∧ q.memoryPages l = p.memoryPages l) ∧
        ∀ va', vpn va' ≠ vpn (p.memoryPages i).va → k.Present p.pgdir va' →
          k'.Present p.pgdir va') := by
  obtain ⟨e, hw, hk⟩ := moveToFile_eq_ok hp rfl hm
  have ho := h.own pid p hp
  have hep := h.present_of_kfree (ho.memVa i) hw hk h.frames.kend_pos
  rw [hd] at hw hk
  have hpage := h.pageOut hp hk rfl rfl (ho.enterFile (ho.memVa i) rfl).freeMemSlot (ho.memVa i)
    (hst.imp (fun ⟨hset, hu⟩ => ⟨(hset.enterFile _ _).freeMemSlot, fun l hl heq => by
        obtain ⟨hli, hleq⟩ := Proc.freeMemSlot_used hl
        rw [hleq] at hl heq
        exact hli (hset.inj l i hl hu heq)⟩)
      fun hall => (hall.enterFile rfl _).freeMemSlot) hw hep
  refine ⟨hpage.1, fun q hq => ?_, fun hset hu => ⟨_, hpage.2.1, ?_, ?_, fun l hl => ?_, hpage.2.2⟩⟩
  · cases mem_unique hp hq
    refine ⟨_, hpage.2.1, ?_, fun hall => ?_⟩
    · rfl
    · exact (hall.enterFile rfl _).freeMemSlot
  · rfl
  · refine (hset.enterFile _ _).freeMemSlot.mono fun l hl hpr => hpage.2.2 _ (fun hv => ?_) hpr
    obtain ⟨hli, hleq⟩ := Proc.freeMemSlot_used hl
    rw [hleq] at hl hv
    exact hli (hset.inj l i hl hu ((ho.memVa l).eq_of_vpn (ho.memVa i) hv))
  · exact Proc.freeMemSlot_used hl

/-- All slots of `memory_pages` are in use. -/
theorem nextFreeIInMem_eq_none : p.nextFreeIInMem = none ↔
    ∀ i, (p.memoryPages i).isUsed = true := by
  simp [Proc.nextFreeIInMem]

/-- **What `swap` can do**: it names a victim `i`, and moves it to the first free file slot unless
there is none or the file refuses the write. -/
theorem swap_eq_ok {r : Option (Fin maxPsycPages)} (hp : k.procs pid = some p)
    (h : swap pol acc k pid = .ok (r, k')) :
    ∃ i k1 p1, k.Agree k1 ∧ k1.procs pid = some p1 ∧ p.Agree p1 ∧
      (r = none ∧ k' = k1 ∧ (∀ j, p1.nextFreeIInFile = some j →
          writeUserToSwapFile acc k1 pid (p1.memoryPages i).va (j * pgSize) = .ok none) ∨
        ∃ j k2, p1.nextFreeIInFile = some j ∧
          writeUserToSwapFile acc k1 pid (p1.memoryPages i).va (j * pgSize) = .ok (some k2) ∧
          moveToFile k2 pid i j = .ok k' ∧ r = some i) := by
  replace h := of_proc_bind hp h
  obtain ⟨⟨i, k1⟩, hk1, h⟩ := bind_eq_ok.mp h
  have ha := (Agree.setProc hp p.agree_countFault).trans (pol.next_agree hk1)
  obtain ⟨p1, hp1, h⟩ := proc_bind_eq_ok.mp h
  obtain ⟨q, hq, hqa⟩ := ha.exists_proc hp
  cases mem_unique hp1 hq
  refine ⟨i, k1, p1, ha, hp1, hqa, ?_⟩
  split at h
  · rename_i hj
    cases h
    exact .inl ⟨rfl, rfl, by simp [hj]⟩
  · rename_i j hj
    obtain ⟨w, hw, h⟩ := bind_eq_ok.mp h
    cases w with
    | none =>
      cases h
      refine .inl ⟨rfl, rfl, fun j' hj' => ?_⟩
      cases mem_unique hj hj'
      exact hw
    | some k2 =>
      obtain ⟨k3, hk3, h⟩ := bind_eq_ok.mp h
      cases h
      exact .inr ⟨j, k2, hj, hw, hk3, rfl⟩

/-- **`swap` keeps the invariant**, called with all memory slots in use. -/
theorem Inv.swap {r : Option (Fin maxPsycPages)} (hacc : acc.Keeps) (h : k.Inv held)
    (hp : k.procs pid = some p) (hfull : ∀ i, (p.memoryPages i).isUsed = true)
    (hs : swap pol acc k pid = .ok (r, k')) : k'.Inv held ∧ k.Stays k' pid := by
  obtain ⟨i, k1, p1, ha, hp1, hpa, h'⟩ := swap_eq_ok hp hs
  have h1 := h.agree ha
  rcases h' with ⟨-, rfl, -⟩ | ⟨j, k2, -, hw, hm, -⟩
  · exact ⟨h1, ha.stays pid⟩
  · have hu : (p1.memoryPages i).isUsed = true := by
      obtain ⟨l, -, -, hl⟩ := hpa.exists_slot i
      rw [hl, hfull l]
    obtain ⟨h2, hst2⟩ := h1.writeUserToSwapFile hacc hw
    have hmove : k'.Inv held ∧ k2.Stays k' pid := by
      rcases h1.steady pid p1 hp1 with hset | hall
      · -- the victim is present, so the write does not fault
        obtain ⟨pg, -, rfl⟩ := writeUserToSwapFile_idle hacc hp1 (hset.present i hu) hw
        have := h2.moveToFile (setProc_procs_self ..) ((h1.own pid p1 hp1).memDir i hu)
          (.inl ⟨(hset.setSwapFile _).of_walk fun _ _ => rfl, hu⟩) hm
        exact ⟨this.1, this.2.1⟩
      · obtain ⟨p2, hp2, -, ho2⟩ := hst2 p1 hp1
        have := h2.moveToFile hp2 ((ho2 hall).mem i) (.inr (ho2 hall)) hm
        exact ⟨this.1, this.2.1⟩
    exact ⟨hmove.1, ((ha.stays pid).trans hst2).trans hmove.2⟩

/-! ## Page-in -/

/-- **The slot of a page that comes in** is free, or a victim's. -/
theorem pageInSlot_eq_ok {old : Option Slot} (h : pageInSlot pol k pid = .ok (i, old, k'))
    (hp : k'.procs pid = some p') :
    k.Agree k' ∧ (old = none ∧ (p'.memoryPages i).isUsed = false ∨
      old = some (p'.memoryPages i) ∧ ∀ l, (p'.memoryPages l).isUsed = true) := by
  obtain ⟨p, hp0, h⟩ := proc_bind_eq_ok.mp h
  split at h
  · rename_i l hl
    cases h
    cases mem_unique hp0 hp
    exact ⟨.refl _, .inl ⟨rfl, by simpa using List.find?_some hl⟩⟩
  · rename_i hfull
    obtain ⟨⟨l, k1⟩, hk1, h⟩ := bind_eq_ok.mp h
    obtain ⟨q, hq, h⟩ := bind_eq_ok.mp h
    cases h
    cases mem_unique (proc_eq_ok.mp hq) hp
    have ha := pol.next_agree hk1
    obtain ⟨q, hq, hqa⟩ := ha.exists_proc hp0
    cases mem_unique hp hq
    refine ⟨ha, .inr ⟨rfl, fun l => ?_⟩⟩
    obtain ⟨m, -, -, hm⟩ := hqa.exists_slot l
    rw [hm, nextFreeIInMem_eq_none.mp hfull m]

/-- **What `pfBegin` does**: with a free slot it takes that one, without it evicts a victim; the entry
of the page receives a new frame. -/
theorem pfBegin_eq_ok {old : Option Slot} (hp : k.procs pid = some p)
    (h : pfBegin pol k pid va = .ok (i, old, j, k')) :
    ∃ f k0 k1 k2 p2 e, k.Agree k0 ∧ k0.kalloc = some (f, k1) ∧ k1.Agree k2 ∧
      k2.procs pid = some p2 ∧ p.Agree p2 ∧ k2.walkpgdir p2.pgdir va = some e ∧
      p2.getIOfVaInFile va = some j ∧
      k' = k2.setPte p2.pgdir va (e.inMem f) ∧
      (old = none ∧ (p2.memoryPages i).isUsed = false ∨
        old = some (p2.memoryPages i) ∧ ∀ l, (p2.memoryPages l).isUsed = true) := by
  replace h := of_proc_bind hp h
  split at h
  · cases h
  · rename_i f k1 hk1
    have hp1 : k1.procs pid = some p.countFault := by
      rw [(kalloc_spec hk1).2.2.2, setProc_procs_self]
    obtain ⟨⟨i', old', k2⟩, hk2, h⟩ := bind_eq_ok.mp h
    obtain ⟨p2, hp2, h⟩ := bind_eq_ok.mp h
    obtain ⟨k3, hk3, h⟩ := bind_eq_ok.mp h
    rw [proc_eq_ok] at hp2
    split at h
    · cases h
    · rename_i j' hj
      cases h
      obtain ⟨ha, hold⟩ := pageInSlot_eq_ok hk2 hp2
      obtain ⟨q, hq, hqa⟩ := ha.exists_proc hp1
      cases mem_unique hp2 hq
      have hpa := p.agree_countFault.trans hqa
      unfold setPageFlagsInMem at hk3
      split at hk3
      · cases hk3
      · rename_i e he
        cases hk3
        exact ⟨f, _, k1, k2, p2, e, .setProc hp p.agree_countFault, hk1, ha, hp2, hpa, he, hj, rfl, hold⟩

/-- **`pfRead`** fills the buffer with the page of a slot that lies in the file. -/
theorem pfRead_eq_ok (hp : k.procs pid = some p) (h : pfRead k pid j = .ok k') :
    (j + 1) * pgSize ≤ p.swapFile.size ∧ k' = { k with buffer := p.swapFile.page j } := by
  replace h := of_proc_bind hp h
  simp only [ne_eq, ite_not] at h
  split at h
  · rename_i hn
    have hsz := (SwapFile.read_fst ..).mp hn
    cases h
    exact ⟨hsz, by rw [SwapFile.read_snd k.buffer hsz]⟩
  · cases h

/-- `get_i_of_va_in_file` returns a slot that carries the address. -/
theorem va_of_getIOfVaInFile (h : p.getIOfVaInFile va = some j) : (p.filePages j).va = va := by
  simpa using List.find?_some h

theorem own_loadSlot (h : p.Own) : (loadSlot pol p i j).Own := by
  have h1 := h.setMemSlot (i := i) (s := { p.filePages j with
    age := if pol.lapa then 0xFFFFFFFF else (p.filePages j).age, timeLoaded := p.timestamp })
    (h.fileVa j) (h.fileDir j)
  have h2 := h1.setFileSlot (i := j) (s := { p.filePages j with isUsed := false, age := 0 })
    (h.fileVa j) nofun
  exact ⟨h2.size, h2.memVa, h2.fileVa, h2.memDir, h2.fileDir⟩

theorem allOwn_loadSlot (h : p.AllOwn) : (loadSlot pol p i j).AllOwn := by
  have h1 := h.setMemSlot (i := i) (s := { p.filePages j with
    age := if pol.lapa then 0xFFFFFFFF else (p.filePages j).age, timeLoaded := p.timestamp })
    (h.file j)
  have h2 := h1.setFileSlot (i := j) (s := { p.filePages j with isUsed := false, age := 0 })
    (h.file j)
  exact ⟨h2.mem, h2.file⟩

/-- The loaded slot has the address and the flag of the file slot; the others stay. -/
theorem memoryPages_loadSlot (pol : Policy) (p : Proc) (i j l : Fin maxPsycPages) :
    ((loadSlot pol p i j).memoryPages l).core
      = if l = i then (p.filePages j).core else (p.memoryPages l).core := by
  by_cases hl : l = i
  · subst hl
    simp [loadSlot, Proc.setMemSlot, Proc.setFileSlot, Slot.core]
  · simp [loadSlot, Proc.setMemSlot, Proc.setFileSlot, hl]

theorem settled_loadSlot (h : p.Settled k) (hpres : k.Present p.pgdir (p.filePages j).va)
    (hne : ∀ l, l ≠ i → (p.memoryPages l).isUsed = true → (p.memoryPages l).va ≠ (p.filePages j).va) :
    (loadSlot pol p i j).Settled k := by
  have h1 := h.setMemSlot (i := i) (s := { p.filePages j with
    age := if pol.lapa then 0xFFFFFFFF else (p.filePages j).age, timeLoaded := p.timestamp })
    fun _ => ⟨hpres, hne⟩
  exact ⟨h1.present, h1.inj⟩

/-- **`pfBegin` keeps the invariant.**  In a settled process no slot names the page yet. -/
theorem Inv.pfBegin {old : Option Slot} {e0 : Pte} (h : k.Inv held)
    (hp : k.procs pid = some p) (hw : k.walkpgdir p.pgdir va = some e0) (h0 : e0.p = false)
    (hb : pfBegin pol k pid va = .ok (i, old, j, k')) :
    k'.Inv held ∧ ∃ p', k'.procs pid = some p' ∧ p.Agree p' ∧ (p'.filePages j).va = va ∧
      k'.Present p'.pgdir va ∧
      (∀ s, old = some s → s = p'.memoryPages i ∧ (p'.memoryPages i).isUsed = true) ∧
      (p'.Settled k' ∧ (∀ l, (p'.memoryPages l).isUsed = true → (p'.memoryPages l).va ≠ va) ∨
        p'.AllOwn) := by
  obtain ⟨f, ka, kb, kc, p2, e, hka, hkb, hkc, hp2, hpa, he, hj, rfl, hold⟩ := pfBegin_eq_ok hp hb
  have hbspec := kalloc_spec hkb
  have hc : kc.Inv (f ::ₘ held) := ((h.agree hka).kalloc hkb).agree hkc
  have hjva := va_of_getIOfVaInFile hj
  have hv : vpn va < userPages := vpn_lt_of_lt (hjva ▸ (hc.own pid p2 hp2).fileVa j).1
  -- the entry is still absent, so its address is zero and takes the frame
  have hep : e.p = false := by
    obtain ⟨e1, he1, hu1⟩ := hkc.exists_walk he
    rw [walkpgdir, hbspec.2.2.1, ← walkpgdir, hpa.pgdir] at he1
    obtain ⟨e2, he2, hu2⟩ := hka.exists_walk he1
    cases mem_unique hw he2
    rw [(Pte.unmark_eq hu1).2.1, (Pte.unmark_eq hu2).2.1, h0]
  have haddr : (e.inMem f).addr = f := by
    rw [Pte.inMem, (hc.frames.fit _ _ e he).absent hv hep, Nat.zero_or]
  have hf : (kc.setPte p2.pgdir va (e.inMem f)).Frames held := by
    refine Frames.map (by rw [haddr]; exact hc.frames) hv he hep rfl (.inl rfl) fun _ => ?_
    rw [haddr, hkc.kmem]
    exact hbspec.1
  refine ⟨hc.setPte_absent hf he hep, p2, hp2, hpa, hjva, ⟨_, walkpgdir_setPte_self _ he, rfl⟩,
    fun s hs => ?_, (hc.steady pid p2 hp2).imp_left fun hset =>
      ⟨hset.mono fun l _ hpr => hpr.setPte (.inl rfl), fun l hl heq => ?_⟩⟩
  · rcases hold with ⟨hnone, -⟩ | ⟨hsome, hfull⟩
    · rw [hnone] at hs
      cases hs
    · rw [hsome] at hs
      exact ⟨(Option.some.inj hs).symm, hfull i⟩
  · obtain ⟨e', he', hp'⟩ := hset.present l hl
    rw [heq, he] at he'
    cases he'
    rw [hep] at hp'
    cases hp'

/-- **The load of the slot keeps the invariant**, and no slot names the victim any more. -/
theorem Inv.loadSlot (pol : Policy) (h : k.Inv held) (hp : k.procs pid = some p)
    (hpres : k.Present p.pgdir (p.filePages j).va)
    (hst : (p.Settled k ∧ ∀ l, (p.memoryPages l).isUsed = true →
      (p.memoryPages l).va ≠ (p.filePages j).va) ∨ p.AllOwn) :
    (k.setProc pid (loadSlot pol p i j)).Inv held ∧
      ((p.memoryPages i).isUsed = true →
        ((loadSlot pol p i j).Settled (k.setProc pid (loadSlot pol p i j)) ∧
          ∀ l, ((loadSlot pol p i j).memoryPages l).isUsed = true →
            ((loadSlot pol p i j).memoryPages l).va ≠ (p.memoryPages i).va) ∨
        (loadSlot pol p i j).AllOwn) := by
  have hload : (p.Settled k ∧ ∀ l, (p.memoryPages l).isUsed = true →
      (p.memoryPages l).va ≠ (p.filePages j).va) → (Kernel.loadSlot pol p i j).Settled k :=
    fun hset => settled_loadSlot hset.1 hpres fun l _ hl => hset.2 l hl
  refine ⟨h.setProc hp rfl rfl (own_loadSlot (h.own pid p hp)) (hst.imp hload allOwn_loadSlot),
    fun hu => hst.imp (fun hset => ⟨(hload hset).of_walk fun _ _ => rfl, fun l hl heq => ?_⟩)
      allOwn_loadSlot⟩
  have hcore := memoryPages_loadSlot pol p i j l
  by_cases hli : l = i
  · simp only [hli, if_true, Slot.core, Prod.mk.injEq] at hcore heq
    exact hset.2 i hu (heq.symm.trans hcore.2.1)
  · simp only [hli, if_false, Slot.core, Prod.mk.injEq] at hcore
    rw [hcore.2.1] at heq
    exact hli (hset.1.inj l i (hcore.2.2 ▸ hl) hu heq)

/-- **What the eviction of `handle_pf` does**: the victim's entry is marked paged out and the frame it
had before the write is dropped. -/
theorem pfEvict_eq_ok {old : Slot} (h : pfEvict acc k pid j old = .ok k') :
    ∃ k1 p1 e e1, writeUserToSwapFile acc k pid old.va (j * pgSize) = .ok (some k1) ∧
      k1.procs pid = some p1 ∧ k.walkpgdir old.pgdir old.va = some e ∧
      k1.walkpgdir old.pgdir old.va = some e1 ∧
      ((k1.setProc pid (p1.enterFile j old.pgdir old.va)).setPte old.pgdir old.va
        e1.inDisk).kfree e.addr = .ok k' := by
  obtain ⟨w, hw, h⟩ := bind_eq_ok.mp h
  cases w with
  | none => cases h
  | some k1 =>
    obtain ⟨p1, hp1, h⟩ := bind_eq_ok.mp h
    obtain ⟨k2, hk2, h⟩ := bind_eq_ok.mp h
    unfold setPageFlagsInDisk at hk2
    split at hk2
    · cases hk2
    · rename_i e1 he1
      cases hk2
      cases he : k.walkpgdir old.pgdir old.va with
      | none => simp [findPa, he, kfreePa] at h
      | some e =>
        simp only [findPa, he, map_some, kfreePa] at h
        exact ⟨k1, p1, e, e1, hw, proc_eq_ok.mp hp1, rfl, he1, h⟩

/-- **The eviction of `handle_pf` keeps the invariant.** -/
theorem Inv.pfEvict {old : Slot} (hacc : acc.Keeps) (h : k.Inv held) (hp : k.procs pid = some p)
    (hd : old.pgdir = p.pgdir) (hva : UserPage old.va)
    (hst : (p.Settled k ∧ ∀ l, (p.memoryPages l).isUsed = true → (p.memoryPages l).va ≠ old.va) ∨
      p.AllOwn)
    (he : pfEvict acc k pid j old = .ok k') : k'.Inv held ∧ k.Stays k' pid := by
  obtain ⟨k1, p1, e, e1, hw, hp1, hwalk, hwalk1, hk⟩ := pfEvict_eq_ok he
  obtain ⟨h1, -⟩ := h.writeUserToSwapFile hacc hw
  have hep := h.present_of_kfree hva hwalk hk h1.frames.kend_pos
  -- the victim is present, so the write does not fault
  obtain ⟨pg, -, rfl⟩ := writeUserToSwapFile_idle hacc hp ⟨e, hd ▸ hwalk, hep⟩ hw
  rw [setProc_procs_self] at hp1
  cases hp1
  cases mem_unique hwalk hwalk1
  rw [hd] at hwalk hk
  have hpage := h1.pageOut (setProc_procs_self ..) hk rfl rfl
    (((h.own pid p hp).setSwapFile _).enterFile hva rfl) hva
    (hst.imp (fun hset => ⟨((hset.1.setSwapFile _).enterFile _ _).of_walk fun _ _ => rfl, hset.2⟩)
      fun hall => (hall.setSwapFile _).enterFile rfl _) hwalk hep
  refine ⟨hpage.1, fun q hq => ?_⟩
  cases mem_unique hp hq
  refine ⟨_, hpage.2.1, ?_, fun hall => ?_⟩
  · rfl
  · exact (hall.setSwapFile _).enterFile rfl _

theorem Inv.setUserPage (h : k.Inv held) (pid va : ℕ) (pg : Page) :
    (k.setUserPage pid va pg).Inv held := by
  unfold Kernel.setUserPage
  split
  · exact h
  · exact h.setMem _ _

theorem setUserPage_procs (k : Kernel) (pid va : ℕ) (pg : Page) :
    (k.setUserPage pid va pg).procs = k.procs := by
  unfold setUserPage
  split <;> rfl

/-- **A page-in keeps the invariant.** -/
theorem Inv.pageIn {e0 : Pte} (hacc : acc.Keeps) (h : k.Inv held) (hp : k.procs pid = some p)
    (hw : k.walkpgdir p.pgdir va = some e0) (h0 : e0.p = false)
    (hin : pageIn pol acc k pid va = .ok k') : k'.Inv held ∧ k.Stays k' pid := by
  obtain ⟨⟨i, old, j, k1⟩, hb, hin⟩ := bind_eq_ok.mp hin
  obtain ⟨k2, hr, hin⟩ := bind_eq_ok.mp hin
  obtain ⟨k3, hl, hin⟩ := bind_eq_ok.mp hin
  obtain ⟨h1, p1, hp1, hpa, hjva, hpres, hold, hst⟩ := h.pfBegin hp hw h0 hb
  obtain ⟨-, rfl⟩ := pfRead_eq_ok hp1 hr
  replace hl := of_proc_bind hp1 hl
  cases hl
  have h2 := h1.setBuffer (p1.swapFile.page j)
  obtain ⟨h3, hvictim⟩ := h2.loadSlot pol (i := i) (j := j) hp1 (hjva ▸ hpres)
    (hst.imp_left fun hset => ⟨hset.1.of_walk fun _ _ => rfl, hjva ▸ hset.2⟩)
  have hstay3 : k.Stays ({ k1 with buffer := p1.swapFile.page j }.setProc pid
      (Kernel.loadSlot pol p1 i j)) pid := by
    intro q hq
    cases mem_unique hp hq
    exact ⟨_, setProc_procs_self .., hpa.pgdir, fun hall => allOwn_loadSlot (hpa.allOwn hall)⟩
  obtain ⟨k4, hk4, hin⟩ := bind_eq_ok.mp hin
  obtain ⟨h4, hstay4⟩ : k4.Inv held ∧ k.Stays k4 pid := by
    cases old with
    | none =>
      cases hk4
      exact ⟨h3, hstay3⟩
    | some s =>
      obtain ⟨rfl, hu⟩ := hold s rfl
      have ho := h1.own pid p1 hp1
      obtain ⟨h4, hstay⟩ := h3.pfEvict hacc (setProc_procs_self ..) (ho.memDir i hu) (ho.memVa i)
        (hvictim hu) hk4
      exact ⟨h4, hstay3.trans hstay⟩
  obtain ⟨k5, hk5, hin⟩ := bind_eq_ok.mp hin
  cases hin
  obtain ⟨h5, hstay5⟩ := hacc.inv h4 hk5
  exact ⟨h5.setUserPage .., (hstay4.trans hstay5).trans (.of_procs (setUserPage_procs ..) pid)⟩

/-- **What `handle_pf` does**: nothing, or the page comes in. -/
theorem handlePf_eq_ok {r : Bool} {cr2 : ℕ} (h : handlePf pol acc k pid cr2 = .ok (r, k')) :
    ∃ p e, k.procs pid = some p ∧ k.walkpgdir p.pgdir (pgRoundDown cr2) = some e ∧
      (r = false ∧ k' = k ∨
        r = true ∧ e.p = false ∧ e.pg = true ∧ pageIn pol acc k pid (pgRoundDown cr2) = .ok k') := by
  obtain ⟨p, hp, h⟩ := proc_bind_eq_ok.mp h
  split at h
  · cases h
  rename_i e he
  refine ⟨p, e, hp, he, ?_⟩
  split at h
  · cases h
    exact .inl ⟨rfl, rfl⟩
  · rename_i hc
    obtain ⟨k1, hk1, h⟩ := bind_eq_ok.mp h
    cases h
    obtain ⟨hep, hpg⟩ : e.p = false ∧ e.pg = true := by simpa using hc
    exact .inr ⟨rfl, hep, hpg, hk1⟩

theorem Inv.handlePf {r : Bool} {cr2 : ℕ} (hacc : acc.Keeps) (h : k.Inv held)
    (hf : handlePf pol acc k pid cr2 = .ok (r, k')) : k'.Inv held ∧ k.Stays k' pid := by
  obtain ⟨p, e, hp, he, ⟨-, rfl⟩ | ⟨-, hep, -, hin⟩⟩ := handlePf_eq_ok hf
  · exact ⟨h, .refl k' pid⟩
  · exact h.pageIn hacc hp he hep hin

/-! ## Copy-on-write -/

/-- **What `handle_cow` can do** to a read-only copy-on-write page: give it a copy, or make it writable
when it is the last reference. -/
theorem handleCow_eq_ok {r : Bool} {cr2 : ℕ} (hp : k.procs pid = some p)
    (h : handleCow k pid cr2 = .ok (r, k')) :
    ∃ e, k.walkpgdir p.pgdir cr2 = some e ∧
      ((e.w = true ∨ e.cow = false) ∧ r = false ∧ k' = k ∨
        e.w = false ∧ e.cow = true ∧ r = true ∧
          ((∃ f k1, 1 < k.kmem.referencesCount e.addr ∧ k.kalloc = some (f, k1) ∧
            k' = ((k1.setMem f (k1.mem e.addr)).decCounter e.addr).setPte p.pgdir cr2
              { addr := f, p := true, u := true, w := true }) ∨
          k.kmem.referencesCount e.addr ≤ 1 ∧
            k' = k.setPte p.pgdir cr2 { e with cow := false, w := true })) := by
  replace h := of_proc_bind hp h
  split at h
  · cases h
  · rename_i e he
    refine ⟨e, he, ?_⟩
    split at h
    · rename_i hc
      cases h
      exact .inl ⟨by simpa using hc, rfl, rfl⟩
    · rename_i hc
      obtain ⟨hw, hcow⟩ : e.w = false ∧ e.cow = true := by simpa using hc
      refine .inr ⟨hw, hcow, ?_⟩
      split at h
      · rename_i hcount
        split at h
        · cases h
        · rename_i f k1 hk1
          cases h
          exact ⟨rfl, .inl ⟨f, k1, hcount, hk1, rfl⟩⟩
      · rename_i hcount
        cases h
        exact ⟨rfl, .inr ⟨by simpa [KMem.getRefCounter] using hcount, rfl⟩⟩

/-- A copy-on-write entry belongs to the user half. -/
theorem Frames.user_of_cow (h : k.Frames held) (hw : k.walkpgdir d va = some e)
    (hcow : e.cow = true) : vpn va < userPages := by
  by_contra hv
  have := ((h.fit d va e hw).kernel (by omega)).2.1
  rw [hcow] at this
  cases this

/-- A frame with several references is mapped by the entry that names it. -/
theorem Frames.present_of_shared (h : k.Frames held) (hv : vpn va < userPages)
    (hw : k.walkpgdir d va = some e) (hc : 1 < k.kmem.referencesCount e.addr) : e.p = true := by
  by_contra hep
  rw [(h.fit d va e hw).absent hv (by simpa using hep), h.count_zero] at hc
  omega

/-- **Replacing the frame of an entry by a private copy** leaves the old reference in the hand. -/
theorem Frames.remap {k1 : Kernel} (h : k.Frames held) (hv : vpn va < userPages)
    (hw : k.walkpgdir d va = some e) (hep : e.p = true) (hk : k.kalloc = some (f, k1)) (pg : Page) :
    ((k1.setMem f pg).setPte d va { addr := f, p := true, u := true, w := true }).Frames
      (e.addr ::ₘ held) := by
  have hspec := kalloc_spec hk
  have hw1 : (k1.setMem f pg).walkpgdir d va = some e := by
    rw [setMem_walkpgdir, walkpgdir, hspec.2.2.1, ← walkpgdir, hw]
  have h1 := ((h.kalloc hk).setMem f pg).unmap (e := {}) hv hw1 hep rfl rfl
  rw [Multiset.cons_swap] at h1
  have h2 := Frames.map (e := { addr := f, p := true, u := true, w := true }) h1 hv
    (walkpgdir_setPte_self {} hw1) rfl rfl (.inl rfl) fun _ => hspec.1
  rwa [setPte_setPte] at h2

/-- **`handle_cow` keeps the invariant.** -/
theorem Inv.handleCow {r : Bool} {cr2 : ℕ} (h : k.Inv held)
    (hc : handleCow k pid cr2 = .ok (r, k')) : k'.Inv held ∧ k.Stays k' pid := by
  obtain ⟨p, hp, -⟩ := proc_bind_eq_ok.mp hc
  obtain ⟨e, hw, hcase⟩ := handleCow_eq_ok hp hc
  rcases hcase with ⟨-, -, rfl⟩ | ⟨hro, hcow, -, ⟨f, k1, hcount, hk1, rfl⟩ | ⟨hcount, rfl⟩⟩
  · exact ⟨h, .refl _ pid⟩
  · have hv := h.frames.user_of_cow hw hcow
    have hep := h.frames.present_of_shared hv hw hcount
    have hspec := kalloc_spec hk1
    have hf := h.frames.remap hv hw hep hk1 (k1.mem e.addr)
    have h1 := ((h.kalloc hk1).setMem f (k1.mem e.addr)).setPte hf (.inl rfl)
    exact ⟨h1.of_dirs hf.decCounter rfl rfl rfl rfl, .of_procs hspec.2.2.2 pid⟩
  · have hv := h.frames.user_of_cow hw hcow
    refine ⟨?_, .of_procs rfl pid⟩
    have hf : (k.setPte p.pgdir cr2 { e with cow := false, w := true }).Frames held := by
      refine h.frames.reflag hv hw rfl rfl (fun _ => .inl rfl) fun hep _ => .inr ?_
      have := h.frames.count_pos (owner_pte_of_walk hv hw ▸ Pte.frame_eq_some.mpr ⟨hep, rfl⟩)
      exact Nat.le_antisymm hcount this
    by_cases hep : e.p = true
    · exact h.setPte hf (.inl hep)
    · exact h.setPte_absent hf hw (by simpa using hep)

/-! ## Tying the knot -/

/-- **What a page fault does that is served**: after the books of the policy the page comes in, or `handle_cow`
serves it. -/
theorem pgflt_eq_ok {cr2 : ℕ} (h : pgflt pol acc k pid cr2 = .ok k') : ∃ k1, k.Agree k1 ∧
    ((∃ p e, 2 < pid ∧ k1.procs pid = some p ∧ k1.walkpgdir p.pgdir (pgRoundDown cr2) = some e ∧ e.p = false ∧
        e.pg = true ∧ pageIn pol acc k1 pid (pgRoundDown cr2) = .ok k') ∨
      handleCow k1 pid cr2 = .ok (true, k')) := by
  obtain ⟨k1, hk1, h⟩ := bind_eq_ok.mp h
  refine ⟨k1, pol.hook_agree hk1, ?_⟩
  obtain ⟨⟨r, k2⟩, hk2, h⟩ := bind_eq_ok.mp h
  have hpf : r = false ∧ k2 = k1 ∨ 2 < pid ∧ handlePf pol acc k1 pid cr2 = .ok (r, k2) := by
    split at hk2
    · exact .inr ⟨‹_›, hk2⟩
    · cases hk2
      exact .inl ⟨rfl, rfl⟩
  cases r with
  | true =>
    cases h
    obtain ⟨hpid, hpf⟩ := hpf.resolve_left fun hc => Bool.noConfusion hc.1
    obtain ⟨p, e, hp, he, hcase⟩ := handlePf_eq_ok hpf
    obtain ⟨-, hep, hpg, hin⟩ := hcase.resolve_left fun hc => Bool.noConfusion hc.1
    exact .inl ⟨p, e, hpid, hp, he, hep, hpg, hin⟩
  | false =>
    obtain ⟨⟨r', k3⟩, hk3, h⟩ := bind_eq_ok.mp h
    obtain rfl : k2 = k1 := by
      rcases hpf with hpf | ⟨-, hpf⟩
      · exact hpf.2
      · obtain ⟨_, _, -, -, hc | hc⟩ := handlePf_eq_ok hpf
        · exact hc.2
        · cases hc.1
    cases r' with
    | true =>
      cases h
      exact .inr hk3
    | false => cases h

/-- **A page fault keeps the invariant.** -/
theorem Inv.pgflt {cr2 : ℕ} (hacc : acc.Keeps) (h : k.Inv held)
    (hf : pgflt pol acc k pid cr2 = .ok k') : k'.Inv held ∧ k.Stays k' pid := by
  obtain ⟨k1, ha, ⟨p, e, -, hp, he, hep, -, hin⟩ | hcow⟩ := pgflt_eq_ok hf
  · exact ((h.agree ha).pageIn hacc hp he hep hin).imp_right (ha.stays pid).trans
  · exact ((h.agree ha).handleCow hcow).imp_right (ha.stays pid).trans

theorem accessAs_succ (pol : Policy) (n : ℕ) (user w : Bool) (k : Kernel) (pid va : ℕ) :
    accessAs pol (n + 1) user w k pid va
      = if k.permits user w pid va then .ok k
        else pgflt pol (accessAs pol n false) k pid va >>= fun k => accessAs pol n user w k pid va := rfl

/-- An access that the MMU lets through changes nothing. -/
theorem accessAs_idle {n : ℕ} {user w : Bool} (hperm : k.permits user w pid va = true)
    (h : accessAs pol n user w k pid va = .ok k') : k' = k := by
  cases n with
  | zero => cases h
  | succ n =>
    rw [accessAs_succ, if_pos hperm] at h
    cases h
    rfl

/-- **Every access keeps the invariant**, however deep its faults nest. -/
theorem Inv.accessAs : ∀ (n : ℕ) (user : Bool) {w : Bool} {k k' : Kernel} {pid va : ℕ}
    {held : Multiset ℕ}, k.Inv held → Kernel.accessAs pol n user w k pid va = .ok k' →
    k'.Inv held ∧ k.Stays k' pid
  | 0, _, _, _, _, _, _, _, _, h => by cases h
  | n + 1, user, w, k, k', pid, va, held, hi, h => by
    have hkeeps : Access.Keeps (Kernel.accessAs pol n false) :=
      ⟨fun hk hperm => accessAs_idle hperm hk, fun hi hk => Inv.accessAs n false hi hk⟩
    rw [accessAs_succ] at h
    split at h
    · cases h
      exact ⟨hi, .refl k pid⟩
    · obtain ⟨k1, hk1, h⟩ := bind_eq_ok.mp h
      obtain ⟨h1, hst1⟩ := hi.pgflt hkeeps hk1
      obtain ⟨h2, hst2⟩ := Inv.accessAs n user h1 h
      exact ⟨h2, hst1.trans hst2⟩

theorem keeps_access (pol : Policy) (n : ℕ) : Access.Keeps (access pol n) :=
  ⟨fun hk hperm => accessAs_idle hperm hk, fun hi hk => Inv.accessAs n false hi hk⟩

/-- Setting `PTE_A` is a book. -/
theorem agree_markAccessed (k : Kernel) (pid va : ℕ) : k.Agree (k.markAccessed pid va) := by
  unfold markAccessed
  split
  · exact .refl k
  · split
    · exact .refl k
    · rename_i e he
      exact .setPte he rfl

/-- **A load keeps the invariant.** -/
theorem Inv.load {n : ℕ} {b : UInt8} (h : k.Inv held) (hl : load pol n k pid va = .ok (b, k')) :
    k'.Inv held := by
  obtain ⟨k1, hk1, hl⟩ := bind_eq_ok.mp hl
  obtain ⟨h1, -⟩ := Inv.accessAs n true h hk1
  split at hl
  · cases hl
  · cases hl
    exact h1.agree (agree_markAccessed k1 pid va)

/-- **A store keeps the invariant.** -/
theorem Inv.store {n : ℕ} {b : UInt8} (h : k.Inv held) (hs : store pol n k pid va b = .ok k') :
    k'.Inv held := by
  obtain ⟨k1, hk1, hs⟩ := bind_eq_ok.mp hs
  obtain ⟨h1, -⟩ := Inv.accessAs n true h hk1
  split at hs
  · cases hs
  · cases hs
    exact (h1.setUserPage ..).agree (agree_markAccessed _ pid va)

/-! ## What a fault does with the swap file -/

/-- The slot that `handle_pf` reads for an address, and whether it writes a victim to it. -/
def swapNeed (k : Kernel) (pid va : ℕ) : Option (Fin maxPsycPages × Bool) :=
  if 2 < pid then
    (k.procs pid).bind fun p => (k.walkpgdir p.pgdir (pgRoundDown va)).bind fun e =>
      if e.p || !e.pg then none
      else (p.getIOfVaInFile (pgRoundDown va)).map fun j => (j, p.nextFreeIInMem.isNone)
  else none

end Kernel

end Xv6
