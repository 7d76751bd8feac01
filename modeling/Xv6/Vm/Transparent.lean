import Xv6.Vm.Placed
import Xv6.Vm.Resident
import Xv6.Vm.Room

/-!
# Vm/Transparent — paging that succeeds, and what it keeps

Where each page of a process is in one place, the paging code does not panic: the victim is in memory,
its slot of the swap file can be written, and the page that comes in is found.  The lemmas below say that
a call returns and what then holds: `Outcome.Returns`.

Two things can go wrong.  `get_i_of_va_in_file` does not look at `is_used`, so a slot that has been
given back may be found before the one in use (`Proc.Found` rules this out).  And under `AQ` a growth
with a free slot somewhere overwrites the last entry of the queue, in use or not (`Proc.QueueFits`).
-/

namespace Xv6

open Outcome Function

/-- Accesses that the MMU lets through return at once. -/
def Access.Serves (acc : Access) : Prop :=
  ∀ {w k pid va}, k.permits false w pid va = true → acc w k pid va = .ok k

/-- The file slot that `handle_pf` finds for a page is in use. -/
def Proc.Found (p : Proc) (va : ℕ) : Prop :=
  ∀ j, p.getIOfVaInFile va = some j → (p.filePages j).isUsed = true

/-- **The file slots in use are the first ones**, and there are none while memory has a free slot. -/
structure Proc.Packed (p : Proc) : Prop where
  below : ∀ i j, i ≤ j → (p.filePages j).isUsed = true → (p.filePages i).isUsed = true
  full : ∀ j, (p.filePages j).isUsed = true → ∀ i, (p.memoryPages i).isUsed = true

/-- A full memory stays full in the books of a policy. -/
theorem Proc.Agree.full {p p' : Proc} (h : p.Agree p') (hfull : ∀ i, (p.memoryPages i).isUsed = true)
    (i : Fin maxPsycPages) : (p'.memoryPages i).isUsed = true := by
  obtain ⟨l, -, -, hl⟩ := h.exists_slot i
  rw [hl, hfull l]

/-- **In a packed process every page is found**: a slot before the one in use is in use too. -/
theorem Proc.Placed.found {p : Proc} {k : Kernel} {a va : ℕ} {loose : Set ℕ} (h : p.Placed k a loose)
    (hpack : p.Packed) (hva : UserPage va) (hout : k.PagedOut p.pgdir va) : p.Found va := by
  intro j hj
  obtain ⟨l, hl, hlva⟩ := h.filed va hva hout
  exact hpack.below j l (le_of_getIOfVaInFile hj hlva) hl

/-- The queue has room for `n` pages at its end, as far as there are free slots at all. -/
def Proc.QueueFits (p : Proc) (n : ℕ) : Prop :=
  ∀ t : Fin maxPsycPages, t < n → t < p.free → (p.memoryPages t.rev).isUsed = false

/-- The queue after a page has entered it. -/
theorem Proc.QueueFits.rotate {p : Proc} {n : ℕ} {s : Slot} (h : p.QueueFits (n + 1))
    (hfree : 0 < p.free) (hs : s.isUsed = true) : (p.aqNext.setMemSlot 0 s).QueueFits n := by
  intro t ht hlt
  have hlast : (p.aqNext.memoryPages 0).isUsed = false := h 0 (Nat.succ_pos n) hfree
  have hless : (p.aqNext.setMemSlot 0 s).free < p.free := by
    rw [← (Policy.agree_aqNext p).free]
    exact Proc.free_setMemSlot_lt hlast hs
  have hle : p.free ≤ maxPsycPages := (Finset.card_le_univ _).trans (by simp)
  have hbound : (t : ℕ) + 1 < maxPsycPages := by omega
  have hne : t.rev ≠ 0 := fun h0 => by
    have := congrArg Fin.val h0
    rw [Fin.val_rev] at this
    simp only [Fin.val_zero] at this
    omega
  have hrev : t.rev - 1 = (⟨t + 1, hbound⟩ : Fin maxPsycPages).rev := by
    have hval : ((⟨t + 1, hbound⟩ : Fin maxPsycPages) : ℕ) = t + 1 := rfl
    ext
    rw [Fin.val_rev, Fin.sub_val_of_le (Fin.one_le_of_ne_zero hne), Fin.val_rev, Fin.val_one]
    omega
  have := h ⟨t + 1, hbound⟩ (Nat.succ_lt_succ ht) (by simp only; omega)
  simpa [Proc.setMemSlot, Proc.aqNext, hne, hrev] using this

namespace Kernel

variable {k k' k1 : Kernel} {held : Multiset ℕ} {pid d a x va f : ℕ} {p p' q : Proc} {e : Pte}
  {i j : Fin maxPsycPages} {pol : Policy} {acc : Access} {loose : Set ℕ} {m : ℕ → Option Page}

theorem serves_access (pol : Policy) (n : ℕ) (user : Bool) :
    ∀ {w k pid va}, k.permits user w pid va = true → accessAs pol (n + 1) user w k pid va = .ok k :=
  fun h => by rw [accessAs_succ, if_pos h]

/-- **The paging state of a process**: the invariant, the placement of its pages and its memory. -/
structure Paged (k : Kernel) (pid : ℕ) (p : Proc) (a : ℕ) (loose : Set ℕ) (m : ℕ → Option Page) :
    Prop where
  inv : k.Inv 0
  proc : k.procs pid = some p
  placed : p.Placed k a loose
  users : ∀ y ∈ loose, UserPage y
  memory : k.logical p = m

theorem Paged.own (h : k.Paged pid p a loose m) : p.Own := h.inv.own pid p h.proc

/-- The memory does not depend on the books of a policy. -/
theorem logical_agree (hk : k.Agree k') (hp : p.Agree p') : k'.logical p' = k.logical p :=
  logical_congr (fun v => by rw [hp.pgdir]; exact hk.alike.pages _ v)
    (fileSlot_of_filePages hp.filePages) fun j _ => by rw [hp.swapFile]

theorem Paged.agree (h : k.Paged pid p a loose m) (hk : k.Agree k') :
    ∃ p', k'.Paged pid p' a loose m ∧ p.Agree p' := by
  obtain ⟨p', hp', hpa⟩ := hk.exists_proc h.proc
  exact ⟨p', ⟨h.inv.agree hk, hp', h.placed.agree hk hpa, h.users,
    (logical_agree hk hpa).trans h.memory⟩, hpa⟩

/-- No table goes, and none comes. -/
theorem Agree.isSome_walk (h : k.Agree k') (d va : ℕ) :
    (k'.walkpgdir d va).isSome = (k.walkpgdir d va).isSome := by
  simpa using congrArg Option.isSome (h.walk d va)

/-! ## Paging out -/

theorem not_refuses {sf : SwapFile} (j : Fin maxPsycPages) (h : j * pgSize ≤ sf.size) :
    ¬ sf.Refuses (j * pgSize) := by
  have hj := j.isLt
  simp only [SwapFile.Refuses, SwapFile.maxSize, maxPsycPages, pgSize] at *
  omega

/-- **Writing a present page to the swap file.** -/
theorem writeUserToSwapFile_ok (hacc : acc.Serves) (hp : k.procs pid = some p)
    (hw : k.walkpgdir p.pgdir va = some e) (hep : e.p = true) (hj : j * pgSize ≤ p.swapFile.size) :
    writeUserToSwapFile acc k pid va (j * pgSize)
      = .ok (some (k.setProc pid (p.setSwapFile (p.swapFile.write (j * pgSize) (k.mem e.addr))))) := by
  have hperm : k.permits false false pid va = true := (permits_read hp).mpr ⟨e, hw, hep⟩
  have hpage : k.userPage pid va = some (k.mem e.addr) := by simp [userPage, hp, hw]
  rw [writeUserToSwapFile, proc_eq_ok.mpr hp, ok_bind, if_neg (not_refuses j hj), hacc hperm, ok_bind,
    hpage]
  simp only [writeToSwapFile, proc_eq_ok.mpr hp, ok_bind, if_neg (not_refuses j hj)]
  rfl

/-- The frame of a present page can be dropped. -/
theorem Frames.exists_kfree_page (h : k.Frames held) (hv : vpn va < userPages)
    (hw : k.walkpgdir d va = some e) (hep : e.p = true) : ∃ k', k.kfree e.addr = .ok k' := by
  have hown : k.owner (.pte d (vpn va)) = some e.addr := by
    rw [owner_pte_of_walk hv hw]
    exact Pte.frame_eq_some.mpr ⟨hep, rfl⟩
  have hm := h.managed e.addr (.inr (Ledger.total_ne_zero_of_ref hown))
  exact ⟨_, kfree_eq_ok.mpr ⟨_, KMem.kfree_eq_ok.mpr ⟨hm, rfl⟩, rfl⟩⟩

/-- What paging a page out shows. -/
theorem Frames.pageAt_pageOut (h : k.Frames held) (hp : k.procs pid = some p)
    (hstack : q.kstack = p.kstack) (hv : vpn va < userPages) (hw : k.walkpgdir d va = some e)
    (hep : e.p = true)
    (hk : ((k.setProc pid q).setPte d va e.inDisk).kfree e.addr = .ok k') (d' v : ℕ) :
    k'.pageAt d' v = if d' = d ∧ v = vpn va then none else k.pageAt d' v := by
  have hf := (h.setProc hp hstack).unmap (e := e.inDisk) hv hw hep rfl rfl
  rw [hf.pageAt_kfree_held hk, pageAt_setPte hv (by rw [setProc_walkpgdir, hw])]
  rfl

/-- **A loose page is evicted**: its bytes go to a free slot of the file, and its frame is dropped. -/
theorem Frames.evict {r : Proc} (h : k.Frames held) (hr : k.procs pid = some r)
    (hstack : p.kstack = r.kstack) (hp : p.Placed k a (insert x loose)) (ho : p.Own) (hx : UserPage x)
    (hxl : x ∉ loose) (hloose : ∀ y ∈ loose, UserPage y) (hj : (p.filePages j).isUsed = false)
    (hw : k.walkpgdir p.pgdir x = some e) (hep : e.p = true)
    (hk : ((k.setProc pid (p.pagedTo j d x (k.mem e.addr))).setPte p.pgdir x e.inDisk).kfree e.addr
      = .ok k') :
    (p.pagedTo j d x (k.mem e.addr)).Placed k' a loose ∧
      k'.logical (p.pagedTo j d x (k.mem e.addr)) = k.logical p := by
  have hv := vpn_lt_of_lt hx.1
  have hplaced := (hp.pageOut ho hxl hx hw hj d (k.mem e.addr) hloose).of_walk fun va =>
    (walkpgdir_of_kfree hk p.pgdir va).trans rfl
  refine ⟨hplaced, logical_pageOut hplaced hx hj ?_ fun v => ?_⟩
  · rw [pageAt_of_walk hv hw, Pte.frame, if_pos hep]
    rfl
  · rw [h.pageAt_pageOut (q := p.pagedTo j d x (k.mem e.addr)) hr hstack hv hw hep hk]
    exact if_congr (and_iff_right rfl) rfl rfl

/-- **`moveToFile` returns** for a used slot. -/
theorem moveToFile_ok (h : k.Frames held) (hp : k.procs pid = some p) (hv : UserPage (p.memoryPages i).va)
    (hw : k.walkpgdir (p.memoryPages i).pgdir (p.memoryPages i).va = some e) (hep : e.p = true) :
    Returns (moveToFile k pid i j) fun k' =>
      ((k.setProc pid ((p.enterFile j (p.memoryPages i).pgdir (p.memoryPages i).va).freeMemSlot i)).setPte
        (p.memoryPages i).pgdir (p.memoryPages i).va e.inDisk).kfree e.addr = .ok k' := by
  obtain ⟨k1, hk1⟩ := h.exists_kfree_page (vpn_lt_of_lt hv.1) hw hep
  have hk2 := kfree_setProc hk1 pid (p.enterFile j (p.memoryPages i).pgdir (p.memoryPages i).va)
  refine ⟨(k1.setProc pid ((p.enterFile j (p.memoryPages i).pgdir (p.memoryPages i).va).freeMemSlot
    i)).setPte (p.memoryPages i).pgdir (p.memoryPages i).va e.inDisk, ?_,
    kfree_setPte (kfree_setProc hk1 ..) ..⟩
  rw [Kernel.moveToFile, proc_eq_ok.mpr hp, ok_bind]
  simp only [findPa, setProc_walkpgdir, hw, Option.map_some, kfreePa, hk2, ok_bind,
    proc_eq_ok.mpr (setProc_procs_self ..), setPageFlagsInDisk, walkpgdir_of_kfree hk1,
    setProc_setProc]

/-- `kfree` gives no frame away. -/
theorem length_le_of_kfree (hk : k.kfree f = .ok k') :
    k.kmem.freelist.length ≤ k'.kmem.freelist.length := by
  obtain ⟨m, hm, rfl⟩ := kfree_eq_ok.mp hk
  obtain ⟨-, rfl⟩ := KMem.kfree_eq_ok.mp hm
  simp only
  split
  · exact Nat.le_succ _
  · exact le_rfl

/-- **`swap` moves the victim of the policy to the first free slot of the file** and keeps the memory. -/
theorem Paged.swap_victim (hacc : acc.Serves) (hkeep : acc.Keeps) (h : k.Paged pid p a loose m)
    (hx : x ∈ loose) (ha : a % pgSize = 0) (hle : a ≤ maxTotalPages * pgSize)
    (hfull : ∀ i, (p.memoryPages i).isUsed = true)
    (hk1 : pol.next (k.setProc pid p.countFault) pid = .ok (i, k1)) :
    Returns (swap pol acc k pid) fun r => r.1 = some i ∧ ∃ p1 j pg, p.Agree p1 ∧
      p.nextFreeIInFile = some j ∧
      r.2.Paged pid ((p1.freeMemSlot i).pagedTo j p.pgdir (p1.memoryPages i).va pg) a loose m ∧
      (∀ va, vpn va ≠ vpn (p1.memoryPages i).va →
        (r.2.PagedOut p.pgdir va ↔ k.PagedOut p.pgdir va)) ∧
      (∀ va, (r.2.walkpgdir p.pgdir va).isSome = (k.walkpgdir p.pgdir va).isSome) ∧
      k.kmem.freelist.length ≤ r.2.kmem.freelist.length := by
  have hka := (Agree.setProc h.proc p.agree_countFault).trans (pol.next_agree hk1)
  obtain ⟨p1, h1, hpa⟩ := h.agree hka
  have hfull1 := hpa.full hfull
  obtain ⟨j, hj⟩ := h1.placed.exists_free_file h1.own ha (h1.users x hx) hx hfull1 hle
  obtain ⟨hju, hjs⟩ := h1.placed.of_nextFree hj
  obtain ⟨e, hw, hep⟩ := h1.placed.present i (hfull1 i)
  have hva := h1.own.memVa i
  have hdir := h1.own.memDir i (hfull1 i)
  have hwrite := writeUserToSwapFile_ok hacc h1.proc hw hep hjs
  obtain ⟨k2, hk2, hmove⟩ := moveToFile_ok (i := i) (j := j)
    (k := k1.setProc pid (p1.setSwapFile (p1.swapFile.write (j * pgSize) (k1.mem e.addr))))
    ((h1.inv.setSwapFile h1.proc _).frames) (setProc_procs_self ..) hva
    (by rw [setProc_walkpgdir]; exact hdir ▸ hw) hep
  have hswap : Kernel.swap pol acc k pid = .ok (some i, k2) := by
    rw [Kernel.swap, proc_eq_ok.mpr h.proc, ok_bind, hk1, ok_bind]
    simp only [proc_eq_ok.mpr h1.proc, ok_bind, hj, hwrite, hk2]
    rfl
  rw [setProc_setProc] at hmove
  have hout : ((k1.setProc pid ((p1.freeMemSlot i).pagedTo j (p1.memoryPages i).pgdir
      (p1.memoryPages i).va (k1.mem e.addr))).setPte (p1.memoryPages i).pgdir (p1.memoryPages i).va
      e.inDisk).kfree e.addr = .ok k2 := hmove
  have hxi : (p1.memoryPages i).va ∉ loose := fun hc => (h1.placed.lone _ hc).2 i (hfull1 i) rfl
  rw [hdir] at hout
  obtain ⟨hplaced, hlogical⟩ := h1.inv.frames.evict h1.proc (by rfl) (h1.placed.freeMemSlot (hfull1 i))
    h1.own.freeMemSlot hva hxi h1.users hju hw hep hout
  refine ⟨_, hswap, rfl, p1, j, k1.mem e.addr, hpa, ?_, ⟨(h.inv.swap hkeep h.proc hfull hswap).1, ?_, ?_,
    h.users, ?_⟩, fun va hne => ?_, fun va => ?_, ?_⟩
  · rw [← hj, Proc.nextFreeIInFile, Proc.nextFreeIInFile, hpa.filePages]
  · rw [procs_of_kfree hout, ← hpa.pgdir]
    exact setProc_procs_self ..
  · rw [← hpa.pgdir]
    exact hplaced
  · rw [← hpa.pgdir]
    exact hlogical.trans h1.memory
  · rw [PagedOut, walkpgdir_of_kfree hout, walkpgdir_setPte_of_ne (.inr hne), setProc_walkpgdir,
      ← PagedOut, hka.pagedOut_iff]
  · rw [walkpgdir_of_kfree hout, isSome_walkpgdir_setPte, setProc_walkpgdir, hka.isSome_walk]
  · have hlen := length_le_of_kfree hout
    rwa [setPte_kmem, setProc_kmem, hka.kmem] at hlen

/-! ## Paging in -/

/-- **The eviction of `handle_pf` returns** and keeps the memory. -/
theorem Paged.pfEvict {old : Slot} (hacc : acc.Serves) (hkeep : acc.Keeps)
    (h : k.Paged pid p a (insert old.va loose) m) (hold : old.va ∉ loose) (hd : old.pgdir = p.pgdir)
    (hj : (p.filePages j).isUsed = false) (hjs : j * pgSize ≤ p.swapFile.size) :
    Returns (pfEvict acc k pid j old) fun k' =>
      (∃ pg, k'.Paged pid (p.pagedTo j p.pgdir old.va pg) a loose m) ∧ k'.buffer = k.buffer ∧
      (∀ va, vpn va ≠ vpn old.va → k'.walkpgdir p.pgdir va = k.walkpgdir p.pgdir va) := by
  have hva := h.users old.va (Set.mem_insert ..)
  obtain ⟨⟨e, hw, hep⟩, hlone⟩ := h.placed.lone old.va (Set.mem_insert ..)
  have hwrite := writeUserToSwapFile_ok hacc h.proc hw hep hjs
  obtain ⟨k1, hk1⟩ := h.inv.frames.exists_kfree_page (vpn_lt_of_lt hva.1) hw hep
  have hk := kfree_setPte (kfree_setProc hk1 pid (p.pagedTo j p.pgdir old.va (k.mem e.addr)))
    p.pgdir old.va e.inDisk
  have hevict : Kernel.pfEvict acc k pid j old = .ok ((k1.setProc pid
      (p.pagedTo j p.pgdir old.va (k.mem e.addr))).setPte p.pgdir old.va e.inDisk) := by
    rw [Kernel.pfEvict, hwrite, ok_bind]
    simp only [pfEvicted, proc_eq_ok.mpr (setProc_procs_self ..), ok_bind, setProc_setProc,
      setPageFlagsInDisk, setProc_walkpgdir, findPa, hd, hw, Option.map_some, kfreePa]
    exact hk
  obtain ⟨hplaced, hlogical⟩ := h.inv.frames.evict (p := p) (x := old.va) h.proc rfl h.placed h.own hva
    hold (fun y hy => h.users y (Set.mem_insert_of_mem _ hy)) hj hw hep hk
  refine ⟨_, hevict, ⟨k.mem e.addr, (h.inv.pfEvict hkeep h.proc hd hva
    (.inl ⟨h.placed.toSettled, hlone⟩) hevict).1, setProc_procs_self .., hplaced,
    fun y hy => h.users y (Set.mem_insert_of_mem _ hy), hlogical.trans h.memory⟩, ?_, fun va hne => ?_⟩
  · obtain ⟨_, -, rfl⟩ := kfree_eq_ok.mp hk1
    rfl
  · rw [walkpgdir_setPte_of_ne (.inr hne), setProc_walkpgdir, walkpgdir_of_kfree hk1]

/-- The allocator may change behind a placement. -/
theorem Paged.kalloc_agree {k2 : Kernel} (h : k.Paged pid p a loose m) (hk : k.kalloc = some (f, k1))
    (ha : k1.Agree k2) (hq : k2.procs pid = some q) :
    k2.Inv {f} ∧ q.Placed k2 a loose ∧ k2.logical q = m ∧ p.Agree q := by
  have hspec := kalloc_spec hk
  obtain ⟨q', hq', hpa⟩ := ha.exists_proc (hspec.2.2.2 ▸ h.proc)
  cases Option.mem_unique hq hq'
  have hwalk : ∀ va, k1.walkpgdir p.pgdir va = k.walkpgdir p.pgdir va := fun va => by
    rw [walkpgdir, hspec.2.2.1, ← walkpgdir]
  have hlog : k1.logical p = k.logical p :=
    logical_congr (fun v => pageAt_kalloc hk _ v) (fun _ => rfl) fun _ _ => rfl
  exact ⟨(h.inv.kalloc hk).agree ha, (h.placed.of_walk hwalk).agree ha hpa,
    (logical_agree ha hpa).trans (hlog.trans h.memory), hpa⟩

/-- The page that comes in shows its frame, whatever that holds. -/
theorem Inv.paged_loadSlot (hf : k.Inv {f}) (h : (k.setPte p.pgdir va (e.inMem f)).Inv 0)
    (hp : k.procs pid = some p) (hplaced : p.Placed k a loose) (hloose : ∀ y ∈ loose, UserPage y)
    (hj : (p.filePages j).isUsed = true) (hjva : (p.filePages j).va = va)
    (hw : k.walkpgdir p.pgdir va = some e) (hep : e.p = false)
    (pol : Policy) (i : Fin maxPsycPages) (buf : Page) :
    ({ k.setPte p.pgdir va (e.inMem f) with buffer := buf }.setProc pid (Kernel.loadSlot pol p i j)).Paged pid
      (Kernel.loadSlot pol p i j) a
      ({y | (p.memoryPages i).isUsed = true ∧ (p.memoryPages i).va = y} ∪ loose)
      (Function.update (k.logical p) (vpn va) (some (k.mem f))) := by
  have hown := hf.own pid p hp
  have hva : UserPage va := hjva ▸ hown.fileVa j
  have hv := vpn_lt_of_lt hva.1
  have haddr : (e.inMem f).addr = f := by
    rw [Pte.inMem, (hf.frames.fit _ _ e hw).absent hv hep, Nat.zero_or]
  have hpres : (k.setPte p.pgdir va (e.inMem f)).Present p.pgdir va :=
    ⟨_, walkpgdir_setPte_self _ hw, rfl⟩
  have hne : ∀ l, (p.memoryPages l).isUsed = true → (p.memoryPages l).va ≠ (p.filePages j).va :=
    fun l hl heq => (hplaced.paged j hj).1.not_present (heq ▸ hplaced.present l hl)
  have hload := (h.setBuffer buf).loadSlot pol (i := i) (j := j) hp (hjva ▸ hpres)
    (.inl ⟨(hplaced.toSettled.mono fun l _ hl => hl.setPte (.inl rfl)).of_walk fun _ _ => rfl, hne⟩)
  subst hjva
  refine ⟨hload.1, setProc_procs_self .., (hplaced.pageIn hown hj hw pol i).of_walk fun _ => rfl,
    ?_, ?_⟩
  · rintro y (⟨-, rfl⟩ | hy)
    · exact hown.memVa i
    · exact hloose y hy
  refine logical_pageIn hva rfl fun v => ?_
  change (k.setPte p.pgdir (p.filePages j).va (e.inMem f)).pageAt p.pgdir v = _
  rw [pageAt_setPte hv hw]
  refine if_congr (and_iff_right rfl) ?_ rfl
  rw [Pte.frame, haddr]
  rfl

/-- A victim takes the file slot of the page that came in: what is in use stays in use. -/
theorem packed_swapIn (hpack : p.Packed) (hpa : p.Agree q) (hj : (q.filePages j).isUsed = true)
    (d x : ℕ) (pg : Page) : ((loadSlot pol q i j).pagedTo j d x pg).Packed := by
  have hfull := hpa.full (hpack.full j (by rw [← hpa.filePages]; exact hj))
  have hused : ∀ l, (((loadSlot pol q i j).pagedTo j d x pg).filePages l).isUsed
      = (p.filePages l).isUsed := fun l => by
    rw [Proc.filePages_pagedTo]
    split
    · rename_i hl
      rw [hl, ← hpa.filePages, hj]
    · rename_i hl
      rw [Proc.filePages_loadSlot, if_neg hl, hpa.filePages]
  refine ⟨fun l l' hle hl' => ?_, fun _ _ l => ?_⟩
  · rw [hused] at hl' ⊢
    exact hpack.below l l' hle hl'
  · have hcore := memoryPages_loadSlot pol q i j l
    simp only [Slot.core] at hcore
    change ((loadSlot pol q i j).memoryPages l).isUsed = true
    split at hcore
    · simp only [Prod.mk.injEq] at hcore
      exact hcore.2.2.trans hj
    · simp only [Prod.mk.injEq] at hcore
      exact hcore.2.2.trans (hfull l)

/-- **A page comes in** once its frame and its slots are chosen: the rest of `handle_pf` returns, the page
is back and the memory is the same. -/
theorem Paged.pageIn_begun {old : Option Slot} (hacc : acc.Serves) (hkeep : acc.Keeps)
    (h : k.Paged pid p a loose m) (hva : UserPage va) (hout : k.PagedOut p.pgdir va)
    (hfound : p.Found va) (hb : pfBegin pol k pid va = .ok (i, old, j, k1)) :
    Returns (pageIn pol acc k pid va) fun k' => ∃ p', k'.Paged pid p' a loose m ∧ p'.pgdir = p.pgdir ∧
      p'.sz = p.sz ∧ (p.Packed → p'.Packed) ∧
      ∃ e, k'.walkpgdir p.pgdir va = some e ∧ e.p = true ∧ e.w = true ∧ e.u = true := by
  have hv := vpn_lt_of_lt hva.1
  obtain ⟨f, ka, kb, kc, p2, e, hka, hkb, hkc, hp2, hpa, he, hj, rfl, hold⟩ := pfBegin_eq_ok h.proc hb
  obtain ⟨pa, ha, -⟩ := h.agree hka
  obtain ⟨hc, hplaced, hlog, -⟩ := ha.kalloc_agree hkb hkc hp2
  have hd : p2.pgdir = p.pgdir := hpa.pgdir
  have hjva := va_of_getIOfVaInFile hj
  have hju : (p2.filePages j).isUsed = true := by
    rw [hpa.filePages]
    exact hfound j (by rw [← hj, Proc.getIOfVaInFile, Proc.getIOfVaInFile, hpa.filePages])
  obtain ⟨hout2, hsize⟩ := hplaced.paged j hju
  rw [hjva] at hout2
  have hep : e.p = false := by
    obtain ⟨e', he', hep', -⟩ := hout2
    cases Option.mem_unique he he'
    exact hep'
  obtain ⟨e0, hw0, he0, -⟩ := hout
  have h1 := (h.inv.pfBegin h.proc hw0 he0 hb).1
  have haddr : (e.inMem f).addr = f := by
    rw [Pte.inMem, (hc.frames.fit _ _ e he).absent hv hep, Nat.zero_or]
  have hread : pfRead (kc.setPte p2.pgdir va (e.inMem f)) pid j
      = .ok { kc.setPte p2.pgdir va (e.inMem f) with buffer := p2.swapFile.page j } := by
    rw [pfRead, proc_eq_ok.mpr (show (kc.setPte p2.pgdir va (e.inMem f)).procs pid = some p2 from hp2),
      ok_bind]
    simp only [(SwapFile.read_fst ..).mpr hsize, SwapFile.read_snd _ hsize, ne_eq, not_true, if_false]
    rfl
  have h3 := hc.paged_loadSlot h1 hp2 hplaced h.users hju hjva he hep pol i (p2.swapFile.page j)
  rw [hlog] at h3
  -- the victim leaves, or there is none
  obtain ⟨k4, hk4, p4, h4, hd4, hsz4, hpack4, hbuf, hwalk⟩ : Returns (pfMakeRoom acc
      ({ kc.setPte p2.pgdir va (e.inMem f) with buffer := p2.swapFile.page j }.setProc pid
        (loadSlot pol p2 i j)) pid j old) fun k4 => ∃ p4, k4.Paged pid p4 a loose
          (Function.update m (vpn va) (some (kc.mem f))) ∧ p4.pgdir = p.pgdir ∧ p4.sz = p.sz ∧
          (p.Packed → p4.Packed) ∧
          k4.buffer = p2.swapFile.page j ∧ k4.walkpgdir p.pgdir va = some (e.inMem f) := by
    have hself : (kc.setPte p2.pgdir va (e.inMem f)).walkpgdir p.pgdir va = some (e.inMem f) :=
      hd ▸ walkpgdir_setPte_self _ he
    rcases hold with ⟨rfl, hi⟩ | ⟨rfl, hfull⟩
    · have hset : {y | (p2.memoryPages i).isUsed = true ∧ (p2.memoryPages i).va = y} ∪ loose
          = loose := by
        simp [hi]
      refine returns_ok.mpr ⟨loadSlot pol p2 i j, hset ▸ h3, hd, hpa.sz, fun hpack => ?_, rfl, hself⟩
      -- a packed process has nothing in its file while memory has a free slot
      have := hpa.full (hpack.full j (by rw [← hpa.filePages]; exact hju)) i
      rw [hi] at this
      cases this
    · have hset : {y | (p2.memoryPages i).isUsed = true ∧ (p2.memoryPages i).va = y} ∪ loose
          = insert (p2.memoryPages i).va loose := by
        ext y
        simp [hfull i, eq_comm]
      rw [hset] at h3
      have hown := hc.own pid p2 hp2
      refine (h3.pfEvict hacc hkeep (fun hl => (hplaced.lone _ hl).2 i (hfull i) rfl)
        (hown.memDir i (hfull i)) ?_ ?_).mono ?_
      · rw [Proc.filePages_loadSlot, if_pos rfl]
      · exact le_trans (Nat.mul_le_mul_right _ (Nat.le_succ _)) hsize
      · rintro k4 - ⟨⟨pg, h4⟩, hbuf, hwalk⟩
        refine ⟨_, h4, hd, hpa.sz, fun hpack => packed_swapIn hpack hpa hju _ _ _, hbuf, ?_⟩
        have hne : vpn va ≠ vpn (p2.memoryPages i).va := fun hvv => hout2.not_present
          ((present_congr hvv).mpr (hplaced.present i (hfull i)))
        have := hwalk va hne
        rw [show (loadSlot pol p2 i j).pgdir = p.pgdir from hd] at this
        exact this.trans hself
  have hperm : k4.permits false true pid va = true := by
    rw [permits, h4.proc, Option.bind_some, hd4, hwalk]
    rfl
  have hfill : pfFill acc k4 pid va = .ok (k4.setMem f (p2.swapFile.page j)) := by
    rw [pfFill, hacc hperm, ok_bind, setUserPage, h4.proc, Option.bind_some, hd4, hwalk, hbuf]
    simp only [haddr]
    rfl
  have hin : Kernel.pageIn pol acc k pid va = .ok (k4.setMem f (p2.swapFile.page j)) := by
    rw [Kernel.pageIn, hb, ok_bind]
    simp only [hread, ok_bind, pfLoad]
    rw [proc_eq_ok.mpr (show ({ kc.setPte p2.pgdir va (e.inMem f) with
      buffer := p2.swapFile.page j } : Kernel).procs pid = some p2 from hp2), ok_bind, pure_eq_ok, ok_bind,
      hk4, ok_bind, hfill]
  refine ⟨_, hin, p4, ⟨(h.inv.pageIn hkeep h.proc hw0 he0 hin).1, h4.proc,
    h4.placed.of_walk fun _ => rfl, h.users, ?_⟩, hd4, hsz4, hpack4, e.inMem f, hwalk, rfl, rfl, rfl⟩
  have hset := h4.inv.frames.logical_setMem hv (hd4.symm ▸ hwalk) rfl rfl (p2.swapFile.page j)
  rw [haddr] at hset
  rw [hset, h4.memory, update_idem, ← logical_of_pagedOut hplaced hva hout2 hju hjva, hlog,
    update_eq_self]

/-! ## Accesses -/

/-- **Copy-on-write keeps the placement and the memory.** -/
theorem Paged.handleCow {r : Bool} (h : k.Paged pid p a loose m)
    (hk : Kernel.handleCow k pid va = .ok (r, k')) : k'.Paged pid p a loose m := by
  have halike := alike_handleCow h.inv hk
  have hinv := (h.inv.handleCow hk).1
  have hmem : k'.logical p = m := by
    rw [← h.memory]
    exact logical_congr (fun v => halike.pages _ v) (fun _ => rfl) fun _ _ => rfl
  obtain ⟨e, hw, hcase⟩ := handleCow_eq_ok h.proc hk
  rcases hcase with ⟨-, -, rfl⟩ | ⟨-, hcow, -, ⟨f, k1, hcount, hk1, rfl⟩ | ⟨-, rfl⟩⟩
  · exact h
  · have hspec := kalloc_spec hk1
    have hv := h.inv.frames.user_of_cow hw hcow
    have hep := h.inv.frames.present_of_shared hv hw hcount
    have hwalk : ∀ va', ((k1.setMem f (k1.mem e.addr)).decCounter e.addr).walkpgdir p.pgdir va'
        = k.walkpgdir p.pgdir va' := fun va' => by
      rw [decCounter_walkpgdir, setMem_walkpgdir, walkpgdir, hspec.2.2.1, ← walkpgdir]
    have hpg : e.pg = false := by
      have hlt : vpn va * pgSize < kernBase := by
        simp only [userPages, kernBase, pgSize] at *
        omega
      refine h.placed.clean (vpn va * pgSize) e hlt ?_ hep
      rw [k.walkpgdir_congr _ (vpn_mul hv), hw]
    refine ⟨hinv, by rw [setPte_procs]; exact (congrFun hspec.2.2.2 pid).trans h.proc, ?_, h.users, hmem⟩
    exact (h.placed.of_walk hwalk).reflag ((hwalk va).trans hw) hep.symm hpg.symm
  · exact ⟨hinv, h.proc, h.placed.reflag hw rfl rfl, h.users, hmem⟩

theorem packed_agree (h : p.Packed) (hp : p.Agree p') : p'.Packed := by
  refine ⟨fun i j => ?_, fun j hj => ?_⟩
  · rw [hp.filePages]
    exact h.below i j
  · rw [hp.filePages] at hj
    exact hp.full (h.full j hj)

/-- The program may touch this address: the page is present for the user, or paged out. -/
def Touchable (k : Kernel) (p : Proc) (va : ℕ) : Prop :=
  va < kernBase ∧ ∃ e, k.walkpgdir p.pgdir va = some e ∧
    (e.p = true ∧ e.u = true ∨ e.p = false ∧ e.pg = true)

/-! ## Accesses that return -/

/-- **A page fault that is served** keeps the placement and the memory of a packed process. -/
theorem Paged.pgflt_packed (hacc : acc.Serves) (hkeep : acc.Keeps) (h : k.Paged pid p a loose m)
    (hpack : p.Packed) (hk : Kernel.pgflt pol acc k pid va = .ok k') :
    ∃ p', k'.Paged pid p' a loose m ∧ p'.pgdir = p.pgdir ∧ p'.sz = p.sz ∧ p'.Packed := by
  obtain ⟨k1, ha, hserved⟩ := pgflt_eq_ok hk
  obtain ⟨p1, h1, hpa⟩ := h.agree ha
  have hpack1 := packed_agree hpack hpa
  rcases hserved with ⟨q1, e, -, hq1, he, hep, hpg, hin⟩ | hcow
  · cases Option.mem_unique h1.proc hq1
    obtain ⟨⟨i, old, j, k4⟩, hb, -⟩ := bind_eq_ok.mp hin
    obtain ⟨_, _, _, _, q, _, -, -, -, hq, hqa, -, hj, -⟩ := pfBegin_eq_ok h1.proc hb
    -- a slot of the file carries the address, so it is one of a user page
    have hva : UserPage (pgRoundDown va) := by
      rw [← va_of_getIOfVaInFile hj, hqa.filePages]
      exact h1.own.fileVa j
    have hout : k1.PagedOut p1.pgdir (pgRoundDown va) := ⟨e, he, hep, hpg⟩
    obtain ⟨k5, hk5, p5, h5, hd5, hsz5, hpack5, -⟩ := h1.pageIn_begun hacc hkeep hva hout
      (h1.placed.found hpack1 hva hout) hb
    cases hin.symm.trans hk5
    exact ⟨p5, h5, hd5.trans hpa.pgdir, hsz5.trans hpa.sz, hpack5 hpack1⟩
  · exact ⟨p1, h1.handleCow hcow, hpa.pgdir, hpa.sz, hpack1⟩

/-- **An access that returns** keeps the placement and the memory of a packed process. -/
theorem Paged.accessAs_packed {user w : Bool} : ∀ (n : ℕ) {k k' : Kernel} {p : Proc},
    k.Paged pid p a loose m → p.Packed → Kernel.accessAs pol n user w k pid va = .ok k' →
    k'.permits user w pid va = true ∧
      ∃ p', k'.Paged pid p' a loose m ∧ p'.pgdir = p.pgdir ∧ p'.sz = p.sz ∧ p'.Packed
  | 0, k, k', p, _, _, hk => by cases hk
  | n + 1, k, k', p, h, hpack, hk => by
    rw [accessAs_succ] at hk
    split at hk
    · rename_i hperm
      cases hk
      exact ⟨hperm, p, h, rfl, rfl, hpack⟩
    · obtain ⟨k1, hk1, hk⟩ := bind_eq_ok.mp hk
      cases n with
      | zero => cases hk
      | succ n =>
        obtain ⟨p1, h1, hd1, hsz1, hpack1⟩ := h.pgflt_packed (serves_access pol n false)
          (keeps_access pol (n + 1)) hpack hk1
        obtain ⟨hperm, p2, h2, hd2, hsz2, hpack2⟩ := accessAs_packed (n + 1) h1 hpack1 hk
        exact ⟨hperm, p2, h2, hd2.trans hd1, hsz2.trans hsz1, hpack2⟩

end Kernel

end Xv6
