import Xv6.Vm.Growth
import Xv6.Vm.Victim

/-!
# Vm/Stable — what the paging code cannot change

The paging code works for the running process.  It changes the entries of that process's directory as it likes;
in another directory, which it reaches through a slot, it only marks a page as paged out.  A property of the
kernel that such steps keep is *stable*, and then every eviction, every page fault and every access keeps it,
without an invariant and whatever is evicted.

Some properties wear out with the clock that stamps the pages.  `Timed` is stability for a property with a time
in it: each piece of the code takes a bounded number of ticks, an access with the faults it may nest `ticks n`.

The functions that only work on page tables change a process where they release its slots and nowhere else;
what they keep is at the end (`Slack`).
-/

namespace Xv6

open Outcome

/-- Directory and size stay, and so do the stamps of the slots in use. -/
structure Proc.Retains (p p' : Proc) : Prop where
  pgdir : p'.pgdir = p.pgdir
  sz : p'.sz = p.sz
  timestamp : p'.timestamp = p.timestamp
  slots : ∀ i, p'.inUse i = true → p.inUse i = true ∧ p'.timeLoaded i = p.timeLoaded i

/-- The clock moves on, and no slot but `o` gets the stamp. -/
structure Proc.Ticks (o : Option (Fin maxPsycPages)) (p p' : Proc) : Prop where
  pgdir : p'.pgdir = p.pgdir
  sz : p'.sz = p.sz
  timestamp : p'.timestamp = incUint p.timestamp
  slot : ∀ i, o = some i → p'.timeLoaded i = p.timestamp
  slots : ∀ i, o ≠ some i → p'.inUse i = true → p.inUse i = true ∧ p'.timeLoaded i = p.timeLoaded i

/-- **The steps of the paging code keep `P` while process `pid` runs**, at the times the clock may show.  Memory,
the allocator and the buffers do not matter to it. -/
structure Kernel.Timed (pol : Policy) (pid : ℕ) (P : ℕ → Kernel → Prop) : Prop where
  mono : ∀ {k : Kernel} {t t' : ℕ}, t ≤ t' → P t k → P t' k
  same : ∀ {k k' : Kernel} {t : ℕ}, k'.procs = k.procs → (∀ d va, k'.walkpgdir d va = k.walkpgdir d va) →
    P t k → P t k'
  hook : ∀ {k : Kernel} {t : ℕ}, P t k → Yields (pol.hook k pid) (P t)
  next : ∀ {k : Kernel} {t : ℕ}, P t k → Yields (pol.next k pid) fun r => P (t + 17) r.2
  retain : ∀ {k : Kernel} {p p' : Proc} {t : ℕ}, k.procs pid = some p → p.Retains p' → P t k →
    P t (k.setProc pid p')
  rotate : ∀ {k : Kernel} {p : Proc} {t : ℕ}, pol.aq = true → k.procs pid = some p → P t k →
    P t (k.setProc pid p.aqNext)
  tick : ∀ {k : Kernel} {p p' : Proc} {o : Option (Fin maxPsycPages)} {t : ℕ}, k.procs pid = some p →
    p.Ticks o p' → P t k → P (t + 1) (k.setProc pid p')
  own : ∀ {k : Kernel} {p : Proc} {va : ℕ} {e : Pte} {t : ℕ}, k.procs pid = some p → (e.p = true → e.w = true) →
    P t k → P t (k.setPte p.pgdir va e)
  disk : ∀ {k : Kernel} {d va : ℕ} {e : Pte} {t : ℕ}, k.walkpgdir d va = some e → P t k →
    P t (k.setPte d va e.inDisk)

/-- **The steps of the paging code keep `P`**, whatever the clock shows. -/
structure Kernel.Stable (pid : ℕ) (P : Kernel → Prop) : Prop where
  same : ∀ {k k' : Kernel}, k'.procs = k.procs → (∀ d va, k'.walkpgdir d va = k.walkpgdir d va) → P k → P k'
  agree : ∀ {k k' : Kernel}, k.Agree k' → P k → P k'
  setProc : ∀ {k : Kernel} {p p' : Proc}, k.procs pid = some p → p'.pgdir = p.pgdir → p'.sz = p.sz → P k →
    P (k.setProc pid p')
  own : ∀ {k : Kernel} {p : Proc} {va : ℕ} {e : Pte}, k.procs pid = some p → P k → P (k.setPte p.pgdir va e)
  disk : ∀ {k : Kernel} {d va : ℕ} {e : Pte}, k.walkpgdir d va = some e → P k → P (k.setPte d va e.inDisk)

/-- The accesses of process `pid` keep `P` and take `c` ticks at most. -/
def Access.Within (acc : Access) (pid c : ℕ) (P : ℕ → Kernel → Prop) : Prop :=
  ∀ {w : Bool} {k : Kernel} {va t : ℕ}, P t k → Yields (acc w k pid va) (P (t + c))

/-- The accesses of process `pid` keep `P`. -/
def Access.Calm (acc : Access) (pid : ℕ) (P : Kernel → Prop) : Prop :=
  ∀ {w : Bool} {k : Kernel} {va : ℕ}, P k → Yields (acc w k pid va) P

namespace Kernel

/-- The ticks of an access that may nest `n` faults. -/
def ticks : ℕ → ℕ
  | 0 => 0
  | n + 1 => 18 + 3 * ticks n

theorem Stable.timed {pid : ℕ} {P : Kernel → Prop} (hs : Stable pid P) (pol : Policy) :
    Timed pol pid fun _ => P where
  mono _ h := h
  same := hs.same
  hook h _ hr := hs.agree (pol.hook_agree hr) h
  next h _ hr := hs.agree (pol.next_agree hr) h
  retain hp hr h := hs.setProc hp hr.pgdir hr.sz h
  rotate _ hp h := hs.setProc hp rfl rfl h
  tick hp ht h := hs.setProc hp ht.pgdir ht.sz h
  own hp _ h := hs.own hp h
  disk := hs.disk

end Kernel

namespace Proc

variable {p : Proc} {i j : Fin maxPsycPages}

theorem retains_countFault : p.Retains p.countFault := ⟨rfl, rfl, rfl, fun _ hu => ⟨hu, rfl⟩⟩

theorem retains_setSwapFile {f : SwapFile} : p.Retains (p.setSwapFile f) := ⟨rfl, rfl, rfl, fun _ hu => ⟨hu, rfl⟩⟩

theorem retains_enterFile {d va : ℕ} : p.Retains (p.enterFile j d va) := ⟨rfl, rfl, rfl, fun _ hu => ⟨hu, rfl⟩⟩

theorem retains_freeMemSlot : p.Retains (p.freeMemSlot i) where
  pgdir := rfl
  sz := rfl
  timestamp := rfl
  slots l hu := by
    by_cases hl : l = i
    · subst hl
      simp [Proc.inUse, Proc.freeMemSlot, Proc.setMemSlot] at hu
    · have hslot : (p.freeMemSlot i).memoryPages l = p.memoryPages l := Function.update_of_ne hl ..
      rw [Proc.inUse, hslot] at hu
      exact ⟨hu, by rw [Proc.timeLoaded, hslot]; rfl⟩

/-- The page that growth adds; the index `-1` hits `file_pages`, and only the clock moves. -/
theorem ticks_newSlot (pol : Policy) (d a : ℕ) (o : Option (Fin maxPsycPages)) : p.Ticks o
    { p.storeMemSlot o (Kernel.newSlot pol p d a) with timestamp := incUint p.timestamp } := by
  cases o with
  | none => exact ⟨rfl, rfl, rfl, nofun, fun _ _ hu => ⟨hu, rfl⟩⟩
  | some i =>
    refine ⟨rfl, rfl, rfl, fun l hl => ?_, fun l hl hu => ?_⟩
    · cases hl
      simp [timeLoaded, storeMemSlot, setMemSlot, Kernel.newSlot]
    · have hne : l ≠ i := fun h => hl (h ▸ rfl)
      simpa [inUse, timeLoaded, storeMemSlot, setMemSlot, hne] using hu

/-- The entry that comes from `file_pages`. -/
theorem ticks_loadSlot (pol : Policy) (i j : Fin maxPsycPages) : p.Ticks (some i) (Kernel.loadSlot pol p i j) := by
  refine ⟨rfl, rfl, rfl, fun l hl => ?_, fun l hl hu => ?_⟩
  · cases hl
    simp [timeLoaded, Kernel.loadSlot, setMemSlot, setFileSlot]
  · have hne : l ≠ i := fun h => hl (h ▸ rfl)
    simpa [inUse, timeLoaded, Kernel.loadSlot, setMemSlot, setFileSlot, hne] using hu

end Proc

namespace Kernel

variable {k k' : Kernel} {pid d va a f off t c oldsz newsz : ℕ} {P : ℕ → Kernel → Prop} {pol : Policy}
  {acc : Access} {i j : Fin maxPsycPages}

/-! ## Memory and page tables -/

section

variable (hs : Timed pol pid P)

include hs

theorem Timed.kfree (h : P t k) : Yields (k.kfree f) (P t) := fun _ hr =>
  hs.same (procs_of_kfree hr) (walkpgdir_of_kfree hr) h

theorem Timed.kfreePa (h : P t k) (o : Option ℕ) : Yields (k.kfreePa o) (P t) := by
  cases o with
  | none => exact yields_error
  | some f => exact hs.kfree h

theorem Timed.kalloc (h : P t k) (hk : k.kalloc = some (f, k')) : P t k' := by
  obtain ⟨m, -, rfl⟩ := kalloc_eq_some.mp hk
  exact hs.same (k := k) rfl (fun _ _ => rfl) h

theorem Timed.setPageFlagsInDisk (h : P t k) :
    Yields (k.setPageFlagsInDisk d va) (P t) := by
  unfold Kernel.setPageFlagsInDisk
  split
  · exact yields_error
  · rename_i e he
    exact yields_ok (hs.disk he h)

theorem Timed.setUserPage (h : P t k) (q : ℕ) (pg : Page) :
    P t (k.setUserPage q va pg) := by
  unfold Kernel.setUserPage
  split
  · exact h
  · exact hs.same (k := k) rfl (fun _ _ => rfl) h

end

/-- The running process is read. -/
theorem yields_proc {β : Type} {Q : β → Prop} {g : Proc → Except String β}
    (hg : ∀ p, k.procs pid = some p → Yields (g p) Q) : Yields (k.proc pid >>= g) Q :=
  .bind_eq fun p hp => hg p (proc_eq_ok.mp hp)

/-! ## Evictions -/

theorem Timed.writeToSwapFile {pg : Page} (hs : Timed pol pid P) (h : P t k) :
    Yields (k.writeToSwapFile pid pg off) fun o => ∀ k', o = some k' → P t k' :=
  yields_proc fun _ hp => .ite (yields_ok nofun)
    (yields_ok fun _ hk' => Option.some.inj hk' ▸ hs.retain hp Proc.retains_setSwapFile h)

theorem Timed.writeUserToSwapFile (hacc : acc.Within pid c P) (hs : Timed pol pid P) (h : P t k) :
    Yields (writeUserToSwapFile acc k pid va off) fun o => ∀ k', o = some k' → P (t + c) k' := by
  refine yields_proc fun p _ => .ite (yields_ok nofun) ((hacc h).bind fun k1 h1 => ?_)
  split
  · exact yields_error
  · exact hs.writeToSwapFile h1

theorem Timed.moveToFile (hs : Timed pol pid P) (h : P t k) : Yields (moveToFile k pid i j) (P t) := by
  refine yields_proc fun p hp => ?_
  have h0 : P t (k.setProc pid (p.enterFile j (p.memoryPages i).pgdir (p.memoryPages i).va)) :=
    hs.retain hp Proc.retains_enterFile h
  refine (hs.kfreePa h0 _).bind fun k1 h1 => yields_proc fun q hq => ?_
  exact hs.setPageFlagsInDisk (hs.retain hq Proc.retains_freeMemSlot h1)

theorem Timed.swap (hacc : acc.Within pid c P) (hs : Timed pol pid P) (h : P t k) :
    Yields (swap pol acc k pid) fun r => P (t + (17 + c)) r.2 := by
  rw [← Nat.add_assoc]
  refine yields_proc fun p hp => ?_
  have h0 : P t (k.setProc pid p.countFault) := hs.retain hp Proc.retains_countFault h
  refine (hs.next h0).bind fun r hr => yields_proc fun q hq => ?_
  split
  · exact yields_ok (hs.mono (Nat.le_add_right ..) hr)
  · refine (hs.writeUserToSwapFile hacc hr).bind fun o ho => ?_
    cases o with
    | none => exact yields_ok (hs.mono (Nat.le_add_right ..) hr)
    | some k' => exact (hs.moveToFile (ho k' rfl)).bind fun _ h => yields_ok h

theorem Timed.chooseSlot (hacc : acc.Within pid c P) (hs : Timed pol pid P) (h : P t k) :
    Yields (chooseSlot pol acc k pid) fun r => P (t + (17 + c)) r.2 := by
  refine yields_proc fun p hp => ?_
  split
  · have hle : t ≤ t + (17 + c) := Nat.le_add_right ..
    split
    · rename_i haq
      exact yields_ok (hs.mono hle (hs.rotate haq hp h))
    · exact yields_ok (hs.mono hle h)
  · exact hs.swap hacc h

/-- **A page that growth adds gets the next stamp.** -/
theorem Timed.trackPage (hacc : acc.Within pid c P) (hs : Timed pol pid P) (h : P t k) :
    Yields (trackPage pol acc k pid d a) (P (t + (18 + c))) := by
  refine .ite ((hs.chooseSlot hacc h).bind fun r hr => yields_proc fun p hp => yields_ok ?_)
    (yields_ok (hs.mono (Nat.le_add_right ..) h))
  exact hs.mono (by omega) (hs.tick hp (Proc.ticks_newSlot pol d a r.1) hr)

/-! ## Page faults -/

theorem Timed.pageInSlot (hs : Timed pol pid P) (h : P t k) :
    Yields (pageInSlot pol k pid) fun r => P (t + 17) r.2.2 := by
  refine yields_proc fun p hp => ?_
  split
  · exact yields_ok (hs.mono (Nat.le_add_right ..) h)
  · exact (hs.next h).bind fun r hr => yields_proc fun q hq => yields_ok hr

theorem Timed.pfBegin (hs : Timed pol pid P) (h : P t k) :
    Yields (pfBegin pol k pid va) fun r => P (t + 17) r.2.2.2 := by
  refine yields_proc fun p hp => ?_
  have h1 : P t (k.setProc pid p.countFault) := hs.retain hp Proc.retains_countFault h
  split
  · exact yields_error
  · rename_i hk
    refine (hs.pageInSlot (hs.kalloc h1 hk)).bind fun r hr => yields_proc fun q hq => ?_
    unfold setPageFlagsInMem
    split
    · exact yields_error
    · rw [ok_bind]
      split
      · exact yields_error
      · exact yields_ok (hs.own hq (fun _ => rfl) hr)

theorem Timed.pfRead (hs : Timed pol pid P) (h : P t k) : Yields (pfRead k pid j) (P t) :=
  yields_proc fun _ _ => .ite yields_error (yields_ok (hs.same (k := k) rfl (fun _ _ => rfl) h))

/-- **A page that comes in gets the next stamp.** -/
theorem Timed.pfLoad (hs : Timed pol pid P) (h : P t k) : Yields (pfLoad pol k pid i j) (P (t + 1)) :=
  yields_proc fun _ hp => yields_ok (hs.tick hp (Proc.ticks_loadSlot pol i j) h)

theorem Timed.pfMakeRoom (hacc : acc.Within pid c P) (hs : Timed pol pid P) (h : P t k) (old : Option Slot) :
    Yields (pfMakeRoom acc k pid j old) (P (t + c)) := by
  cases old with
  | none => exact yields_ok (hs.mono (Nat.le_add_right ..) h)
  | some old =>
    refine (hs.writeUserToSwapFile hacc h).bind fun o ho => ?_
    cases o with
    | none => exact yields_error
    | some k' =>
      refine yields_proc fun p hp => ?_
      have h1 : P (t + c) (k'.setProc pid (p.enterFile j old.pgdir old.va)) :=
        hs.retain hp Proc.retains_enterFile (ho k' rfl)
      exact (hs.setPageFlagsInDisk h1).bind fun k2 h2 => hs.kfreePa h2 _

theorem Timed.pageIn (hacc : acc.Within pid c P) (hs : Timed pol pid P) (h : P t k) :
    Yields (pageIn pol acc k pid va) (P (t + (18 + 2 * c))) := by
  refine (hs.pfBegin h).bind fun r hr => (hs.pfRead hr).bind fun k1 h1 => ?_
  refine (hs.pfLoad h1).bind fun k2 h2 => (hs.pfMakeRoom hacc h2 _).bind fun k3 h3 => ?_
  exact (hacc h3).bind fun k4 h4 => yields_ok (hs.mono (by omega) (hs.setUserPage h4 _ _))

theorem Timed.handlePf (hacc : acc.Within pid c P) (hs : Timed pol pid P) (h : P t k) :
    Yields (handlePf pol acc k pid va) fun r => P (t + (18 + 2 * c)) r.2 := by
  refine yields_proc fun p hp => ?_
  split
  · exact yields_error
  · exact .ite (yields_ok (hs.mono (Nat.le_add_right ..) h))
      ((hs.pageIn hacc h).bind fun _ hr => yields_ok hr)

theorem Timed.handleCow (hs : Timed pol pid P) (h : P t k) : Yields (handleCow k pid va) fun r => P t r.2 := by
  refine yields_proc fun p hp => ?_
  split
  · exact yields_error
  · refine .ite (yields_ok h) (.ite ?_ (yields_ok (hs.own hp (fun _ => rfl) h)))
    split
    · exact yields_error
    · rename_i f k1 hk
      obtain ⟨m, -, rfl⟩ := kalloc_eq_some.mp hk
      refine yields_ok (hs.own (p := p) hp (fun _ => rfl) (hs.same ?_ (fun _ _ => ?_) h)) <;> rfl

theorem Timed.pgflt (hacc : acc.Within pid c P) (hs : Timed pol pid P) (h : P t k) :
    Yields (pgflt pol acc k pid va) (P (t + (18 + 2 * c))) := by
  refine (hs.hook h).bind fun k1 h1 => ?_
  have hpf : Yields (if 2 < pid then Kernel.handlePf pol acc k1 pid va else .ok (false, k1)) fun r =>
      P (t + (18 + 2 * c)) r.2 :=
    .ite (hs.handlePf hacc h1) (yields_ok (hs.mono (Nat.le_add_right ..) h1))
  refine hpf.bind fun r hr => ?_
  exact .ite (yields_ok hr) ((hs.handleCow hr).bind fun r hr => .ite (yields_ok hr) yields_error)

/-- **Accesses keep what is timed**, by induction on the faults they may take. -/
theorem Timed.accessAs (hs : Timed pol pid P) :
    ∀ (n : ℕ) (user : Bool), Access.Within (accessAs pol n user) pid (ticks n) P
  | 0, _ => fun _ => yields_error
  | n + 1, user => fun h => by
    rw [accessAs_succ, ticks]
    refine .ite (yields_ok (hs.mono (Nat.le_add_right ..) h)) ?_
    refine (hs.pgflt (hs.accessAs n false) h).bind fun k1 h1 k2 hk2 => ?_
    exact hs.mono (by omega) (hs.accessAs n user h1 k2 hk2)

/-- The loop of `allocuvm`, for what mapping and releasing user pages of `d` keep too. -/
theorem Timed.allocPages (hacc : acc.Within pid c P) (hs : Timed pol pid P)
    (hmap : ∀ {t k k1 a e f}, UserPage a → P t k → k.walkpgdirAlloc d a = some (e, k1) →
      P t (k1.setPte d a { w := true, u := true, addr := f, p := true }))
    (hback : ∀ {t k}, P t k → Yields (k.deallocuvm pid d newsz oldsz) fun r => P t r.2) :
    ∀ (as : List ℕ) {k : Kernel} {t : ℕ}, (∀ a ∈ as, UserPage a) → P t k →
    Yields (allocPages pol acc pid d oldsz newsz as k) fun r => P (t + as.length * (18 + c)) r.2
  | [], _, _, _, h => yields_ok (hs.mono (Nat.le_add_right ..) h)
  | a :: as, k, t, has, h => by
    rintro ⟨r, k'⟩ hk
    rcases allocPages_cons (has a List.mem_cons_self) hk with
      ⟨-, -, r', hk1⟩ | ⟨f, k1, hk1, ⟨-, -, r', k2, hk2, hk3⟩ | ⟨e, k2, k3, hw, -, hk3, hk⟩⟩
    · have h' : P t k' := hback h (r', k') hk1
      exact hs.mono (Nat.le_add_right ..) h'
    · have h1 : P t (k1.setMem f fun _ => 0) := hs.same (k := k1) rfl (fun _ _ => rfl) (hs.kalloc h hk1)
      have h2 : P t k2 := hback h1 (r', k2) hk2
      exact hs.mono (Nat.le_add_right ..) (hs.kfree h2 _ hk3)
    · have h1 : P t (k1.setMem f fun _ => 0) := hs.same (k := k1) rfl (fun _ _ => rfl) (hs.kalloc h hk1)
      have h3 := hs.trackPage hacc (hmap (has a List.mem_cons_self) h1 hw) _ hk3
      have h4 := Timed.allocPages hacc hs hmap hback as (fun x hx => has x (List.mem_cons_of_mem a hx)) h3 _ hk
      rw [List.length_cons, Nat.succ_mul]
      exact hs.mono (by omega) h4

theorem Timed.allocuvm (hacc : acc.Within pid c P) (hs : Timed pol pid P)
    (hmap : ∀ {t k k1 a e f}, UserPage a → P t k → k.walkpgdirAlloc d a = some (e, k1) →
      P t (k1.setPte d a { w := true, u := true, addr := f, p := true }))
    (hback : newsz ≤ kernBase → ∀ {t k}, P t k → Yields (k.deallocuvm pid d newsz oldsz) fun r => P t r.2)
    (h : P t k) : Yields (allocuvm pol acc k pid d oldsz newsz) fun r =>
      P (t + (pagesFrom (pgRoundUp oldsz) newsz).length * (18 + c)) r.2 := by
  rintro ⟨r, k'⟩ hk
  rcases allocuvm_eq_ok hk with ⟨rfl, -⟩ | ⟨hsz, -, hpages, hk⟩
  · exact hs.mono (Nat.le_add_right ..) h
  · exact hs.allocPages hacc hmap (hback hsz.le) _ hpages h _ hk

/-! ## Without the clock -/

section Stable

variable {P : Kernel → Prop}

theorem Stable.kalloc (hs : Stable pid P) (h : P k) (hk : k.kalloc = some (f, k')) : P k' :=
  (hs.timed .rrobin).kalloc (t := 0) h hk

theorem Stable.trackPage (hacc : acc.Calm pid P) (hs : Stable pid P) (h : P k) :
    Yields (trackPage pol acc k pid d a) P :=
  (hs.timed pol).trackPage (t := 0) (c := 0) (fun h => hacc h) h

theorem Stable.accessAs (hs : Stable pid P) (pol : Policy) (n : ℕ) (user : Bool) :
    Access.Calm (accessAs pol n user) pid P := fun h => (hs.timed pol).accessAs n user (t := 0) h

end Stable

/-! ## Page tables -/

/-- **`P` is about the processes alone**, and process `cur` may release slots. -/
structure Slack (cur : ℕ) (P : Kernel → Prop) : Prop where
  procs : ∀ {k k' : Kernel}, k'.procs = k.procs → P k → P k'
  free : ∀ {k : Kernel} {p : Proc} {i : Fin maxPsycPages}, k.procs cur = some p → P k →
    P (k.setProc cur (p.freeMemSlot i))

section Slack

variable {cur : ℕ} {P : Kernel → Prop}

theorem Slack.kfree (hs : Slack cur P) (h : P k) : Yields (k.kfree f) P := fun _ hr =>
  hs.procs (procs_of_kfree hr) h

theorem Slack.kalloc (hs : Slack cur P) (h : P k) (hk : k.kalloc = some (f, k')) : P k' :=
  hs.procs (kalloc_spec hk).2.2.2 h

theorem Slack.mappagesFrom {last : ℕ} {perm : Pte} (hs : Slack cur P) : ∀ (n a pa : ℕ) {k : Kernel}, P k →
    Yields (mappagesFrom d last perm n a pa k) fun r => P r.2
  | 0, _, _, _, h => yields_ok h
  | n + 1, a, pa, k, h => by
    rw [Kernel.mappagesFrom]
    split
    · exact yields_ok h
    · rename_i e k1 hw
      have hprocs : k1.procs = k.procs := procs_of_alloc hw
      have h1 : ∀ e', P (k1.setPte d a e') := fun _ => hs.procs (k := k) hprocs h
      exact .ite yields_error (.ite (yields_ok (h1 _)) (hs.mappagesFrom n _ _ (h1 _)))

theorem Slack.mappages {size pa : ℕ} {perm : Pte} (hs : Slack cur P) (h : P k) :
    Yields (k.mappages d va size pa perm) fun r => P r.2 := hs.mappagesFrom _ _ _ h

theorem Slack.releaseSlot (hs : Slack cur P) (h : P k) : P (k.releaseSlot cur d a) := by
  unfold Kernel.releaseSlot
  split
  · exact h
  · rename_i p hp
    split
    · exact h
    · exact hs.free hp h

theorem Slack.deallocFrom (hs : Slack cur P) : ∀ (n a : ℕ) {k : Kernel}, P k →
    Yields (deallocFrom cur d oldsz n a k) P
  | 0, _, _, h => yields_ok h
  | n + 1, a, k, h => by
    rw [Kernel.deallocFrom]
    refine .ite ?_ (yields_ok h)
    split
    · exact hs.deallocFrom n _ h
    · refine .ite (.ite yields_error ((hs.kfree h).bind fun k1 h1 => ?_)) (hs.deallocFrom n _ h)
      have h2 : P (k1.releaseSlot cur d a) := hs.releaseSlot h1
      exact hs.deallocFrom n _ (hs.procs (k := k1.releaseSlot cur d a) rfl h2)

theorem Slack.deallocuvm (hs : Slack cur P) (h : P k) :
    Yields (k.deallocuvm cur d oldsz newsz) fun r => P r.2 :=
  .ite (yields_ok h) ((hs.deallocFrom _ _ h).bind fun _ hr => yields_ok hr)

theorem Slack.freeTable {x : Fin 1024} (hs : Slack cur P) (h : P k) : Yields (freeTable d x k) P := by
  unfold Kernel.freeTable
  split
  · exact yields_ok h
  · exact (hs.kfree h).bind fun k1 h1 => yields_ok (hs.procs (k := k1) rfl h1)

theorem Slack.freevm (hs : Slack cur P) (h : P k) : Yields (k.freevm cur d) P := by
  refine .ite yields_error ((hs.deallocuvm h).bind fun r hr => ?_)
  have hloop : Yields (loop (Kernel.freeTable d) (List.finRange 1024) r.2) P := fun _ hk' =>
    loop_inv (fun _ _ _ _ ha hb => hs.freeTable ha _ hb) hr hk'
  exact hloop.bind fun r hr => (hs.kfree hr).bind fun k1 h1 => yields_ok (hs.procs (k := k1) rfl h1)

theorem Slack.mapKernel (hs : Slack cur P) : ∀ (rs : List (ℕ × ℕ × ℕ × Bool)) {k : Kernel}, P k →
    Yields (mapKernel d rs k) fun r => P r.2
  | [], _, h => yields_ok h
  | _ :: rs, _, h => (hs.mappages h).bind fun _ hr => .ite (hs.mapKernel rs hr) (yields_ok hr)

theorem Slack.setupkvm (hs : Slack cur P) (h : P k) : Yields (k.setupkvm cur) fun r => P r.2 := by
  unfold Kernel.setupkvm
  split
  · exact yields_ok h
  · rename_i d k1 hk
    have h1 : P (k1.setDir d (some .empty)) := hs.procs (k := k1) rfl (hs.kalloc h hk)
    refine (hs.mapKernel _ h1).bind fun r hr => ?_
    exact .ite (yields_ok hr) ((hs.freevm hr).bind fun _ hr => yields_ok hr)

end Slack

end Kernel

end Xv6
