import Xv6.Vm.Frames

/-!
# Vm/Invariant — what holds between any two steps of the paging code

`Kernel.Inv` adds the processes to the frame invariant: each has a directory of its own, and its used
slots carry that directory.

How far the slots of a process can be trusted depends on its history.  In a *settled* process every
used slot of `memory_pages` names a present page, each a different one; evicting a victim then never
faults.  A child may start out unsettled: `fork` copies all slots of the parent but only the pages
below its size.  But `fork` also stamps the child's directory on all of its slots, used or not, and
nothing ever takes it off again.  So every process is settled or `AllOwn`, and that is enough for a
victim's frame to be found where its slot says.
-/

namespace Xv6

open Outcome Function

/-- The address of a user page. -/
def UserPage (va : ℕ) : Prop := va < kernBase ∧ va % pgSize = 0

theorem UserPage.eq_of_vpn {va va' : ℕ} (h : UserPage va) (h' : UserPage va')
    (hv : vpn va = vpn va') : va = va' := by
  obtain ⟨h1, h2⟩ := h
  obtain ⟨h3, h4⟩ := h'
  simp only [vpn, pgSize, kernBase] at *
  omega

/-- The page of an address. -/
theorem userPage_pgRoundDown {va : ℕ} (hva : va < kernBase) : UserPage (pgRoundDown va) :=
  ⟨pgRoundDown_lt hva, by simp only [pgRoundDown, pgSize]; omega⟩

/-- The entry of a page is present. -/
def Kernel.Present (k : Kernel) (d va : ℕ) : Prop := ∃ e, k.walkpgdir d va = some e ∧ e.p = true

/-! ## The slots of a process -/

namespace Proc

/-- The process lies below `KERNBASE`; every slot holds the address of a user page, and a used one the
directory of the process. -/
structure Own (p : Proc) : Prop where
  size : p.sz < kernBase
  memVa : ∀ i, UserPage (p.memoryPages i).va
  fileVa : ∀ i, UserPage (p.filePages i).va
  memDir : ∀ i, (p.memoryPages i).isUsed = true → (p.memoryPages i).pgdir = p.pgdir
  fileDir : ∀ i, (p.filePages i).isUsed = true → (p.filePages i).pgdir = p.pgdir

/-- Used memory slots name present pages, each a different one. -/
structure Settled (p : Proc) (k : Kernel) : Prop where
  present : ∀ i, (p.memoryPages i).isUsed = true → k.Present p.pgdir (p.memoryPages i).va
  inj : ∀ i j, (p.memoryPages i).isUsed = true → (p.memoryPages j).isUsed = true →
    (p.memoryPages i).va = (p.memoryPages j).va → i = j

/-- Every slot, used or not, carries the directory of the process. -/
structure AllOwn (p : Proc) : Prop where
  mem : ∀ i, (p.memoryPages i).pgdir = p.pgdir
  file : ∀ i, (p.filePages i).pgdir = p.pgdir

/-- A process is settled, or none of its slots is a stranger. -/
def Steady (p : Proc) (k : Kernel) : Prop := p.Settled k ∨ p.AllOwn

variable {p p' : Proc} {k k' : Kernel} {s : Slot} {i j : Fin maxPsycPages}

/-- A slot moves through the books of a policy unchanged. -/
theorem Agree.exists_slot (h : p.Agree p') (i : Fin maxPsycPages) :
    ∃ j, (p'.memoryPages i).pgdir = (p.memoryPages j).pgdir ∧
      (p'.memoryPages i).va = (p.memoryPages j).va ∧
      (p'.memoryPages i).isUsed = (p.memoryPages j).isUsed := by
  obtain ⟨σ, hσ⟩ := h.memoryPages
  have := hσ i
  simp only [Slot.core, Prod.mk.injEq] at this
  exact ⟨σ i, this⟩

theorem Agree.own (h : p.Agree p') (ho : p.Own) : p'.Own where
  size := h.sz ▸ ho.size
  memVa i := by
    obtain ⟨j, -, hva, -⟩ := h.exists_slot i
    exact hva ▸ ho.memVa j
  fileVa i := by
    rw [h.filePages]
    exact ho.fileVa i
  memDir i hi := by
    obtain ⟨j, hd, -, hu⟩ := h.exists_slot i
    rw [hd, h.pgdir]
    exact ho.memDir j (hu ▸ hi)
  fileDir i hi := by
    rw [h.filePages] at hi ⊢
    rw [h.pgdir]
    exact ho.fileDir i hi

theorem Agree.allOwn (h : p.Agree p') (ho : p.AllOwn) : p'.AllOwn where
  mem i := by
    obtain ⟨j, hd, -, -⟩ := h.exists_slot i
    rw [hd, h.pgdir, ho.mem j]
  file i := by rw [h.filePages, h.pgdir, ho.file i]

theorem Agree.settled (h : p.Agree p') (hk : ∀ va, k.Present p.pgdir va → k'.Present p.pgdir va)
    (hs : p.Settled k) : p'.Settled k' where
  present i hi := by
    obtain ⟨j, -, hva, hu⟩ := h.exists_slot i
    rw [h.pgdir, hva]
    exact hk _ (hs.present j (hu ▸ hi))
  inj i j hi hj hij := by
    obtain ⟨σ, hσ⟩ := h.memoryPages
    simp only [Slot.core, Prod.mk.injEq] at hσ
    refine σ.injective (hs.inj (σ i) (σ j) ?_ ?_ ?_)
    · rw [← (hσ i).2.2, hi]
    · rw [← (hσ j).2.2, hj]
    · rw [← (hσ i).2.1, ← (hσ j).2.1, hij]

/-! ### Storing a slot -/

theorem Own.setMemSlot (h : p.Own) (hva : UserPage s.va)
    (hd : s.isUsed = true → s.pgdir = p.pgdir) : (p.setMemSlot i s).Own where
  size := h.size
  memVa j := by
    by_cases hj : j = i
    · subst hj; simpa [Proc.setMemSlot] using hva
    · simpa [Proc.setMemSlot, hj] using h.memVa j
  fileVa := h.fileVa
  memDir j := by
    by_cases hj : j = i
    · subst hj; simpa [Proc.setMemSlot] using hd
    · simpa [Proc.setMemSlot, hj] using h.memDir j
  fileDir := h.fileDir

theorem Own.setFileSlot (h : p.Own) (hva : UserPage s.va)
    (hd : s.isUsed = true → s.pgdir = p.pgdir) : (p.setFileSlot i s).Own where
  size := h.size
  memVa := h.memVa
  fileVa j := by
    by_cases hj : j = i
    · subst hj; simpa [Proc.setFileSlot] using hva
    · simpa [Proc.setFileSlot, hj] using h.fileVa j
  memDir := h.memDir
  fileDir j := by
    by_cases hj : j = i
    · subst hj; simpa [Proc.setFileSlot] using hd
    · simpa [Proc.setFileSlot, hj] using h.fileDir j

theorem AllOwn.setMemSlot (h : p.AllOwn) (hd : s.pgdir = p.pgdir) : (p.setMemSlot i s).AllOwn where
  mem j := by
    by_cases hj : j = i
    · subst hj; simpa [Proc.setMemSlot] using hd
    · simpa [Proc.setMemSlot, hj] using h.mem j
  file := h.file

theorem AllOwn.setFileSlot (h : p.AllOwn) (hd : s.pgdir = p.pgdir) :
    (p.setFileSlot i s).AllOwn where
  mem := h.mem
  file j := by
    by_cases hj : j = i
    · subst hj; simpa [Proc.setFileSlot] using hd
    · simpa [Proc.setFileSlot, hj] using h.file j

/-- A memory slot is released, or takes a present page that no other slot names. -/
theorem Settled.setMemSlot (h : p.Settled k)
    (hs : s.isUsed = true → k.Present p.pgdir s.va ∧
      ∀ j, j ≠ i → (p.memoryPages j).isUsed = true → (p.memoryPages j).va ≠ s.va) :
    (p.setMemSlot i s).Settled k where
  present j := by
    by_cases hj : j = i
    · subst hj
      simpa [Proc.setMemSlot] using fun hu => (hs hu).1
    · simpa [Proc.setMemSlot, hj] using h.present j
  inj a b := by
    by_cases ha : a = i
    · by_cases hb : b = i
      · exact fun _ _ _ => ha.trans hb.symm
      · subst ha
        simp only [Proc.setMemSlot, update_self, update_of_ne hb]
        exact fun hu hu' heq => absurd heq.symm ((hs hu).2 b hb hu')
    · by_cases hb : b = i
      · subst hb
        simp only [Proc.setMemSlot, update_self, update_of_ne ha]
        exact fun hu hu' heq => absurd heq ((hs hu').2 a ha hu)
      · simpa [Proc.setMemSlot, ha, hb] using h.inj a b

theorem Settled.setFileSlot (h : p.Settled k) : (p.setFileSlot i s).Settled k := ⟨h.present, h.inj⟩

theorem Own.setSwapFile (h : p.Own) (f : SwapFile) : (p.setSwapFile f).Own :=
  ⟨h.size, h.memVa, h.fileVa, h.memDir, h.fileDir⟩

theorem AllOwn.setSwapFile (h : p.AllOwn) (f : SwapFile) : (p.setSwapFile f).AllOwn :=
  ⟨h.mem, h.file⟩

theorem Settled.setSwapFile (h : p.Settled k) (f : SwapFile) : (p.setSwapFile f).Settled k :=
  ⟨h.present, h.inj⟩

theorem Own.enterFile {d va : ℕ} (h : p.Own) (hva : UserPage va) (hd : d = p.pgdir) :
    (p.enterFile j d va).Own :=
  have h' := h.setFileSlot (i := j) (s := { p.filePages j with pgdir := d, va := va, isUsed := true })
    hva fun _ => hd
  ⟨h'.size, h'.memVa, h'.fileVa, h'.memDir, h'.fileDir⟩

theorem AllOwn.enterFile {d : ℕ} (h : p.AllOwn) (hd : d = p.pgdir) (va : ℕ) :
    (p.enterFile j d va).AllOwn :=
  have h' := h.setFileSlot (i := j) (s := { p.filePages j with pgdir := d, va := va, isUsed := true }) hd
  ⟨h'.mem, h'.file⟩

theorem Settled.enterFile (h : p.Settled k) (d va : ℕ) : (p.enterFile j d va).Settled k :=
  ⟨h.present, h.inj⟩

theorem Own.freeMemSlot (h : p.Own) : (p.freeMemSlot i).Own :=
  h.setMemSlot (h.memVa i) nofun

theorem AllOwn.freeMemSlot (h : p.AllOwn) : (p.freeMemSlot i).AllOwn := h.setMemSlot (h.mem i)

theorem Settled.freeMemSlot (h : p.Settled k) : (p.freeMemSlot i).Settled k :=
  h.setMemSlot nofun

/-- A released slot is the only one that changes. -/
theorem freeMemSlot_used {l : Fin maxPsycPages} (hl : ((p.freeMemSlot i).memoryPages l).isUsed = true) :
    l ≠ i ∧ (p.freeMemSlot i).memoryPages l = p.memoryPages l := by
  by_cases h : l = i
  · subst h
    simp [Proc.freeMemSlot, Proc.setMemSlot] at hl
  · exact ⟨h, by simp [Proc.freeMemSlot, Proc.setMemSlot, h]⟩

/-- A settled process stays so as long as the pages its slots name stay present. -/
theorem Settled.mono (h : p.Settled k)
    (hk : ∀ i, (p.memoryPages i).isUsed = true → k.Present p.pgdir (p.memoryPages i).va →
      k'.Present p.pgdir (p.memoryPages i).va) : p.Settled k' :=
  ⟨fun i hi => hk i hi (h.present i hi), h.inj⟩

theorem Settled.of_walk (h : p.Settled k) (hk : ∀ d va, k'.walkpgdir d va = k.walkpgdir d va) :
    p.Settled k' := h.mono fun _ _ hp => by rwa [Kernel.Present, hk]

theorem Steady.of_walk (h : p.Steady k) (hk : ∀ d va, k'.walkpgdir d va = k.walkpgdir d va) :
    p.Steady k' := h.imp_left fun h => h.of_walk hk

end Proc

namespace Kernel

variable {k k' : Kernel} {held held' : Multiset ℕ} {pid d va f : ℕ} {p p' : Proc} {e e0 : Pte}

/-- A store keeps the other pages present, and its own if it sets `PTE_P`. -/
theorem Present.setPte {va' d' : ℕ} (h : k.Present d va)
    (hne : e.p = true ∨ d ≠ d' ∨ vpn va ≠ vpn va') : (k.setPte d' va' e).Present d va := by
  obtain ⟨e', he', hp⟩ := h
  rw [Present, walkpgdir_setPte, he']
  split
  · rename_i hc
    refine ⟨e, rfl, ?_⟩
    rcases hne with h | h | h
    · exact h
    · exact absurd hc.1 h
    · exact absurd hc.2 h
  · exact ⟨e', rfl, hp⟩

theorem Agree.present (h : k.Agree k') (hp : k.Present d va) : k'.Present d va := by
  obtain ⟨e, he, hp⟩ := hp
  have h' := h.walk d va
  rw [he, Option.map_some, Option.map_eq_some_iff] at h'
  obtain ⟨e', he', heq⟩ := h'
  exact ⟨e', he', (Pte.unmark_eq heq).2.1.trans hp⟩

/-- **The invariant of the kernel**, with the references `held` in its hands. -/
structure Inv (k : Kernel) (held : Multiset ℕ) : Prop where
  frames : k.Frames held
  live : ∀ pid p, k.procs pid = some p → (k.dirs p.pgdir).isSome
  apart : ∀ pid pid' p p', k.procs pid = some p → k.procs pid' = some p' → p.pgdir = p'.pgdir →
    pid = pid'
  fresh : ∀ pid p, k.procs pid = some p → pid < k.nextpid
  own : ∀ pid p, k.procs pid = some p → p.Own
  steady : ∀ pid p, k.procs pid = some p → p.Steady k
  kdata : 0x100000 < k.kdata ∧ k.kdata < physTop ∧ k.kdata % pgSize = 0

/-! ## What the invariant does not look at -/

/-- The sites do not look at the books of the policies. -/
theorem Agree.owner (ha : k.Agree k') : k'.owner = k.owner := by
  have hframe : ∀ d va, (k'.walkpgdir d va).bind Pte.frame = (k.walkpgdir d va).bind Pte.frame := by
    intro d va
    have hb : ∀ o : Option Pte, o.bind Pte.frame = (o.map Pte.unmark).bind Pte.frame := by
      rintro (_ | e)
      · rfl
      · rfl
    rw [hb, hb (k.walkpgdir d va), ha.walk]
  funext s
  cases s with
  | pte d v => rw [Kernel.owner, Kernel.owner, hframe]
  | table d x => exact ha.tables d x
  | dir d =>
    have := ha.dirs d
    rw [Kernel.owner, Kernel.owner]
    cases h1 : k.dirs d <;> cases h2 : k'.dirs d <;> simp_all
  | kstack pid =>
    rw [Kernel.owner, Kernel.owner]
    cases h1 : k.procs pid with
    | none =>
      have := ha.procs pid
      rw [h1] at this
      cases h2 : k'.procs pid with
      | none => rfl
      | some p' => rw [h2] at this; cases this
    | some p =>
      obtain ⟨p', hp', hpa⟩ := ha.exists_proc h1
      rw [hp', Option.map_some, Option.map_some, hpa.kstack]

/-- The frame invariant does not look at the books of the policies. -/
theorem Frames.agree (h : k.Frames held) (ha : k.Agree k') : k'.Frames held := by
  have hown := ha.owner
  refine h.relocate ha.kmem (by rw [hown]) (fun s g hs hp => ?_) fun d va e' hw => ?_
  · refine h.sole s g (hown ▸ hs) ?_
    cases s with
    | pte d v =>
      obtain ⟨e', he', hw⟩ := hp
      obtain ⟨e, he, heq⟩ := ha.exists_walk he'
      exact ⟨e, he, (Pte.unmark_eq heq).2.2.1 ▸ hw⟩
    | table d x => trivial
    | dir d => trivial
    | kstack pid => trivial
  · obtain ⟨e, he, heq⟩ := ha.exists_walk hw
    obtain ⟨haddr, hp, hw', hu, hpg, hcow⟩ := Pte.unmark_eq heq
    have hf := h.fit d va e he
    exact ⟨fun hv h0 => by rw [haddr]; exact hf.absent hv (hp ▸ h0),
      fun hv h1 => by rw [hw', hcow]; exact hf.present hv (hp ▸ h1),
      fun hv => by rw [hpg, hcow, hu]; exact hf.kernel hv⟩

section

variable (h : k.Inv held)

include h

/-- **A policy keeps the invariant.** -/
theorem Inv.agree (ha : k.Agree k') : k'.Inv held where
  frames := h.frames.agree ha
  live pid p' hp' := by
    obtain ⟨p, hp, hpa⟩ := ha.exists_proc' hp'
    rw [hpa.pgdir, ha.dirs]
    exact h.live pid p hp
  apart pid pid' p' q' hp' hq' heq := by
    obtain ⟨p, hp, hpa⟩ := ha.exists_proc' hp'
    obtain ⟨q, hq, hqa⟩ := ha.exists_proc' hq'
    rw [hpa.pgdir, hqa.pgdir] at heq
    exact h.apart pid pid' p q hp hq heq
  fresh pid p' hp' := by
    obtain ⟨p, hp, -⟩ := ha.exists_proc' hp'
    rw [ha.nextpid]
    exact h.fresh pid p hp
  own pid p' hp' := by
    obtain ⟨p, hp, hpa⟩ := ha.exists_proc' hp'
    exact hpa.own (h.own pid p hp)
  steady pid p' hp' := by
    obtain ⟨p, hp, hpa⟩ := ha.exists_proc' hp'
    exact (h.steady pid p hp).imp (hpa.settled fun va => ha.present) hpa.allOwn
  kdata := ha.kdata ▸ h.kdata

/-- The processes stay; the directories stay live and the settled processes steady. -/
theorem Inv.update (hf : k'.Frames held') (hprocs : k'.procs = k.procs)
    (hnext : k'.nextpid = k.nextpid) (hkdata : k'.kdata = k.kdata)
    (hdirs : ∀ d, (k.dirs d).isSome → (k'.dirs d).isSome)
    (hsteady : ∀ pid p, k.procs pid = some p → p.Settled k → p.Steady k') : k'.Inv held' where
  frames := hf
  live pid p hp := hdirs _ (h.live pid p (hprocs ▸ hp))
  apart pid pid' p p' hp hp' := h.apart pid pid' p p' (hprocs ▸ hp) (hprocs ▸ hp')
  fresh pid p hp := hnext ▸ h.fresh pid p (hprocs ▸ hp)
  own pid p hp := h.own pid p (hprocs ▸ hp)
  steady pid p hp := (h.steady pid p (hprocs ▸ hp)).elim (hsteady pid p (hprocs ▸ hp)) .inr
  kdata := hkdata ▸ h.kdata

/-- Where the directories stay, so do the settled processes. -/
theorem Inv.of_dirs (hf : k'.Frames held') (hprocs : k'.procs = k.procs)
    (hnext : k'.nextpid = k.nextpid) (hkdata : k'.kdata = k.kdata) (hdirs : k'.dirs = k.dirs) :
    k'.Inv held' := by
  refine h.update hf hprocs hnext hkdata (fun d hd => hdirs ▸ hd) fun pid p _ hs => ?_
  exact .inl (hs.of_walk fun d va => by rw [walkpgdir, hdirs, ← walkpgdir])

theorem Inv.setMem (f : ℕ) (pg : Page) : (k.setMem f pg).Inv held :=
  h.of_dirs (h.frames.setMem f pg) rfl rfl rfl rfl

/-- The static buffers are nobody's business. -/
theorem Inv.setBuffer (b : Page) : Inv { k with buffer := b } held :=
  h.of_dirs (h.frames.congr rfl rfl fun _ => rfl) rfl rfl rfl rfl

theorem Inv.kalloc (hk : k.kalloc = some (f, k')) : k'.Inv (f ::ₘ held) := by
  obtain ⟨-, -, hdirs, hprocs⟩ := kalloc_spec hk
  obtain ⟨m, -, rfl⟩ := kalloc_eq_some.mp hk
  exact h.of_dirs (h.frames.kalloc hk) hprocs rfl rfl hdirs

end

theorem Inv.kfree (h : k.Inv (f ::ₘ held)) (hk : k.kfree f = .ok k') : k'.Inv held := by
  obtain ⟨m, -, rfl⟩ := kfree_eq_ok.mp hk
  exact h.of_dirs (h.frames.kfree hk) rfl rfl rfl rfl

/-- A process changes, but not its directory and stack. -/
theorem Inv.setProc (h : k.Inv held) (hp : k.procs pid = some p) (hd : p'.pgdir = p.pgdir)
    (hstack : p'.kstack = p.kstack) (hown : p'.Own) (hsteady : p'.Steady k) :
    (k.setProc pid p').Inv held := by
  have hback : ∀ q r, (k.setProc pid p').procs q = some r →
      ∃ r', k.procs q = some r' ∧ r.pgdir = r'.pgdir := by
    intro q r hr
    rcases procs_of_setProc hr with ⟨rfl, rfl⟩ | ⟨-, hr⟩
    · exact ⟨p, hp, hd⟩
    · exact ⟨r, hr, rfl⟩
  refine ⟨h.frames.setProc hp hstack, fun q r hr => ?_, fun q q' r r' hr hr' heq => ?_,
    fun q r hr => ?_, fun q r hr => ?_, fun q r hr => ?_, h.kdata⟩
  · obtain ⟨r', hr', heq⟩ := hback q r hr
    rw [heq]
    exact h.live q r' hr'
  · obtain ⟨s, hs, hse⟩ := hback q r hr
    obtain ⟨s', hs', hse'⟩ := hback q' r' hr'
    exact h.apart q q' s s' hs hs' (by rw [← hse, ← hse', heq])
  · obtain ⟨r', hr', -⟩ := hback q r hr
    exact h.fresh q r' hr'
  · rcases procs_of_setProc hr with ⟨rfl, rfl⟩ | ⟨-, hr⟩
    · exact hown
    · exact h.own q r hr
  · rcases procs_of_setProc hr with ⟨rfl, rfl⟩ | ⟨-, hr⟩
    · exact hsteady.of_walk fun _ _ => rfl
    · exact (h.steady q r hr).of_walk fun _ _ => rfl

/-! ## Stores to entries -/

/-- A store that leaves its page present, or that hits no page a settled process relies on. -/
theorem Inv.setPte (h : k.Inv held) (hf : (k.setPte d va e).Frames held')
    (hne : e.p = true ∨ ∀ pid p, k.procs pid = some p → p.Settled k → p.pgdir = d → p.AllOwn ∨
      ∀ i, (p.memoryPages i).isUsed = true → vpn (p.memoryPages i).va ≠ vpn va) :
    (k.setPte d va e).Inv held' := by
  refine h.update hf rfl rfl rfl (fun d' hd' => by rwa [isSome_dirs_setPte]) fun pid p hp hs => ?_
  · rcases hne with hep | hne
    · exact .inl (hs.mono fun i _ hpr => hpr.setPte (.inl hep))
    · by_cases hpd : p.pgdir = d
      · refine (hne pid p hp hs hpd).symm.imp_left fun hne => ?_
        exact hs.mono fun i hi hpr => hpr.setPte (.inr (.inr (hne i hi)))
      · exact .inl (hs.mono fun i _ hpr => hpr.setPte (.inr (.inl hpd)))

/-- Writing back to an entry that maps nothing. -/
theorem Inv.setPte_absent (h : k.Inv held) (hf : (k.setPte d va e).Frames held')
    (hw : k.walkpgdir d va = some e0) (h0 : e0.p = false) : (k.setPte d va e).Inv held' := by
  refine h.setPte hf (.inr fun pid p _ hs hd => .inr fun i hi hv => ?_)
  obtain ⟨e', he', hp'⟩ := hs.present i hi
  rw [hd, k.walkpgdir_congr d hv, hw] at he'
  cases he'
  rw [h0] at hp'
  cases hp'

/-! ## `kfree` commutes with the stores around it -/

section

variable (hk : k.kfree f = .ok k')

include hk

theorem kfree_setProc (pid : ℕ) (p : Proc) :
    (k.setProc pid p).kfree f = .ok (k'.setProc pid p) := by
  obtain ⟨m, hm, rfl⟩ := kfree_eq_ok.mp hk
  exact kfree_eq_ok.mpr ⟨m, hm, rfl⟩

theorem kfree_setPte (d va : ℕ) (e : Pte) :
    (k.setPte d va e).kfree f = .ok (k'.setPte d va e) := by
  obtain ⟨m, hm, rfl⟩ := kfree_eq_ok.mp hk
  exact kfree_eq_ok.mpr ⟨m, hm, rfl⟩

theorem walkpgdir_of_kfree (d va : ℕ) :
    k'.walkpgdir d va = k.walkpgdir d va := by
  obtain ⟨m, -, rfl⟩ := kfree_eq_ok.mp hk
  rfl

theorem procs_of_kfree : k'.procs = k.procs := by
  obtain ⟨m, -, rfl⟩ := kfree_eq_ok.mp hk
  rfl

end

/-- `kfree` refuses the frame of an absent entry. -/
theorem kfree_zero (hk : k.kfree 0 = .ok k') (h : 0 < k.kmem.kend) : False := by
  obtain ⟨m, hm, -⟩ := kfree_eq_ok.mp hk
  obtain ⟨hman, -⟩ := KMem.kfree_eq_ok.mp hm
  simp only [KMem.Managed] at hman
  omega

end Kernel

end Xv6
