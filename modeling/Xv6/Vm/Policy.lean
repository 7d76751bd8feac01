import Xv6.Vm.Kernel

/-!
# Vm/Policy — what a replacement policy may change

`vm.c` is compiled with one of several replacement policies.  All of them keep their own books and
nothing else: they read and clear `PTE_A`, they age slots and stamp them, and they reorder
`memory_pages`.  `Kernel.Agree` says that two states differ in such books only, and a `Policy` carries
the proof that its two entry points stay within them.  Which used slot it then names as the victim is
left entirely open.
-/

namespace Xv6

open Outcome

/-- An entry without `PTE_A`. -/
def Pte.unmark (e : Pte) : Pte := { e with a := false }

@[simp] theorem Pte.unmark_mark (e : Pte) (b : Bool) : ({ e with a := b } : Pte).unmark = e.unmark := rfl

/-- Entries that differ in `PTE_A` only. -/
theorem Pte.unmark_eq {e e' : Pte} (h : e'.unmark = e.unmark) :
    e'.addr = e.addr ∧ e'.p = e.p ∧ e'.w = e.w ∧ e'.u = e.u ∧ e'.pg = e.pg ∧ e'.cow = e.cow := by
  simpa [Pte.unmark] using h

/-- The part of a slot that is no book of a policy. -/
def Slot.core (s : Slot) : ℕ × ℕ × Bool := (s.pgdir, s.va, s.isUsed)

/-- Two states of a process differ in statistics, time stamps and the order of `memory_pages`. -/
structure Proc.Agree (p p' : Proc) : Prop where
  sz : p'.sz = p.sz
  pgdir : p'.pgdir = p.pgdir
  kstack : p'.kstack = p.kstack
  swapFile : p'.swapFile = p.swapFile
  filePages : p'.filePages = p.filePages
  memoryPages : ∃ σ : Equiv.Perm (Fin maxPsycPages),
    ∀ i, (p'.memoryPages i).core = (p.memoryPages (σ i)).core

theorem Proc.Agree.refl (p : Proc) : p.Agree p := ⟨rfl, rfl, rfl, rfl, rfl, Equiv.refl _, fun _ => rfl⟩

theorem Proc.Agree.trans {p q r : Proc} (h : p.Agree q) (h' : q.Agree r) : p.Agree r where
  sz := h'.sz.trans h.sz
  pgdir := h'.pgdir.trans h.pgdir
  kstack := h'.kstack.trans h.kstack
  swapFile := h'.swapFile.trans h.swapFile
  filePages := h'.filePages.trans h.filePages
  memoryPages := by
    obtain ⟨σ, hσ⟩ := h.memoryPages
    obtain ⟨τ, hτ⟩ := h'.memoryPages
    exact ⟨τ.trans σ, fun i => (hτ i).trans (hσ (τ i))⟩

/-- `PTE_A` of the page of a slot. -/
def Proc.accessed (p : Proc) (k : Kernel) (i : Fin maxPsycPages) : Bool :=
  (k.walkpgdir p.pgdir (p.memoryPages i).va).any Pte.a

/-- A statistic is a book. -/
theorem Proc.agree_countFault (p : Proc) : p.Agree p.countFault :=
  ⟨rfl, rfl, rfl, rfl, rfl, Equiv.refl _, fun _ => rfl⟩

namespace Kernel

/-- **Two kernel states differ in the books of the policies only.** -/
structure Agree (k k' : Kernel) : Prop where
  kmem : k'.kmem = k.kmem
  mem : k'.mem = k.mem
  buffer : k'.buffer = k.buffer
  forkBuffer : k'.forkBuffer = k.forkBuffer
  nextpid : k'.nextpid = k.nextpid
  kdata : k'.kdata = k.kdata
  dirs : ∀ d, (k'.dirs d).isSome = (k.dirs d).isSome
  tables : ∀ d x, ((k'.dirs d).bind fun pd => pd.table x).map PageTable.frame
    = ((k.dirs d).bind fun pd => pd.table x).map PageTable.frame
  walk : ∀ d va, (k'.walkpgdir d va).map Pte.unmark = (k.walkpgdir d va).map Pte.unmark
  procs : ∀ pid, Option.Rel Proc.Agree (k.procs pid) (k'.procs pid)

theorem Agree.refl (k : Kernel) : k.Agree k where
  kmem := rfl
  mem := rfl
  buffer := rfl
  forkBuffer := rfl
  nextpid := rfl
  kdata := rfl
  dirs _ := rfl
  tables _ _ := rfl
  walk _ _ := rfl
  procs pid := by
    cases k.procs pid with
    | none => exact .none
    | some p => exact .some (.refl p)

theorem Agree.trans {k1 k2 k3 : Kernel} (h : k1.Agree k2) (h' : k2.Agree k3) : k1.Agree k3 where
  kmem := h'.kmem.trans h.kmem
  mem := h'.mem.trans h.mem
  buffer := h'.buffer.trans h.buffer
  forkBuffer := h'.forkBuffer.trans h.forkBuffer
  nextpid := h'.nextpid.trans h.nextpid
  kdata := h'.kdata.trans h.kdata
  dirs d := (h'.dirs d).trans (h.dirs d)
  tables d x := (h'.tables d x).trans (h.tables d x)
  walk d va := (h'.walk d va).trans (h.walk d va)
  procs pid := by
    have h1 := h.procs pid
    have h2 := h'.procs pid
    generalize k1.procs pid = a, k2.procs pid = b, k3.procs pid = c at h1 h2
    cases h1 with
    | none => cases h2; exact .none
    | some hp => cases h2 with | some hq => exact .some (hp.trans hq)

/-- The processes of two agreeing states correspond. -/
theorem Agree.exists_proc {k k' : Kernel} (h : k.Agree k') {pid : ℕ} {p : Proc}
    (hp : k.procs pid = some p) : ∃ p', k'.procs pid = some p' ∧ p.Agree p' := by
  have h' := h.procs pid
  rw [hp] at h'
  generalize k'.procs pid = q at h'
  cases h' with | some hq => exact ⟨_, rfl, hq⟩

theorem Agree.exists_proc' {k k' : Kernel} (h : k.Agree k') {pid : ℕ} {p' : Proc}
    (hp : k'.procs pid = some p') : ∃ p, k.procs pid = some p ∧ p.Agree p' := by
  have h' := h.procs pid
  rw [hp] at h'
  generalize k.procs pid = q at h'
  cases h' with | some hq => exact ⟨_, rfl, hq⟩

theorem Agree.exists_walk {k k' : Kernel} (h : k.Agree k') {d va : ℕ} {e' : Pte}
    (hw : k'.walkpgdir d va = some e') :
    ∃ e, k.walkpgdir d va = some e ∧ e'.unmark = e.unmark := by
  have h' := h.walk d va
  rw [hw, Option.map_some, eq_comm, Option.map_eq_some_iff] at h'
  obtain ⟨e, he, heq⟩ := h'
  exact ⟨e, he, heq.symm⟩

/-- A process keeps its books. -/
theorem Agree.setProc {k : Kernel} {pid : ℕ} {p p' : Proc} (hp : k.procs pid = some p)
    (h : p.Agree p') : k.Agree (k.setProc pid p') where
  kmem := rfl
  mem := rfl
  buffer := rfl
  forkBuffer := rfl
  nextpid := rfl
  kdata := rfl
  dirs _ := rfl
  tables _ _ := rfl
  walk _ _ := rfl
  procs q := by
    by_cases hq : q = pid
    · subst hq
      rw [hp, setProc_procs_self]
      exact .some h
    · rw [setProc_procs_of_ne k pid p' hq]
      exact (Agree.refl k).procs q

/-- `PTE_A` is set or cleared. -/
theorem Agree.setPte {k : Kernel} {d va : ℕ} {e e' : Pte} (hw : k.walkpgdir d va = some e)
    (h : e'.unmark = e.unmark) : k.Agree (k.setPte d va e') where
  kmem := rfl
  mem := rfl
  buffer := rfl
  forkBuffer := rfl
  nextpid := rfl
  kdata := rfl
  dirs := isSome_dirs_setPte k d va e'
  tables d' x := by
    by_cases hd : d' = d
    · subst hd
      cases hpd : k.dirs d' with
      | none => simp [Kernel.setPte, hpd]
      | some pd => simp [Kernel.setPte, hpd, PageDir.frame_setPte]
    · simp [Kernel.setPte, hd]
  walk d' va' := by
    rw [walkpgdir_setPte]
    split
    · rename_i hc
      obtain ⟨rfl, hv⟩ := hc
      rw [k.walkpgdir_congr d' hv, hw, Option.map_some, Option.map_some, Option.map_some, h]
    · rfl
  procs := (Agree.refl k).procs

end Kernel

/-- **A replacement policy**: the `#if AQ` and `#if LAPA` blocks, the hook `trap` runs first on a page
fault and `next_i_in_mem_to_remove`. -/
structure Policy where
  aq : Bool
  lapa : Bool
  hook : Kernel → ℕ → Except String Kernel
  next : Kernel → ℕ → Except String (Fin maxPsycPages × Kernel)
  hook_agree : ∀ {k pid k'}, hook k pid = .ok k' → k.Agree k'
  next_agree : ∀ {k pid i k'}, next k pid = .ok (i, k') → k.Agree k'

/-! ## Two policies -/

namespace Policy

/-- `RROBIN_next`. -/
def rrobinNext (k : Kernel) (pid : ℕ) : Except String (Fin maxPsycPages × Kernel) := do
  let p ← k.proc pid
  let r := incUint p.rRobin
  return (Fin.ofNat maxPsycPages r, k.setProc pid { p with rRobin := r })

/-- The policy `RROBIN`: no hook, victims in turn. -/
def rrobin : Policy where
  aq := false
  lapa := false
  hook k _ := .ok k
  next := rrobinNext
  hook_agree h := by cases h; exact .refl _
  next_agree h := by
    obtain ⟨p, hp, h⟩ := bind_eq_ok.mp h
    cases h
    exact .setProc (Kernel.proc_eq_ok.mp hp)
      ⟨rfl, rfl, rfl, rfl, rfl, Equiv.refl _, fun _ => rfl⟩

theorem agree_aqNext (p : Proc) : p.Agree p.aqNext :=
  ⟨rfl, rfl, rfl, rfl, rfl, Equiv.subRight 1, fun _ => rfl⟩

/-- `next_i_in_mem_to_remove` under `AQ`. -/
def aqVictim (k : Kernel) (pid : ℕ) : Except String (Fin maxPsycPages × Kernel) := do
  let p ← k.proc pid
  return (0, k.setProc pid p.aqNext)

/-- One iteration of `AQ_update_queue`, for the slots `i` and `i - 1`: if only the page in front has been
accessed, the two change places. -/
def aqStep (pid : ℕ) (i : Fin maxPsycPages) (k : Kernel) : Except String Kernel := do
  let p ← k.proc pid
  let s := p.memoryPages i
  let t := p.memoryPages (i - 1)
  if s.isUsed && t.isUsed then
    match k.walkpgdir p.pgdir s.va with
    | none => throw "AQ_update_queue: walkpgdir page_i failed\n"
    | some e =>
      match k.walkpgdir p.pgdir t.va with
      | none => throw "AQ_update_queue: walkpgdir page_prev_i failed\n"
      | some e' =>
        if !e.a && e'.a then return k.setProc pid ((p.setMemSlot (i - 1) s).setMemSlot i t)
        else return k
  else return k

/-- `AQ_update_queue`: from the last slot down to slot 1. -/
def aqUpdateQueue (k : Kernel) (pid : ℕ) : Except String Kernel :=
  loop (aqStep pid) ((List.finRange maxPsycPages).reverse.filter fun i => i ≠ 0) k

theorem agree_swapSlots (p : Proc) (i j : Fin maxPsycPages) :
    p.Agree ((p.setMemSlot j (p.memoryPages i)).setMemSlot i (p.memoryPages j)) := by
  refine ⟨rfl, rfl, rfl, rfl, rfl, Equiv.swap i j, fun x => ?_⟩
  by_cases hi : x = i
  · subst hi
    simp [Proc.setMemSlot]
  · by_cases hj : x = j
    · subst hj
      simp [Proc.setMemSlot, hi]
    · simp [Proc.setMemSlot, hi, hj, Equiv.swap_apply_of_ne_of_ne]

theorem agree_aqStep {pid : ℕ} {i : Fin maxPsycPages} {k k' : Kernel}
    (h : aqStep pid i k = .ok k') : k.Agree k' := by
  obtain ⟨p, hp, h⟩ := bind_eq_ok.mp h
  simp only at h
  split at h
  · split at h
    · cases h
    · split at h
      · cases h
      · split at h
        · cases h
          exact .setProc (Kernel.proc_eq_ok.mp hp) (agree_swapSlots p i (i - 1))
        · cases h
          exact .refl _
  · cases h
    exact .refl _

/-- The policy `AQ`. -/
def advancingQueue : Policy where
  aq := true
  lapa := false
  hook := aqUpdateQueue
  next := aqVictim
  hook_agree {k _ _} h :=
    loop_inv (P := fun k' => k.Agree k') (fun _ _ _ _ ha hb => ha.trans (agree_aqStep hb)) (.refl k) h
  next_agree h := by
    obtain ⟨p, hp, h⟩ := bind_eq_ok.mp h
    cases h
    exact .setProc (Kernel.proc_eq_ok.mp hp) (agree_aqNext p)

end Policy

end Xv6
