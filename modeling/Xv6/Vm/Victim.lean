import Xv6.Lib.Select
import Xv6.Vm.Paging

/-!
# Vm/Victim — the victims of `NFUA` and of `SCFIFO`

`next_i_in_mem_to_remove` calls the function of the policy until it names a slot.  `NFUA_next` changes
nothing, so a call that names none is repeated for ever; it names none when every used slot has the age
`MAX_UINT`, which it also starts its search from.  `SCFIFO_next` gives the oldest page a second chance: it
clears its mark, stamps it anew and names no slot.  So it walks through a queue that the table only has in
its stamps (`Proc.Queue`).
-/

namespace Xv6

open Outcome Select Function

/-- `MAX_UINT`. -/
def maxUint : ℕ := 4294967295

/-- `NFUA_MSB`. -/
def nfuaMsb : ℕ := 0x80000000

namespace Proc

/-- `memory_pages[i].is_used`. -/
def inUse (p : Proc) (i : Fin maxPsycPages) : Bool := (p.memoryPages i).isUsed

/-- `memory_pages[i].age`. -/
def age (p : Proc) (i : Fin maxPsycPages) : ℕ := (p.memoryPages i).age

/-- `memory_pages[i].time_loaded`. -/
def timeLoaded (p : Proc) (i : Fin maxPsycPages) : ℕ := (p.memoryPages i).timeLoaded

/-- `memory_pages[i].time_loaded = timestamp++`. -/
def stamp (p : Proc) (i : Fin maxPsycPages) : Proc :=
  { p.setMemSlot i { p.memoryPages i with timeLoaded := p.timestamp } with
    timestamp := incUint p.timestamp }

end Proc

namespace Policy

/-- The loop of `next_i_in_mem_to_remove` over the function of a policy, for at most so many turns; `none`
when it has not ended by then. -/
def nextIInMemToRemove (next : Kernel → ℕ → Except String (Option (Fin maxPsycPages) × Kernel)) :
    ℕ → Kernel → ℕ → Except String (Option (Fin maxPsycPages × Kernel))
  | 0, _, _ => .ok none
  | n + 1, k, pid => do
    let (i, k) ← next k pid
    match i with
    | some i => return some (i, k)
    | none => nextIInMemToRemove next n k pid

/-- One iteration of `NFUA_update_age`. -/
def nfuaAge (pid : ℕ) (i : Fin maxPsycPages) (k : Kernel) : Except String Kernel := do
  let p ← k.proc pid
  let s := p.memoryPages i
  if s.isUsed then
    match k.walkpgdir p.pgdir s.va with
    | none => throw "NFUA: walkpgdir failed\n"
    | some e =>
      if e.a then
        return (k.setProc pid (p.setMemSlot i { s with age := s.age / 2 ||| nfuaMsb })).setPte p.pgdir s.va
          { e with a := false }
      else return k.setProc pid (p.setMemSlot i { s with age := s.age / 2 })
  else return k

/-- `NFUA_update_age`. -/
def nfuaUpdateAge (k : Kernel) (pid : ℕ) : Except String Kernel :=
  loop (nfuaAge pid) (List.finRange maxPsycPages) k

/-- `NFUA_next`. -/
def nfuaNext (k : Kernel) (pid : ℕ) : Except String (Option (Fin maxPsycPages) × Kernel) := do
  let p ← k.proc pid
  return (least p.inUse p.age maxUint (List.finRange maxPsycPages), k)

/-- `SCFIFO_next`. -/
def scfifoNext (k : Kernel) (pid : ℕ) : Except String (Option (Fin maxPsycPages) × Kernel) := do
  let p ← k.proc pid
  match least p.inUse p.timeLoaded maxUint (List.finRange maxPsycPages) with
  | none => throw "SCFIFO: next i == -1\n"
  | some i =>
    let s := p.memoryPages i
    match k.walkpgdir s.pgdir s.va with
    | none => throw "SCFIFO: walkpgdir failed\n"
    | some e =>
      if e.a then
        -- will get 2nd chance
        return (none, (k.setPte s.pgdir s.va { e with a := false }).setProc pid (p.stamp i))
      else return (some i, k)

/-! ## Both keep to their books -/

variable {k k' : Kernel} {pid : ℕ} {p : Proc} {i : Fin maxPsycPages}

/-- A slot may be stamped and aged. -/
theorem agree_setMemSlot {s : Slot} (h : s.core = (p.memoryPages i).core) : p.Agree (p.setMemSlot i s) := by
  refine ⟨rfl, rfl, rfl, rfl, rfl, Equiv.refl _, fun j => ?_⟩
  by_cases hj : j = i
  · subst hj
    simpa [Proc.setMemSlot] using h
  · simp [Proc.setMemSlot, hj]

theorem agree_stamp (p : Proc) (i : Fin maxPsycPages) : p.Agree (p.stamp i) := by
  have h : p.Agree (p.setMemSlot i { p.memoryPages i with timeLoaded := p.timestamp }) := agree_setMemSlot rfl
  exact ⟨rfl, rfl, rfl, rfl, rfl, h.memoryPages⟩

theorem agree_nfuaAge (h : nfuaAge pid i k = .ok k') : k.Agree k' := by
  obtain ⟨p, hp, h⟩ := bind_eq_ok.mp h
  have hp := Kernel.proc_eq_ok.mp hp
  simp only at h
  split at h
  · split at h
    · cases h
    · rename_i e he
      split at h
      · cases h
        refine .trans ?_ (.setPte (e := e) he rfl)
        exact .setProc hp (agree_setMemSlot rfl)
      · cases h
        exact .setProc hp (agree_setMemSlot rfl)
  · cases h
    exact .refl _

theorem agree_scfifoNext {o : Option (Fin maxPsycPages)} (h : scfifoNext k pid = .ok (o, k')) :
    k.Agree k' := by
  obtain ⟨p, hp, h⟩ := bind_eq_ok.mp h
  have hp := Kernel.proc_eq_ok.mp hp
  split at h
  · cases h
  · simp only at h
    split at h
    · cases h
    · rename_i e he
      split at h
      · cases h
        refine .trans ?_ (.setProc (p := p) hp (agree_stamp p _))
        exact .setPte he rfl
      · cases h
        exact .refl _

/-- What every call keeps, the loop keeps. -/
theorem agree_nextIInMemToRemove {next : Kernel → ℕ → Except String (Option (Fin maxPsycPages) × Kernel)}
    (hnext : ∀ {k pid o k'}, next k pid = .ok (o, k') → k.Agree k') : ∀ (n : ℕ) {k : Kernel},
    nextIInMemToRemove next n k pid = .ok (some (i, k')) → k.Agree k'
  | 0, _, h => nomatch h
  | n + 1, k, h => by
    obtain ⟨⟨o, k1⟩, hk1, h⟩ := bind_eq_ok.mp h
    cases o with
    | some i => cases h; exact hnext hk1
    | none => exact (hnext hk1).trans (agree_nextIInMemToRemove hnext n h)

/-- The loop as a policy has it: a run without an end is a panic of the model. -/
def victim (next : Kernel → ℕ → Except String (Option (Fin maxPsycPages) × Kernel)) (n : ℕ) (k : Kernel)
    (pid : ℕ) : Except String (Fin maxPsycPages × Kernel) := do
  match ← nextIInMemToRemove next n k pid with
  | some r => return r
  | none => throw "next_i_in_mem_to_remove without end"

theorem victim_eq_ok {next : Kernel → ℕ → Except String (Option (Fin maxPsycPages) × Kernel)} {n : ℕ} :
    victim next n k pid = .ok (i, k') ↔ nextIInMemToRemove next n k pid = .ok (some (i, k')) := by
  unfold victim
  cases nextIInMemToRemove next n k pid with
  | error e => exact iff_of_false nofun nofun
  | ok o =>
    cases o with
    | none => exact iff_of_false nofun nofun
    | some r => exact ⟨fun h => by cases h; rfl, fun h => by cases h; rfl⟩

/-- The policy `NFUA`.  A second call would say the same, so one is enough. -/
def nfua : Policy where
  aq := false
  lapa := false
  hook := nfuaUpdateAge
  next := victim nfuaNext 1
  hook_agree {k _ _} h :=
    loop_inv (P := fun k' => k.Agree k') (fun _ _ _ _ ha hb => ha.trans (agree_nfuaAge hb)) (.refl k) h
  next_agree h := by
    refine agree_nextIInMemToRemove (fun {k pid o k'} hk => ?_) 1 (victim_eq_ok.mp h)
    obtain ⟨p, -, hk⟩ := bind_eq_ok.mp hk
    cases hk
    exact .refl _

/-- The hook of a policy that has nothing to do on a trap. -/
theorem agree_idle {k : Kernel} {_pid : ℕ} {k' : Kernel} (h : Except.ok (ε := String) k = .ok k') :
    k.Agree k' := by
  cases h
  exact .refl _

/-- The policy `SCFIFO`.  Among 16 slots, 17 calls are enough. -/
def scfifo : Policy where
  aq := false
  lapa := false
  hook k _ := .ok k
  next := victim scfifoNext (maxPsycPages + 1)
  hook_agree := @agree_idle
  next_agree h := agree_nextIInMemToRemove agree_scfifoNext _ (victim_eq_ok.mp h)

end Policy

/-! ## `NFUA` -/

section Nfua

variable {k : Kernel} {pid : ℕ} {p : Proc}

/-- A call of `NFUA_next` names the first used slot of least age, if one is below `MAX_UINT`. -/
theorem nfuaNext_eq (hp : k.procs pid = some p) : Policy.nfuaNext k pid
    = .ok (least p.inUse p.age maxUint (List.finRange maxPsycPages), k) := by
  rw [Policy.nfuaNext, Kernel.proc_eq_ok.mpr hp]
  rfl

/-- **The loop ends at its first turn or never.** -/
theorem nextIInMemToRemove_nfua (hp : k.procs pid = some p) : ∀ n,
    Policy.nextIInMemToRemove Policy.nfuaNext (n + 1) k pid
      = .ok ((least p.inUse p.age maxUint (List.finRange maxPsycPages)).map fun i => (i, k)) := by
  intro n
  rw [Policy.nextIInMemToRemove, nfuaNext_eq hp, ok_bind]
  cases h : least p.inUse p.age maxUint (List.finRange maxPsycPages) with
  | some i => rfl
  | none =>
    -- nothing has changed, so the next call finds nothing either
    cases n with
    | zero => rfl
    | succ n =>
      have ih := nextIInMemToRemove_nfua hp n
      rw [h] at ih
      exact ih

/-- **`NFUA` finds a victim exactly when some used slot has an age below `MAX_UINT`**, and then it is the
first used slot of least age; otherwise `next_i_in_mem_to_remove` never ends. -/
theorem nfua_finds_victim (hp : k.procs pid = some p) :
    ((∃ n i, Policy.nextIInMemToRemove Policy.nfuaNext n k pid = .ok (some (i, k))) ↔
      ∃ i, p.inUse i = true ∧ p.age i < maxUint) ∧
    ∀ n i k', Policy.nextIInMemToRemove Policy.nfuaNext n k pid = .ok (some (i, k')) →
      k' = k ∧ p.inUse i = true ∧ (∀ j, p.inUse j = true → p.age i ≤ p.age j) ∧
        ∀ j < i, p.inUse j = true → p.age i < p.age j := by
  refine ⟨⟨fun ⟨n, i, h⟩ => ?_, fun ⟨i, hu, hlt⟩ => ?_⟩, fun n i k' h => ?_⟩
  · cases n with
    | zero => cases h
    | succ n =>
      rw [nextIInMemToRemove_nfua hp, Except.ok.injEq, Option.map_eq_some_iff] at h
      obtain ⟨j, hj, he⟩ := h
      obtain ⟨hfirst, hlt⟩ := least_eq_some hj
      exact ⟨j, hfirst.inUse, hlt⟩
  · obtain ⟨j, hj⟩ := exists_least (List.mem_finRange i) hu hlt
    exact ⟨1, j, by rw [nextIInMemToRemove_nfua hp, hj]; rfl⟩
  · cases n with
    | zero => cases h
    | succ n =>
      rw [nextIInMemToRemove_nfua hp, Except.ok.injEq, Option.map_eq_some_iff] at h
      obtain ⟨j, hj, he⟩ := h
      cases he
      have hfirst := (least_eq_some hj).1
      exact ⟨rfl, hfirst.inUse, fun j hu => hfirst.le (List.mem_finRange j) hu,
        fun j hj hu => hfirst.lt_of_lt hj hu⟩

end Nfua

/-- Process 3 with one page, for which no slot is in use yet. -/
def onePage : Kernel where
  kmem := ⟨0x115000, List.range' 1004 20, fun f => if 1000 ≤ f ∧ f < 1004 then 1 else 0, 20⟩
  mem := fun _ _ => 0
  dirs := Function.update (fun _ => none) 1000 (some ⟨Function.update (fun _ => none) 0
    (some ⟨1001, fun i => if i = 0 then { addr := 1002, p := true, w := true, u := true } else {}⟩)⟩)
  procs := Function.update (fun _ => none) 3 (some {
    sz := pgSize
    pgdir := 1000
    kstack := 1003
    swapFile := .empty
    filePages := fun _ => ⟨0, 0, false, 0, 0⟩
    memoryPages := fun _ => ⟨0, 0, false, 0, 0⟩
    pageFaults := 0
    pagedOut := 0
    timestamp := 0
    rRobin := 0 })
  buffer := fun _ => 0
  forkBuffer := fun _ => 0
  nextpid := 4
  kdata := 0x109000

/-- The page is loaded, and then accessed before each of `n` calls of `NFUA_update_age`. -/
def accessedFor (n : ℕ) : Except String Kernel := do
  let k ← Kernel.trackPage .nfua (Kernel.access .nfua 2) onePage 3 1000 0
  loop (fun _ k => Policy.nfuaUpdateAge (k.markAccessed 3 0) 3) (List.range n) k

/-- After 31 accesses the page is the victim. -/
theorem nfua_finds_victim_31 : Returns (accessedFor 31) fun k =>
    ∃ n i, Policy.nextIInMemToRemove Policy.nfuaNext n k 3 = .ok (some (i, k)) := by
  have h : Returns (accessedFor 31) fun k =>
      (k.procs 3).any (fun p => p.inUse 0 && p.age 0 < maxUint) = true := by decide +kernel
  refine h.mono fun k _ hk => ?_
  obtain ⟨p, hp, hk⟩ := (Option.any_eq_true _ _).mp hk
  simp only [Bool.and_eq_true, decide_eq_true_eq] at hk
  exact (nfua_finds_victim hp).1.mpr ⟨0, hk⟩

/-- **After 32 accesses there is no victim**: the only page in use has the age `MAX_UINT`. -/
theorem nfua_never_ends : Returns (accessedFor 32) fun k => (∃ p, k.procs 3 = some p ∧ p.inUse 0 = true) ∧
    ∀ n, Policy.nextIInMemToRemove Policy.nfuaNext n k 3 = .ok none := by
  have h : Returns (accessedFor 32) fun k => (k.procs 3).any (fun p => p.inUse 0 &&
      (least p.inUse p.age maxUint (List.finRange maxPsycPages)).isNone) = true := by decide +kernel
  refine h.mono fun k _ hk => ?_
  obtain ⟨p, hp, hk⟩ := (Option.any_eq_true _ _).mp hk
  simp only [Bool.and_eq_true, Option.isNone_iff_eq_none] at hk
  refine ⟨⟨p, hp, hk.1⟩, fun n => ?_⟩
  cases n with
  | zero => rfl
  | succ n => rw [nextIInMemToRemove_nfua hp, hk.2]; rfl

/-! ## `SCFIFO` -/

/-- **The stamps of the used slots**: no two are equal, and all lie before the next one. -/
structure Proc.Stamped (p : Proc) : Prop where
  distinct : ∀ i j, p.inUse i = true → p.inUse j = true → p.timeLoaded i = p.timeLoaded j → i = j
  below : ∀ i, p.inUse i = true → p.timeLoaded i < p.timestamp

/-- The entry of the page of a slot: the directory, and the two indices. -/
def Proc.entry (p : Proc) (i : Fin maxPsycPages) : ℕ × Fin 1024 × Fin 1024 :=
  ((p.memoryPages i).pgdir, pdx (p.memoryPages i).va, ptx (p.memoryPages i).va)

/-- **The used slots in the order they were loaded.** -/
def Proc.Queue (p : Proc) (q : List (Fin maxPsycPages)) : Prop := Select.Ordered p.inUse p.timeLoaded q

/-- Every used slot names a page with an entry. -/
def Proc.Mapped (p : Proc) (k : Kernel) : Prop :=
  ∀ i, p.inUse i = true → (k.walkpgdir (p.memoryPages i).pgdir (p.memoryPages i).va).isSome

section Scfifo

variable {k k' : Kernel} {pid d va n : ℕ} {p p' : Proc} {i : Fin maxPsycPages} {e : Pte}
  {q rest : List (Fin maxPsycPages)} {b : ℕ × Fin 1024 × Fin 1024 → Bool}

theorem Proc.memoryPages_stamp_of_ne {j : Fin maxPsycPages} (h : j ≠ i) :
    (p.stamp i).memoryPages j = p.memoryPages j := update_of_ne h ..

theorem Proc.memoryPages_stamp : (p.stamp i).memoryPages i
    = { p.memoryPages i with timeLoaded := p.timestamp } := update_self ..

theorem Proc.inUse_stamp : (p.stamp i).inUse = p.inUse := by
  funext j
  by_cases hj : j = i
  · subst hj
    rw [inUse, memoryPages_stamp]
    rfl
  · rw [inUse, memoryPages_stamp_of_ne hj]
    rfl

theorem incUint_of_lt {x : ℕ} (h : x < maxUint) : incUint x = x + 1 := by
  simp only [incUint, maxUint] at *
  omega

/-- **A slot that gets the next stamp**: the others are as before, and stamps keep apart. -/
theorem Proc.Stamped.store (h : p.Stamped) (hroom : p.timestamp < maxUint)
    (ht : p'.timestamp = incUint p.timestamp) (hi : p'.timeLoaded i = p.timestamp)
    (hne : ∀ j, j ≠ i → p'.inUse j = true → p.inUse j = true ∧ p'.timeLoaded j = p.timeLoaded j) :
    p'.Stamped := by
  rw [incUint_of_lt hroom] at ht
  refine ⟨fun a b ha hb hab => ?_, fun a ha => ?_⟩
  · by_cases hai : a = i
    · by_cases hbi : b = i
      · rw [hai, hbi]
      · obtain ⟨hub, htb⟩ := hne b hbi hb
        have := h.below b hub
        rw [hai, hi, htb] at hab
        omega
    · obtain ⟨hua, hta⟩ := hne a hai ha
      by_cases hbi : b = i
      · have := h.below a hua
        rw [hbi, hi, hta] at hab
        omega
      · obtain ⟨hub, htb⟩ := hne b hbi hb
        exact h.distinct a b hua hub (hta ▸ htb ▸ hab)
  · by_cases hai : a = i
    · rw [hai, hi, ht]
      exact Nat.lt_succ_self _
    · obtain ⟨hua, hta⟩ := hne a hai ha
      have := h.below a hua
      rw [hta, ht]
      omega

/-- Slots may be released, and the clock may advance. -/
theorem Proc.Stamped.mono (h : p.Stamped) (ht : p.timestamp ≤ p'.timestamp)
    (hsub : ∀ j, p'.inUse j = true → p.inUse j = true ∧ p'.timeLoaded j = p.timeLoaded j) :
    p'.Stamped := by
  refine ⟨fun a b ha hb hab => ?_, fun a ha => ?_⟩
  · obtain ⟨hua, hta⟩ := hsub a ha
    obtain ⟨hub, htb⟩ := hsub b hb
    exact h.distinct a b hua hub (hta ▸ htb ▸ hab)
  · obtain ⟨hua, hta⟩ := hsub a ha
    rw [hta]
    exact (h.below a hua).trans_le ht

theorem Proc.Stamped.stamp (h : p.Stamped) (hroom : p.timestamp < maxUint) (i : Fin maxPsycPages) :
    (p.stamp i).Stamped := by
  refine h.store (i := i) hroom rfl ?_ fun j hj hu => ?_
  · rw [timeLoaded, memoryPages_stamp]
  · rw [inUse_stamp] at hu
    refine ⟨hu, ?_⟩
    rw [timeLoaded, memoryPages_stamp_of_ne hj]
    rfl

/-- The head of the queue goes to the end. -/
theorem Proc.Queue.stamp (hq : p.Queue (i :: q)) (hst : p.Stamped) : (p.stamp i).Queue (q ++ [i]) := by
  have hkey : (p.stamp i).timeLoaded i = p.timestamp := by rw [timeLoaded, memoryPages_stamp]
  rw [Queue, inUse_stamp]
  refine Select.Ordered.requeue hq (fun j hj => ?_) fun j hj => ?_
  · rw [timeLoaded, memoryPages_stamp_of_ne hj]
    rfl
  · rw [hkey]
    exact hst.below j ((hq.mem j).mp (List.mem_cons_of_mem _ hj))

theorem Proc.Mapped.stamp (hmap : p.Mapped k) (i : Fin maxPsycPages) (d va : ℕ) (e : Pte) :
    (p.stamp i).Mapped ((k.setPte d va e).setProc pid (p.stamp i)) := fun j hj => by
  rw [inUse_stamp] at hj
  have hslot : ((p.stamp i).memoryPages j).pgdir = (p.memoryPages j).pgdir ∧
      ((p.stamp i).memoryPages j).va = (p.memoryPages j).va := by
    by_cases hji : j = i
    · rw [hji, memoryPages_stamp]
      exact ⟨rfl, rfl⟩
    · rw [memoryPages_stamp_of_ne hji]
      exact ⟨rfl, rfl⟩
  rw [Kernel.setProc_walkpgdir, hslot.1, hslot.2, Kernel.walkpgdir_setPte]
  split
  · rw [Option.isSome_map]
    exact hmap j hj
  · exact hmap j hj

end Scfifo

end Xv6
