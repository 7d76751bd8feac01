import Xv6.Proc.Fork

/-!
# Proc/Stamps — load times under `SCFIFO`

`SCFIFO` needs the stamps of the used slots to differ and to lie before the next one (`Proc.Stamped`).
Loads, evictions and `fork` keep this as long as the clock does not wrap around: `Kernel.Stamps k pid t` says that
it stands at `t` at most, which makes the order of the stamps a property with a time in it (`Kernel.Timed`).
-/

namespace Xv6

open Outcome Select

/-- The stamps of a process are in order, and its clock stands at `t` at most. -/
def Kernel.Stamps (k : Kernel) (pid t : ℕ) : Prop :=
  ∃ p, k.procs pid = some p ∧ p.Stamped ∧ p.timestamp ≤ t

namespace Kernel

variable {k k' : Kernel} {pid d va off f t t' c n : ℕ} {p p' : Proc} {e : Pte}
  {i j : Fin maxPsycPages} {acc : Access}

section

variable (h : k.Stamps pid t)

include h

theorem Stamps.mono (ht : t ≤ t') : k.Stamps pid t' := by
  obtain ⟨p, hp, hst, hle⟩ := h
  exact ⟨p, hp, hst, hle.trans ht⟩

theorem Stamps.of_procs (hk : k'.procs = k.procs) : k'.Stamps pid t := by
  obtain ⟨p, hp, hst⟩ := h
  exact ⟨p, by rw [hk, hp], hst⟩

/-- A process changes what is no stamp, or releases slots. -/
theorem Stamps.retain (hp : k.procs pid = some p) (hr : p.Retains p') :
    (k.setProc pid p').Stamps pid t := by
  obtain ⟨q, hq, hst, hle⟩ := h
  cases Option.mem_unique hp hq
  exact ⟨p', setProc_procs_self .., hst.mono hr.timestamp.ge hr.slots, hr.timestamp ▸ hle⟩

/-- **A slot gets the next stamp**, or only the clock moves. -/
theorem Stamps.tick {o : Option (Fin maxPsycPages)} (hroom : t < maxUint)
    (hp : k.procs pid = some p) (ht : p.Ticks o p') : (k.setProc pid p').Stamps pid (t + 1) := by
  obtain ⟨q, hq, hst, hle⟩ := h
  cases Option.mem_unique hp hq
  have hinc : incUint p.timestamp = p.timestamp + 1 := incUint_of_lt (hle.trans_lt hroom)
  refine ⟨p', setProc_procs_self .., ?_, ?_⟩
  · cases o with
    | some i =>
      exact hst.store (hle.trans_lt hroom) ht.timestamp (ht.slot i rfl)
        fun j hj => ht.slots j fun h => hj (Option.some.inj h).symm
    | none => exact hst.mono (ht.timestamp ▸ hinc ▸ Nat.le_succ _) fun j => ht.slots j nofun
  · rw [ht.timestamp, hinc]
    exact Nat.succ_le_succ hle

/-! ## Victims -/

theorem Stamps.scfifoNext {o : Option (Fin maxPsycPages)} (hroom : t < maxUint)
    (hk : Policy.scfifoNext k pid = .ok (o, k')) : k'.Stamps pid (t + 1) := by
  obtain ⟨p, hp, hk⟩ := proc_bind_eq_ok.mp hk
  split at hk
  · cases hk
  · rename_i i _
    simp only at hk
    split at hk
    · cases hk
    · rename_i e he
      split at hk
      · cases hk
        have hset : (k.setPte (p.memoryPages i).pgdir (p.memoryPages i).va
            { e with a := false }).Stamps pid t := h.of_procs rfl
        refine hset.tick (o := some i) hroom hp ⟨rfl, rfl, rfl, fun j hj => ?_, fun j hj hu => ?_⟩
        · cases hj
          rw [Proc.timeLoaded, Proc.memoryPages_stamp]
        · have hne : j ≠ i := fun h => hj (congrArg some h.symm)
          rw [Proc.inUse_stamp] at hu
          rw [Proc.timeLoaded, Proc.memoryPages_stamp_of_ne hne]
          exact ⟨hu, rfl⟩
      · cases hk
        exact h.mono (Nat.le_succ t)

end

theorem Stamps.nextIInMemToRemove : ∀ (n : ℕ) {k : Kernel} {t : ℕ}, k.Stamps pid t → t + n ≤ maxUint →
    Policy.nextIInMemToRemove Policy.scfifoNext n k pid = .ok (some (i, k')) → k'.Stamps pid (t + n)
  | 0, _, _, _, _, hk => nomatch hk
  | n + 1, k, t, h, hroom, hk => by
    obtain ⟨⟨o, k1⟩, hk1, hk⟩ := bind_eq_ok.mp hk
    have h1 := h.scfifoNext (by omega) hk1
    cases o with
    | some i =>
      cases hk
      exact h1.mono (by omega)
    | none =>
      have h2 := Stamps.nextIInMemToRemove n h1 (by omega) hk
      exact h2.mono (by omega)

/-- A victim is chosen. -/
theorem Stamps.next (h : k.Stamps pid t) (hroom : t + 17 ≤ maxUint)
    (hk : Policy.scfifo.next k pid = .ok (i, k')) : k'.Stamps pid (t + 17) :=
  h.nextIInMemToRemove 17 hroom (Policy.victim_eq_ok.mp hk)

/-! ## The clock -/

/-- **The paging code keeps the stamps** as long as the clock does not wrap around. -/
theorem timed_stamps (pid : ℕ) : Timed .scfifo pid fun t k => t ≤ maxUint → k.Stamps pid t where
  mono hle h hroom := (h (hle.trans hroom)).mono hle
  same hprocs _ h hroom := (h hroom).of_procs hprocs
  hook h _ hr := by
    cases hr
    exact h
  next h _ hr hroom := (h (by omega)).next hroom hr
  retain hp hr h hroom := (h hroom).retain hp hr
  rotate haq := nomatch haq
  tick hp ht h hroom := (h (by omega)).tick hroom hp ht
  own _ _ h hroom := (h hroom).of_procs rfl
  disk _ h hroom := (h hroom).of_procs rfl

/-- The page-table code keeps them. -/
theorem slack_stamps (pid t : ℕ) : Slack pid fun k => k.Stamps pid t where
  procs hk h := h.of_procs hk
  free hp h := h.retain hp Proc.retains_freeMemSlot

/-- **`swap` keeps the stamps.** -/
theorem Stamps.swap {r : Option (Fin maxPsycPages)} (h : k.Stamps pid t) (hroom : t + (17 + ticks n) ≤ maxUint)
    (hk : swap .scfifo (access .scfifo n) k pid = .ok (r, k')) : k'.Stamps pid (t + (17 + ticks n)) :=
  (timed_stamps pid).swap ((timed_stamps pid).accessAs n false) (fun _ => h) _ hk hroom

/-- **`allocuvm` keeps the stamps.** -/
theorem Stamps.allocuvm {oldsz newsz r : ℕ} (h : k.Stamps pid t)
    (hroom : t + (pagesFrom (pgRoundUp oldsz) newsz).length * (18 + ticks n) ≤ maxUint)
    (hk : allocuvm .scfifo (access .scfifo n) k pid d oldsz newsz = .ok (r, k')) :
    k'.Stamps pid (t + (pagesFrom (pgRoundUp oldsz) newsz).length * (18 + ticks n)) := by
  refine (timed_stamps pid).allocuvm ((timed_stamps pid).accessAs n false) ?_ ?_ (fun _ => h) _ hk hroom
  · intro t k k1 a e f _ h hw hroom
    have hprocs : k1.procs = k.procs := procs_of_alloc hw
    exact (h hroom).of_procs hprocs
  · exact fun _ t k h x hx hroom => (slack_stamps pid t).deallocuvm (h hroom) x hx

/-- **`handle_pf` keeps the stamps.** -/
theorem Stamps.handlePf {r : Bool} {cr2 : ℕ} (h : k.Stamps pid t) (hroom : t + (18 + 2 * ticks n) ≤ maxUint)
    (hk : handlePf .scfifo (access .scfifo n) k pid cr2 = .ok (r, k')) :
    k'.Stamps pid (t + (18 + 2 * ticks n)) :=
  (timed_stamps pid).handlePf ((timed_stamps pid).accessAs n false) (fun _ => h) _ hk hroom

/-- **`fork` keeps the stamps of the parent, and the child gets them.** -/
theorem Stamps.fork {o : Option ℕ} {q : Proc} (h : k.Stamps pid t)
    (hk : k.fork pid q = .ok (o, k')) :
    k'.Stamps pid t ∧ ∀ cpid, o = some cpid → k'.Stamps cpid t := by
  obtain ⟨p, hp, hst, hle⟩ := id h
  rcases (slack_stamps pid t).fork h hp hk with ⟨rfl, h'⟩ | ⟨k1, np, rfl, h1, rfl, -, ht, hslots⟩
  · exact ⟨h', nofun⟩
  · have hchild : (k1.setProc k.nextpid np).Stamps k.nextpid t :=
      ⟨np, setProc_procs_self .., hst.mono ht.ge hslots, ht ▸ hle⟩
    refine ⟨?_, fun cpid hc => Option.some.inj hc ▸ hchild⟩
    by_cases hnew : pid = k.nextpid
    · exact hnew ▸ hchild
    · obtain ⟨r, hr, hrest⟩ := h1
      exact ⟨r, by rw [setProc_procs_of_ne _ _ _ hnew, hr], hrest⟩

end Kernel

/-! ## Second chances -/

/-- The victim leaves the queue. -/
theorem Proc.Queue.free {p : Proc} {i : Fin maxPsycPages} {q : List (Fin maxPsycPages)}
    (h : p.Queue (i :: q)) : (p.freeMemSlot i).Queue q := by
  have hne : ∀ j, j ≠ i → (p.freeMemSlot i).memoryPages j = p.memoryPages j := fun j hj =>
    Function.update_of_ne hj ..
  have hkey : (p.freeMemSlot i).timeLoaded = p.timeLoaded := by
    funext j
    by_cases hj : j = i
    · subst hj
      simp [timeLoaded, freeMemSlot, setMemSlot]
    · rw [timeLoaded, hne j hj]
      rfl
  rw [Queue, hkey]
  refine Select.Ordered.pop h ?_ fun j hj => ?_
  · simp [inUse, freeMemSlot, setMemSlot]
  · rw [inUse, hne j hj]
    rfl

end Xv6
