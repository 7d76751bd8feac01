import Xv6.Proc.Exec
import Xv6.Proc.System

/-!
# Proc/Sizes — `sz` stays below `KERNBASE`

The checks of system call arguments compare addresses with `sz`.  They are right because `sz` is less than
`KERNBASE`, and that is kept elsewhere: by `allocuvm`, which refuses larger sizes, for `growproc` and `exec`, and
by `deallocuvm`, which returns the smaller of two sizes whatever the sum of `growproc` has wrapped to.

All other functions leave the sizes alone, and none of them needs an invariant for it: the paging code as the sizes
are stable, the page-table code as they are about processes alone.
-/

namespace Xv6

open Outcome

namespace Kernel

variable {k k' : Kernel} {pid cur d va a f oldsz newsz : ℕ} {p : Proc} {pol : Policy} {acc : Access}
  {s : ℕ → Option ℕ} {α β γ : Type}

/-- The sizes of the processes. -/
def sizes (k : Kernel) (pid : ℕ) : Option ℕ := (k.procs pid).map Proc.sz

/-- A process may change all but its size. -/
theorem sizes_setProc {p' : Proc} (h : k.sizes = s) (hp : k.procs pid = some p) (hsz : p'.sz = p.sz) :
    (k.setProc pid p').sizes = s := by
  rw [← h]
  funext q
  by_cases hq : q = pid
  · rw [hq, sizes, sizes, setProc_procs_self, hp, Option.map_some, Option.map_some, hsz]
  · rw [sizes, sizes, setProc_procs_of_ne k pid p' hq]

theorem Agree.sizes (h : k.Agree k') : k'.sizes = k.sizes := by
  funext pid
  have hp := h.procs pid
  rw [Kernel.sizes, Kernel.sizes]
  generalize k.procs pid = o, k'.procs pid = o' at hp
  cases hp with
  | none => rfl
  | some hp => exact congrArg some hp.sz

/-! ## Paging and page tables -/

theorem sizes_of_procs (h : k.sizes = s) (hk : k'.procs = k.procs) : k'.sizes = s :=
  h ▸ congrArg (fun ps => fun q => Option.map Proc.sz (ps q)) hk

/-- The paging code changes no size. -/
theorem stable_sizes (pid : ℕ) (s : ℕ → Option ℕ) : Stable pid fun k => k.sizes = s where
  same hprocs _ h := sizes_of_procs h hprocs
  agree ha h := ha.sizes.trans h
  setProc hp _ hsz h := sizes_setProc h hp hsz
  own _ h := h
  disk _ h := h

/-- The page-table code changes no size. -/
theorem slack_sizes (cur : ℕ) (s : ℕ → Option ℕ) : Slack cur fun k => k.sizes = s where
  procs hk h := sizes_of_procs h hk
  free hp h := sizes_setProc h hp rfl

/-- A kernel access that leaves the sizes alone. -/
def AccFixed (acc : Access) : Prop := ∀ {pid s}, acc.Calm pid fun k => k.sizes = s

theorem fixed_accessAs (pol : Policy) (n : ℕ) (user : Bool) : AccFixed (accessAs pol n user) := fun h =>
  (stable_sizes _ _).accessAs pol n user h

theorem fixed_access (pol : Policy) (n : ℕ) : AccFixed (access pol n) := fixed_accessAs pol n false

theorem fixed_allocuvm (hacc : AccFixed acc) (h : k.sizes = s) :
    Yields (allocuvm pol acc k pid d oldsz newsz) fun r => r.2.sizes = s :=
  ((stable_sizes pid s).timed pol).allocuvm (t := 0) (c := 0) (fun h => hacc h)
    (fun _ h hw => sizes_of_procs h (procs_of_alloc hw :)) (fun _ _ _ h => (slack_sizes pid s).deallocuvm h) h

theorem fixed_load {n : ℕ} (h : k.sizes = s) : Yields (load pol n k pid va) fun r => r.2.sizes = s := by
  refine (fixed_accessAs pol n true h).bind fun r hr => ?_
  split
  · exact yields_error
  · exact yields_ok ((agree_markAccessed ..).sizes.trans hr)

theorem fixed_store {n : ℕ} {b : UInt8} (h : k.sizes = s) : Yields (store pol n k pid va b) fun k => k.sizes = s := by
  refine (fixed_accessAs pol n true h).bind fun r hr => ?_
  split
  · exact yields_error
  · exact yields_ok ((agree_markAccessed ..).sizes.trans
      (((stable_sizes pid s).timed pol).setUserPage (t := 0) hr _ _))

/-! ## The new image of `exec` -/

theorem fixed_clearpteu (h : k.sizes = s) : Yields (k.clearpteu d va) fun k => k.sizes = s := by
  unfold clearpteu
  split
  · exact yields_error
  · exact yields_ok h

/-! ## Bounds -/

/-- **Every process is smaller than `KERNBASE`.** -/
def Small (k : Kernel) : Prop := ∀ pid p, k.procs pid = some p → p.sz < kernBase

theorem Small.of_sizes (h : k.Small) (hs : k'.sizes = k.sizes) : k'.Small := fun pid p hp => by
  have heq := congrFun hs pid
  rw [sizes, sizes, hp, Option.map_some] at heq
  obtain ⟨q, hq, hsz⟩ := Option.map_eq_some_iff.mp heq.symm
  exact hsz ▸ h pid q hq

theorem Small.setProc (h : k.Small) (hsz : p.sz < kernBase) : (k.setProc pid p).Small := fun q r hr => by
  rcases procs_of_setProc hr with ⟨-, rfl⟩ | ⟨-, hr⟩
  · exact hsz
  · exact h q r hr

theorem Small.growproc (hacc : AccFixed acc) {n : ℤ} {r : Bool} (h : k.Small)
    (hg : growproc pol acc k pid n = .ok (r, k')) : k'.Small := by
  obtain ⟨p, hp, hg⟩ := proc_bind_eq_ok.mp hg
  obtain ⟨⟨sz, k1⟩, hk1, hg⟩ := bind_eq_ok.mp hg
  have hsz := h pid p hp
  obtain ⟨h1, hlt⟩ : k1.Small ∧ sz < kernBase := by
    split at hk1
    · exact ⟨h.of_sizes (fixed_allocuvm hacc rfl _ hk1), allocuvm_lt hsz hk1⟩
    · split at hk1
      · exact ⟨h.of_sizes ((slack_sizes pid _).deallocuvm rfl _ hk1), deallocuvm_lt hsz hk1⟩
      · cases hk1
        exact ⟨h, hsz⟩
  simp only at hg
  split at hg
  · cases hg
    exact h1
  · obtain ⟨q, -, hg⟩ := bind_eq_ok.mp hg
    cases hg
    exact h1.setProc hlt

/-! ## Processes that come and go -/

theorem sizes_allocproc {q np : Proc} {cpid : ℕ} (h : k.sizes = s)
    (hk : k.allocproc q = (some (cpid, np), k')) : k'.sizes = s := by
  unfold allocproc at hk
  split at hk
  · cases hk
  · rename_i f k1 hk1
    cases hk
    exact (slack_sizes 0 s).kalloc (k := { k with nextpid := k.nextpid + 1 }) h hk1

theorem fixed_inituvm {init : List UInt8} (h : k.sizes = s) :
    Yields (k.inituvm d init) fun k => k.sizes = s := by
  refine .ite yields_error ?_
  split
  · exact yields_error
  · rename_i f k1 hk1
    have h1 : (k1.setMem f fun _ => 0).sizes = s := ((slack_sizes 0 s).kalloc h hk1 :)
    exact ((slack_sizes 0 s).mappages h1).bind fun _ hr => yields_ok hr

theorem Small.fork {q : Proc} {r : Option ℕ} (h : k.Small) (hf : fork k pid q = .ok (r, k')) : k'.Small := by
  obtain ⟨p, hp, -⟩ := proc_bind_eq_ok.mp hf
  rcases (slack_sizes pid k.sizes).fork rfl hp hf with ⟨-, hs⟩ | ⟨k1, np, -, hs, rfl, hsz, -⟩
  · exact h.of_sizes hs
  · exact (h.of_sizes hs).setProc (hsz ▸ h pid p hp)

theorem Small.reap (h : k.Small) (hr : reap k cur pid = .ok k') : k'.Small := by
  obtain ⟨p, hp, hr⟩ := bind_eq_ok.mp hr
  obtain ⟨k1, hk1, hr⟩ := bind_eq_ok.mp hr
  have h0 : Small { k with procs := Function.update k.procs pid none } := fun q r hq => by
    by_cases hqp : q = pid
    · rw [hqp] at hq
      exact absurd ((Function.update_self pid (none : Option Proc) k.procs).symm.trans hq) nofun
    · exact h q r ((Function.update_of_ne hqp ..).symm.trans hq)
  exact h0.of_sizes (((slack_sizes cur _).freevm rfl _ hr).trans ((slack_sizes cur _).kfree rfl _ hk1))

/-- One operation of the system that is no `exec`. -/
theorem Small.step (h : k.Small) (hs : Step k k') : k'.Small := by
  cases hs with
  | load hs => exact h.of_sizes (fixed_load rfl _ hs)
  | store hs => exact h.of_sizes (fixed_store rfl _ hs)
  | access hs => exact h.of_sizes (fixed_access _ _ rfl _ hs)
  | growproc hs => exact h.growproc (fixed_access _ _) hs
  | fork hs => exact h.fork hs
  | wait hs => exact h.reap hs

/-- The first process. -/
theorem small_boot {kend kdata : ℕ} {init : List UInt8} (hk : boot kend kdata init = .ok k) : k.Small := by
  obtain ⟨m, -, hk⟩ := bind_eq_ok.mp hk
  obtain ⟨⟨d, k1⟩, hk1, hk⟩ := bind_eq_ok.mp hk
  have h1 : k1.sizes = fun _ => none := (slack_sizes 0 _).setupkvm (k := { zero kend kdata with kmem := m }) rfl _ hk1
  simp only at hk
  split at hk
  · cases hk
  obtain ⟨m', -, hk⟩ := bind_eq_ok.mp hk
  unfold userinit at hk
  split at hk
  · cases hk
  · rename_i pid p k2 hk2
    have h2 : k2.sizes = fun _ => none := sizes_allocproc (k := { k1 with kmem := m' }) h1 hk2
    obtain ⟨⟨o, k3⟩, hk3, hk⟩ := bind_eq_ok.mp hk
    have h3 : k3.sizes = fun _ => none := (slack_sizes pid _).setupkvm h2 (o, k3) hk3
    cases o with
    | none => cases hk
    | some d =>
      obtain ⟨k4, hk4, hk⟩ := bind_eq_ok.mp hk
      cases hk
      have h4 : k4.sizes = fun _ => none := fixed_inituvm h3 _ hk4
      refine Small.setProc (fun q r hr => ?_) (show pgSize < kernBase by decide)
      have := congrFun h4 q
      rw [sizes, hr] at this
      cases this

end Kernel

namespace Task

open Kernel

variable {pol : Policy} {acc : Access} {pid d sz sp entry inum : ℕ} {argv : List ℕ} {k : Kernel} {t t' : Task}

/-- **The image of `exec` is smaller than `KERNBASE`**, its two last pages included. -/
theorem buildStack_small (hacc : AccFixed acc) {r : ℕ × ℕ × Kernel}
    (hr : buildStack pol acc pid d argv sz k = .ok r) : r.2.2.sizes = k.sizes ∧ r.1 < kernBase := by
  obtain ⟨⟨sz1, k1⟩, hk1, hr⟩ := bind_eq_ok.mp hr
  have h1 := fixed_allocuvm hacc (s := k.sizes) rfl _ hk1
  have hlt : sz1 < kernBase := by
    by_cases hbig : kernBase ≤ pgRoundUp sz + 2 * pgSize
    · rw [allocuvm, if_pos hbig] at hk1
      cases hk1
      decide
    · exact allocuvm_lt (by omega) hk1
  simp only at hr
  split at hr
  · cases hr
  obtain ⟨k2, hk2, hr⟩ := bind_eq_ok.mp hr
  obtain ⟨⟨sp, ptrs, k3⟩, hk3, hr⟩ := bind_eq_ok.mp hr
  obtain ⟨⟨b, k4⟩, hk4, hr⟩ := bind_eq_ok.mp hr
  have h3 := pushArgs_yields id (fun h => hacc h) _ _ _ (fixed_clearpteu h1 _ hk2) _ hk3
  have h4 := copyoutFrom_yields (P := fun k' => k'.sizes = k.sizes) id _ _ _ h3 _ hk4
  simp only at hr
  split at hr
  · cases hr
    exact ⟨h4, hlt⟩
  · cases hr

theorem small_commit (h : t.kernel.Small) (hsz : sz < kernBase) (ht : commit pid d sz sp entry t = .ok t') :
    t'.kernel.Small := by
  obtain ⟨p, hp, ht⟩ := bind_eq_ok.mp ht
  obtain ⟨k1, hk1, ht⟩ := bind_eq_ok.mp ht
  cases ht
  have h1 : (t.kernel.setProc pid { p with pgdir := d, sz := sz }).Small := h.setProc hsz
  exact h1.of_sizes ((slack_sizes pid _).freevm rfl _ hk1)

theorem small_execFile {b : ByteFile} (hacc : AccFixed acc) (h : t.kernel.Small)
    (ht : execFile pol acc inum b argv pid t = .ok t') : t'.kernel.Small := by
  unfold execFile at ht
  simp only at ht
  split at ht
  · cases ht
  split at ht
  · cases ht
  obtain ⟨⟨o, k1⟩, hk1, ht⟩ := bind_eq_ok.mp ht
  cases o with
  | none => cases ht
  | some d =>
    obtain ⟨⟨sz, k2⟩, hk2, ht⟩ := bind_eq_ok.mp ht
    obtain ⟨⟨sz', sp, k3⟩, hk3, ht⟩ := bind_eq_ok.mp ht
    have h1 : k1.sizes = t.kernel.sizes := (slack_sizes pid _).setupkvm rfl _ hk1
    have h2 := loadSegments_yields id (fun h r hr _ => fixed_allocuvm hacc h r hr) _ _ _ h1 _ hk2
    obtain ⟨h3, hlt⟩ := buildStack_small hacc hk3
    exact small_commit (h.of_sizes (h3.trans h2)) hlt ht

/-- **`exec` keeps the bound**, whether it fails or not. -/
theorem small_exec {namei : List UInt8 → Option (ℕ × ByteFile)} {path : List UInt8} {r : Bool}
    (hacc : AccFixed acc) (h : t.kernel.Small) (ht : exec pol acc namei path argv pid t = .ok (r, t')) :
    t'.kernel.Small := by
  unfold exec at ht
  simp only at ht
  split at ht
  · cases ht
    exact h
  · obtain ⟨t1, ht1, ht⟩ := bind_eq_ok.mp ht
    cases ht
    exact small_execFile (t := t.beginOp) hacc h ht1

end Task

/-! ## Runs -/

/-- **One operation of the system**, `exec` included. -/
inductive LifeStep (k k' : Kernel) : Prop where
  | step (h : Kernel.Step k k')
  | exec {pol : Policy} {n pid : ℕ} {namei : List UInt8 → Option (ℕ × ByteFile)} {path : List UInt8}
      {argv : List ℕ} {t t' : Task} {r : Bool} (hk : t.kernel = k) (hk' : t'.kernel = k')
      (h : t.exec pol (Kernel.access pol n) namei path argv pid = .ok (r, t'))

/-- The states the system reaches after booting. -/
def Reached (k : Kernel) : Prop :=
  ∃ kend kdata init k₀, Kernel.boot kend kdata init = .ok k₀ ∧ Relation.ReflTransGen LifeStep k₀ k

/-- **In every state reached, every process is smaller than `KERNBASE`.** -/
theorem Reached.small {k : Kernel} (h : Reached k) : k.Small := by
  obtain ⟨kend, kdata, init, k0, hb, hr⟩ := h
  induction hr with
  | refl => exact Kernel.small_boot hb
  | tail _ hs ih =>
    cases hs with
    | step hs => exact ih.step hs
    | exec hk hk' hs =>
      subst hk hk'
      exact Task.small_exec (Kernel.fixed_access _ _) ih hs

end Xv6
