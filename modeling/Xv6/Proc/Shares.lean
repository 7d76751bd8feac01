import Xv6.Proc.System
import Xv6.Vm.Conserve

/-!
# Proc/Shares — no address space maps a frame twice

A writable entry is the only reference to its frame, so two entries of one directory can only meet in a frame
that both map read-only.  Read-only entries come from `copyonwriteuvm` alone, which shares each page of the
parent at its own address (`Simple.copyonwriteuvm`); all other functions only lose them (`Inherits`).

With it, freeing an address space lowers every count by one.
-/

namespace Xv6

open Outcome

theorem Pte.frame_of_copied {e : Pte} {f : ℕ} (h : e.copied.frame = some f) : e.frame = some f := by
  unfold Pte.copied at h
  split at h
  · cases h
  · exact h

namespace Kernel

variable {k k' k'' k1 : Kernel} {held : Multiset ℕ} {pid cur d va f oldsz newsz : ℕ} {p : Proc} {e : Pte}
  {pol : Policy} {acc : Access} {i j : Fin maxPsycPages}

/-- The directory maps the page at `va` to frame `f`, read-only. -/
def ReadOnly (k : Kernel) (d va f : ℕ) : Prop :=
  ∃ e, k.walkpgdir d va = some e ∧ e.p = true ∧ e.w = false ∧ e.addr = f

/-- **Read-only user pages are inherited**: those of `k'` are already in `k`. -/
def Inherits (k k' : Kernel) : Prop :=
  ∀ d va f, vpn va < userPages → k'.ReadOnly d va f → k.ReadOnly d va f

theorem Inherits.refl (k : Kernel) : k.Inherits k := fun _ _ _ _ => id

theorem Inherits.trans (h : k.Inherits k') (h' : k'.Inherits k'') : k.Inherits k'' :=
  fun d va f hv hr => h d va f hv (h' d va f hv hr)

theorem Inherits.of_walk (h : ∀ d va e, vpn va < userPages → e.p = true → k'.walkpgdir d va = some e →
    k.walkpgdir d va = some e) : k.Inherits k' :=
  fun d va _ hv ⟨e, he, hp, hw, ha⟩ => ⟨e, h d va e hv hp he, hp, hw, ha⟩

theorem Inherits.of_dirs (h : k'.dirs = k.dirs) : k.Inherits k' :=
  .of_walk fun d va e _ _ he => by rwa [walkpgdir, h] at he

theorem Agree.inherits (h : k.Agree k') : k.Inherits k' := by
  rintro d va f - ⟨e, he, hp, hw, rfl⟩
  have hm := h.walk d va
  rw [he, Option.map_some, eq_comm, Option.map_eq_some_iff] at hm
  obtain ⟨e0, he0, hm⟩ := hm
  have hfields := Pte.mk.inj hm
  exact ⟨e0, he0, hfields.2.1.trans hp, hfields.2.2.1.trans hw, hfields.1⟩

/-- An entry that is absent or writable. -/
theorem Inherits.setPte (k : Kernel) (d va : ℕ) (h : e.p = true → e.w = true) : k.Inherits (k.setPte d va e) := by
  rintro d' va' f - ⟨e', he', hp, hw, rfl⟩
  rcases walk_of_setPte he' with ⟨-, rfl⟩ | ⟨-, he'⟩
  · rw [h hp] at hw
    cases hw
  · exact ⟨e', he', hp, hw, rfl⟩

theorem inherits_kfree (hk : k.kfree f = .ok k') : k.Inherits k' :=
  .of_walk fun d va _ _ _ he => by rwa [walkpgdir_of_kfree hk] at he

theorem inherits_alloc (hw : k.walkpgdirAlloc d va = some (e, k')) : k.Inherits k' := by
  refine .of_walk fun d' va' e' _ hp he' => ?_
  rcases walkpgdir_alloc hw d' va' with heq | ⟨-, -, hz⟩
  · rwa [heq] at he'
  · rw [hz] at he'
    cases he'
    cases hp

/-- **A simple kernel stays simple** where read-only pages are inherited: the others share no frame. -/
theorem Simple.inherits (hs : k.Simple) (h' : k'.Frames held) (hi : k.Inherits k') : k'.Simple := by
  have hread : ∀ {d v w f}, v ≠ w → k'.owner (.pte d v) = some f → k'.owner (.pte d w) = some f →
      k.owner (.pte d v) = some f := by
    intro d v w f hne hv hw
    have hlt := lt_of_owner_pte hv
    have hown := hv
    rw [owner, if_pos hlt] at hown
    obtain ⟨e, he, hfr⟩ := Option.bind_eq_some_iff.mp hown
    obtain ⟨hp, ha⟩ := Pte.frame_eq_some.mp hfr
    have hro : e.w = false := by
      by_contra hrw
      exact Ledger.total_ne_one_of_refs hv hw (fun h => hne (Site.pte.inj h).2)
        (h'.sole (.pte d v) f hv ⟨e, he, by simpa using hrw⟩)
    obtain ⟨e0, he0, hp0, -, ha0⟩ := hi d (v * pgSize) f (by rwa [vpn_mul hlt]) ⟨e, he, hp, hro, ha⟩
    rw [owner, if_pos hlt, he0]
    exact Pte.frame_eq_some.mpr ⟨hp0, ha0⟩
  intro d v v' f hv hv'
  by_contra hne
  exact hne (hs d v v' f (hread hne hv hv') (hread (Ne.symm hne) hv' hv))

/-! ## Releasing -/

theorem inherits_deallocFrom {n a : ℕ} (hold : oldsz ≤ kernBase) (ha : a % pgSize = 0)
    (hk : deallocFrom cur d oldsz n a k = .ok k') : k.Inherits k' := by
  refine deallocFrom_induction (P := fun k' => k.Inherits k') (fun k0 k1 a e _ _ _ hk1 hi => ?_) n a k k'
    hold ha (.refl k) hk
  refine (hi.trans (inherits_kfree hk1)).trans (Inherits.trans ?_ (.setPte _ d a nofun))
  exact .of_dirs (releaseSlot_kmem k1 cur d a).2.2

theorem inherits_deallocuvm {r : ℕ} (hold : oldsz ≤ kernBase)
    (hk : k.deallocuvm cur d oldsz newsz = .ok (r, k')) : k.Inherits k' := by
  unfold deallocuvm at hk
  split at hk
  · cases hk
    exact .refl k
  · obtain ⟨k1, hk1, hk⟩ := bind_eq_ok.mp hk
    cases hk
    exact inherits_deallocFrom hold (pgRoundUp_mod newsz) hk1

theorem Frames.inherits_freevm (h : k.Frames held) (hk : k.freevm cur d = .ok k') : k.Inherits k' := by
  have hlive : (k.dirs d).isSome := by
    by_contra hn
    rw [freevm, if_pos (by simpa using hn)] at hk
    cases hk
  obtain ⟨k1, hk1, -, hd, -, hb⟩ := h.freevm_returns hlive cur
  cases Except.ok.inj (hk.symm.trans hk1)
  refine .of_walk fun d' va e _ _ he => ?_
  by_cases hdd : d' = d
  · rw [hdd, walkpgdir, hd] at he
    cases he
  · rwa [walkpgdir, hb.dirs d' hdd] at he

end Kernel

/-! ## Page faults -/

/-- An access that brings no read-only page. -/
def Access.Inherits (acc : Access) : Prop :=
  ∀ ⦃w : Bool⦄ ⦃k k' : Kernel⦄ ⦃pid va : ℕ⦄, acc w k pid va = .ok k' → k.Inherits k'

namespace Kernel

variable {k k' k'' k1 : Kernel} {held : Multiset ℕ} {pid cur d va f oldsz newsz : ℕ} {p : Proc} {e : Pte}
  {pol : Policy} {acc : Access} {i j : Fin maxPsycPages}

/-- **The paging code brings no read-only page**: it clears `PTE_P` or sets `PTE_W` in what it writes. -/
theorem timed_inherits (pol : Policy) (pid : ℕ) (k : Kernel) : Timed pol pid fun _ => k.Inherits where
  mono _ h := h
  same _ hwalk h := h.trans (.of_walk fun d va _ _ _ he => hwalk d va ▸ he)
  hook h _ hr := h.trans (pol.hook_agree hr).inherits
  next h _ hr := h.trans (pol.next_agree hr).inherits
  retain _ _ h := h.trans (.of_dirs rfl)
  rotate _ _ h := h.trans (.of_dirs rfl)
  tick _ _ h := h.trans (.of_dirs rfl)
  own _ hw h := h.trans (.setPte _ _ _ hw)
  disk _ h := h.trans (.setPte _ _ _ nofun)

/-- **No access brings a read-only page.** -/
theorem inherits_accessAs (pol : Policy) (n : ℕ) (user : Bool) : Access.Inherits (accessAs pol n user) :=
  fun _ k _ pid _ h => (timed_inherits pol pid k).accessAs n user (t := 0) (.refl k) _ h

/-! ## Growing -/

/-- **`allocuvm`**: new pages are writable. -/
theorem inherits_allocuvm {r : ℕ} (hacc : acc.Inherits)
    (h : allocuvm pol acc k pid d oldsz newsz = .ok (r, k')) : k.Inherits k' := by
  refine (timed_inherits pol pid k).allocuvm (t := 0) (c := 0) (fun hi _ hk => hi.trans (hacc hk)) ?_ ?_
    (.refl k) _ h
  · exact fun _ hi hw => (hi.trans (inherits_alloc hw)).trans (.setPte _ _ _ fun _ => rfl)
  · exact fun hsz _ _ hi _ hk => hi.trans (inherits_deallocuvm hsz hk)

theorem inherits_growproc {n : ℤ} {r : Bool} (hacc : acc.Inherits)
    (h : growproc pol acc k pid n = .ok (r, k')) (hi : k.Inv held) : k.Inherits k' := by
  obtain ⟨p, hp, h⟩ := proc_bind_eq_ok.mp h
  obtain ⟨⟨sz, k1⟩, hk1, h⟩ := bind_eq_ok.mp h
  have h1 : k.Inherits k1 := by
    split at hk1
    · exact inherits_allocuvm hacc hk1
    · split at hk1
      · exact inherits_deallocuvm (hi.own pid p hp).size.le hk1
      · cases hk1
        exact .refl k
  simp only at h
  split at h
  · cases h
    exact h1
  · obtain ⟨q, -, h⟩ := bind_eq_ok.mp h
    cases h
    exact h1.trans (.of_dirs rfl)

/-! ## Sharing -/

/-- **`setupkvm` maps no user page.** -/
theorem Inv.inherits_setupkvm {r : Option ℕ} (h : k.Inv held) (hk : k.setupkvm cur = .ok (r, k')) :
    k.Inherits k' := by
  have hbuild : ∀ {d k2}, Building k k2 held d → k.Inherits k2 := fun {d k2} hb =>
    .of_walk fun d' va e hv _ he => by
      by_cases hdd : d' = d
      · rw [hdd, hb.user va hv] at he
        cases he
      · rwa [walkpgdir, hb.others d' hdd] at he
  rcases h.setupkvm_builds hk with ⟨-, rfl⟩ | ⟨d, k1, hb, ⟨-, rfl⟩ | ⟨-, hfree⟩⟩
  · exact .refl k'
  · exact hbuild hb
  · exact (hbuild hb).trans (hb.inv.frames.inherits_freevm hfree)

/-- What a directory maps it or another has mapped at the same place. -/
theorem Simple.of_owner (hs : k.Simple) (src : ℕ → ℕ)
    (h : ∀ d v f, k'.owner (.pte d v) = some f → k.owner (.pte (src d) v) = some f) : k'.Simple :=
  fun d v v' f hv hv' => hs (src d) v v' f (h d v f hv) (h d v' f hv')

/-- **`copyonwriteuvm` shares each page at its own address.** -/
theorem Forking.simple {a pgdir : ℕ} (h : Forking k k' held pgdir d a) (hs : k.Simple) : k'.Simple := by
  refine hs.of_owner (fun d' => if d' = d then pgdir else d') fun d' v f hv => ?_
  have hlt := lt_of_owner_pte hv
  have hva : v * pgSize < kernBase := by
    simp only [userPages, kernBase, pgSize] at *
    omega
  rw [owner, if_pos hlt] at hv ⊢
  obtain ⟨e, he, hfr⟩ := Option.bind_eq_some_iff.mp hv
  by_cases hd : d' = d
  · subst hd
    rw [if_pos rfl]
    by_cases hlo : v * pgSize < a
    · obtain ⟨e0, h0, -, -, h3⟩ := h.done _ hlo
      rw [h0]
      cases Option.mem_unique h3 he
      exact Pte.frame_of_copied hfr
    · rw [h.child _ (by omega) hva e he] at hfr
      cases hfr
  · rw [if_neg hd]
    by_cases hp : d' = pgdir
    · subst hp
      by_cases hlo : v * pgSize < a
      · obtain ⟨e0, h0, -, h2, -⟩ := h.done _ hlo
        rw [h0]
        cases Option.mem_unique h2 he
        exact (Pte.frame_shared e0).symm.trans hfr
      · rw [← h.parent _ (by omega) hva, he]
        exact hfr
    · rw [← h.others d' _ hp hd, he]
      exact hfr

theorem Simple.copyonwriteuvm {r : Option ℕ} (hs : k.Simple) (h : k.Inv held)
    (hsole : ∀ f ∈ held, k.kmem.referencesCount f = 1) (hp : k.procs pid = some p)
    (hk : Kernel.copyonwriteuvm k cur p.pgdir p.sz = .ok (r, k')) : k'.Simple := by
  obtain ⟨h', hfork⟩ := h.copyonwriteuvm hsole hp hk
  cases r with
  | some d => exact (hfork d rfl).simple hs
  | none => exact hs.inherits h'.frames (h.inherits_setupkvm (copyonwriteuvm_eq_none hk))

theorem Simple.of_dirs (hs : k.Simple) (hd : k'.dirs = k.dirs) : k'.Simple :=
  hs.of_owner id fun d v f hv => by rwa [owner, walkpgdir, hd, ← walkpgdir] at hv

theorem Simple.fork {q : Entry} {r : Option ℕ} (hs : k.Simple) (h : k.Inv 0)
    (hk : Kernel.fork k pid q.proc = .ok (r, k')) : k'.Simple := by
  obtain ⟨p, hp, -⟩ := proc_bind_eq_ok.mp hk
  have hcow : ∀ {f k1 r k2}, { k with nextpid := k.nextpid + 1 }.kalloc = some (f, k1) →
      k1.copyonwriteuvm pid p.pgdir p.sz = .ok (r, k2) → k2.Simple := fun hk1 hk2 => by
    have hspec := kalloc_spec hk1
    exact (hs.of_dirs hspec.2.2.1).copyonwriteuvm (h.bumpPid.kalloc hk1)
      (fun g hg => by rw [Multiset.mem_singleton.mp hg, hspec.1]) (hspec.2.2.2 ▸ hp) hk2
  cases r with
  | some cpid =>
    obtain ⟨f, k1, k2, d, b, np, hk1, hk2, -, rfl, -, -⟩ := fork_eq_ok hp hk
    exact (hcow hk1 hk2).of_dirs rfl
  | none =>
    rcases fork_eq_none hp hk with rfl | ⟨f, k1, k2, hk1, hk2, hk3⟩
    · exact hs.of_dirs rfl
    · obtain ⟨m, -, rfl⟩ := kfree_eq_ok.mp hk3
      exact (hcow hk1 hk2).of_dirs rfl

/-! ## Runs -/

/-- **The loop of `allocuvm` on a directory that no process has**, run by a process whose pages are not tracked. -/
theorem Inv.fillPages (hpid : ¬ 2 < pid) (hsz : newsz ≤ kernBase) : ∀ (as : List ℕ) {k k' : Kernel} {r : ℕ},
    (∀ a ∈ as, UserPage a) → k.Inv held → (∀ q s, k.procs q = some s → s.pgdir ≠ d) →
    Kernel.allocPages pol acc pid d oldsz newsz as k = .ok (r, k') → k'.Inv held
  | [], k, k', r, _, h, _, hk => by
    cases hk
    exact h
  | a :: as, k, k', r, has, h, hd, hk => by
    have ha := has a List.mem_cons_self
    rcases allocPages_cons ha hk with
      ⟨-, -, r', hk1⟩ | ⟨f, k1, hk1, ⟨-, -, r', k2, hk2, hk3⟩ | ⟨e, k2, k3, hw, hep, hk3, hk⟩⟩
    · exact (h.deallocuvm (fun q s hs hsd => absurd hsd (hd q s hs)) hsz hk1).1
    all_goals
      have hspec := kalloc_spec hk1
      have h1 := (h.kalloc hk1).setMem f fun _ => 0
      have hd1 : ∀ q s, k1.procs q = some s → s.pgdir ≠ d := hspec.2.2.2 ▸ hd
    · exact (h1.deallocuvm (fun q s hs hsd => absurd hsd (hd1 q s hs)) hsz hk2).1.kfree hk3
    · have h2 := h1.mapPage { w := true, u := true } ha hw hep (.inl rfl) fun _ => hspec.1
      rw [Kernel.trackPage, if_neg hpid] at hk3
      cases hk3
      refine Inv.fillPages hpid hsz as (fun x hx => has x (List.mem_cons_of_mem a hx)) h2 ?_ hk
      rw [setPte_procs, procs_of_alloc hw]
      exact hd1

theorem Inv.fill {r : ℕ} (h : k.Inv held) (hpid : ¬ 2 < pid) (hd : ∀ q s, k.procs q = some s → s.pgdir ≠ d)
    (hk : Kernel.allocuvm pol acc k pid d oldsz newsz = .ok (r, k')) : k'.Inv held := by
  rcases allocuvm_eq_ok hk with ⟨rfl, -⟩ | ⟨hsz, -, has, hk⟩
  · exact h
  · exact Inv.fillPages hpid hsz.le _ has h hd hk

/-- **One call of the virtual-memory code**: a step of the system, or one of the functions by itself.
`allocuvm` and `deallocuvm` work on the directory of the running process or on one that no process has; the
first only for a process whose pages are not tracked, as the slots of another would name pages that are not
its own. -/
inductive MemoryCall (k k' : Kernel) : Prop where
  | step (h : Step k k')
  | setupkvm {cur : ℕ} {r : Option ℕ} (h : k.setupkvm cur = .ok (r, k'))
  | allocuvm {pol : Policy} {m pid oldsz newsz r : ℕ} {p : Proc} (hp : k.procs pid = some p)
      (h : allocuvm pol (access pol m) k pid p.pgdir oldsz newsz = .ok (r, k'))
  | fill {pol : Policy} {m pid d oldsz newsz r : ℕ} (hpid : ¬ 2 < pid)
      (hd : ∀ q s, k.procs q = some s → s.pgdir ≠ d)
      (h : allocuvm pol (access pol m) k pid d oldsz newsz = .ok (r, k'))
  | deallocuvm {cur d oldsz newsz r : ℕ} (hd : k.Unowned cur d) (hold : oldsz ≤ kernBase)
      (h : k.deallocuvm cur d oldsz newsz = .ok (r, k'))
  | copyonwriteuvm {cur pid : ℕ} {r : Option ℕ} {p : Proc} (hp : k.procs pid = some p)
      (h : k.copyonwriteuvm cur p.pgdir p.sz = .ok (r, k'))
  | freevm {cur d : ℕ} (hd : ∀ pid p, k.procs pid = some p → p.pgdir ≠ d) (h : k.freevm cur d = .ok k')

theorem Simple.step (hs : k.Simple) (h : k.Inv 0) (hk : Step k k') : k'.Simple := by
  have h' := (h.step hk).frames
  cases hk with
  | load hk =>
    obtain ⟨k1, hk1, hk⟩ := bind_eq_ok.mp hk
    split at hk
    · cases hk
    · cases hk
      exact hs.inherits h' ((inherits_accessAs _ _ _ hk1).trans (agree_markAccessed ..).inherits)
  | store hk =>
    obtain ⟨k1, hk1, hk⟩ := bind_eq_ok.mp hk
    split at hk
    · cases hk
    · cases hk
      exact hs.inherits h' (Inherits.trans ((timed_inherits .rrobin 0 k).setUserPage (t := 0)
        (inherits_accessAs _ _ _ hk1) _ _) (agree_markAccessed ..).inherits)
  | access hk => exact hs.inherits h' (inherits_accessAs _ _ _ hk)
  | growproc hk => exact hs.inherits h' (inherits_growproc (inherits_accessAs _ _ _) hk h)
  | fork hk => exact hs.fork h hk
  | wait hk =>
    obtain ⟨p, hp, hk⟩ := proc_bind_eq_ok.mp hk
    obtain ⟨k1, hk1, hk⟩ := bind_eq_ok.mp hk
    have h1 := ((h.dropProc hp).1.kfree hk1).frames
    have hfree := (inherits_kfree hk1).trans (h1.inherits_freevm hk)
    exact hs.inherits h' fun d va f hv hr => hfree d va f hv hr

/-- **Every call keeps the invariant and the kernel simple.** -/
theorem MemoryCall.simple (hk : MemoryCall k k') (h : k.Inv 0) (hs : k.Simple) : k'.Inv 0 ∧ k'.Simple := by
  cases hk with
  | step hk => exact ⟨h.step hk, hs.step h hk⟩
  | setupkvm hk =>
    have h' := (h.setupkvm hk).1
    exact ⟨h', hs.inherits h'.frames (h.inherits_setupkvm hk)⟩
  | allocuvm hp hk =>
    have h' := (h.allocuvm (keeps_access _ _) hp hk).1
    exact ⟨h', hs.inherits h'.frames (inherits_allocuvm (inherits_accessAs _ _ _) hk)⟩
  | fill hpid hd hk =>
    have h' := h.fill hpid hd hk
    exact ⟨h', hs.inherits h'.frames (inherits_allocuvm (inherits_accessAs _ _ _) hk)⟩
  | deallocuvm hd hold hk =>
    have h' := (h.deallocuvm hd hold hk).1
    exact ⟨h', hs.inherits h'.frames (inherits_deallocuvm hold hk)⟩
  | copyonwriteuvm hp hk =>
    exact ⟨(h.copyonwriteuvm (by simp) hp hk).1, hs.copyonwriteuvm h (by simp) hp hk⟩
  | freevm hd hk =>
    have h' := (h.freevm hd hk).1
    exact ⟨h', hs.inherits h'.frames (h.frames.inherits_freevm hk)⟩

/-- The first process has one page. -/
theorem FirstProc.simple (h : k.FirstProc pid) : k.Simple := by
  obtain ⟨p, g, -, -, -, -, -, -, hback⟩ := h
  have hzero : ∀ {d v f}, k.owner (.pte d v) = some f → v = 0 := by
    intro d v f hv
    have hlt := lt_of_owner_pte hv
    rw [owner, if_pos hlt] at hv
    obtain ⟨e, he, hfr⟩ := Option.bind_eq_some_iff.mp hv
    rcases hback d _ e (by rwa [vpn_mul hlt]) he with rfl | ⟨-, hv0⟩
    · cases hfr
    · rwa [vpn_mul hlt] at hv0
  exact fun d v v' f hv hv' => (hzero hv).trans (hzero hv').symm

/-- The states that calls of the virtual-memory code lead to from booting. -/
def Served (kend kdata : ℕ) (init : List UInt8) (k : Kernel) : Prop :=
  ∃ k₀, boot kend kdata init = .ok k₀ ∧ Relation.ReflTransGen MemoryCall k₀ k

theorem Served.simple {kend kdata : ℕ} {init : List UInt8} (hl : Linked kend kdata)
    (h : Served kend kdata init k) : k.Inv 0 ∧ k.Simple := by
  obtain ⟨k0, hb, hr⟩ := h
  obtain ⟨hi, hfirst, -⟩ := boot_spec hl hb
  induction hr with
  | refl => exact ⟨hi, hfirst.simple⟩
  | tail _ hk ih => exact hk.simple ih.1 ih.2

end Kernel

end Xv6
