import Xv6.Lib.Simulation
import Xv6.Proc.System
import Xv6.Vm.Teardown

/-!
# Proc/Flat — copy-on-write implements private address spaces

The abstract machine gives every process a **flat address space** of its own: loads and stores touch
that one, `fork` copies it, and nothing else is shared.  The kernel shares frames instead and copies
them late.  As long as all pages are resident, each of its operations is one event of the abstract
machine (`Quiet.performs`), so that a store is never seen by another process and never lost.

`Kernel.flats` reads the abstract state off the page tables, and `Quiet` is the invariant.
-/

namespace Xv6

open Outcome Simulation Function Option

/-! ## The abstract machine -/

/-- The address space of each process. -/
abbrev Flats := ℕ → Option Flat

/-- What happens to the address spaces. -/
inductive Event where
  | load (pid va : ℕ) (b : UInt8)
  | store (pid va : ℕ) (b : UInt8)
  | map (pid lo hi : ℕ)
  | unmap (pid lo hi : ℕ)
  | fork (pid child : ℕ)
  | exit (pid : ℕ)
  | idle

/-- **The abstract machine.**  A load returns the byte of the process's own address space; every
other event changes one address space. -/
inductive Event.Step : Event → Flats → Flats → Prop where
  | load {s : Flats} {pid va : ℕ} {m : Flat} {pg : Page} (hm : s pid = some m)
      (hpg : m (vpn va) = some pg) : Step (.load pid va (pg (pgOff va))) s s
  | store {s : Flats} {pid va : ℕ} {m : Flat} (b : UInt8) (hm : s pid = some m)
      (hpg : (m (vpn va)).isSome) :
      Step (.store pid va b) s (Function.update s pid (some (m.store va b)))
  | map {s : Flats} {pid : ℕ} {m : Flat} (lo hi : ℕ) (hm : s pid = some m) :
      Step (.map pid lo hi) s (Function.update s pid (some (m.map lo hi)))
  | unmap {s : Flats} {pid : ℕ} {m : Flat} (lo hi : ℕ) (hm : s pid = some m) :
      Step (.unmap pid lo hi) s (Function.update s pid (some (m.unmap lo hi)))
  | fork {s : Flats} {pid child : ℕ} {m : Flat} (hm : s pid = some m) (hnew : s child = none) :
      Step (.fork pid child) s (Function.update s child (some m))
  | exit {s : Flats} {pid : ℕ} {m : Flat} (hm : s pid = some m) :
      Step (.exit pid) s (Function.update s pid none)
  | idle (s : Flats) : Step .idle s s

namespace Kernel

variable {k k' : Kernel} {held : Multiset ℕ} {pid cur va : ℕ} {p p' : Proc} {pol : Policy}

/-! ## The kernel as a labelled system -/

/-- What `growproc` by `n` with result `r` does to the address space of `p`.  Shrinking to size 0
takes the pages although it reports failure. -/
def growEvent (pid : ℕ) (p : Proc) (n : ℤ) (r : Bool) : Event :=
  if 0 < n then if r then .map pid (pgRoundUp p.sz) (wrapAdd p.sz n) else .idle
  else if n < 0 ∧ wrapAdd p.sz n < p.sz then .unmap pid (pgRoundUp (wrapAdd p.sz n)) p.sz
  else .idle

/-- The address spaces the page tables show. -/
def flats (k : Kernel) : Flats := fun pid => (k.procs pid).map fun p => k.pageAt p.pgdir

/-- All user pages are resident: none is paged out, and the pages of a process are the ones below its
size. -/
structure AllResident (k : Kernel) : Prop where
  resident : k.Resident
  present : ∀ pid p, k.procs pid = some p → ∀ va, va < kernBase →
    (k.Present p.pgdir va ↔ va < pgRoundUp p.sz)

/-- **The invariant of the simulation.** -/
structure Quiet (k : Kernel) : Prop where
  inv : k.Inv 0
  resident : k.Resident
  spans : ∀ pid p, k.procs pid = some p → k.Spans p.pgdir (pgRoundUp p.sz)

theorem AllResident.quiet (h : k.AllResident) (hi : k.Inv 0) : k.Quiet where
  inv := hi
  resident := h.resident
  spans pid p hp := by
    refine ⟨fun va hva hpres => (h.present pid p hp va hva).mp hpres, fun va hva => ?_⟩
    have hlt : va < kernBase := by
      have := (hi.own pid p hp).size
      rw [pgRoundUp_of_lt this] at hva
      simp only [pgSize, kernBase] at *
      omega
    obtain ⟨e, he, -⟩ := (h.present pid p hp va hlt).mpr hva
    rw [he]
    rfl

theorem flats_of_procs (hp : k.procs pid = some p) : k.flats pid = some (k.pageAt p.pgdir) := by
  rw [flats, hp, map_some]

/-- Processes that keep their directories, and directories that keep their pages. -/
theorem flats_congr (hk : ∀ pid, Option.Rel (fun p p' : Proc => p'.pgdir = p.pgdir ∧ p'.sz = p.sz)
      (k.procs pid) (k'.procs pid)) (hpages : ∀ d v, k'.pageAt d v = k.pageAt d v) :
    k'.flats = k.flats := by
  funext q
  have hq := hk q
  rw [flats, flats]
  generalize k.procs q = o, k'.procs q = o' at hq
  cases hq with
  | none => rfl
  | some h =>
    refine congrArg some ?_
    funext v
    simp only [h.1, hpages]

theorem Alike.flats (h : k.Alike k') : k'.flats = k.flats := flats_congr h.procs h.pages

/-- **A change to the pages of one process** is a change of its address space. -/
theorem Inv.flats_update {m : Flat} (h : k.Inv held) (hp : k.procs pid = some p) (hk : k.Kept k')
    (hpages : ∀ d v, k'.pageAt d v = if d = p.pgdir then m v else k.pageAt d v) :
    k'.flats = Function.update k.flats pid (some m) := by
  funext q
  have hq := hk.procs q
  by_cases hqp : q = pid
  · subst hqp
    obtain ⟨p', hp', hd, -⟩ := hk.exists_proc hp
    rw [update_self, flats_of_procs hp']
    refine congrArg some ?_
    funext v
    rw [hpages, if_pos hd]
  · rw [update_of_ne hqp]
    cases hr : k.procs q with
    | none =>
      rw [hr] at hq
      rw [Kernel.flats, Kernel.flats, hr]
      generalize k'.procs q = o at hq
      cases hq
      rfl
    | some r =>
      obtain ⟨r', hr', hd, -⟩ := hk.exists_proc hr
      rw [flats_of_procs hr, flats_of_procs hr']
      refine congrArg some ?_
      funext v
      rw [hpages, hd, if_neg fun hc => hqp (h.apart q pid r p hr hp hc)]

theorem flats_setSz (hp : k.procs pid = some p) (sz : ℕ) :
    (k.setProc pid { p with sz := sz }).flats = k.flats := by
  funext q
  by_cases hq : q = pid
  · subst hq
    rw [flats_of_procs (setProc_procs_self ..), flats_of_procs hp]
    rfl
  · rw [flats, flats, setProc_procs_of_ne k pid _ hq]
    rfl

/-! ## Loads and stores -/

theorem Quiet.alike (h : k.Quiet) (ha : k.Alike k') (hi : k'.Inv 0) : k'.Quiet where
  inv := hi
  resident := ha.resident h.resident
  spans pid p' hp' := by
    obtain ⟨p, hp, hd, hsz⟩ := ha.exists_proc' hp'
    rw [hd, hsz]
    exact (h.spans pid p hp).alike ha

/-- What the MMU let through in user mode is a user page. -/
theorem Frames.exists_user {w : Bool} (h : k.Frames held) (hperm : k.permits true w pid va = true) :
    ∃ p e, k.procs pid = some p ∧ k.walkpgdir p.pgdir va = some e ∧ vpn va < userPages ∧
      e.p = true ∧ (w = true → e.w = true) := by
  unfold permits at hperm
  split at hperm
  · cases hperm
  · rename_i e he
    obtain ⟨p, hp, hw⟩ := bind_eq_some_iff.mp he
    simp only [Bool.not_true, Bool.false_or, Bool.and_eq_true, Bool.or_eq_true,
      Bool.not_eq_eq_eq_not] at hperm
    obtain ⟨⟨hep, hew⟩, heu⟩ := hperm
    refine ⟨p, e, hp, hw, ?_, hep, fun hw' => hew.resolve_left (by simp [hw'])⟩
    by_contra hv
    rw [((h.fit _ _ e hw).kernel (by omega)).2.2] at heu
    cases heu

theorem Quiet.load {n : ℕ} {b : UInt8} (h : k.Quiet) (hl : load pol n k pid va = .ok (b, k')) :
    k'.Quiet ∧ (Event.load pid va b).Step k.flats k'.flats := by
  have hi := h.inv.load hl
  obtain ⟨k1, hk1, hl⟩ := bind_eq_ok.mp hl
  obtain ⟨ha, hperm⟩ := alike_accessAs n true h.inv h.resident hk1
  obtain ⟨h1, -⟩ := Inv.accessAs n true h.inv hk1
  obtain ⟨p, e, hp, hw, hv, hep, -⟩ := h1.frames.exists_user hperm
  have hpage : k1.userPage pid va = some (k1.mem e.addr) := by simp [userPage, hp, hw]
  rw [hpage] at hl
  cases hl
  have ha' := ha.trans (agree_markAccessed k1 pid va).alike
  refine ⟨h.alike ha' hi, ?_⟩
  rw [ha'.flats, ← ha.flats]
  refine .load (flats_of_procs hp) ?_
  rw [pageAt_of_walk hv hw, Pte.frame_eq_some.mpr ⟨hep, rfl⟩, map_some]

theorem Quiet.store {n : ℕ} {b : UInt8} (h : k.Quiet) (hs : store pol n k pid va b = .ok k') :
    k'.Quiet ∧ (Event.store pid va b).Step k.flats k'.flats := by
  have hi := h.inv.store hs
  obtain ⟨k1, hk1, hs⟩ := bind_eq_ok.mp hs
  obtain ⟨ha, hperm⟩ := alike_accessAs n true h.inv h.resident hk1
  obtain ⟨h1, -⟩ := Inv.accessAs n true h.inv hk1
  obtain ⟨p, e, hp, hw, hv, hep, hew⟩ := h1.frames.exists_user hperm
  have hpage : k1.userPage pid va = some (k1.mem e.addr) := by simp [userPage, hp, hw]
  have hset : ∀ pg, k1.setUserPage pid va pg = k1.setMem e.addr pg := fun pg => by
    simp [setUserPage, hp, hw]
  rw [hpage] at hs
  simp only [hset] at hs
  cases hs
  have hshow : k1.pageAt p.pgdir (vpn va) = some (k1.mem e.addr) := by
    rw [pageAt_of_walk hv hw, Pte.frame_eq_some.mpr ⟨hep, rfl⟩, map_some]
  -- the frame has no other reference, so no other page shows the store
  have hpages := h1.frames.pageAt_setMem hv hw hep (hew rfl)
    (Function.update (k1.mem e.addr) (pgOff va) b)
  have hkept : k1.Kept (k1.setMem e.addr (Function.update (k1.mem e.addr) (pgOff va) b)) :=
    ⟨fun _ => rel_refl _, fun _ _ => id, id⟩
  have hmark := (agree_markAccessed (k1.setMem e.addr
    (Function.update (k1.mem e.addr) (pgOff va) b)) pid va).alike
  have h₁q := h.alike ha h1
  refine ⟨⟨hi, hmark.resident (hkept.resident h₁q.resident), fun q r' hr' => ?_⟩, ?_⟩
  · obtain ⟨r, hr, hd, hsz⟩ := hmark.exists_proc' hr'
    rw [hd, hsz]
    refine ((h₁q.spans q r hr).mono hkept fun v hv' => ?_).alike hmark
    rw [hpages] at hv'
    split at hv'
    · rename_i hc
      rw [hc.1, hc.2, hshow]
      rfl
    · exact hv'
  · rw [hmark.flats, h1.flats_update (m := Flat.store (k1.pageAt p.pgdir) va b) hp hkept, ← ha.flats]
    · refine .store b (flats_of_procs hp) ?_
      rw [hshow]
      rfl
    · intro d v
      rw [hpages, Flat.store]
      by_cases hd : d = p.pgdir
      · subst hd
        by_cases hvv : v = vpn va
        · subst hvv
          rw [if_pos ⟨rfl, rfl⟩, if_pos rfl, update_self, hshow]
          rfl
        · rw [if_neg fun hc => hvv hc.2, if_pos rfl, update_of_ne hvv]
      · rw [if_neg fun hc => hd hc.1, if_neg hd]

/-! ## Growing and shrinking -/

/-- The size of a process changes, and its address space with it. -/
theorem Quiet.resize {k1 : Kernel} {sz : ℕ} (h : k.Quiet) (hp : k.procs pid = some p)
    (hk : k.Kept k1) (hp1 : k1.procs pid = some p') (hspan : k1.Spans p.pgdir (pgRoundUp sz))
    (hpages : ∀ d v, d ≠ p.pgdir → k1.pageAt d v = k.pageAt d v)
    (hi : (k1.setProc pid { p' with sz := sz }).Inv 0) :
    (k1.setProc pid { p' with sz := sz }).Quiet := by
  have hd : p'.pgdir = p.pgdir := by
    obtain ⟨p1, hp1', hd, -⟩ := hk.exists_proc hp
    cases mem_unique hp1 hp1'
    exact hd
  refine ⟨hi, hk.resident h.resident, fun q r hr => ?_⟩
  rcases procs_of_setProc hr with ⟨-, rfl⟩ | ⟨hq, hr⟩
  · rw [hd]
    exact ⟨hspan.bounded, hspan.tabled⟩
  · obtain ⟨r', hr', hrd, hrsz⟩ := hk.exists_proc' hr
    rw [hrd, hrsz]
    have hne : r'.pgdir ≠ p.pgdir := fun hc => hq (h.inv.apart q pid r' p hr' hp hc)
    have hs := (h.spans q r' hr').mono hk fun v hv => by rwa [hpages _ v hne] at hv
    exact ⟨hs.bounded, hs.tabled⟩

/-- A failed growth. -/
theorem Quiet.kept (h : k.Quiet) (hk : k.Kept k') (hi : k'.Inv 0)
    (hpages : ∀ d v, (k'.pageAt d v).isSome → (k.pageAt d v).isSome) : k'.Quiet where
  inv := hi
  resident := hk.resident h.resident
  spans pid p' hp' := by
    obtain ⟨p, hp, hd, hsz⟩ := hk.exists_proc' hp'
    rw [hd, hsz]
    exact (h.spans pid p hp).mono hk (hpages _)

/-- The part of `growproc` behind the change of the pages. -/
theorem growproc_eq_ok {acc : Access} {n : ℤ} {r : Bool} (hp : k.procs pid = some p)
    (h : growproc pol acc k pid n = .ok (r, k')) :
    ∃ sz k1, (if 0 < n then allocuvm pol acc k pid p.pgdir p.sz (wrapAdd p.sz n)
        else if n < 0 then k.deallocuvm pid p.pgdir p.sz (wrapAdd p.sz n)
        else .ok (p.sz, k)) = .ok (sz, k1) ∧
      (n ≠ 0 ∧ sz = 0 ∧ r = false ∧ k' = k1 ∨
        ¬(n ≠ 0 ∧ sz = 0) ∧ r = true ∧ ∃ q, k1.procs pid = some q ∧
          k' = k1.setProc pid { q with sz := sz }) := by
  replace h := of_proc_bind hp h
  obtain ⟨⟨sz, k1⟩, hk1, h⟩ := bind_eq_ok.mp h
  refine ⟨sz, k1, hk1, ?_⟩
  simp only at h
  split at h
  · rename_i hc
    cases h
    exact .inl ⟨hc.1, hc.2, rfl, rfl⟩
  · rename_i hc
    obtain ⟨q, hq, h⟩ := bind_eq_ok.mp h
    cases h
    exact .inr ⟨hc, rfl, q, proc_eq_ok.mp hq, rfl⟩

theorem Quiet.growproc {m : ℕ} {n : ℤ} {r : Bool} (h : k.Quiet) (hp : k.procs pid = some p)
    (hfree : 2 < pid → (pagesFrom (pgRoundUp p.sz) (wrapAdd p.sz n)).length ≤ p.free)
    (hg : growproc pol (access pol m) k pid n = .ok (r, k')) :
    k'.Quiet ∧ (growEvent pid p n r).Step k.flats k'.flats := by
  have hi := h.inv.growproc (keeps_access pol m) hg
  have hsz := (h.inv.own pid p hp).size
  have hun : k.Unowned pid p.pgdir := fun q s hs hsd => h.inv.apart q pid s p hs hp hsd
  have hspan := h.spans pid p hp
  obtain ⟨sz, k1, hk1, hcase⟩ := growproc_eq_ok hp hg
  by_cases hpos : 0 < n
  · -- growing
    rw [if_pos hpos] at hk1
    obtain ⟨hkept, hres⟩ := pageAt_allocuvm (keeps_access pol m) h.inv hp hsz hspan hfree hk1
    rcases hcase with ⟨-, rfl, rfl, rfl⟩ | ⟨hne, rfl, q, hq, rfl⟩
    · have hsame : ∀ d v, k'.pageAt d v = k.pageAt d v := by
        rcases hres with ⟨-, hpages⟩ | ⟨hle, -, hpages⟩
        · exact hpages
        · exact fun d v => (hpages d v).trans (if_neg (by omega))
      rw [growEvent, if_pos hpos, flats_congr hkept.procs hsame]
      exact ⟨h.kept hkept hi fun d v hv => by rwa [hsame] at hv, .idle _⟩
    · obtain ⟨-, hspan', hpages⟩ : _ ∧ _ := hres.resolve_left fun ⟨h0, _⟩ => hne ⟨by omega, h0⟩
      rw [growEvent, if_pos hpos, if_pos rfl, flats_setSz hq,
        h.inv.flats_update (m := Flat.map (k.pageAt p.pgdir) (pgRoundUp p.sz) (wrapAdd p.sz n)) hp hkept]
      · refine ⟨h.resize hp hkept hq hspan' (fun d v hd => ?_) hi, .map _ _ (flats_of_procs hp)⟩
        rw [hpages, if_neg fun hc => hd hc.1]
      · intro d v
        rw [hpages, Flat.map]
        by_cases hd : d = p.pgdir
        · subst hd
          simp only [true_and, if_true]
        · rw [if_neg fun hc => hd hc.1, if_neg hd]
  · rw [if_neg hpos] at hk1
    by_cases hneg : n < 0 ∧ wrapAdd p.sz n < p.sz
    · -- shrinking
      rw [if_pos hneg.1] at hk1
      obtain ⟨rfl, hkept, hpages⟩ := pageAt_deallocuvm h.inv hun hsz.le hspan hneg.2 hk1
      have hflats := h.inv.flats_update
        (m := Flat.unmap (k.pageAt p.pgdir) (pgRoundUp (wrapAdd p.sz n)) p.sz) hp hkept fun d v => by
          rw [hpages, Flat.unmap]
          by_cases hd : d = p.pgdir
          · subst hd
            simp only [true_and, if_true]
          · rw [if_neg fun hc => hd hc.1, if_neg hd]
      rw [growEvent, if_neg hpos, if_pos hneg]
      rcases hcase with ⟨-, -, -, rfl⟩ | ⟨-, -, q, hq, rfl⟩
      · refine ⟨h.kept hkept hi fun d v hv => ?_, hflats ▸ .unmap _ _ (flats_of_procs hp)⟩
        rw [hpages] at hv
        split at hv
        · cases hv
        · exact hv
      · rw [flats_setSz hq, hflats]
        refine ⟨h.resize hp hkept hq (hspan.shrink hsz hneg.2 hkept hpages) (fun d v hd => ?_) hi,
          .unmap _ _ (flats_of_procs hp)⟩
        rw [hpages, if_neg fun hc => hd hc.1]
    · -- nothing to do
      obtain ⟨rfl, rfl⟩ : sz = p.sz ∧ k1 = k := by
        split at hk1
        · rename_i hlt
          rw [deallocuvm, if_pos (by omega)] at hk1
          cases hk1
          exact ⟨rfl, rfl⟩
        · cases hk1
          exact ⟨rfl, rfl⟩
      rw [growEvent, if_neg hpos, if_neg hneg]
      rcases hcase with ⟨-, -, -, rfl⟩ | ⟨-, -, q, hq, rfl⟩
      · exact ⟨h, .idle _⟩
      · rw [flats_setSz hq]
        exact ⟨h.resize hp (.refl k1) hq hspan (fun _ _ _ => rfl) hi, .idle _⟩

/-! ## `fork` and `wait` -/

/-- **What `copyonwriteuvm` shows**: the child's pages are the parent's, and nothing else changes. -/
theorem Forking.pages {k0 : Kernel} {pgdir d a : ℕ} (h : Forking k0 k held pgdir d a)
    (hr : k0.Resident) (hspan : k0.Spans pgdir a) (d' v : ℕ) :
    k.pageAt d' v = if d' = d then k0.pageAt pgdir v else k0.pageAt d' v := by
  by_cases hv : v < userPages
  · have hva : v * pgSize < kernBase := by simp only [userPages, pgSize, kernBase] at *; omega
    have howner : ∀ (k : Kernel) (d : ℕ), k.owner (.pte d v) = (k.walkpgdir d (v * pgSize)).bind
        Pte.frame := fun k d => by rw [owner, if_pos hv]
    rw [pageAt, pageAt, pageAt, howner, howner, howner, h.mem]
    by_cases hd : d' = d
    · subst hd
      rw [if_pos rfl]
      by_cases hlt : v * pgSize < a
      · obtain ⟨e, h0, -, -, h3⟩ := h.done _ hlt
        have hpg := hr pgdir _ e (by rwa [vpn_mul hv]) h0
        rw [h0, h3, bind_some, bind_some]
        simp [Pte.copied, hpg, Pte.frame]
      · have hpar : k0.walkpgdir pgdir (v * pgSize) = none ∨
            ∃ e, k0.walkpgdir pgdir (v * pgSize) = some e ∧ e.frame = none := by
          cases hw : k0.walkpgdir pgdir (v * pgSize) with
          | none => exact .inl rfl
          | some e =>
            refine .inr ⟨e, rfl, ?_⟩
            by_contra hne
            obtain ⟨f, hf⟩ := ne_none_iff_exists'.mp hne
            have := hspan.bounded _ hva ⟨e, hw, (Pte.frame_eq_some.mp hf).1⟩
            omega
        have hnone : (k0.walkpgdir pgdir (v * pgSize)).bind Pte.frame = none := by
          rcases hpar with h0 | ⟨e, h0, hf⟩
          · rw [h0]; rfl
          · rw [h0, bind_some, hf]
        rw [hnone]
        cases hw : k.walkpgdir d' (v * pgSize) with
        | none => rfl
        | some e =>
          rw [h.child _ (by omega) hva e hw]
          rfl
    · rw [if_neg hd]
      by_cases hp : d' = pgdir
      · subst hp
        by_cases hlt : v * pgSize < a
        · obtain ⟨e, h0, -, h2, -⟩ := h.done _ hlt
          rw [h0, h2, bind_some, bind_some, Pte.frame_shared]
        · rw [h.parent _ (by omega) hva]
      · rw [h.others d' _ hp hd]
  · rw [pageAt_of_le (by omega), pageAt_of_le (by omega), pageAt_of_le (by omega)]
    simp

/-- The entries of both processes after `copyonwriteuvm`. -/
theorem Forking.kept {k0 : Kernel} {pgdir d a : ℕ} (h : Forking k0 k held pgdir d a) :
    k0.Kept k := by
  -- an entry of a user page is the one at the start of the page
  have hstart : ∀ va, vpn va < userPages →
      vpn va * pgSize < kernBase ∧ vpn (vpn va * pgSize) = vpn va := fun va hv =>
    ⟨by simp only [userPages, pgSize, kernBase] at *; omega, vpn_mul hv⟩
  refine ⟨fun pid => by rw [h.procs]; exact rel_refl _, fun d' va hs => ?_, fun hr d' va e hv he => ?_⟩
  · by_cases hd : d' = d
    · rw [hd, walkpgdir, h.new] at hs
      cases hs
    · by_cases hp : d' = pgdir
      · subst hp
        by_cases hv : vpn va < userPages
        · obtain ⟨hlt, hvpn⟩ := hstart va hv
          rw [← k0.walkpgdir_congr d' hvpn] at hs
          rw [← k.walkpgdir_congr d' hvpn]
          by_cases ha : vpn va * pgSize < a
          · obtain ⟨e, -, -, h2, -⟩ := h.done _ ha
            rw [h2]
            rfl
          · rwa [h.parent _ (by omega) hlt]
        · rwa [h.kernel va (by omega)]
      · rwa [h.others d' va hp hd]
  · obtain ⟨hlt, hvpn⟩ := hstart va hv
    rw [← k.walkpgdir_congr d' hvpn] at he
    by_cases ha : vpn va * pgSize < a
    · obtain ⟨e0, h0, -, h2, h3⟩ := h.done _ ha
      have hpg := hr pgdir _ e0 (by rwa [hvpn]) h0
      by_cases hd : d' = d
      · rw [hd, h3] at he
        cases he
        simp [Pte.copied, hpg]
      · by_cases hp : d' = pgdir
        · rw [hp, h2] at he
          cases he
          simp [Pte.shared, hpg]
        · rw [h.others d' _ hp hd] at he
          exact hr d' _ e (by rwa [hvpn]) he
    · by_cases hd : d' = d
      · subst hd
        rw [h.child _ (by omega) hlt e he]
      · by_cases hp : d' = pgdir
        · subst hp
          rw [h.parent _ (by omega) hlt] at he
          exact hr d' _ e (by rwa [hvpn]) he
        · rw [h.others d' _ hp hd] at he
          exact hr d' _ e (by rwa [hvpn]) he

/-- The state `fork` hands to `copyonwriteuvm` shows the same. -/
theorem alike_stack {f : ℕ} {k1 : Kernel} (hk : { k with nextpid := k.nextpid + 1 }.kalloc = some (f, k1)) :
    k.Alike k1 := by
  have hbump : k.Alike { k with nextpid := k.nextpid + 1 } :=
    ⟨⟨fun _ => rel_refl _, fun _ _ => id, id⟩, fun _ _ => rfl⟩
  exact hbump.trans (alike_kalloc hk)

theorem Quiet.fork {child : ℕ} {q : Entry} (h : k.Quiet)
    (hk : fork k pid q.proc = .ok (some child, k')) :
    k'.Quiet ∧ (Event.fork pid child).Step k.flats k'.flats := by
  have hi := h.inv.fork hk
  obtain ⟨p, hp, -⟩ := proc_bind_eq_ok.mp hk
  obtain ⟨f, k1, k2, d, b, np, hk1, hk2, rfl, rfl, hcopy, hplain⟩ := fork_eq_ok hp hk
  have ha := alike_stack hk1
  have hspec := kalloc_spec hk1
  have hp1 : k1.procs pid = some p := hspec.2.2.2 ▸ hp
  obtain ⟨-, hfork⟩ := (h.inv.bumpPid.kalloc hk1).copyonwriteuvm
    (fun g hg => by rw [Multiset.mem_singleton.mp hg, hspec.1]) hp1 hk2
  have hfork := hfork d rfl
  obtain ⟨hd, hsz⟩ : np.pgdir = d ∧ np.sz = p.sz := by
    by_cases hpid : 2 < pid
    · exact ⟨(hcopy hpid).pgdir, (hcopy hpid).sz⟩
    · rw [hplain hpid]
      exact ⟨rfl, rfl⟩
  have hspan := (h.spans pid p hp).alike ha
  have hpages := hfork.pages (ha.resident h.resident) hspan
  have hkept := hfork.kept
  -- no process has the next pid
  have hnew : k.procs k.nextpid = none := by
    by_contra hne
    obtain ⟨r, hr⟩ := ne_none_iff_exists'.mp hne
    exact absurd (h.inv.fresh _ r hr) (Nat.lt_irrefl _)
  have hprocs : k2.procs = k.procs := hfork.procs.trans hspec.2.2.2
  refine ⟨⟨hi, hkept.resident (ha.resident h.resident), fun r s hs => ?_⟩, ?_⟩
  · rcases procs_of_setProc hs with ⟨-, rfl⟩ | ⟨-, hs⟩
    · rw [hd, hsz]
      refine ⟨fun va hva hpres => hspan.bounded va hva ?_, fun va hva => ?_⟩
      · rw [← pageAt_isSome (vpn_lt_of_lt hva)] at hpres ⊢
        have := hpages d (vpn va)
        rw [if_pos rfl] at this
        rwa [← this]
      · obtain ⟨e, -, -, -, h3⟩ := hfork.done va hva
        change (k2.walkpgdir d va).isSome
        rw [h3]
        rfl
    · have hs' : k.procs r = some s := hprocs ▸ hs
      have hsd := hfork.alone r s hs
      have := ((h.spans r s hs').alike ha).mono hkept fun v hv => by
        rwa [hpages, if_neg hsd] at hv
      exact ⟨this.bounded, this.tabled⟩
  · have hflats : ({ k2 with forkBuffer := b }.setProc k.nextpid np).flats
        = Function.update k.flats k.nextpid (some (k.pageAt p.pgdir)) := by
      funext r
      by_cases hr : r = k.nextpid
      · rw [hr, update_self, flats_of_procs (setProc_procs_self ..)]
        refine congrArg some ?_
        funext v
        change k2.pageAt np.pgdir v = _
        rw [hd, hpages, if_pos rfl, ha.pages]
      · rw [update_of_ne hr]
        have hprocs' : ({ k2 with forkBuffer := b }.setProc k.nextpid np).procs r = k.procs r := by
          rw [setProc_procs_of_ne _ _ _ hr, ← hprocs]
        cases hs : k.procs r with
        | none => rw [Kernel.flats, Kernel.flats, hprocs', hs]; rfl
        | some s =>
          rw [flats_of_procs hs, flats_of_procs (hprocs'.trans hs)]
          refine congrArg some ?_
          funext v
          change k2.pageAt s.pgdir v = _
          rw [hpages, if_neg (hfork.alone r s (hprocs ▸ hs)), ha.pages]
    rw [hflats]
    refine .fork (flats_of_procs hp) ?_
    rw [Kernel.flats, hnew]
    rfl

theorem Quiet.reap (h : k.Quiet) (hr : reap k cur pid = .ok k') :
    k'.Quiet ∧ (Event.exit pid).Step k.flats k'.flats := by
  have hi := h.inv.reap hr
  obtain ⟨p, hp, hr⟩ := proc_bind_eq_ok.mp hr
  obtain ⟨k2, hk2, hr⟩ := bind_eq_ok.mp hr
  obtain ⟨h1, halone⟩ := h.inv.dropProc hp
  have halone2 : ∀ q r, k2.procs q = some r → r.pgdir ≠ p.pgdir := fun q r hq => by
    rw [procs_of_kfree hk2] at hq
    exact halone q r hq
  have hs := (h1.kfree hk2).spares_freevm halone2 hr
  have hdir := ((h1.kfree hk2).freevm halone2 hr).2.1
  have hpages : ∀ d v, d ≠ p.pgdir → k'.pageAt d v = k.pageAt d v := fun d v hd =>
    (hs.pages d v hd).trans (h1.frames.pageAt_kfree_held hk2 d v)
  have hwalk : ∀ d va, d ≠ p.pgdir → k'.walkpgdir d va = k.walkpgdir d va := fun d va hd =>
    (hs.walk d va hd).trans (walkpgdir_of_kfree hk2 d va)
  -- the others keep directory and size
  have hback : ∀ q r', k'.procs q = some r' → q ≠ pid ∧ ∃ r, k.procs q = some r ∧
      r.pgdir ≠ p.pgdir ∧ r'.pgdir = r.pgdir ∧ r'.sz = r.sz := by
    intro q r' hr'
    have hrel := hs.procs q
    rw [hr', procs_of_kfree hk2] at hrel
    by_cases hq : q = pid
    · subst hq
      simp only [update_self] at hrel
      cases hrel
    · have hne := halone q
      simp only [update_of_ne hq] at hrel hne
      generalize k.procs q = o at hrel hne
      cases hrel with | some hd => exact ⟨hq, _, rfl, hne _ rfl, hd⟩
  refine ⟨⟨hi, fun d va e hv he => ?_, fun q r' hr' => ?_⟩, ?_⟩
  · by_cases hd : d = p.pgdir
    · rw [hd, walkpgdir, hdir] at he
      cases he
    · rw [hwalk d va hd] at he
      exact h.resident d va e hv he
  · obtain ⟨-, r, hr, hne, hd, hsz⟩ := hback q r' hr'
    rw [hd, hsz]
    refine ⟨fun va hva hpres => (h.spans q r hr).bounded va hva ?_, fun va hva => ?_⟩
    · rwa [Present, hwalk _ _ hne] at hpres
    · rw [hwalk _ _ hne]
      exact (h.spans q r hr).tabled va hva
  · have hflats : k'.flats = Function.update k.flats pid none := by
      funext q
      have hrel := hs.procs q
      rw [procs_of_kfree hk2] at hrel
      by_cases hq : q = pid
      · subst hq
        simp only [update_self] at hrel ⊢
        rw [Kernel.flats]
        generalize k'.procs q = o at hrel
        cases hrel
        rfl
      · have hne := halone q
        simp only [update_of_ne hq] at hrel hne ⊢
        rw [Kernel.flats, Kernel.flats]
        generalize k.procs q = o, k'.procs q = o' at hrel hne
        cases hrel with
        | none => rfl
        | some hd =>
          refine congrArg some ?_
          funext v
          simp only [hd.1, hpages _ v (hne _ rfl)]
    rw [hflats]
    exact .exit (flats_of_procs hp)

end Kernel

open Kernel

end Xv6
