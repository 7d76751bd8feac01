import Xv6.Proc.Grow
import Xv6.Proc.Swapping

/-!
# Proc/Demand — runs of a process under demand paging

A process loads, stores, grows and shrinks; page faults and evictions happen on the way.  Beside the kernel
runs the flat memory of the process, which its own stores and resizings change, and nothing else.

`Live` says that the flat memory is what the pages hold, wherever they are, and that the file slots in use come
first.  Shrinking is what breaks this.  `deallocuvm` leaves the paged-out pages of its range in the swap file;
and it frees memory slots while the file is in use, after which a page that comes in leaves its old slot behind,
with its address but not in use, where `get_i_of_va_in_file` finds it first.  A growth beyond `MAX_TOTAL_PAGES`
writes over the last file slot, and one that runs out of frames shrinks again.  `Careful` rules these out.
-/

namespace Xv6

open Outcome Option

/-- What the process does.  `b` bounds the page faults of the operation. -/
inductive PageOp where
  | load (b va : ℕ)
  | store (b va : ℕ) (x : UInt8)
  | grow (b : ℕ) (n : ℤ)

/-- The flat memory after `growproc` by `n` from size `sz` with result `r`. -/
def Flat.resize (m : Flat) (sz : ℕ) (n : ℤ) (r : Bool) : Flat :=
  if 0 < n then if r then m.map (pgRoundUp sz) (Kernel.wrapAdd sz n) else m
  else if n < 0 ∧ Kernel.wrapAdd sz n < sz then m.unmap (pgRoundUp (Kernel.wrapAdd sz n)) sz
  else m

/-- **One operation of process `pid`**, in the kernel and in the flat memory. -/
def PageOp.run (pol : Policy) (pid : ℕ) : PageOp → Kernel × Flat → Except String (Kernel × Flat)
  | .load b va, s => do
    let (_, k) ← Kernel.load pol b s.1 pid va
    return (k, s.2)
  | .store b va x, s => do
    let k ← Kernel.store pol b s.1 pid va x
    return (k, s.2.store va x)
  | .grow b n, s => do
    let p ← s.1.proc pid
    let (r, k) ← Kernel.growproc pol (Kernel.access pol (b + 1)) s.1 pid n
    return (k, s.2.resize p.sz n r)

namespace Kernel

variable {k k' k1 : Kernel} {pid a va b oldsz newsz : ℕ} {p p' q : Proc} {pol : Policy} {acc : Access} {n : ℤ}
  {r : Bool} {loose : Set ℕ} {m : Flat} {pg : Page} {x : UInt8}

/-! ## Loads and stores -/

section

variable (h : k.Paged pid p a loose m)

include h

/-- What the MMU lets through is a page of the memory. -/
theorem Paged.read {w : Bool} (hperm : k.permits true w pid va = true) :
    ∃ pg, k.userPage pid va = some pg ∧ m (vpn va) = some pg := by
  obtain ⟨q, e, hq, hw, hv, hep, -⟩ := h.inv.frames.exists_user hperm
  cases mem_unique h.proc hq
  refine ⟨k.mem e.addr, by simp [userPage, hq, hw], ?_⟩
  rw [← h.memory]
  refine logical_of_pageAt ?_
  rw [pageAt_of_walk hv hw, Pte.frame_eq_some.mpr ⟨hep, rfl⟩, map_some]

/-- **A store changes one byte of the memory.** -/
theorem Paged.write (hperm : k.permits true true pid va = true) (x : UInt8) :
    ∃ pg, k.userPage pid va = some pg ∧
      (k.setUserPage pid va (Function.update pg (pgOff va) x)).Paged pid p a loose (m.store va x) := by
  obtain ⟨pg, hpg, hm⟩ := h.read hperm
  obtain ⟨q, e, hq, hw, hv, hep, hew⟩ := h.inv.frames.exists_user hperm
  cases mem_unique h.proc hq
  have hset : ∀ pg, k.setUserPage pid va pg = k.setMem e.addr pg := fun pg => by
    simp [setUserPage, hq, hw]
  refine ⟨pg, hpg, ?_⟩
  rw [hset]
  refine ⟨h.inv.setMem _ _, h.proc, h.placed.of_walk fun _ => rfl, h.users, ?_⟩
  rw [h.inv.frames.logical_setMem hv hw hep (hew rfl), h.memory, Flat.store, hm, map_some]

theorem Paged.markAccessed (va : ℕ) :
    ∃ p', (k.markAccessed pid va).Paged pid p' a loose m ∧ p.Agree p' :=
  h.agree (agree_markAccessed k pid va)

/-! ## Resizing -/

/-- The size of a process is written. -/
theorem Paged.setSz {sz : ℕ}
    (hi : (k.setProc pid { p with sz := sz }).Inv 0) :
    (k.setProc pid { p with sz := sz }).Paged pid { p with sz := sz } a loose m := by
  have hplaced : p.Placed (k.setProc pid { p with sz := sz }) a loose := h.placed.of_walk fun _ => rfl
  exact ⟨hi, setProc_procs_self .., hplaced.congr rfl (fun _ => rfl) rfl le_rfl, h.users, h.memory⟩

end

/-- What a growth that succeeds or is refused keeps. -/
structure Grows (pol : Policy) (pid : ℕ) (k : Kernel) (p : Proc) (loose : Set ℕ) (n : ℤ) (k' : Kernel)
    (p' : Proc) (loose' : Set ℕ) : Prop where
  pgdir : p'.pgdir = p.pgdir
  sz : p'.sz = p.sz ∨ p'.sz = wrapAdd p.sz n
  packed : p.Packed → p'.Packed
  found : ∀ va, UserPage va → (k.PagedOut p.pgdir va → p.Found va) → k'.PagedOut p.pgdir va → p'.Found va
  fits : 2 < pid → (pol.aq = true →
    p.QueueFits (pagesFrom (pgRoundUp p.sz) (wrapAdd p.sz n)).length) → loose' = loose

theorem Grows.refl : Grows pol pid k p loose n k p loose :=
  ⟨rfl, .inl rfl, id, fun _ _ => id, fun _ _ => rfl⟩

/-- The frames and the slots for a growth to `newsz`. -/
def Fits (k : Kernel) (pid : ℕ) (p : Proc) (newsz : ℕ) : Prop :=
  (2 < pid → newsz ≤ maxTotalPages * pgSize) ∧
    k.Room p.pgdir (tablesOf (pgRoundUp p.sz) newsz) (pagesFrom (pgRoundUp p.sz) newsz).length

/-- Without an address to go to there is nothing to do. -/
theorem allocuvm_zero {d r : ℕ} (h : allocuvm pol acc k pid d oldsz 0 = .ok (r, k')) : r = oldsz ∧ k' = k := by
  rw [allocuvm, if_neg (by decide)] at h
  split at h
  · cases h
    exact ⟨rfl, rfl⟩
  · obtain rfl : oldsz = 0 := by omega
    rw [if_neg (fun hc => absurd hc.2 (by decide))] at h
    cases h
    exact ⟨rfl, rfl⟩

theorem allocuvm_size {d r : ℕ} (h : allocuvm pol acc k pid d oldsz newsz = .ok (r, k')) :
    r = 0 ∨ r = oldsz ∨ r = newsz := by
  rcases Nat.lt_or_ge newsz oldsz with hlt | hle
  · rw [allocuvm, if_pos hlt] at h
    split at h
    · cases h
      exact .inl rfl
    · cases h
      exact .inr (.inl rfl)
  · exact (allocuvm_result hle h).symm.imp id .inr

/-- **A process grows**: the new pages are zero, and no other page changes. -/
theorem Paged.grow (hacc : acc.Serves) (hkeep : acc.Keeps) (h : k.Paged pid p (pgRoundUp p.sz) loose m)
    (hn : 0 < n) (hfit : k.Fits pid p (wrapAdd p.sz n)) (hg : growproc pol acc k pid n = .ok (r, k')) :
    ∃ p' loose', k'.Paged pid p' (pgRoundUp p'.sz) loose' (m.resize p.sz n r) ∧
      Grows pol pid k p loose n k' p' loose' := by
  have hi := h.inv.growproc hkeep hg
  obtain ⟨sz, k1, hk1, ⟨-, rfl, rfl, rfl⟩ | ⟨hne, rfl, q, hq, rfl⟩⟩ := growproc_eq_ok h.proc hg
  · -- refused
    rw [if_pos hn] at hk1
    have hsame : k' = k := by
      rcases h.allocuvm hacc hkeep h.own.size hfit.1 hk1 with ⟨hle, -⟩ | ⟨-, hsame | hno⟩
      · rw [Nat.le_zero.mp hle] at hk1
        exact (allocuvm_zero hk1).2
      · exact hsame
      · exact absurd hfit.2 hno
    rw [hsame, Flat.resize, if_pos hn, if_neg Bool.false_ne_true]
    exact ⟨p, loose, h, .refl⟩
  · rw [if_pos hn] at hk1
    obtain ⟨-, -, p', loose', h', hd, hsz, hpack, hfound, hfits⟩ | ⟨h0, -⟩ :=
      h.allocuvm hacc hkeep h.own.size hfit.1 hk1
    · cases mem_unique h'.proc hq
      rw [Flat.resize, if_pos hn, if_pos rfl]
      refine ⟨_, loose', h'.setSz hi, hd, ?_, fun hp => ⟨(hpack hp).below, (hpack hp).full⟩, hfound, hfits⟩
      exact (allocuvm_size hk1).resolve_left fun h0 => hne ⟨hn.ne', h0⟩
    · exact absurd ⟨hn.ne', h0⟩ hne

/-- A process that is written as it was. -/
theorem setProc_self (hp : k.procs pid = some p) : k.setProc pid p = k := by
  rw [setProc, ← hp, Function.update_eq_self]

/-- `growproc` where the pages and the size stay. -/
theorem growproc_idle (hp : k.procs pid = some p) (hn : n ≤ 0) (hle : n < 0 → p.sz ≤ wrapAdd p.sz n)
    (hg : growproc pol acc k pid n = .ok (r, k')) : k' = k := by
  obtain ⟨sz, k1, hk1, hcase⟩ := growproc_eq_ok hp hg
  obtain ⟨rfl, rfl⟩ : sz = p.sz ∧ k1 = k := by
    rw [if_neg (by omega)] at hk1
    split at hk1
    · rename_i hneg
      rw [Kernel.deallocuvm, if_pos (hle hneg)] at hk1
      cases hk1
      exact ⟨rfl, rfl⟩
    · cases hk1
      exact ⟨rfl, rfl⟩
  rcases hcase with ⟨-, -, -, rfl⟩ | ⟨-, -, q, hq, rfl⟩
  · rfl
  · cases mem_unique hp hq
    exact setProc_self hp

/-- Where no page ends between the two sizes, nothing goes. -/
theorem deallocuvm_idle {d : ℕ} (hlt : newsz < oldsz) (hold : oldsz < kernBase)
    (heq : pgRoundUp newsz = pgRoundUp oldsz) : k.deallocuvm pid d oldsz newsz = .ok (newsz, k) := by
  rw [Kernel.deallocuvm, if_neg (Nat.not_le.mpr hlt), deallocFrom_idle _ _ _ (pgRoundUp_mod newsz), ok_bind,
    pure_eq_ok]
  intro b hb
  have := le_pgRoundUp hold
  have := hb.2
  omega

/-- **A process shrinks** to a size that is not zero, where no page that goes is paged out. -/
theorem Paged.shrink (hkeep : acc.Keeps) (h : k.Paged pid p (pgRoundUp p.sz) loose m) (hn : n < 0)
    (hlt : wrapAdd p.sz n < p.sz) (hpos : 0 < wrapAdd p.sz n) (hfile : ∀ j, (p.filePages j).isUsed = true →
      (p.filePages j).va ∉ pageRange (pgRoundUp (wrapAdd p.sz n)) p.sz)
    (hg : growproc pol acc k pid n = .ok (r, k')) :
    ∃ mp loose', k'.Paged pid { p with memoryPages := mp, sz := wrapAdd p.sz n } (pgRoundUp (wrapAdd p.sz n))
        loose' (m.resize p.sz n r) ∧
      (pgRoundUp (wrapAdd p.sz n) = pgRoundUp p.sz → mp = p.memoryPages) := by
  have hold : p.sz < kernBase := h.own.size
  have hi := h.inv.growproc hkeep hg
  obtain ⟨sz, k1, hk1, hcase⟩ := growproc_eq_ok h.proc hg
  rw [if_neg (by omega), if_pos hn] at hk1
  rw [Flat.resize, if_neg (by omega), if_pos ⟨hn, hlt⟩]
  obtain ⟨rfl, mp, h1⟩ := h.deallocuvm hold hlt hfile hk1
  obtain ⟨-, -, q, hq, rfl⟩ := hcase.resolve_left fun hc => by omega
  cases mem_unique h1.proc hq
  refine ⟨mp, _, h1.setSz hi, fun heq => ?_⟩
  rw [deallocuvm_idle hlt hold heq] at hk1
  cases hk1
  exact congrArg Proc.memoryPages (mem_unique hq h.proc)

end Kernel

open Kernel

/-! ## Careful runs -/

/-- **The flat memory is what the pages hold**, and the file slots in use come first. -/
def Live (pid : ℕ) (s : Kernel × Flat) : Prop :=
  ∃ p loose, s.1.Paged pid p (pgRoundUp p.sz) loose s.2 ∧ p.Packed

/-- What the operation may ask of the state it finds: a growth has its frames and stays within
`MAX_TOTAL_PAGES`; shrinking leaves a page, and while a page is paged out none goes. -/
def PageOp.Careful (pid : ℕ) : PageOp → Kernel × Flat → Prop
  | .grow _ n, s => ∀ p, s.1.procs pid = some p →
    (0 < n → s.1.Fits pid p (wrapAdd p.sz n)) ∧
    (n < 0 → wrapAdd p.sz n < p.sz → 0 < wrapAdd p.sz n ∧
      ((∀ j, (p.filePages j).isUsed = false) ∨ pgRoundUp (wrapAdd p.sz n) = pgRoundUp p.sz))
  | _, _ => True

section Run

variable {k k' : Kernel} {pid va b : ℕ} {pol : Policy} {n : ℤ} {r : Bool} {m : Flat} {x : UInt8}
  {s s' : Kernel × Flat} {ops : List PageOp} {op : PageOp}

theorem Live.load (h : Live pid (k, m)) (hl : Kernel.load pol b k pid va = .ok (x, k')) :
    Live pid (k', m) ∧ (m (vpn va)).map (fun pg => pg (pgOff va)) = some x := by
  obtain ⟨p, loose, h, hpack⟩ := h
  obtain ⟨k1, hk1, hl⟩ := bind_eq_ok.mp hl
  obtain ⟨hperm, p1, h1, -, hsz1, hpack1⟩ := h.accessAs_packed b hpack hk1
  obtain ⟨pg, hpg, hm⟩ := h1.read hperm
  simp only [hpg] at hl
  cases hl
  obtain ⟨p2, h2, hpa⟩ := h1.markAccessed va
  exact ⟨⟨p2, loose, by rwa [hpa.sz, hsz1], packed_agree hpack1 hpa⟩, congrArg (Option.map _) hm⟩

theorem Live.store (h : Live pid (k, m)) (hs : Kernel.store pol b k pid va x = .ok k') :
    Live pid (k', m.store va x) := by
  obtain ⟨p, loose, h, hpack⟩ := h
  obtain ⟨k1, hk1, hs⟩ := bind_eq_ok.mp hs
  obtain ⟨hperm, p1, h1, -, hsz1, hpack1⟩ := h.accessAs_packed b hpack hk1
  obtain ⟨pg, hpg, hw⟩ := h1.write hperm x
  simp only [hpg] at hs
  cases hs
  obtain ⟨p2, h2, hpa⟩ := hw.markAccessed va
  exact ⟨p2, loose, by rwa [hpa.sz, hsz1], packed_agree hpack1 hpa⟩

theorem Live.grow (h : Live pid (k, m)) {p : Proc} (hp : k.procs pid = some p)
    (hc : (PageOp.grow b n).Careful pid (k, m))
    (hg : growproc pol (access pol (b + 1)) k pid n = .ok (r, k')) : Live pid (k', m.resize p.sz n r) := by
  obtain ⟨q, loose, h, hpack⟩ := h
  cases mem_unique h.proc hp
  obtain ⟨hgrow, hshrink⟩ := hc p hp
  have hkeep := keeps_access pol (b + 1)
  by_cases hn : 0 < n
  · obtain ⟨p', loose', h', hkept⟩ := h.grow (serves_access pol b false) hkeep hn (hgrow hn) hg
    exact ⟨p', loose', h', hkept.packed hpack⟩
  by_cases hlt : n < 0 ∧ wrapAdd p.sz n < p.sz
  · obtain ⟨hpos, hnone⟩ := hshrink hlt.1 hlt.2
    have hfile : ∀ j, (p.filePages j).isUsed = true →
        (p.filePages j).va ∉ pageRange (pgRoundUp (wrapAdd p.sz n)) p.sz := fun j hj hmem => by
      rcases hnone with hnone | heq
      · rw [hnone j] at hj
        cases hj
      · have := le_pgRoundUp h.own.size
        have := hmem.2
        omega
    obtain ⟨mp, loose', h', hmp⟩ := h.shrink hkeep hlt.1 hlt.2 hpos hfile hg
    refine ⟨_, loose', h', ?_⟩
    rcases hnone with hnone | heq
    · exact ⟨fun i j _ hj => absurd hj (by simp [hnone j]), fun j hj => absurd hj (by simp [hnone j])⟩
    · rw [hmp heq]
      exact ⟨hpack.below, hpack.full⟩
  · rw [growproc_idle hp (by omega) (fun hneg => Nat.not_lt.mp fun hc => hlt ⟨hneg, hc⟩) hg, Flat.resize,
      if_neg hn, if_neg hlt]
    exact ⟨p, loose, h, hpack⟩

/-- **A careful operation keeps the memory.** -/
theorem Live.step (h : Live pid s) (hc : op.Careful pid s) (hr : op.run pol pid s = .ok s') : Live pid s' := by
  cases op with
  | load b va =>
    obtain ⟨⟨x, k'⟩, hl, hr⟩ := bind_eq_ok.mp hr
    cases hr
    exact (h.load hl).1
  | store b va x =>
    obtain ⟨k', hs, hr⟩ := bind_eq_ok.mp hr
    cases hr
    exact h.store hs
  | grow b n =>
    obtain ⟨p, hp, hr⟩ := bind_eq_ok.mp hr
    obtain ⟨⟨r, k'⟩, hg, hr⟩ := bind_eq_ok.mp hr
    cases hr
    exact h.grow (proc_eq_ok.mp hp) hc hg

/-- **A careful run keeps the memory.** -/
theorem Live.run (h : Live pid s) (hc : Along (PageOp.run pol pid) (PageOp.Careful pid) ops s)
    (hr : loop (PageOp.run pol pid) ops s = .ok s') : Live pid s' :=
  Along.inv (Live pid) (fun _ _ _ h hc hr => h.step hc hr) ops s s' h hc hr

end Run

/-! ## A fresh image -/

end Xv6
