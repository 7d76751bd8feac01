import Xv6.Vm.Growth

/-!
# Vm/Guard — the guard page beneath the stack

`exec` leaves an inaccessible page beneath the user stack: `clearpteu` takes `PTE_U` from its entry.  Two
functions set it again.  `set_page_flags_in_mem` does when the page comes in, and `handle_cow` does when it
gives the page a copy; both run on a page fault at the page itself.

A fault at another page, of whatever process, leaves the guard page shut (`Kernel.Shut`).  The kernel
itself reads the guard page when it evicts it, but only while it is present; so the invariant also says
that a memory slot that names the page names a present one.
-/

namespace Xv6

open Outcome Option

/-- `clearpteu`. -/
def Kernel.clearpteu (k : Kernel) (d uva : ℕ) : Except String Kernel :=
  match k.walkpgdir d uva with
  | none => .error "clearpteu"
  | some e => .ok (k.setPte d uva { e with u := false })

/-- The flags that say where a page is and whether a user may see it. -/
def Pte.bars (e : Pte) : Bool × Bool × Bool := (e.p, e.u, e.pg)

/-- **The page `g` of a process is shut**: it lies below the size and its entry has no `PTE_U`; a present
one has no `PTE_PG`.  One used slot at most names it, and then it is present. -/
structure Proc.Guards (p : Proc) (k : Kernel) (g : ℕ) : Prop where
  below : g < p.sz
  shut : ∀ e, k.walkpgdir p.pgdir g = some e → e.u = false ∧ (e.p = true → e.pg = false)
  present : ∀ i, (p.memoryPages i).isUsed = true → (p.memoryPages i).va = g → k.Present p.pgdir g
  unique : ∀ i j, (p.memoryPages i).isUsed = true → (p.memoryPages j).isUsed = true →
    (p.memoryPages i).va = g → (p.memoryPages j).va = g → i = j

namespace Proc

variable {p p' : Proc} {k k' : Kernel} {g : ℕ}

/-- The slots of the process that name the page come from such slots. -/
def Inherits (p p' : Proc) (g : ℕ) : Prop :=
  ∃ σ : Fin maxPsycPages → Fin maxPsycPages, Function.Injective σ ∧
    ∀ i, (p'.memoryPages i).isUsed = true → (p'.memoryPages i).va = g →
      (p.memoryPages (σ i)).isUsed = true ∧ (p.memoryPages (σ i)).va = g

theorem Inherits.of_subset (h : ∀ i, (p'.memoryPages i).isUsed = true → (p'.memoryPages i).va = g →
    (p.memoryPages i).isUsed = true ∧ (p.memoryPages i).va = g) : p.Inherits p' g :=
  ⟨id, Function.injective_id, h⟩

theorem Agree.inherits (h : p.Agree p') : p.Inherits p' g := by
  obtain ⟨σ, hσ⟩ := h.memoryPages
  refine ⟨σ, σ.injective, fun i hu hva => ?_⟩
  have := hσ i
  simp only [Slot.core, Prod.mk.injEq] at this
  exact ⟨this.2.2 ▸ hu, this.2.1 ▸ hva⟩

/-- The entry of the page keeps its flags. -/
theorem Guards.mono (h : p.Guards k g) (hd : p'.pgdir = p.pgdir) (hsz : p.sz ≤ p'.sz)
    (hslots : p.Inherits p' g)
    (hwalk : (k'.walkpgdir p.pgdir g).map Pte.bars = (k.walkpgdir p.pgdir g).map Pte.bars) :
    p'.Guards k' g := by
  obtain ⟨σ, hσ, hslots⟩ := hslots
  refine ⟨h.below.trans_le hsz, fun e' he' => ?_, fun i hu hva => ?_, fun i j hi hj hvi hvj => ?_⟩
  · rw [hd] at he'
    rw [he', map_some, eq_comm, map_eq_some_iff] at hwalk
    obtain ⟨e, he, heq⟩ := hwalk
    obtain ⟨hu, hpg⟩ := h.shut e he
    simp only [Pte.bars, Prod.mk.injEq] at heq
    rw [← heq.1, ← heq.2.1, ← heq.2.2]
    exact ⟨hu, hpg⟩
  · obtain ⟨hu', hva'⟩ := hslots i hu hva
    obtain ⟨e, he, hep⟩ := h.present _ hu' hva'
    rw [he, map_some, map_eq_some_iff] at hwalk
    obtain ⟨e', he', heq⟩ := hwalk
    exact ⟨e', hd ▸ he', (congrArg Prod.fst heq).trans hep⟩
  · obtain ⟨hui, hvi'⟩ := hslots i hi hvi
    obtain ⟨huj, hvj'⟩ := hslots j hj hvj
    exact hσ (h.unique _ _ hui huj hvi' hvj')

end Proc

namespace Kernel

variable {k k' k1 : Kernel} {held : Multiset ℕ} {q pid d va g f : ℕ} {p p' : Proc} {e e' : Pte}
  {i j : Fin maxPsycPages} {pol : Policy} {acc : Access}

/-- The guard page of process `q`, if there is such a process. -/
def Shut (k : Kernel) (q g : ℕ) : Prop := ∀ p, k.procs q = some p → p.Guards k g

/-- Every slot of process `q` that carries the address of the page is in use. -/
def Full (k : Kernel) (q g : ℕ) : Prop :=
  ∀ p, k.procs q = some p → ∀ i, (p.memoryPages i).va = g → (p.memoryPages i).isUsed = true

/-! ## What the guard does not look at -/

theorem Shut.of_eq (h : k.Shut q g) (hprocs : k'.procs = k.procs)
    (hwalk : ∀ d, k'.walkpgdir d g = k.walkpgdir d g) : k'.Shut q g := fun p hp =>
  (h p (hprocs ▸ hp)).mono rfl le_rfl (.of_subset fun _ hu hva => ⟨hu, hva⟩) (by rw [hwalk])

theorem Full.of_procs (h : k.Full q g) (hprocs : k'.procs = k.procs) : k'.Full q g := fun p hp =>
  h p (hprocs ▸ hp)

theorem Shut.kalloc (h : k.Shut q g) (hk : k.kalloc = some (f, k')) : k'.Shut q g := by
  obtain ⟨m, -, rfl⟩ := kalloc_eq_some.mp hk
  exact h.of_eq rfl fun _ => rfl

theorem Shut.kfree (h : k.Shut q g) (hk : k.kfree f = .ok k') : k'.Shut q g :=
  h.of_eq (procs_of_kfree hk) fun d => walkpgdir_of_kfree hk d g

theorem Shut.agree (h : k.Shut q g) (ha : k.Agree k') : k'.Shut q g := fun p' hp' => by
  obtain ⟨p, hp, hpa⟩ := ha.exists_proc' hp'
  have hbars := congrArg (Option.map Pte.bars) (ha.walk p.pgdir g)
  simp only [map_map] at hbars
  exact (h p hp).mono hpa.pgdir hpa.sz.ge hpa.inherits hbars

theorem Shut.setUserPage (h : k.Shut q g) (pid va : ℕ) (pg : Page) :
    (k.setUserPage pid va pg).Shut q g := by
  refine h.of_eq (setUserPage_procs ..) fun d => ?_
  rw [Kernel.setUserPage]
  split <;> rfl

theorem Full.agree (h : k.Full q g) (ha : k.Agree k') : k'.Full q g := fun p' hp' i hi => by
  obtain ⟨p, hp, hpa⟩ := ha.exists_proc' hp'
  obtain ⟨j, -, hva, hu⟩ := hpa.exists_slot i
  rw [hu]
  exact h p hp j (hva ▸ hi)

theorem Shut.setProc (h : k.Shut q g) (hp : k.procs pid = some p) (hd : p'.pgdir = p.pgdir)
    (hsz : p.sz ≤ p'.sz) (hslots : q = pid → p.Inherits p' g) :
    (k.setProc pid p').Shut q g := fun r hr => by
  rcases procs_of_setProc hr with ⟨rfl, rfl⟩ | ⟨-, hr⟩
  · exact (h p hp).mono hd hsz (hslots rfl) rfl
  · exact (h r hr).mono rfl le_rfl (.of_subset fun _ hu hva => ⟨hu, hva⟩) rfl

theorem Full.setProc (h : k.Full q g) (hp : k.procs pid = some p)
    (hslots : q = pid → ∀ i, (p'.memoryPages i).va = g → (p.memoryPages i).va = g ∧
      (p'.memoryPages i).isUsed = (p.memoryPages i).isUsed) : (k.setProc pid p').Full q g :=
  fun r hr i hi => by
    rcases procs_of_setProc hr with ⟨rfl, rfl⟩ | ⟨-, hr⟩
    · rw [(hslots rfl i hi).2]
      exact h p hp i (hslots rfl i hi).1
    · exact h r hr i hi

/-- An entry that is not the one of the guard page. -/
theorem Shut.setPte (h : k.Shut q g)
    (haway : ∀ r, k.procs q = some r → r.pgdir = d → vpn g ≠ vpn va) (e : Pte) :
    (k.setPte d va e).Shut q g := fun r hr => by
  refine (h r hr).mono rfl le_rfl (.of_subset fun _ hu hva => ⟨hu, hva⟩) ?_
  rw [walkpgdir_setPte_of_ne]
  by_cases hd : r.pgdir = d
  · exact .inr (haway r hr hd)
  · exact .inl hd

/-- An entry keeps the two flags. -/
theorem Shut.reflag (h : k.Shut q g) (hw : k.walkpgdir d va = some e) (hbars : e'.bars = e.bars) :
    (k.setPte d va e').Shut q g := fun r hr => by
  refine (h r hr).mono rfl le_rfl (.of_subset fun _ hu hva => ⟨hu, hva⟩) ?_
  rw [walkpgdir_setPte]
  split
  · rename_i hc
    rw [hc.1, k.walkpgdir_congr d hc.2, hw, map_some, map_some, map_some, hbars]
  · rfl

/-- **The processes do not share directories**: a store to the directory of one is none of another's. -/
theorem Inv.away (h : k.Inv held) (hp : k.procs pid = some p) (haway : q ≠ pid ∨ vpn va ≠ vpn g) :
    ∀ r, k.procs q = some r → r.pgdir = p.pgdir → vpn g ≠ vpn va := fun r hr hd => by
  obtain rfl : q = pid := h.apart q pid r p hr hp hd
  rcases haway with hne | hne
  · exact absurd rfl hne
  · exact hne.symm

/-- **A page is evicted**: its entry loses `PTE_P`, and no used slot names it any more. -/
theorem Shut.pageOut (h : k.Shut q g) (hi : k.Inv held) (hp : k.procs pid = some p)
    (hw : k.walkpgdir p.pgdir va = some e) (hd : p'.pgdir = p.pgdir) (hsz : p'.sz = p.sz)
    (hslots : q = pid → p.Inherits p' g)
    (hfree : q = pid → vpn va = vpn g → ∀ l, (p'.memoryPages l).isUsed = true →
      (p'.memoryPages l).va ≠ g) :
    ((k.setProc pid p').setPte p.pgdir va e.inDisk).Shut q g := by
  have h0 : (k.setProc pid p').Shut q g := h.setProc hp hd hsz.ge hslots
  by_cases hself : q = pid ∧ vpn va = vpn g
  · obtain ⟨rfl, hv⟩ := hself
    intro r hr
    rw [setPte_procs, setProc_procs_self] at hr
    cases hr
    have hg := h p hp
    refine ⟨hsz ▸ hg.below, fun e1 he1 => ?_, fun l hu hva => absurd hva (hfree rfl hv l hu), ?_⟩
    · rw [hd, walkpgdir_setPte, if_pos ⟨rfl, hv.symm⟩, setProc_walkpgdir,
        ← k.walkpgdir_congr p.pgdir hv, hw] at he1
      cases he1
      exact ⟨(hg.shut e (by rw [← k.walkpgdir_congr p.pgdir hv, hw])).1, nofun⟩
    · exact fun l m hl _ hvl => absurd hvl (hfree rfl hv l hl)
  · have haway : q ≠ pid ∨ vpn va ≠ vpn g := by
      by_contra hno
      push Not at hno
      exact hself hno
    refine h0.setPte (fun r hr hrd => ?_) _
    rcases procs_of_setProc hr with ⟨rfl, rfl⟩ | ⟨hne, hr⟩
    · exact (haway.resolve_left (not_not.mpr rfl)).symm
    · exact hi.away hp haway r hr hrd

/-! ## Faults at other pages -/

theorem Shut.handleCow {r : Bool} {cr2 : ℕ} (h : k.Shut q g) (hi : k.Inv held)
    (haway : q ≠ pid ∨ vpn cr2 ≠ vpn g) (hc : Kernel.handleCow k pid cr2 = .ok (r, k')) :
    k'.Shut q g ∧ k'.procs = k.procs := by
  obtain ⟨p, hp, -⟩ := proc_bind_eq_ok.mp hc
  obtain ⟨e, hw, hcase⟩ := handleCow_eq_ok hp hc
  rcases hcase with ⟨-, -, rfl⟩ | ⟨-, -, -, ⟨f, k1, -, hk1, rfl⟩ | ⟨-, rfl⟩⟩
  · exact ⟨h, rfl⟩
  · have hprocs := (kalloc_spec hk1).2.2.2
    have hs : ((k1.setMem f (k1.mem e.addr)).decCounter e.addr).Shut q g :=
      (h.kalloc hk1).of_eq rfl fun _ => rfl
    exact ⟨hs.setPte (fun r hr => hi.away hp haway r (hprocs ▸ hr)) _, hprocs⟩
  · exact ⟨h.setPte (hi.away hp haway) _, rfl⟩

end Kernel

/-- **Accesses to other pages** leave the guard page shut, and the slots that name it in use. -/
def Access.Spares (acc : Access) (q g : ℕ) : Prop :=
  ∀ {w : Bool} {k k' : Kernel} {pid va : ℕ} {held : Multiset ℕ}, k.Inv held → k.Shut q g →
    q ≠ pid ∨ vpn va ≠ vpn g → acc w k pid va = .ok k' → k'.Shut q g ∧ (k.Full q g → k'.Full q g)

namespace Kernel

variable {k k' k1 : Kernel} {held : Multiset ℕ} {q pid d va g f : ℕ} {p p' : Proc} {e e' : Pte}
  {i j : Fin maxPsycPages} {pol : Policy} {acc : Access}

/-- The slot a page comes into does not name the guard page. -/
theorem inherits_loadSlot (hne : (p.filePages j).va ≠ g) (l : Fin maxPsycPages)
    (hl : ((loadSlot pol p i j).memoryPages l).va = g) :
    l ≠ i ∧ (p.memoryPages l).va = g ∧
      ((loadSlot pol p i j).memoryPages l).isUsed = (p.memoryPages l).isUsed := by
  have hcore := memoryPages_loadSlot pol p i j l
  by_cases hli : l = i
  · simp only [hli, if_true, Slot.core, Prod.mk.injEq] at hcore hl
    exact absurd (hcore.2.1.symm.trans hl) hne
  · simp only [hli, if_false, Slot.core, Prod.mk.injEq] at hcore
    exact ⟨hli, hcore.2.1 ▸ hl, hcore.2.2⟩

theorem Shut.pfBegin {old : Option Slot} (h : k.Shut q g) (hi : k.Inv held)
    (hp : k.procs pid = some p) (haway : q ≠ pid ∨ vpn va ≠ vpn g)
    (hb : Kernel.pfBegin pol k pid va = .ok (i, old, j, k')) :
    k'.Shut q g ∧ (k.Full q g → k'.Full q g) := by
  obtain ⟨f, ka, kb, kc, p2, e, hka, hkb, hkc, hp2, -, -, -, rfl, -⟩ := pfBegin_eq_ok hp hb
  have hc : kc.Inv (f ::ₘ held) := ((hi.agree hka).kalloc hkb).agree hkc
  refine ⟨(((h.agree hka).kalloc hkb).agree hkc).setPte (hc.away hp2 haway) _, fun hfull => ?_⟩
  exact Full.of_procs (((hfull.agree hka).of_procs (kalloc_spec hkb).2.2.2).agree hkc) rfl

/-- **The eviction of `handle_pf`.** -/
theorem Shut.pfEvict {old : Slot} (hacc : acc.Keeps) (h : k.Shut q g) (hi : k.Inv held)
    (hp : k.procs pid = some p) (hd : old.pgdir = p.pgdir) (hva : UserPage old.va)
    (hfree : q = pid → vpn old.va = vpn g → ∀ l, (p.memoryPages l).isUsed = true →
      (p.memoryPages l).va ≠ g)
    (he : Kernel.pfEvict acc k pid j old = .ok k') : k'.Shut q g ∧ (k.Full q g → k'.Full q g) := by
  obtain ⟨k1, p1, e, e1, hw, hp1, hwalk, hwalk1, hk⟩ := pfEvict_eq_ok he
  obtain ⟨h1, -⟩ := hi.writeUserToSwapFile hacc hw
  have hep := hi.present_of_kfree hva hwalk hk h1.frames.kend_pos
  -- the victim is present, so the write does not fault
  obtain ⟨pg, -, rfl⟩ := writeUserToSwapFile_idle hacc hp ⟨e, hd ▸ hwalk, hep⟩ hw
  rw [setProc_procs_self] at hp1
  cases hp1
  rw [hd] at hwalk1 hk
  set p1 := p.setSwapFile (p.swapFile.write (j * pgSize) pg) with hp1
  have hs1 : (k.setProc pid p1).Shut q g :=
    h.setProc hp rfl le_rfl fun _ => .of_subset fun _ hu hv => ⟨hu, hv⟩
  constructor
  · have hout : (((k.setProc pid p1).setProc pid (p1.enterFile j p.pgdir old.va)).setPte p1.pgdir
        old.va e1.inDisk).Shut q g :=
      hs1.pageOut h1 (setProc_procs_self ..) hwalk1 rfl rfl
        (fun _ => .of_subset fun _ hu hv => ⟨hu, hv⟩) hfree
    exact hout.kfree hk
  · intro hfull
    have hf1 : (k.setProc pid p1).Full q g := hfull.setProc hp fun _ i hi => ⟨hi, rfl⟩
    have hf2 : ((k.setProc pid p1).setProc pid (p1.enterFile j p.pgdir old.va)).Full q g :=
      hf1.setProc (setProc_procs_self ..) fun _ i hi => ⟨hi, rfl⟩
    refine Full.of_procs ?_ (procs_of_kfree hk)
    exact hf2.of_procs rfl

/-- **A page comes in**, and it is not the guard page. -/
theorem Shut.pageIn {e0 : Pte} (hacc : acc.Keeps) (hsp : acc.Spares q g) (hg : UserPage g)
    (h : k.Shut q g) (hi : k.Inv held) (hp : k.procs pid = some p)
    (hw : k.walkpgdir p.pgdir va = some e0) (h0 : e0.p = false) (haway : q ≠ pid ∨ vpn va ≠ vpn g)
    (hin : Kernel.pageIn pol acc k pid va = .ok k') : k'.Shut q g ∧ (k.Full q g → k'.Full q g) := by
  obtain ⟨⟨i, old, j, k1⟩, hb, hin⟩ := bind_eq_ok.mp hin
  obtain ⟨k2, hr, hin⟩ := bind_eq_ok.mp hin
  obtain ⟨k3, hl, hin⟩ := bind_eq_ok.mp hin
  obtain ⟨h1, p1, hp1, hpa, hjva, hpres, hold, hst⟩ := hi.pfBegin hp hw h0 hb
  obtain ⟨hs1, hf1⟩ := h.pfBegin hi hp haway hb
  obtain ⟨-, rfl⟩ := pfRead_eq_ok hp1 hr
  replace hl := of_proc_bind hp1 hl
  cases hl
  have h2 := h1.setBuffer (p1.swapFile.page j)
  obtain ⟨h3, hvictim⟩ := h2.loadSlot pol (i := i) (j := j) hp1 (hjva ▸ hpres)
    (hst.imp_left fun hset => ⟨hset.1.of_walk fun _ _ => rfl, hjva ▸ hset.2⟩)
  have hne : q = pid → (p1.filePages j).va ≠ g := fun hq heq => by
    rw [hjva] at heq
    rcases haway with hne | hne
    · exact hne hq
    · exact hne (by rw [heq])
  have hs2 : Shut { k1 with buffer := p1.swapFile.page j } q g := hs1.of_eq rfl fun _ => rfl
  have hs3 : ({ k1 with buffer := p1.swapFile.page j }.setProc pid (loadSlot pol p1 i j)).Shut q g :=
    hs2.setProc hp1 rfl le_rfl fun hq => .of_subset fun l hu hv => by
      obtain ⟨-, hv', hu'⟩ := inherits_loadSlot (hne hq) l hv
      exact ⟨hu' ▸ hu, hv'⟩
  have hf3 : k.Full q g → ({ k1 with buffer := p1.swapFile.page j }.setProc pid
      (loadSlot pol p1 i j)).Full q g := fun hfull =>
    Full.setProc (k := { k1 with buffer := p1.swapFile.page j }) ((hf1 hfull).of_procs rfl) hp1
      fun hq l hl => (inherits_loadSlot (hne hq) l hl).2
  obtain ⟨k4, hk4, hin⟩ := bind_eq_ok.mp hin
  obtain ⟨h4, hs4, hf4⟩ : k4.Inv held ∧ k4.Shut q g ∧ (k.Full q g → k4.Full q g) := by
    cases old with
    | none =>
      cases hk4
      exact ⟨h3, hs3, hf3⟩
    | some s =>
      obtain ⟨rfl, hu⟩ := hold s rfl
      have ho := h1.own pid p1 hp1
      obtain ⟨h4, -⟩ := h3.pfEvict hacc (setProc_procs_self ..) (ho.memDir i hu) (ho.memVa i)
        (hvictim hu) hk4
      obtain ⟨hs4, hf4⟩ := hs3.pfEvict hacc h3 (setProc_procs_self ..) (ho.memDir i hu) (ho.memVa i)
        (fun hq hv l hlu hlg => by
          obtain ⟨hli, hlg', hlu'⟩ := inherits_loadSlot (hne hq) l hlg
          have hig := (ho.memVa i).eq_of_vpn hg hv
          exact hli ((hs1 p1 (hq ▸ hp1)).unique l i (hlu' ▸ hlu) hu hlg' hig)) hk4
      exact ⟨h4, hs4, fun hfull => hf4 (hf3 hfull)⟩
  obtain ⟨k5, hk5, hin⟩ := bind_eq_ok.mp hin
  cases hin
  obtain ⟨hs5, hf5⟩ := hsp h4 hs4 haway hk5
  exact ⟨hs5.setUserPage pid va k5.buffer,
    fun hfull => (hf5 (hf4 hfull)).of_procs (setUserPage_procs ..)⟩

/-- **A fault at another page.** -/
theorem Shut.pgflt (hacc : acc.Keeps) (hsp : acc.Spares q g) (hg : UserPage g) (h : k.Shut q g)
    (hi : k.Inv held) (haway : q ≠ pid ∨ vpn va ≠ vpn g)
    (hf : Kernel.pgflt pol acc k pid va = .ok k') : k'.Shut q g ∧ (k.Full q g → k'.Full q g) := by
  obtain ⟨k1, ha, ⟨p, e, -, hp, he, hep, -, hin⟩ | hcow⟩ := pgflt_eq_ok hf
  · rw [← vpn_pgRoundDown va] at haway
    exact ((h.agree ha).pageIn hacc hsp hg (hi.agree ha) hp he hep haway hin).imp_right
      fun hfull hf => hfull (hf.agree ha)
  · obtain ⟨h', hprocs⟩ := (h.agree ha).handleCow (hi.agree ha) haway hcow
    exact ⟨h', fun hf => (hf.agree ha).of_procs hprocs⟩

/-- **An access to another page**, however deep its faults nest. -/
theorem spares_accessAs (pol : Policy) (hg : UserPage g) :
    ∀ (n : ℕ) (user : Bool), Access.Spares (accessAs pol n user) q g
  | 0, _ => fun _ _ _ h => by cases h
  | n + 1, user => fun hi hs haway h => by
    have hkeeps : Access.Keeps (accessAs pol n false) := keeps_access pol n
    rw [accessAs_succ] at h
    split at h
    · cases h
      exact ⟨hs, id⟩
    · obtain ⟨k1, hk1, h⟩ := bind_eq_ok.mp h
      obtain ⟨hi1, -⟩ := hi.pgflt hkeeps hk1
      obtain ⟨hs1, hf1⟩ := hs.pgflt hkeeps (spares_accessAs pol hg n false) hg hi haway hk1
      obtain ⟨hs2, hf2⟩ := spares_accessAs pol hg n user hi1 hs1 haway h
      exact ⟨hs2, fun hfull => hf2 (hf1 hfull)⟩

/-! ## Faults at the guard page -/

/-- **A fault at the page gives `PTE_U` back**: it is paged out, or it is shared and copied on a write. -/
def Exposed (k : Kernel) (pid g : ℕ) : Prop :=
  ∃ p e, k.procs pid = some p ∧ k.walkpgdir p.pgdir g = some e ∧
    (2 < pid ∧ e.p = false ∧ e.pg = true ∨
      e.w = false ∧ e.cow = true ∧ 1 < k.kmem.referencesCount e.addr)

theorem Agree.exposed (ha : k.Agree k') (h : k'.Exposed pid g) : k.Exposed pid g := by
  obtain ⟨p', e', hp', he', hcase⟩ := h
  obtain ⟨p, hp, hpa⟩ := ha.exists_proc' hp'
  rw [hpa.pgdir] at he'
  obtain ⟨e, he, hu⟩ := ha.exists_walk he'
  obtain ⟨haddr, hp1, hw1, -, hpg1, hcow1⟩ := Pte.unmark_eq hu
  rw [hp1, hw1, hpg1, hcow1, haddr, ha.kmem] at hcase
  exact ⟨p, e, hp, he, hcase⟩

/-- **A fault at a guard page that is not exposed** changes neither flag. -/
theorem Shut.pgflt_self (h : k.Shut q g) (hv : vpn va = vpn g) (hex : ¬ k.Exposed pid g)
    (hf : Kernel.pgflt pol acc k pid va = .ok k') : k'.Shut q g ∧ ¬ k'.Exposed pid g := by
  obtain ⟨k1, ha, hserved⟩ := pgflt_eq_ok hf
  have hex1 : ¬ k1.Exposed pid g := fun hx => hex (ha.exposed hx)
  rcases hserved with ⟨p, e, hpid, hp, he, hep, hpg, -⟩ | hcow
  · refine absurd ⟨p, e, hp, ?_, .inl ⟨hpid, hep, hpg⟩⟩ hex1
    rwa [← k1.walkpgdir_congr p.pgdir ((vpn_pgRoundDown va).trans hv)]
  obtain ⟨p, hp, -⟩ := proc_bind_eq_ok.mp hcow
  obtain ⟨e, hw, hcase⟩ := handleCow_eq_ok hp hcow
  have hwg : k1.walkpgdir p.pgdir g = some e := by rw [← k1.walkpgdir_congr p.pgdir hv, hw]
  rcases hcase with ⟨-, hc, -⟩ | ⟨hro, hcow, -, ⟨f, k4, hcount, -, -⟩ | ⟨-, rfl⟩⟩
  · cases hc
  · exact absurd ⟨p, e, hp, hwg, .inr ⟨hro, hcow, hcount⟩⟩ hex1
  · refine ⟨(h.agree ha).reflag hw rfl, ?_⟩
    rintro ⟨p', e', hp', he', hcase⟩
    cases mem_unique hp hp'
    rw [walkpgdir_setPte, if_pos ⟨rfl, hv.symm⟩, hwg] at he'
    cases he'
    rcases hcase with hout | ⟨hw', -⟩
    · exact hex1 ⟨p, e, hp, hwg, .inl hout⟩
    · cases hw'

/-- **An access to a guard page that is not exposed.** -/
theorem Shut.accessAs_self : ∀ (n : ℕ) (user : Bool) {w : Bool} {k k' : Kernel}, k.Shut q g →
    vpn va = vpn g → ¬ k.Exposed pid g → accessAs pol n user w k pid va = .ok k' → k'.Shut q g
  | 0, _, _, _, _, _, _, _, h => by cases h
  | n + 1, user, w, k, k', hs, hv, hex, h => by
    rw [accessAs_succ] at h
    split at h
    · cases h
      exact hs
    · obtain ⟨k1, hk1, h⟩ := bind_eq_ok.mp h
      obtain ⟨hs1, hex1⟩ := hs.pgflt_self hv hex hk1
      exact Shut.accessAs_self n user hs1 hv hex1 h

/-- **Any access**, if the guard page is not exposed when it is the one accessed. -/
theorem Shut.accessAs {n : ℕ} {user w : Bool} (hg : UserPage g) (h : k.Shut q g) (hi : k.Inv held)
    (hex : vpn va = vpn g → q = pid → ¬ k.Exposed pid g)
    (hk : Kernel.accessAs pol n user w k pid va = .ok k') : k'.Shut q g := by
  by_cases hself : q = pid ∧ vpn va = vpn g
  · exact h.accessAs_self n user hself.2 (hex hself.2 hself.1) hk
  · refine (spares_accessAs pol hg n user hi h ?_ hk).1
    by_contra hno
    push Not at hno
    exact hself hno

end Kernel

end Xv6
