import Xv6.Vm.Growth

/-!
# Vm/Contents — the bytes an address space shows

`pageAt k d v` is what page `v` of directory `d` shows: the contents of the frame its entry maps.  The
frame invariant decides who can change it.  `kalloc` hands out frames that nothing shows, `kfree` fills
a frame with junk only when its last reference goes, and a store goes to a frame with one reference.

`Alike` says that two states show the same pages to the same processes.
-/

namespace Xv6

open Outcome Function

/-! ## Flat address spaces -/

/-- A flat address space: the contents of its pages. -/
abbrev Flat := ℕ → Option Page

namespace Flat

/-- Store one byte. -/
def store (m : Flat) (va : ℕ) (b : UInt8) : Flat :=
  Function.update m (vpn va) ((m (vpn va)).map fun pg => Function.update pg (pgOff va) b)

/-- Zero pages appear at the addresses from `lo` on below `hi`. -/
def map (m : Flat) (lo hi : ℕ) : Flat :=
  fun v => if lo ≤ v * pgSize ∧ v * pgSize < hi then some (fun _ => 0) else m v

/-- The pages at the addresses from `lo` on below `hi` go. -/
def unmap (m : Flat) (lo hi : ℕ) : Flat :=
  fun v => if lo ≤ v * pgSize ∧ v * pgSize < hi then none else m v

end Flat

namespace Kernel

variable {k k' k'' : Kernel} {held : Multiset ℕ} {pid d va v f : ℕ} {p : Proc} {e e0 : Pte} {s t : Site}
  {pol : Policy} {acc : Access}

/-- What page `v` of directory `d` shows. -/
def pageAt (k : Kernel) (d v : ℕ) : Option Page := (k.owner (.pte d v)).map k.mem

/-- No user page is paged out. -/
def Resident (k : Kernel) : Prop :=
  ∀ d va e, vpn va < userPages → k.walkpgdir d va = some e → e.pg = false

theorem pageAt_congr (howner : k'.owner (.pte d v) = k.owner (.pte d v))
    (hmem : ∀ g, k.owner (.pte d v) = some g → k'.mem g = k.mem g) : k'.pageAt d v = k.pageAt d v := by
  rw [pageAt, pageAt, howner]
  cases h : k.owner (.pte d v) with
  | none => rfl
  | some g => rw [Option.map_some, Option.map_some, hmem g h]

/-- A page is shown exactly if its entry is present. -/
theorem pageAt_isSome (hv : vpn va < userPages) : (k.pageAt d (vpn va)).isSome ↔ k.Present d va := by
  rw [pageAt, Option.isSome_map, owner_pte k d hv, Present]
  cases k.walkpgdir d va with
  | none => simp
  | some e => cases hp : e.p <;> simp [Pte.frame, hp]

theorem pageAt_of_walk (hv : vpn va < userPages) (hw : k.walkpgdir d va = some e) :
    k.pageAt d (vpn va) = e.frame.map k.mem := by
  rw [pageAt, owner_pte_of_walk hv hw]

/-- A page beyond the user half shows nothing. -/
theorem pageAt_of_le (hv : userPages ≤ v) : k.pageAt d v = none := by
  rw [pageAt, owner, if_neg (by omega)]
  rfl

/-! ## What each primitive does to the pages -/

/-- Two sites of one frame are counted. -/
theorem Frames.one_lt_count (h : k.Frames held) (hs : k.owner s = some f) (ht : k.owner t = some f)
    (hst : s ≠ t) : 1 < k.kmem.referencesCount f := by
  have hpos := h.count_pos hs
  have hne : k.kmem.referencesCount f ≠ 1 := fun h1 =>
    Ledger.total_ne_one_of_refs hs ht hst (by rw [h.exact f, h1]; rfl)
  omega

/-- `kfree` fills a frame with junk only if its count is at most one. -/
theorem pageAt_kfree (hk : k.kfree f = .ok k')
    (hf : k.owner (.pte d v) = some f → 1 < k.kmem.referencesCount f) :
    k'.pageAt d v = k.pageAt d v := by
  obtain ⟨m, -, rfl⟩ := kfree_eq_ok.mp hk
  refine pageAt_congr rfl fun g hg => ?_
  by_cases hgf : g = f
  · subst hgf
    simp only [if_neg (Nat.not_le.mpr (hf hg))]
  · simp only
    split
    · exact update_of_ne hgf ..
    · rfl

/-- **Dropping the reference of one site** is not seen at any other. -/
theorem Frames.pageAt_kfree_site (h : k.Frames held) (hs : k.owner s = some f)
    (hk : k.kfree f = .ok k') (hne : .pte d v ≠ s) : k'.pageAt d v = k.pageAt d v :=
  pageAt_kfree hk fun ho => h.one_lt_count ho hs hne

/-- **Dropping a held reference** is not seen at all. -/
theorem Frames.pageAt_kfree_held (h : k.Frames (f ::ₘ held)) (hk : k.kfree f = .ok k') (d v : ℕ) :
    k'.pageAt d v = k.pageAt d v := by
  refine pageAt_kfree hk fun ho => ?_
  have hpos := h.count_pos ho
  have hne : k.kmem.referencesCount f ≠ 1 := fun h1 =>
    Ledger.total_cons_ne_one ho (by rw [h.exact f, h1]; rfl)
  omega

/-- **Filling a held private frame** is not seen. -/
theorem Frames.pageAt_setMem_held (h : k.Frames (f ::ₘ held)) (hc : k.kmem.referencesCount f = 1)
    (pg : Page) (d v : ℕ) : (k.setMem f pg).pageAt d v = k.pageAt d v := by
  refine pageAt_congr rfl fun g hg => ?_
  have hgf : g ≠ f := by
    rintro rfl
    exact Ledger.total_cons_ne_one hg (h.total_held hc)
  exact update_of_ne hgf ..

theorem pageAt_kalloc (hk : k.kalloc = some (f, k')) (d v : ℕ) : k'.pageAt d v = k.pageAt d v := by
  obtain ⟨m, -, rfl⟩ := kalloc_eq_some.mp hk
  rfl

/-- **A store to an entry** changes the page it is for. -/
theorem pageAt_setPte (hva : vpn va < userPages) (hw : k.walkpgdir d va = some e0) (d' v : ℕ) :
    (k.setPte d va e).pageAt d' v
      = if d' = d ∧ v = vpn va then e.frame.map k.mem else k.pageAt d' v := by
  rw [pageAt, owner_setPte e hva hw]
  by_cases hc : d' = d ∧ v = vpn va
  · obtain ⟨rfl, rfl⟩ := hc
    rw [update_self, if_pos ⟨rfl, rfl⟩]
    rfl
  · rw [if_neg hc, update_of_ne (by simpa using hc)]
    rfl

/-- A store that keeps the frame of the entry changes no page. -/
theorem pageAt_setPte_same (hva : vpn va < userPages) (hw : k.walkpgdir d va = some e0)
    (hf : e.frame = e0.frame) (d' v : ℕ) : (k.setPte d va e).pageAt d' v = k.pageAt d' v := by
  rw [pageAt_setPte hva hw]
  split
  · rename_i hc
    rw [hc.1, hc.2, hf, pageAt_of_walk hva hw]
  · rfl

/-- A new page table shows nothing. -/
theorem pageAt_alloc (hw : k.walkpgdirAlloc d va = some (e, k')) (d' v : ℕ) :
    k'.pageAt d' v = k.pageAt d' v := by
  refine pageAt_congr ?_ fun g _ => by rw [(alloc_spec hw).1]
  rw [owner, owner]
  split
  · rcases walkpgdir_alloc hw d' (v * pgSize) with heq | ⟨-, hn, hz⟩
    · rw [heq]
    · rw [hn, hz]
      rfl
  · rfl

/-- **A write to a page** goes to a frame that nobody else has. -/
theorem Frames.pageAt_setMem (h : k.Frames held) (hva : vpn va < userPages)
    (hw : k.walkpgdir d va = some e) (hep : e.p = true) (hew : e.w = true) (pg : Page) (d' v : ℕ) :
    (k.setMem e.addr pg).pageAt d' v
      = if d' = d ∧ v = vpn va then some pg else k.pageAt d' v := by
  have hown : k.owner (.pte d (vpn va)) = some e.addr := by
    rw [owner_pte_of_walk hva hw]
    exact Pte.frame_eq_some.mpr ⟨hep, rfl⟩
  have hone := h.sole _ _ hown ((private_pte hva hw).mpr hew)
  split
  · rename_i hc
    obtain ⟨rfl, rfl⟩ := hc
    change (k.owner (.pte d' (vpn va))).map _ = _
    rw [hown, Option.map_some]
    exact congrArg some (update_self ..)
  · rename_i hc
    refine pageAt_congr rfl fun g hg => update_of_ne ?_ ..
    rintro rfl
    exact Ledger.total_ne_one_of_refs hg hown (by simpa using hc) hone

/-! ## States that show the same -/

/-- The processes keep their directories and sizes, no page table goes, and no page is paged out. -/
structure Kept (k k' : Kernel) : Prop where
  procs : ∀ pid, Option.Rel (fun p p' : Proc => p'.pgdir = p.pgdir ∧ p'.sz = p.sz)
    (k.procs pid) (k'.procs pid)
  tables : ∀ d va, (k.walkpgdir d va).isSome → (k'.walkpgdir d va).isSome
  resident : k.Resident → k'.Resident

/-- **Two states show the same pages to the same processes.** -/
structure Alike (k k' : Kernel) : Prop extends Kept k k' where
  pages : ∀ d v, k'.pageAt d v = k.pageAt d v

theorem rel_refl (o : Option Proc) :
    Option.Rel (fun p p' : Proc => p'.pgdir = p.pgdir ∧ p'.sz = p.sz) o o := by
  cases o with
  | none => exact .none
  | some p => exact .some ⟨rfl, rfl⟩

theorem Kept.refl (k : Kernel) : k.Kept k := ⟨fun pid => rel_refl (k.procs pid), fun _ _ => id, id⟩

theorem rel_trans {ps ps' ps'' : ℕ → Option Proc}
    (h : ∀ pid, Option.Rel (fun p p' : Proc => p'.pgdir = p.pgdir ∧ p'.sz = p.sz) (ps pid) (ps' pid))
    (h' : ∀ pid, Option.Rel (fun p p' : Proc => p'.pgdir = p.pgdir ∧ p'.sz = p.sz) (ps' pid) (ps'' pid))
    (pid : ℕ) :
    Option.Rel (fun p p' : Proc => p'.pgdir = p.pgdir ∧ p'.sz = p.sz) (ps pid) (ps'' pid) := by
  have h1 := h pid
  have h2 := h' pid
  generalize ps pid = a, ps' pid = b, ps'' pid = c at h1 h2
  cases h1 with
  | none => cases h2; exact .none
  | some hp =>
    cases h2 with
    | some hq => exact .some ⟨hq.1.trans hp.1, hq.2.trans hp.2⟩

theorem Kept.trans (h : k.Kept k') (h' : k'.Kept k'') : k.Kept k'' where
  procs := rel_trans h.procs h'.procs
  tables d va hs := h'.tables d va (h.tables d va hs)
  resident hr := h'.resident (h.resident hr)

theorem Kept.exists_proc (h : k.Kept k') (hp : k.procs pid = some p) :
    ∃ p', k'.procs pid = some p' ∧ p'.pgdir = p.pgdir ∧ p'.sz = p.sz := by
  have h' := h.procs pid
  rw [hp] at h'
  generalize k'.procs pid = q at h'
  cases h' with | some hq => exact ⟨_, rfl, hq⟩

theorem Kept.exists_proc' {p' : Proc} (h : k.Kept k') (hp : k'.procs pid = some p') :
    ∃ p, k.procs pid = some p ∧ p'.pgdir = p.pgdir ∧ p'.sz = p.sz := by
  have h' := h.procs pid
  rw [hp] at h'
  generalize k.procs pid = q at h'
  cases h' with | some hq => exact ⟨_, rfl, hq⟩

theorem Alike.refl (k : Kernel) : k.Alike k := ⟨.refl k, fun _ _ => rfl⟩

theorem Alike.trans (h : k.Alike k') (h' : k'.Alike k'') : k.Alike k'' :=
  ⟨h.toKept.trans h'.toKept, fun d v => (h'.pages d v).trans (h.pages d v)⟩

/-- The books of a policy are not shown. -/
theorem Agree.alike (h : k.Agree k') : k.Alike k' where
  pages d v := pageAt_congr (by rw [h.owner]) fun g _ => by rw [h.mem]
  procs pid := by
    cases h1 : k.procs pid with
    | none =>
      have h2 := h.procs pid
      rw [h1] at h2
      cases h3 : k'.procs pid with
      | none => exact .none
      | some p' => rw [h3] at h2; cases h2
    | some p =>
      obtain ⟨p', hp', hpa⟩ := h.exists_proc h1
      rw [hp']
      exact .some ⟨hpa.pgdir, hpa.sz⟩
  tables d va := by
    have hw := congrArg Option.isSome (h.walk d va)
    rw [Option.isSome_map, Option.isSome_map] at hw
    exact hw.symm ▸ id
  resident hr d va e' hv he' := by
    obtain ⟨e, he, heq⟩ := h.exists_walk he'
    rw [(Pte.unmark_eq heq).2.2.2.2.1]
    exact hr d va e hv he

/-- A process may change all but its directory and size. -/
theorem Alike.setProc {p' : Proc} (hp : k.procs pid = some p) (hd : p'.pgdir = p.pgdir)
    (hsz : p'.sz = p.sz) : k.Alike (k.setProc pid p') where
  pages _ _ := rfl
  procs q := by
    by_cases hq : q = pid
    · subst hq
      rw [hp, setProc_procs_self]
      exact .some ⟨hd, hsz⟩
    · rw [setProc_procs_of_ne k pid p' hq]
      exact rel_refl _
  tables _ _ := id
  resident hr := hr

theorem alike_kalloc (hk : k.kalloc = some (f, k')) : k.Alike k' := by
  obtain ⟨m, -, rfl⟩ := kalloc_eq_some.mp hk
  exact ⟨⟨fun _ => rel_refl _, fun _ _ => id, id⟩, fun _ _ => rfl⟩

/-! ## Memory accesses -/

/-- **`handle_cow` shows the same pages.** -/
theorem alike_handleCow {r : Bool} {cr2 : ℕ} (h : k.Inv held)
    (hc : handleCow k pid cr2 = .ok (r, k')) : k.Alike k' := by
  obtain ⟨p, hp, -⟩ := proc_bind_eq_ok.mp hc
  obtain ⟨e, hw, hcase⟩ := handleCow_eq_ok hp hc
  rcases hcase with ⟨-, -, rfl⟩ | ⟨-, hcow, -, ⟨f, k1, hcount, hk1, rfl⟩ | ⟨-, rfl⟩⟩
  · exact .refl _
  · -- a copy in a new frame
    have hv := h.frames.user_of_cow hw hcow
    have hep := h.frames.present_of_shared hv hw hcount
    have hspec := kalloc_spec hk1
    have hw1 : k1.walkpgdir p.pgdir cr2 = some e := by rw [walkpgdir, hspec.2.2.1, ← walkpgdir, hw]
    refine ⟨⟨fun q => ?_, fun d va => ?_, fun hr d va e' hva he' => ?_⟩, fun d v => ?_⟩
    rotate_right
    · rw [pageAt_setPte (k := (k1.setMem f (k1.mem e.addr)).decCounter e.addr) hv hw1]
      have hpages : ((k1.setMem f (k1.mem e.addr)).decCounter e.addr).pageAt d v = k.pageAt d v :=
        ((h.frames.kalloc hk1).pageAt_setMem_held hspec.1 (k1.mem e.addr) d v).trans
          (pageAt_kalloc hk1 d v)
      split
      · rename_i hc
        rw [hc.1, hc.2, pageAt_of_walk hv hw]
        simp only [Pte.frame, hep, if_true, Option.map_some]
        refine congrArg some ?_
        change update k1.mem f (k1.mem e.addr) f = k.mem e.addr
        rw [update_self, hspec.2.1]
      · exact hpages
    · rw [setPte_procs]
      change Option.Rel _ (k.procs q) (k1.procs q)
      rw [hspec.2.2.2]
      exact rel_refl _
    · rw [isSome_walkpgdir_setPte]
      change _ → (k1.walkpgdir d va).isSome
      rw [walkpgdir, walkpgdir, hspec.2.2.1]
      exact id
    · rcases walk_of_setPte he' with ⟨-, rfl⟩ | ⟨-, he'⟩
      · rfl
      · refine hr d va e' hva ?_
        rw [walkpgdir, ← hspec.2.2.1]
        exact he'
  · -- the last reference becomes writable
    have hv := h.frames.user_of_cow hw hcow
    refine ⟨⟨fun q => rel_refl _, fun d va hs => by rwa [isSome_walkpgdir_setPte],
      fun hr d va e' hva he' => ?_⟩, pageAt_setPte_same hv hw rfl⟩
    rcases walk_of_setPte he' with ⟨-, rfl⟩ | ⟨-, he'⟩
    · exact hr p.pgdir cr2 e hv hw
    · exact hr d va e' hva he'

/-- **A page fault shows the same pages**, with all pages resident. -/
theorem alike_pgflt {cr2 : ℕ} (h : k.Inv held) (hr : k.Resident)
    (hf : pgflt pol acc k pid cr2 = .ok k') : k.Alike k' := by
  obtain ⟨k1, ha, ⟨p, e, -, -, he, -, hpg, -⟩ | hcow⟩ := pgflt_eq_ok hf
  · have hno : e.pg = false := by
      by_cases hv : vpn (pgRoundDown cr2) < userPages
      · exact ha.alike.resident hr _ _ e hv he
      · exact (((h.agree ha).frames.fit _ _ e he).kernel (by omega)).1
    rw [hno] at hpg
    cases hpg
  · exact ha.alike.trans (alike_handleCow (h.agree ha) hcow)

/-- **An access shows the same pages**, with all pages resident. -/
theorem alike_accessAs : ∀ (n : ℕ) (user : Bool) {w : Bool} {k k' : Kernel}, k.Inv held →
    k.Resident → accessAs pol n user w k pid va = .ok k' →
    k.Alike k' ∧ k'.permits user w pid va = true
  | 0, _, _, _, _, _, _, h => by cases h
  | n + 1, user, w, k, k', hi, hr, h => by
    rw [accessAs_succ] at h
    split at h
    · rename_i hperm
      cases h
      exact ⟨.refl k, hperm⟩
    · obtain ⟨k1, hk1, h⟩ := bind_eq_ok.mp h
      have ha := alike_pgflt hi hr hk1
      obtain ⟨h1, -⟩ := hi.pgflt (keeps_access pol n) hk1
      obtain ⟨ha', hperm⟩ := alike_accessAs n user h1 (ha.resident hr) h
      exact ⟨ha.trans ha', hperm⟩

end Kernel

end Xv6
