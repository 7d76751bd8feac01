import Xv6.Lib.Ledger
import Xv6.Vm.Paging

/-!
# Vm/Frames — who refers to a frame

A frame is referred to by a *site*: a present user entry, a page table, a page directory or a kernel
stack.  `Kernel.owner` is the ledger of these sites, and `Kernel.Frames held` is the invariant that
the paging code keeps while it has the references `held` in its hands:

* the reference counts are exact, and the frames of the free list are unreferenced;
* a *private* site is the only reference to its frame: tables, directories, stacks and the entries
  with `PTE_W`;
* an absent entry has no address, so that `set_page_flags_in_mem` may `|=` one in.

Every lemma below is one move of a reference.  The kernel half of a directory is no site: it maps
every frame.
-/

namespace Xv6

open Outcome Function Ledger List

/-- A place that refers to a frame; a user entry is named by its page number. -/
inductive Site where
  | pte (d v : ℕ)
  | table (d : ℕ) (x : Fin 1024)
  | dir (d : ℕ)
  | kstack (pid : ℕ)
  deriving DecidableEq

/-- The frame a present entry maps. -/
def Pte.frame (e : Pte) : Option ℕ := if e.p then some e.addr else none

theorem Pte.frame_eq_some {e : Pte} {f : ℕ} : e.frame = some f ↔ e.p = true ∧ e.addr = f := by
  simp [Pte.frame]

/-- What the entry of page `v` looks like.  In the user half an absent entry has no address and a
present one is writable or copy-on-write; the kernel half knows neither paging nor copy-on-write, and
is closed to user mode. -/
structure Pte.Fit (e : Pte) (v : ℕ) : Prop where
  absent : v < userPages → e.p = false → e.addr = 0
  present : v < userPages → e.p = true → e.w = true ∨ e.cow = true
  kernel : userPages ≤ v → e.pg = false ∧ e.cow = false ∧ e.u = false

/-- The entries of a new table fit anywhere. -/
theorem Pte.fit_zero (v : ℕ) : ({} : Pte).Fit v :=
  ⟨fun _ _ => rfl, nofun, fun _ => ⟨rfl, rfl, rfl⟩⟩

namespace Kernel

/-- The ledger of the sites. -/
def owner (k : Kernel) : Site → Option ℕ
  | .pte d v => if v < userPages then (k.walkpgdir d (v * pgSize)).bind Pte.frame else none
  | .table d x => ((k.dirs d).bind fun pd => pd.table x).map PageTable.frame
  | .dir d => (k.dirs d).map fun _ => d
  | .kstack pid => (k.procs pid).map Proc.kstack

/-- The sites that share their frame with no other. -/
def Private (k : Kernel) : Site → Prop
  | .pte d v => ∃ e, k.walkpgdir d (v * pgSize) = some e ∧ e.w = true
  | _ => True

/-- **The frame invariant**, with the references `held` counted but in no site. -/
structure Frames (k : Kernel) (held : Multiset ℕ) : Prop where
  exact : Ledger.Exact k.owner held k.kmem.referencesCount
  nodup : k.kmem.freelist.Nodup
  free : ∀ f ∈ k.kmem.freelist, Ledger.total k.owner held f = 0
  managed : ∀ f, f ∈ k.kmem.freelist ∨ Ledger.total k.owner held f ≠ 0 → k.kmem.Managed f
  kend_pos : 0 < k.kmem.kend
  sole : ∀ s f, k.owner s = some f → k.Private s → Ledger.total k.owner held f = 1
  fit : ∀ d va e, k.walkpgdir d va = some e → e.Fit (vpn va)

/-! ## The ledger after an update -/

/-- The address of a user page names its site. -/
theorem owner_pte (k : Kernel) (d : ℕ) {va : ℕ} (hva : vpn va < userPages) :
    k.owner (.pte d (vpn va)) = (k.walkpgdir d va).bind Pte.frame := by
  rw [owner, if_pos hva, k.walkpgdir_congr d (vpn_mul hva)]

theorem owner_pte_of_walk {k : Kernel} {d va : ℕ} {e : Pte} (hva : vpn va < userPages)
    (hw : k.walkpgdir d va = some e) : k.owner (.pte d (vpn va)) = e.frame := by
  rw [owner_pte k d hva, hw, Option.bind_some]

theorem private_pte {k : Kernel} {d va : ℕ} {e : Pte} (hva : vpn va < userPages)
    (hw : k.walkpgdir d va = some e) : k.Private (.pte d (vpn va)) ↔ e.w = true := by
  have hv := vpn_mul hva
  simp [Private, k.walkpgdir_congr d hv, hw]

/-- A site in use is below `KERNBASE`. -/
theorem lt_of_owner_pte {k : Kernel} {d v f : ℕ} (h : k.owner (.pte d v) = some f) :
    v < userPages := by
  by_contra hv
  rw [owner, if_neg hv] at h
  cases h

/-- A store to an entry moves neither table nor directory nor stack. -/
theorem owner_setPte_of_not_pte (k : Kernel) (d va : ℕ) (e : Pte) {s : Site}
    (hs : ∀ d v, s ≠ .pte d v) : (k.setPte d va e).owner s = k.owner s := by
  cases s with
  | pte d' v => exact absurd rfl (hs d' v)
  | table d' x =>
    rw [owner, owner]
    by_cases hd : d' = d
    · subst hd
      cases hpd : k.dirs d' with
      | none => simp [setPte, hpd]
      | some pd => simp [setPte, hpd, PageDir.frame_setPte]
    · simp [setPte, hd]
  | dir d' =>
    rw [owner, owner]
    by_cases hd : d' = d
    · subst hd
      simp [setPte, Function.comp_def]
    · simp [setPte, hd]
  | kstack pid => rfl

theorem owner_setPte_of_ne (k : Kernel) (d va : ℕ) (e : Pte) {d' v : ℕ}
    (hs : ¬(d' = d ∧ v = vpn va)) :
    (k.setPte d va e).owner (.pte d' v) = k.owner (.pte d' v) := by
  rw [owner, owner]
  by_cases hu : v < userPages
  · rw [if_pos hu, if_pos hu, walkpgdir_setPte, vpn_mul hu, if_neg hs]
  · rw [if_neg hu, if_neg hu]

theorem owner_setPte {k : Kernel} {d va : ℕ} {e0 : Pte} (e : Pte) (hva : vpn va < userPages)
    (hw : k.walkpgdir d va = some e0) :
    (k.setPte d va e).owner = update k.owner (.pte d (vpn va)) e.frame := by
  funext s
  by_cases hs : s = .pte d (vpn va)
  · subst hs
    rw [update_self, owner_pte_of_walk hva (walkpgdir_setPte_self e hw)]
  · rw [update_of_ne hs]
    cases s with
    | pte d' v => exact owner_setPte_of_ne k d va e (by simpa using hs)
    | table d' x => exact owner_setPte_of_not_pte k d va e (by simp)
    | dir d' => exact owner_setPte_of_not_pte k d va e (by simp)
    | kstack pid => rfl

/-- A store to the kernel half moves no reference. -/
theorem owner_setPte_kernel {k : Kernel} {d va : ℕ} (e : Pte) (hva : userPages ≤ vpn va) :
    (k.setPte d va e).owner = k.owner := by
  funext s
  cases s with
  | pte d' v =>
    by_cases hs : d' = d ∧ v = vpn va
    · rw [owner, owner, if_neg (by omega), if_neg (by omega)]
    · exact owner_setPte_of_ne k d va e hs
  | table d' x => exact owner_setPte_of_not_pte k d va e (by simp)
  | dir d' => exact owner_setPte_of_not_pte k d va e (by simp)
  | kstack pid => rfl

theorem owner_addTable {k : Kernel} {d : ℕ} {pd : PageDir} {x : Fin 1024} (f : ℕ)
    (hd : k.dirs d = some pd) (hx : pd.table x = none) :
    (k.addTable d x f).owner = update k.owner (.table d x) (some f) := by
  funext s
  by_cases hs : s = .table d x
  · subst hs
    simp [owner, addTable, hd, PageDir.addTable, PageTable.zero]
  · rw [update_of_ne hs]
    cases s with
    | pte d' v =>
      rw [owner, owner, walkpgdir_addTable k x f d' _ (by simp [hd])]
      by_cases h : d' = d ∧ pdx (v * pgSize) = x
      · obtain ⟨rfl, rfl⟩ := h
        simp [walkpgdir, hd, PageDir.walk, hx, Pte.frame]
      · rw [if_neg h]
    | table d' y =>
      by_cases h : d' = d
      · subst h
        have hy : y ≠ x := fun h => hs (by rw [h])
        simp [owner, addTable, hd, PageDir.addTable, hy]
      · simp [owner, addTable, h]
    | dir d' =>
      by_cases h : d' = d
      · subst h
        simp [owner, addTable, hd]
      · simp [owner, addTable, h]
    | kstack pid => rfl

theorem owner_dropTable {k : Kernel} {d : ℕ} {x : Fin 1024}
    (hx : ∀ v, pdx (v * pgSize) = x → k.owner (.pte d v) = none) :
    (k.dropTable d x).owner = update k.owner (.table d x) none := by
  funext s
  by_cases hs : s = .table d x
  · subst hs
    cases hd : k.dirs d <;> simp [owner, dropTable, hd, PageDir.dropTable]
  · rw [update_of_ne hs]
    cases s with
    | pte d' v =>
      by_cases h : d' = d ∧ pdx (v * pgSize) = x
      · obtain ⟨rfl, h⟩ := h
        rw [hx v h]
        simp [owner, walkpgdir_dropTable, h]
      · rw [owner, owner, walkpgdir_dropTable, if_neg h]
    | table d' y =>
      by_cases h : d' = d
      · subst h
        have hy : y ≠ x := fun h => hs (by rw [h])
        cases hd : k.dirs d' <;> simp [owner, dropTable, hd, PageDir.dropTable, hy]
      · simp [owner, dropTable, h]
    | dir d' =>
      by_cases h : d' = d
      · subst h
        simp [owner, dropTable, Function.comp_def]
      · simp [owner, dropTable, h]
    | kstack pid => rfl

/-- A directory without tables has no other site. -/
theorem owner_setDir_empty {k : Kernel} {d : ℕ} (hd : k.dirs d = none) :
    (k.setDir d (some .empty)).owner = update k.owner (.dir d) (some d) := by
  funext s
  by_cases hs : s = .dir d
  · subst hs
    simp [owner, setDir]
  · rw [update_of_ne hs]
    cases s with
    | pte d' v =>
      by_cases h : d' = d
      · subst h
        simp [owner, setDir, walkpgdir, hd]
      · simp [owner, setDir, walkpgdir, h]
    | table d' x =>
      by_cases h : d' = d
      · subst h
        simp [owner, setDir, hd, PageDir.empty]
      · simp [owner, setDir, h]
    | dir d' =>
      have h : d' ≠ d := fun h => hs (by rw [h])
      simp [owner, setDir, h]
    | kstack pid => rfl

theorem owner_setDir_none {k : Kernel} {d : ℕ} {pd : PageDir} (hd : k.dirs d = some pd)
    (hpd : ∀ x, pd.table x = none) :
    (k.setDir d none).owner = update k.owner (.dir d) none := by
  funext s
  by_cases hs : s = .dir d
  · subst hs
    simp [owner, setDir]
  · rw [update_of_ne hs]
    cases s with
    | pte d' v =>
      by_cases h : d' = d
      · subst h
        simp [owner, setDir, walkpgdir, hd, PageDir.walk, hpd]
      · simp [owner, setDir, walkpgdir, h]
    | table d' x =>
      by_cases h : d' = d
      · subst h
        simp [owner, setDir, hd, hpd]
      · simp [owner, setDir, h]
    | dir d' =>
      have h : d' ≠ d := fun h => hs (by rw [h])
      simp [owner, setDir, h]
    | kstack pid => rfl

/-- The ledger reads a process only for its stack. -/
theorem owner_procs (k : Kernel) (pid : ℕ) (q : Option Proc) :
    owner { k with procs := update k.procs pid q }
      = update k.owner (.kstack pid) (q.map Proc.kstack) := by
  funext s
  by_cases hs : s = .kstack pid
  · subst hs
    simp [owner]
  · rw [update_of_ne hs]
    cases s with
    | kstack q' =>
      have h : q' ≠ pid := fun h => hs (by rw [h])
      simp [owner, h]
    | pte d v => rfl
    | table d x => rfl
    | dir d => rfl

/-- An entry that a store leaves alone is as private as before. -/
theorem private_of_setPte {k : Kernel} {d va : ℕ} {e : Pte} {s : Site} {f : ℕ}
    (hs : s ≠ .pte d (vpn va)) (hf : k.owner s = some f) (h : (k.setPte d va e).Private s) :
    k.Private s := by
  cases s with
  | pte d' v =>
    obtain ⟨e', he', hw⟩ := h
    rw [walkpgdir_setPte, vpn_mul (lt_of_owner_pte hf), if_neg (by simpa using hs)] at he'
    exact ⟨e', he', hw⟩
  | table d' x => trivial
  | dir d' => trivial
  | kstack pid => trivial

/-- A directory without entries adds none. -/
theorem walkpgdir_of_setDir (k : Kernel) (d : ℕ) (pd : Option PageDir)
    (hpd : ∀ va, (pd.bind fun pd => pd.walk va) = none) (d' va : ℕ) (e : Pte)
    (h : (k.setDir d pd).walkpgdir d' va = some e) : k.walkpgdir d' va = some e := by
  by_cases hd : d' = d
  · subst hd
    simp [walkpgdir, setDir, hpd] at h
  · simpa [walkpgdir, setDir, hd] using h

/-- Where no entry is newly writable, no site is newly private. -/
theorem private_mono {k k' : Kernel} {s : Site}
    (h : ∀ d va e, k'.walkpgdir d va = some e → e.w = true → k.walkpgdir d va = some e)
    (hs : k'.Private s) : k.Private s := by
  cases s with
  | pte d v =>
    obtain ⟨e, he, hw⟩ := hs
    exact ⟨e, h d _ e he hw, hw⟩
  | table d x => trivial
  | dir d => trivial
  | kstack pid => trivial

/-! ## Moving a reference between a site and the hand -/

section Moves

variable {k k' : Kernel} {held held' : Multiset ℕ} {d va f : ℕ} {e e0 : Pte}

/-- A state with the same allocator and the same number of references keeps the invariant, if its
private sites were alone. -/
theorem Frames.relocate (h : k.Frames held) (hkmem : k'.kmem = k.kmem)
    (htot : Ledger.total k'.owner held' = Ledger.total k.owner held)
    (hsole : ∀ s f, k'.owner s = some f → k'.Private s → Ledger.total k.owner held f = 1)
    (hfit : ∀ d va e, k'.walkpgdir d va = some e → e.Fit (vpn va)) : k'.Frames held' where
  exact g := by
    rw [htot, hkmem]
    exact h.exact g
  nodup := hkmem ▸ h.nodup
  free g hg := by
    rw [htot]
    exact h.free g (hkmem ▸ hg)
  managed g hg := by
    rw [htot, hkmem] at hg
    rw [hkmem]
    exact h.managed g hg
  kend_pos := hkmem ▸ h.kend_pos
  sole s g hs hp := by
    rw [htot]
    exact hsole s g hs hp
  fit := hfit

/-- A held frame with count one has no other reference. -/
theorem Frames.total_held (h : k.Frames (f ::ₘ held)) (hc : k.kmem.referencesCount f = 1) :
    Ledger.total k.owner (f ::ₘ held) f = 1 := by
  rw [h.exact f, hc]
  rfl

/-- **A store to a user entry**, with what it does to the references left open. -/
theorem Frames.setPte (h : k.Frames held) (hva : vpn va < userPages) (hw : k.walkpgdir d va = some e0)
    (hfit : e.Fit (vpn va))
    (htot : Ledger.total (update k.owner (.pte d (vpn va)) e.frame) held'
      = Ledger.total k.owner held)
    (hsole : e.p = true → e.w = true → Ledger.total k.owner held e.addr = 1) :
    (k.setPte d va e).Frames held' := by
  have hown := owner_setPte e hva hw
  refine h.relocate rfl (by rw [hown, htot]) (fun s g hs hp => ?_) fun d' va' e' hw' => ?_
  · by_cases hsp : s = .pte d (vpn va)
    · subst hsp
      rw [hown, update_self] at hs
      obtain ⟨hep, rfl⟩ := Pte.frame_eq_some.mp hs
      exact hsole hep ((private_pte hva (walkpgdir_setPte_self e hw)).mp hp)
    · rw [hown, update_of_ne hsp] at hs
      exact h.sole s g hs (private_of_setPte hsp hs hp)
  · rcases walk_of_setPte hw' with ⟨hc, rfl⟩ | ⟨-, hw'⟩
    · exact hc.2 ▸ hfit
    · exact h.fit d' va' e' hw'

/-- **Mapping** a held frame at an absent entry. -/
theorem Frames.map (h : k.Frames (e.addr ::ₘ held)) (hva : vpn va < userPages)
    (hw : k.walkpgdir d va = some e0) (h0 : e0.p = false) (hp : e.p = true)
    (hfit : e.w = true ∨ e.cow = true)
    (hsole : e.w = true → k.kmem.referencesCount e.addr = 1) : (k.setPte d va e).Frames held := by
  have hnone : k.owner (.pte d (vpn va)) = none := by simp [owner_pte_of_walk hva hw, Pte.frame, h0]
  refine h.setPte hva hw ⟨fun _ h' => by simp [hp] at h', fun _ _ => hfit, fun h' => by omega⟩ ?_
    fun _ hw' => h.total_held (hsole hw')
  rw [Pte.frame_eq_some.mpr ⟨hp, rfl⟩, total_assign hnone]

/-- **Unmapping** a present entry. -/
theorem Frames.unmap (h : k.Frames held) (hva : vpn va < userPages)
    (hw : k.walkpgdir d va = some e0) (h0 : e0.p = true) (hp : e.p = false) (ha : e.addr = 0) :
    (k.setPte d va e).Frames (e0.addr ::ₘ held) := by
  have hsome : k.owner (.pte d (vpn va)) = some e0.addr := by
    simp [owner_pte_of_walk hva hw, Pte.frame, h0]
  refine h.setPte hva hw ⟨fun _ _ => ha, fun _ h' => by simp [hp] at h', fun h' => by omega⟩ ?_
    fun h' => by simp [hp] at h'
  have hframe : e.frame = none := by simp [Pte.frame, hp]
  rw [hframe, total_withdraw hsome]

/-- Changing the flags of an entry: `PTE_W` is set only on a frame without other references. -/
theorem Frames.reflag (h : k.Frames held) (hva : vpn va < userPages) (hw : k.walkpgdir d va = some e0)
    (hp : e.p = e0.p) (ha : e.addr = e0.addr) (hfit : e.p = true → e.w = true ∨ e.cow = true)
    (hsole : e.p = true → e.w = true → e0.w = true ∨ k.kmem.referencesCount e.addr = 1) :
    (k.setPte d va e).Frames held := by
  have hfr : e.frame = e0.frame := by simp [Pte.frame, hp, ha]
  have hown := owner_pte_of_walk hva hw
  refine h.setPte hva hw ⟨fun _ h' => ?_, fun _ => hfit, fun h' => by omega⟩ ?_ fun hep hew => ?_
  · rw [ha]
    exact (h.fit d va e0 hw).absent hva (by rw [← hp, h'])
  · rw [hfr, ← hown, update_eq_self]
  · have hs : k.owner (.pte d (vpn va)) = some e.addr := by
      rw [hown, ← hfr]
      exact Pte.frame_eq_some.mpr ⟨hep, rfl⟩
    rcases hsole hep hew with h' | h'
    · exact h.sole _ _ hs ((private_pte hva hw).mpr h')
    · rw [h.exact e.addr, h']
      rfl

/-- A store to the kernel half of a directory. -/
theorem Frames.setPte_kernel (h : k.Frames held) (hva : userPages ≤ vpn va)
    (he : e.pg = false ∧ e.cow = false ∧ e.u = false) : (k.setPte d va e).Frames held := by
  have hown := owner_setPte_kernel (k := k) (d := d) e hva
  refine h.relocate rfl (by rw [hown]) (fun s g hs hp => ?_) fun d' va' e' hw' => ?_
  · rw [hown] at hs
    refine h.sole s g hs (private_of_setPte ?_ hs hp)
    rintro rfl
    have := lt_of_owner_pte hs
    omega
  · rcases walk_of_setPte hw' with ⟨hc, rfl⟩ | ⟨-, hw'⟩
    · exact ⟨fun h' => by omega, fun h' => by omega, fun _ => he⟩
    · exact h.fit d' va' e' hw'

/-- **A page table** is installed in a frame without other references. -/
theorem Frames.addTable {pd : PageDir} {x : Fin 1024} (h : k.Frames (f ::ₘ held))
    (hd : k.dirs d = some pd) (hx : pd.table x = none) (hc : k.kmem.referencesCount f = 1) :
    (k.addTable d x f).Frames held := by
  have hown := owner_addTable f hd hx
  have hnone : k.owner (.table d x) = none := by simp [owner, hd, hx]
  have hwalk := fun d' va => walkpgdir_addTable k x f d' va (by simp [hd] : (k.dirs d).isSome)
  refine h.relocate rfl (by rw [hown, total_assign hnone]) (fun s g hs hp => ?_)
    fun d' va' e' hw' => ?_
  · rw [hown] at hs
    by_cases hst : s = .table d x
    · subst hst
      obtain rfl : f = g := by simpa using hs
      exact h.total_held hc
    · rw [update_of_ne hst] at hs
      refine h.sole s g hs (private_mono (fun d' va' e' he' hw' => ?_) hp)
      rw [hwalk] at he'
      split at he'
      · cases he'
        cases hw'
      · exact he'
  · rw [hwalk] at hw'
    split at hw'
    · cases hw'
      exact Pte.fit_zero _
    · exact h.fit d' va' e' hw'

/-- **A page table** without present user entries is taken out. -/
theorem Frames.dropTable {x : Fin 1024} (h : k.Frames held) (hx : k.owner (.table d x) = some f)
    (hnone : ∀ v, pdx (v * pgSize) = x → k.owner (.pte d v) = none) :
    (k.dropTable d x).Frames (f ::ₘ held) := by
  have hown := owner_dropTable hnone
  refine h.relocate rfl (by rw [hown, total_withdraw hx]) (fun s g hs hp => ?_)
    fun d' va' e' hw' => ?_
  · rw [hown] at hs
    by_cases hst : s = .table d x
    · subst hst
      simp at hs
    · rw [update_of_ne hst] at hs
      refine h.sole s g hs (private_mono (fun d' va' e' he' _ => ?_) hp)
      rw [walkpgdir_dropTable] at he'
      split at he'
      · cases he'
      · exact he'
  · rw [walkpgdir_dropTable] at hw'
    split at hw'
    · cases hw'
    · exact h.fit d' va' e' hw'

/-- **A new directory** lies in a frame without other references. -/
theorem Frames.newDir (h : k.Frames (d ::ₘ held)) (hd : k.dirs d = none)
    (hc : k.kmem.referencesCount d = 1) : (k.setDir d (some .empty)).Frames held := by
  have hown := owner_setDir_empty hd
  have hnone : k.owner (.dir d) = none := by simp [owner, hd]
  have hwalk := k.walkpgdir_of_setDir d (some .empty) fun va => by simp
  refine h.relocate rfl (by rw [hown, total_assign hnone]) (fun s g hs hp => ?_)
    fun d' va' e' hw' => h.fit d' va' e' (hwalk d' va' e' hw')
  rw [hown] at hs
  by_cases hst : s = .dir d
  · subst hst
    obtain rfl : d = g := by simpa using hs
    exact h.total_held hc
  · rw [update_of_ne hst] at hs
    exact h.sole s g hs (private_mono (fun d' va' e' he' _ => hwalk d' va' e' he') hp)

/-- **A directory** without tables is taken out. -/
theorem Frames.dropDir {pd : PageDir} (h : k.Frames held) (hd : k.dirs d = some pd)
    (hpd : ∀ x, pd.table x = none) : (k.setDir d none).Frames (d ::ₘ held) := by
  have hown := owner_setDir_none hd hpd
  have hsome : k.owner (.dir d) = some d := by simp [owner, hd]
  have hwalk := k.walkpgdir_of_setDir d none fun va => by simp
  refine h.relocate rfl (by rw [hown, total_withdraw hsome]) (fun s g hs hp => ?_)
    fun d' va' e' hw' => h.fit d' va' e' (hwalk d' va' e' hw')
  rw [hown] at hs
  by_cases hst : s = .dir d
  · subst hst
    simp at hs
  · rw [update_of_ne hst] at hs
    exact h.sole s g hs (private_mono (fun d' va' e' he' _ => hwalk d' va' e' he') hp)

/-- **A process** comes with its stack in a frame without other references. -/
theorem Frames.newProc {pid : ℕ} {p : Proc} (h : k.Frames (p.kstack ::ₘ held))
    (hp : k.procs pid = none) (hc : k.kmem.referencesCount p.kstack = 1) :
    (k.setProc pid p).Frames held := by
  have hown : (k.setProc pid p).owner = _ := owner_procs k pid (some p)
  have hnone : k.owner (.kstack pid) = none := by simp [owner, hp]
  refine h.relocate rfl (by rw [hown, Option.map_some, total_assign hnone])
    (fun s g hs hpr => ?_) h.fit
  rw [hown] at hs
  by_cases hst : s = .kstack pid
  · subst hst
    obtain rfl : p.kstack = g := by simpa using hs
    exact h.total_held hc
  · rw [update_of_ne hst] at hs
    exact h.sole s g hs (by cases s <;> exact hpr)

/-- **A process** goes and leaves its stack. -/
theorem Frames.dropProc {pid : ℕ} {p : Proc} (h : k.Frames held) (hp : k.procs pid = some p) :
    Frames { k with procs := update k.procs pid none } (p.kstack ::ₘ held) := by
  have hown := owner_procs k pid none
  have hsome : k.owner (.kstack pid) = some p.kstack := by simp [owner, hp]
  refine h.relocate rfl (by rw [hown, Option.map_none, total_withdraw hsome])
    (fun s g hs hpr => ?_) h.fit
  rw [hown] at hs
  by_cases hst : s = .kstack pid
  · subst hst
    simp at hs
  · rw [update_of_ne hst] at hs
    exact h.sole s g hs (by cases s <;> exact hpr)

/-- What the ledger and the entries do not read may change freely. -/
theorem Frames.congr (h : k.Frames held) (hkmem : k'.kmem = k.kmem) (hdirs : k'.dirs = k.dirs)
    (hstack : ∀ pid, (k'.procs pid).map Proc.kstack = (k.procs pid).map Proc.kstack) :
    k'.Frames held := by
  have hwalk : ∀ d va, k'.walkpgdir d va = k.walkpgdir d va := fun d va => by
    rw [walkpgdir, hdirs, walkpgdir]
  have hown : k'.owner = k.owner := by
    funext s
    cases s with
    | pte d v => rw [owner, owner, hwalk]
    | table d x => rw [owner, owner, hdirs]
    | dir d => rw [owner, owner, hdirs]
    | kstack pid => exact hstack pid
  refine h.relocate hkmem (by rw [hown]) (fun s g hs hp => ?_)
    fun d va e hw => h.fit d va e (by rw [← hwalk, hw])
  exact h.sole s g (hown ▸ hs) (private_mono (fun d va e he _ => by rw [← hwalk, he]) hp)

theorem Frames.setMem (h : k.Frames held) (f : ℕ) (pg : Page) : (k.setMem f pg).Frames held :=
  h.congr rfl rfl fun _ => rfl

/-- A process may change all but its stack. -/
theorem Frames.setProc {pid : ℕ} {p p' : Proc} (h : k.Frames held) (hp : k.procs pid = some p)
    (hstack : p'.kstack = p.kstack) : (k.setProc pid p').Frames held := by
  refine h.congr rfl rfl fun q => ?_
  by_cases hq : q = pid
  · subst hq
    rw [setProc_procs_self, hp, Option.map_some, Option.map_some, hstack]
  · rw [setProc_procs_of_ne k pid p' hq]

/-! ## Moving a reference between the hand and the counter -/

theorem kalloc_eq_some : k.kalloc = some (f, k') ↔
    ∃ m, k.kmem.kalloc = some (f, m) ∧ k' = { k with kmem := m } := by
  unfold kalloc
  simp only [Option.map_eq_some_iff, Prod.exists, Prod.mk.injEq]
  exact ⟨fun ⟨g, m, hm, hg, hk⟩ => ⟨m, hg ▸ hm, hk.symm⟩, fun ⟨m, hm, hk⟩ => ⟨f, m, hm, rfl, hk.symm⟩⟩

/-- The allocator replaced by one that differs in the count of `f`. -/
theorem Frames.recount {m : KMem} (h : k.Frames held) (hexact : Ledger.Exact k.owner held' m.referencesCount)
    (hkend : m.kend = k.kmem.kend) (hnodup : m.freelist.Nodup)
    (hfree : ∀ g ∈ m.freelist, Ledger.total k.owner held' g = 0)
    (hmanaged : ∀ g, g ∈ m.freelist ∨ Ledger.total k.owner held' g ≠ 0 →
      g ∈ k.kmem.freelist ∨ Ledger.total k.owner held g ≠ 0)
    (hsole : ∀ s g, k.owner s = some g → k.Private s → Ledger.total k.owner held' g = 1) :
    Frames { k with kmem := m } held' where
  exact := hexact
  nodup := hnodup
  free := hfree
  managed g hg := by
    have := h.managed g (hmanaged g hg)
    rwa [KMem.Managed, ← hkend] at this
  kend_pos := by
    have := h.kend_pos
    rwa [← hkend] at this
  sole := hsole
  fit := h.fit

/-- **`kalloc`** hands out a frame without references. -/
theorem Frames.kalloc (h : k.Frames held) (hk : k.kalloc = some (f, k')) :
    k'.Frames (f ::ₘ held) := by
  obtain ⟨m, hm, rfl⟩ := kalloc_eq_some.mp hk
  obtain ⟨hl, hm'⟩ := KMem.kalloc_eq_some.mp hm
  have hmem : f ∈ k.kmem.freelist := by rw [hl]; exact mem_cons_self
  have hnd := h.nodup
  rw [hl, nodup_cons] at hnd
  have hf := h.free f hmem
  refine h.recount ?_ (by rw [hm']) hnd.2 (fun g hg => ?_) (fun g hg => ?_) fun s g hs hp => ?_
  · rw [hm']
    exact h.exact.take hf
  · have hgf : g ≠ f := fun hgf => hnd.1 (hgf ▸ hg)
    rw [total_cons_of_ne _ hgf]
    exact h.free g (by rw [hl]; exact mem_cons_of_mem f hg)
  · by_cases hgf : g = f
    · exact .inl (hgf ▸ hmem)
    · rw [total_cons_of_ne _ hgf] at hg
      exact hg.imp (fun hg => by rw [hl]; exact mem_cons_of_mem f hg) id
  · have hgf : g ≠ f := fun hgf => ne_some_of_total_eq_zero hf s (hgf ▸ hs)
    rw [total_cons_of_ne _ hgf]
    exact h.sole s g hs hp

/-- The frame `kalloc` hands out has count one, and nothing but the allocator changes. -/
theorem kalloc_spec (hk : k.kalloc = some (f, k')) :
    k'.kmem.referencesCount f = 1 ∧ k'.mem = k.mem ∧ k'.dirs = k.dirs ∧ k'.procs = k.procs := by
  obtain ⟨m, hm, rfl⟩ := kalloc_eq_some.mp hk
  refine ⟨?_, rfl, rfl, rfl⟩
  change m.referencesCount f = 1
  rw [KMem.referencesCount_of_kalloc hm, update_self]

theorem kend_of_kalloc (hk : k.kalloc = some (f, k')) : k'.kmem.kend = k.kmem.kend := by
  obtain ⟨m, hm, rfl⟩ := kalloc_eq_some.mp hk
  have hm' := congrArg KMem.kend (KMem.kalloc_eq_some.mp hm).2
  exact hm'

/-- A frame on the free list has no site. -/
theorem Frames.owner_ne_of_kalloc (h : k.Frames held) (hk : k.kalloc = some (f, k')) (s : Site) :
    k.owner s ≠ some f := by
  obtain ⟨m, hm, rfl⟩ := kalloc_eq_some.mp hk
  obtain ⟨hl, -⟩ := KMem.kalloc_eq_some.mp hm
  exact ne_some_of_total_eq_zero (h.free f (by rw [hl]; exact mem_cons_self)) s

/-- The frame `kalloc` takes has no reference. -/
theorem Frames.count_of_free (h : k.Frames held) (hk : k.kalloc = some (f, k')) :
    k.kmem.referencesCount f = 0 := by
  obtain ⟨m, hm, rfl⟩ := kalloc_eq_some.mp hk
  have h0 := h.free f (by rw [(KMem.kalloc_eq_some.mp hm).1]; exact mem_cons_self)
  rw [h.exact f] at h0
  exact_mod_cast h0

/-- `kalloc` counts one frame only, and that one had no reference. -/
theorem Frames.count_of_kalloc {g : ℕ} (h : k.Frames held) (hk : k.kalloc = some (f, k'))
    (hg : k.kmem.referencesCount g ≠ 0) :
    k'.kmem.referencesCount g = k.kmem.referencesCount g := by
  have hgf : g ≠ f := fun heq => hg (heq ▸ h.count_of_free hk)
  obtain ⟨m, hm, rfl⟩ := kalloc_eq_some.mp hk
  change m.referencesCount g = _
  rw [KMem.referencesCount_of_kalloc hm, update_of_ne hgf]

/-- `kalloc` moves a frame from the list to the counts. -/
theorem within_of_kalloc {g : ℕ} (hk : k.kalloc = some (f, k'))
    (hg : g ∈ k'.kmem.freelist ∨ k'.kmem.referencesCount g ≠ 0) :
    g ∈ k.kmem.freelist ∨ k.kmem.referencesCount g ≠ 0 := by
  obtain ⟨m, hm, rfl⟩ := kalloc_eq_some.mp hk
  rw [(KMem.kalloc_eq_some.mp hm).1, mem_cons]
  by_cases hgf : g = f
  · exact .inl (.inl hgf)
  · refine hg.imp .inr fun hc => ?_
    have hc' : m.referencesCount g ≠ 0 := hc
    rwa [KMem.referencesCount_of_kalloc hm, update_of_ne hgf] at hc'

/-- `kfree` in one equation. -/
theorem kfree_eq_ok : k.kfree f = .ok k' ↔ ∃ m, k.kmem.kfree f = .ok m ∧
    k' = { k with
      kmem := m
      mem := if k.kmem.referencesCount f ≤ 1 then update k.mem f (fun _ => 1)
        else k.mem } := by
  unfold kfree
  rw [bind_eq_ok]
  simp only [pure_eq_ok, Except.ok.injEq, eq_comm (a := k')]

/-- **`kfree`** drops a held reference; the last one puts the frame on the free list. -/
theorem Frames.kfree (h : k.Frames (f ::ₘ held)) (hk : k.kfree f = .ok k') : k'.Frames held := by
  obtain ⟨m, hm, rfl⟩ := kfree_eq_ok.mp hk
  obtain ⟨-, hm'⟩ := KMem.kfree_eq_ok.mp hm
  have hf : Ledger.total k.owner (f ::ₘ held) f ≠ 0 := by rw [total_cons_self]; simp
  have hnf : f ∉ k.kmem.freelist := fun hmem => hf (h.free f hmem)
  have hlast := h.exact.total_eq_zero_iff
  have hpos : 1 ≤ k.kmem.referencesCount f := by
    have := h.exact.total_add_one
    by_contra hc
    have h0 : k.kmem.referencesCount f = 0 := by omega
    rw [h0] at this
    simp at this
  have hcases : ∀ g, g ∈ m.freelist → g = f ∧ k.kmem.referencesCount f = 1 ∨ g ∈ k.kmem.freelist := by
    intro g hg
    rw [hm'] at hg
    simp only at hg
    split at hg
    · exact (mem_cons.mp hg).imp (fun hg => ⟨hg, by omega⟩) id
    · exact .inr hg
  refine Frames.congr (k := { k with kmem := m }) (h.recount ?_ (by rw [hm']) ?_ (fun g hg => ?_)
    (fun g hg => ?_) fun s g hs hp => ?_) rfl rfl fun _ => rfl
  · rw [hm']
    exact h.exact.drop
  · rw [hm']
    simp only
    split
    · exact nodup_cons.mpr ⟨hnf, h.nodup⟩
    · exact h.nodup
  · rcases hcases g hg with ⟨rfl, hc⟩ | hg
    · exact hlast.mpr hc
    · have hgf : g ≠ f := fun hgf => hnf (hgf ▸ hg)
      rw [← total_cons_of_ne _ hgf]
      exact h.free g hg
  · by_cases hgf : g = f
    · exact .inr (hgf ▸ hf)
    · rw [total_cons_of_ne _ hgf]
      refine hg.imp (fun hg => ?_) id
      rcases hcases g hg with ⟨rfl, -⟩ | hg
      · exact absurd rfl hgf
      · exact hg
  · have hgf : g ≠ f := by
      rintro rfl
      exact total_cons_ne_one hs (h.sole s g hs hp)
    rw [← total_cons_of_ne _ hgf]
    exact h.sole s g hs hp

/-- **`inc_counter`** takes a second reference to the frame of a read-only entry. -/
theorem Frames.incCounter (h : k.Frames held) (hva : vpn va < userPages)
    (hw : k.walkpgdir d va = some e) (hp : e.p = true) (hro : e.w = false) :
    (k.incCounter e.addr).Frames (e.addr ::ₘ held) := by
  have hs : k.owner (.pte d (vpn va)) = some e.addr := by
    rw [owner_pte_of_walk hva hw]
    exact Pte.frame_eq_some.mpr ⟨hp, rfl⟩
  have hf : Ledger.total k.owner held e.addr ≠ 0 := total_ne_zero_of_ref hs
  refine h.recount h.exact.share rfl h.nodup (fun g hg => ?_) (fun g hg => ?_) fun s g hg hpr => ?_
  · have hgf : g ≠ e.addr := fun hgf => hf (hgf ▸ h.free g hg)
    rw [total_cons_of_ne _ hgf]
    exact h.free g hg
  · by_cases hgf : g = e.addr
    · exact .inr (hgf ▸ hf)
    · rwa [total_cons_of_ne _ hgf] at hg
  · have hgf : g ≠ e.addr := by
      rintro rfl
      have hne : s ≠ .pte d (vpn va) := by
        rintro rfl
        rw [private_pte hva hw, hro] at hpr
        cases hpr
      exact total_ne_one_of_refs hg hs hne (h.sole s _ hg hpr)
    rw [total_cons_of_ne _ hgf]
    exact h.sole s g hg hpr

/-- **`dec_counter`** drops a held reference, the last one included, and never frees the frame. -/
theorem Frames.decCounter (h : k.Frames (f ::ₘ held)) : (k.decCounter f).Frames held := by
  refine h.recount h.exact.drop rfl h.nodup (fun g hg => ?_) (fun g hg => ?_) fun s g hs hp => ?_
  · have hgf : g ≠ f := by
      rintro rfl
      have := h.free g hg
      rw [total_cons_self] at this
      simp at this
    rw [← total_cons_of_ne _ hgf]
    exact h.free g hg
  · refine hg.imp id fun hg => ?_
    by_cases hgf : g = f
    · rw [hgf, total_cons_self]
      simp
    · rwa [total_cons_of_ne _ hgf]
  · have hgf : g ≠ f := by
      rintro rfl
      exact total_cons_ne_one hs (h.sole s g hs hp)
    rw [← total_cons_of_ne _ hgf]
    exact h.sole s g hs hp

/-- A mapped frame has a positive count. -/
theorem Frames.count_pos (h : k.Frames held) {s : Site} (hs : k.owner s = some f) :
    0 < k.kmem.referencesCount f := by
  have : Ledger.total k.owner held f ≠ 0 := total_ne_zero_of_ref hs
  rw [h.exact f] at this
  exact Nat.pos_of_ne_zero fun h0 => this (by rw [h0]; rfl)

/-- The frame of an absent entry has count zero: it is not managed. -/
theorem Frames.count_zero (h : k.Frames held) : k.kmem.referencesCount 0 = 0 := by
  by_contra h0
  have hm := h.managed 0 (.inr (by rw [h.exact 0]; exact_mod_cast h0))
  have := h.kend_pos
  simp only [KMem.Managed] at hm
  omega

end Moves

end Kernel

end Xv6
