import Xv6.Proc.Process
import Xv6.Vm.Stable

/-!
# Proc/Fork — what `fork` does to two address spaces

`Forking` is the invariant of the loop of `copyonwriteuvm`: below the current address the entries of
the parent are shared and the child has a copy of each; above it the parent is untouched and the child
empty.  From it come the effect of `copyonwriteuvm` as a whole and that `fork` keeps `Kernel.Inv`.
-/

namespace Xv6

open Outcome List

/-- What `copyonwriteuvm` leaves of an entry of the parent. -/
def Pte.shared (e : Pte) : Pte := if e.pg then e else { e with cow := true, w := false }

/-- Sharing an entry keeps its frame. -/
theorem Pte.frame_shared (e : Pte) : e.shared.frame = e.frame := by
  unfold Pte.shared
  split <;> rfl

/-- The entry the child gets for it. -/
def Pte.copied (e : Pte) : Pte := if e.pg then { pg := true } else { e with cow := true, w := false }

namespace Kernel

variable {k k' k₀ : Kernel} {held : Multiset ℕ} {pid cur pgdir d a va f : ℕ} {p q : Proc} {e : Pte}
  {pol : Policy} {acc : Access}

/-! ## The loop of `copyonwriteuvm` -/

/-- Directory `d` is the copy of `pgdir` up to address `a`, and `k₀` was the state before. -/
structure Forking (k₀ k : Kernel) (held : Multiset ℕ) (pgdir d a : ℕ) : Prop where
  inv : k.Inv held
  sole : ∀ f ∈ held, k.kmem.referencesCount f = 1
  ne : pgdir ≠ d
  new : k₀.dirs d = none
  alone : ∀ q r, k.procs q = some r → r.pgdir ≠ d
  live : (k.dirs d).isSome
  mem : k.mem = k₀.mem
  procs : k.procs = k₀.procs
  nextpid : k.nextpid = k₀.nextpid
  done : ∀ va, va < a → ∃ e, k₀.walkpgdir pgdir va = some e ∧ (e.pg = false → e.p = true) ∧
    k.walkpgdir pgdir va = some e.shared ∧ k.walkpgdir d va = some e.copied
  parent : ∀ va, a ≤ va → va < kernBase → k.walkpgdir pgdir va = k₀.walkpgdir pgdir va
  kernel : ∀ va, userPages ≤ vpn va → k.walkpgdir pgdir va = k₀.walkpgdir pgdir va
  child : ∀ va, a ≤ va → va < kernBase → ∀ e, k.walkpgdir d va = some e → e = {}
  others : ∀ d' va, d' ≠ pgdir → d' ≠ d → k.walkpgdir d' va = k₀.walkpgdir d' va

/-- **What one iteration of `copyonwriteuvm` can do**: mark the page paged out in the child, or share
its frame. -/
theorem cowPage_eq_ok (ha : UserPage a) (h : cowPage pgdir d a k = .ok k') :
    ∃ e, k.walkpgdir pgdir a = some e ∧
      (e.pg = true ∧ (∃ e', k.walkpgdir d a = some e' ∧ k' = k.setPte d a e'.inDisk) ∨
        e.pg = false ∧ e.p = true ∧ ∃ e' k1,
          ((k.setPte pgdir a e.shared).incCounter e.addr).walkpgdirAlloc d a = some (e', k1) ∧
            e'.p = false ∧ k' = k1.setPte d a e.copied) := by
  unfold cowPage at h
  split at h
  · cases h
  · rename_i e he
    refine ⟨e, he, ?_⟩
    split at h
    · rename_i hpg
      unfold setPageFlagsInDisk at h
      split at h
      · cases h
      · rename_i e' he'
        cases h
        exact .inl ⟨hpg, e', he', rfl⟩
    · rename_i hpg
      split at h
      · cases h
      · rename_i hep
        obtain ⟨⟨r, k1⟩, hk1, h⟩ := bind_eq_ok.mp h
        have hep : e.p = true := by simpa using hep
        have hpg : e.pg = false := by simpa using hpg
        have hsh : e.shared = { e with cow := true, w := false } := by simp [Pte.shared, hpg]
        have hco : e.copied = { e with cow := true, w := false, p := true } := by
          simp [Pte.copied, hpg, hep]
        rcases mappages_eq_ok ha hk1 with ⟨rfl, rfl⟩ | ⟨rfl, e', k2, hw, hep', rfl⟩
        · cases h
        · cases h
          exact .inr ⟨hpg, hep, e', k2, hsh ▸ hw, hep', by rw [hco]⟩

/-- The pages of two different addresses below one bound. -/
theorem vpn_ne_of_page (ha : UserPage a) (hva : va < kernBase) (h : va < a ∨ a + pgSize ≤ va) :
    vpn va ≠ vpn a := by
  obtain ⟨h1, h2⟩ := ha
  simp only [vpn, pgSize, kernBase] at *
  omega

theorem vpn_eq_of_page (ha : UserPage a) (h1 : a ≤ va) (h2 : va < a + pgSize) : vpn va = vpn a := by
  obtain ⟨h3, h4⟩ := ha
  simp only [vpn, pgSize, kernBase] at *
  omega

section

variable (h : Forking k₀ k held pgdir d a)

include h

/-- **One page further**: the entries of page `a` are in their state after the copy, and of the other ones only
tables of the child have come. -/
theorem Forking.next (ha : UserPage a) (hw : k.walkpgdir pgdir a = some e)
    (hep : e.pg = false → e.p = true) (hinv : k'.Inv held) (hsole : ∀ f ∈ held, k'.kmem.referencesCount f = 1)
    (hlive : (k'.dirs d).isSome = (k.dirs d).isSome) (hmem : k'.mem = k.mem) (hprocs : k'.procs = k.procs)
    (hnext : k'.nextpid = k.nextpid) (hpar : k'.walkpgdir pgdir a = some e.shared)
    (hch : k'.walkpgdir d a = some e.copied)
    (hwalk : ∀ d' va, d' ≠ pgdir ∧ d' ≠ d ∨ vpn va ≠ vpn a → k'.walkpgdir d' va = k.walkpgdir d' va ∨
      d' = d ∧ k.walkpgdir d' va = none ∧ k'.walkpgdir d' va = some {}) :
    Forking k₀ k' held pgdir d (a + pgSize) := by
  have hout : ∀ {d' va : ℕ}, d' ≠ d → d' ≠ pgdir ∨ vpn va ≠ vpn a → k'.walkpgdir d' va = k.walkpgdir d' va :=
    fun hd hv => (hwalk _ _ (hv.imp_left (⟨·, hd⟩))).resolve_right fun hr => hd hr.1
  refine ⟨hinv, hsole, h.ne, h.new, hprocs ▸ h.alone, hlive.trans h.live, hmem.trans h.mem,
    hprocs.trans h.procs, hnext.trans h.nextpid, fun va hva => ?_, fun va hlo hhi => ?_, fun va hv => ?_,
    fun va hlo hhi e' he' => ?_, fun d' va hp' hd' => (hout hd' (.inl hp')).trans (h.others d' va hp' hd')⟩
  · by_cases hlt : va < a
    · obtain ⟨e0, h0, h1, h2, h3⟩ := h.done va hlt
      have hv := vpn_ne_of_page ha (by have := ha.1; omega) (.inl hlt)
      refine ⟨e0, h0, h1, (hout h.ne (.inr hv)).trans h2, ?_⟩
      rcases hwalk d va (.inr hv) with heq | ⟨-, hn, -⟩
      · rw [heq, h3]
      · rw [h3] at hn
        cases hn
    · have hv := vpn_eq_of_page ha (by omega) hva
      have hw0 : k₀.walkpgdir pgdir a = some e := by rw [← h.parent a le_rfl ha.1, hw]
      exact ⟨e, (k₀.walkpgdir_congr pgdir hv).trans hw0, hep, (k'.walkpgdir_congr pgdir hv).trans hpar,
        (k'.walkpgdir_congr d hv).trans hch⟩
  · rw [hout h.ne (.inr (vpn_ne_of_page ha hhi (.inr hlo)))]
    exact h.parent va (by omega) hhi
  · have hne : vpn va ≠ vpn a := by
      have := vpn_lt_of_lt ha.1
      omega
    rw [hout h.ne (.inr hne), h.kernel va hv]
  · rcases hwalk d va (.inr (vpn_ne_of_page ha hhi (.inr hlo))) with heq | ⟨-, -, hz⟩
    · exact h.child va (by omega) hhi e' (heq ▸ he')
    · exact Option.mem_unique he' hz

theorem Forking.pageOut {e' : Pte} (ha : UserPage a)
    (hw : k.walkpgdir pgdir a = some e) (hpg : e.pg = true) (hw' : k.walkpgdir d a = some e') :
    Forking k₀ (k.setPte d a e'.inDisk) held pgdir d (a + pgSize) := by
  obtain rfl := h.child a le_rfl ha.1 e' hw'
  have hf : (k.setPte d a (Pte.inDisk {})).Frames held :=
    h.inv.frames.reflag (vpn_lt_of_lt ha.1) hw' rfl rfl nofun
      nofun
  refine h.next ha hw (by simp [hpg]) (h.inv.setPte_absent hf hw' rfl) h.sole (isSome_dirs_setPte ..) rfl rfl rfl
    ?_ ?_ fun d' va hv => .inl (walkpgdir_setPte_of_ne (hv.imp_left And.right))
  · rw [walkpgdir_setPte_of_ne (.inl h.ne), hw]
    simp [Pte.shared, hpg]
  · rw [walkpgdir_setPte_self _ hw']
    simp [Pte.copied, hpg, Pte.inDisk]

/-- A held frame is in no page table, so sharing a frame does not touch its count. -/
theorem Forking.ne_held {g : ℕ} (ha : UserPage a)
    (hw : k.walkpgdir pgdir a = some e) (hep : e.p = true) (hg : g ∈ held) : g ≠ e.addr := by
  rintro rfl
  have hown : k.owner (.pte pgdir (vpn a)) = some e.addr := by
    rw [owner_pte_of_walk (vpn_lt_of_lt ha.1) hw]
    exact Pte.frame_eq_some.mpr ⟨hep, rfl⟩
  obtain ⟨rest, rfl⟩ := Multiset.exists_cons_of_mem hg
  have h1 := h.inv.frames.exact e.addr
  rw [h.sole e.addr hg] at h1
  exact Ledger.total_cons_ne_one hown h1

end

/-- The entry of the parent becomes read-only. -/
theorem Inv.share (h : k.Inv held) (ha : UserPage a) (hw : k.walkpgdir pgdir a = some e)
    (hpg : e.pg = false) (hep : e.p = true) :
    ((k.setPte pgdir a e.shared).incCounter e.addr).Inv (e.addr ::ₘ held) := by
  have hsh : e.shared = { e with cow := true, w := false } := by simp [Pte.shared, hpg]
  have hv := vpn_lt_of_lt ha.1
  have hf : (k.setPte pgdir a e.shared).Frames held := by
    rw [hsh]
    exact h.frames.reflag hv hw rfl rfl (fun _ => .inr rfl) nofun
  have h1 : (k.setPte pgdir a e.shared).Inv held := h.setPte hf (.inl (by rw [hsh]; exact hep))
  have hf1 := h1.frames.incCounter hv (walkpgdir_setPte_self e.shared hw) (by rw [hsh]; exact hep)
    (by rw [hsh])
  have haddr : e.shared.addr = e.addr := by rw [hsh]
  rw [haddr] at hf1
  exact h1.of_dirs hf1 rfl rfl rfl rfl

theorem Forking.share {e' : Pte} {k1 : Kernel} (h : Forking k₀ k held pgdir d a) (ha : UserPage a)
    (hw : k.walkpgdir pgdir a = some e) (hpg : e.pg = false) (hep : e.p = true)
    (hw' : ((k.setPte pgdir a e.shared).incCounter e.addr).walkpgdirAlloc d a = some (e', k1))
    (hep' : e'.p = false) : Forking k₀ (k1.setPte d a e.copied) held pgdir d (a + pgSize) := by
  have hco : e.copied = { e with cow := true, w := false, addr := e.addr, p := true } := by
    simp [Pte.copied, hpg, hep]
  have hi := h.inv.share ha hw hpg hep
  refine h.next ha hw (fun _ => hep) ?_ (fun g hg => ?_) ?_ (alloc_spec hw').1 (procs_of_alloc hw' :)
    (alloc_spec hw').2.1 ?_ (walkpgdir_setPte_self _ (walkpgdir_of_alloc hw')) fun d' va hv => ?_
  · rw [hco]
    exact hi.mapPage { e with cow := true, w := false } ha hw' hep' (.inr rfl)
      nofun
  · have hc : ((k.setPte pgdir a e.shared).incCounter e.addr).kmem.referencesCount g = 1 := by
      have hne := h.ne_held ha hw hep hg
      rw [incCounter_kmem, KMem.incCounter, KMem.setCounter_referencesCount,
        Function.update_of_ne hne]
      exact h.sole g hg
    exact (hi.frames.count_of_alloc hw' (by rw [hc]; decide)).trans hc
  · rw [isSome_dirs_setPte, isSome_alloc hw']
    exact isSome_dirs_setPte ..
  · rw [walkpgdir_setPte_of_ne (.inl h.ne), (walkpgdir_alloc hw' pgdir a).resolve_right fun hr => h.ne hr.1]
    exact walkpgdir_setPte_self _ hw
  · have hk : ((k.setPte pgdir a e.shared).incCounter e.addr).walkpgdir d' va = k.walkpgdir d' va := by
      rw [incCounter_walkpgdir, walkpgdir_setPte_of_ne (hv.imp_left And.left)]
    rw [walkpgdir_setPte_of_ne (hv.imp_left And.right), ← hk]
    exact walkpgdir_alloc hw' d' va

/-- **One iteration of `copyonwriteuvm`.** -/
theorem Forking.cowPage (h : Forking k₀ k held pgdir d a) (ha : UserPage a)
    (hk : cowPage pgdir d a k = .ok k') : Forking k₀ k' held pgdir d (a + pgSize) := by
  obtain ⟨e, hw, ⟨hpg, e', hw', rfl⟩ | ⟨hpg, hep, e', k1, hw', hep', rfl⟩⟩ := cowPage_eq_ok ha hk
  · exact h.pageOut ha hw hpg hw'
  · exact h.share ha hw hpg hep hw' hep'

/-- The loop runs over consecutive pages. -/
theorem Forking.loop : ∀ (n a : ℕ) {k k' : Kernel}, a % pgSize = 0 → a + n * pgSize ≤ kernBase →
    Forking k₀ k held pgdir d a →
    Outcome.loop (Kernel.cowPage pgdir d) ((List.range n).map fun i => a + i * pgSize) k = .ok k' →
    Forking k₀ k' held pgdir d (a + n * pgSize)
  | 0, a, k, k', _, _, h, hk => by
    cases hk
    simpa using h
  | n + 1, a, k, k', ha, hn, h, hk => by
    rw [range_succ_eq_map, map_cons, map_map, loop_cons] at hk
    obtain ⟨k1, hk1, hk⟩ := bind_eq_ok.mp hk
    have hmap : ((fun i => a + i * pgSize) ∘ Nat.succ) = fun i => a + pgSize + i * pgSize := by
      funext i
      simp only [Function.comp_apply, Nat.succ_eq_add_one]
      ring
    rw [hmap] at hk
    rw [Nat.zero_mul, Nat.add_zero] at hk1
    have hadd : a + (n + 1) * pgSize = a + pgSize + n * pgSize := by ring
    rw [hadd] at hn ⊢
    have hua : UserPage a := ⟨by simp only [pgSize, kernBase] at *; omega, ha⟩
    refine Forking.loop n (a + pgSize) ?_ hn (h.cowPage hua hk1) hk
    simp only [pgSize] at *
    omega

/-- The page addresses below `sz`. -/
theorem pagesFrom_zero {sz : ℕ} (h : sz < kernBase) : ∃ n, n * pgSize = pgRoundUp sz ∧
    pagesFrom 0 sz = (List.range n).map fun i => 0 + i * pgSize :=
  ⟨(sz + (pgSize - 1)) / pgSize, (pgRoundUp_of_lt h).symm, rfl⟩

/-- **The effect of `copyonwriteuvm`**, where it does not panic. -/
theorem Inv.copyonwriteuvm {r : Option ℕ} (h : k.Inv held)
    (hsole : ∀ f ∈ held, k.kmem.referencesCount f = 1) (hp : k.procs pid = some p)
    (hk : copyonwriteuvm k cur p.pgdir p.sz = .ok (r, k')) :
    k'.Inv held ∧ ∀ d, r = some d → Forking k k' held p.pgdir d (pgRoundUp p.sz) := by
  obtain ⟨⟨r', k1⟩, hk1, hk⟩ := bind_eq_ok.mp hk
  obtain ⟨h1, -, hb⟩ := h.setupkvm hk1
  cases r' with
  | none =>
    cases hk
    exact ⟨h1, nofun⟩
  | some d =>
    have hb := hb d rfl
    obtain ⟨k2, hk2, hk⟩ := bind_eq_ok.mp hk
    cases hk
    have hsz := (h.own pid p hp).size
    obtain ⟨n, hn, hpages⟩ := pagesFrom_zero hsz
    have hne : p.pgdir ≠ d := hb.alone h pid p (hb.procs ▸ hp)
    have hstart : Forking k k1 held p.pgdir d 0 := by
      refine ⟨h1, fun f hf => ?_, hne, hb.new, hb.alone h, hb.live, hb.mem, hb.procs, hb.nextpid,
        fun va hva => absurd hva (Nat.not_lt_zero va), fun va _ _ => ?_, fun va _ => ?_,
        fun va _ hva e he => ?_, fun d' va _ hd' => ?_⟩
      · have hc := hsole f hf
        rw [hb.counts f (by rw [hc]; decide), hc]
      · rw [walkpgdir, hb.others _ hne, walkpgdir]
      · rw [walkpgdir, hb.others _ hne, walkpgdir]
      · rw [hb.user va (vpn_lt_of_lt hva)] at he
        cases he
      · rw [walkpgdir, hb.others _ hd', walkpgdir]
    rw [hpages] at hk2
    have hle : 0 + n * pgSize ≤ kernBase := by
      rw [Nat.zero_add, hn, pgRoundUp_of_lt hsz]
      simp only [pgSize, kernBase] at *
      omega
    have hend := Forking.loop n 0 rfl hle hstart hk2
    rw [Nat.zero_add, hn] at hend
    exact ⟨hend.inv, fun d' hd' => by cases hd'; exact hend⟩

/-! ## The swap copy -/

/-- The slots `is` of the child `np'` are copies of those of its parent `p`; `np` was the child
before. -/
structure SlotsCopied (p : Proc) (is : List (Fin maxPsycPages)) (np np' : Proc) : Prop where
  pgdir : np'.pgdir = np.pgdir
  kstack : np'.kstack = np.kstack
  sz : np'.sz = np.sz
  timestamp : np'.timestamp = np.timestamp
  mem : ∀ i ∈ is, np'.memoryPages i = { p.memoryPages i with pgdir := np.pgdir }
  file : ∀ i ∈ is, np'.filePages i = { p.filePages i with pgdir := np.pgdir }
  page : ∀ i ∈ is, (p.filePages i).isUsed = true →
    np'.swapFile.page i = p.swapFile.page i ∧ (i + 1) * pgSize ≤ np'.swapFile.size
  rest : ∀ i ∉ is, np'.memoryPages i = np.memoryPages i ∧ np'.filePages i = np.filePages i ∧
    np'.swapFile.page i = np.swapFile.page i
  size : np.swapFile.size ≤ np'.swapFile.size

/-- **What one iteration of the swap copy does.** -/
theorem forkSlot_eq_ok {i : Fin maxPsycPages} {np np' : Proc}
    (h : forkSlot p i (k, np) = .ok (k', np')) :
    (∃ b, k' = { k with forkBuffer := b }) ∧ SlotsCopied p [i] np np' := by
  obtain ⟨⟨k1, np1⟩, h1, h⟩ := bind_eq_ok.mp h
  cases h
  have hrest : ∀ (q : Proc) (s t : Slot) (l : Fin maxPsycPages), l ≠ i →
      ((q.setMemSlot i s).setFileSlot i t).memoryPages l = q.memoryPages l ∧
        ((q.setMemSlot i s).setFileSlot i t).filePages l = q.filePages l := fun q s t l hl =>
    ⟨by simp [Proc.setMemSlot, Proc.setFileSlot, hl], by simp [Proc.setMemSlot, Proc.setFileSlot, hl]⟩
  split at h1
  · rename_i hu
    unfold forkPage at h1
    split at h1
    · cases h1
    · rename_i hread
      split at h1
      · cases h1
      · cases h1
        have hsz := (SwapFile.read_fst p.swapFile i k.forkBuffer).mp (not_not.mp hread)
        have hpage := SwapFile.read_snd k.forkBuffer hsz
        refine ⟨⟨_, rfl⟩, rfl, rfl, rfl, rfl, ?_, ?_, fun l hl _ => ?_, fun l hl => ?_, le_max_left ..⟩
        · simp [Proc.setMemSlot, Proc.setFileSlot, Proc.setSwapFile]
        · simp [Proc.setMemSlot, Proc.setFileSlot, Proc.setSwapFile]
        · obtain rfl := mem_singleton.mp hl
          refine ⟨?_, ?_⟩
          · exact (SwapFile.page_write ..).trans ((if_pos rfl).trans hpage)
          · refine le_trans ?_ (le_max_right ..)
            rw [Nat.add_mul, Nat.one_mul]
        · have hl : l ≠ i := fun he => hl (mem_singleton.mpr he)
          refine ⟨(hrest _ _ _ l hl).1, (hrest _ _ _ l hl).2, ?_⟩
          exact (SwapFile.page_write ..).trans (if_neg fun he => hl (Fin.ext he))
  · rename_i hu
    cases h1
    refine ⟨⟨_, rfl⟩, rfl, rfl, rfl, rfl, ?_, ?_, fun l hl hul => ?_, fun l hl => ?_, le_rfl⟩
    · simp [Proc.setMemSlot, Proc.setFileSlot]
    · simp [Proc.setMemSlot, Proc.setFileSlot]
    · obtain rfl := mem_singleton.mp hl
      exact absurd hul hu
    · have hl : l ≠ i := fun he => hl (mem_singleton.mpr he)
      exact ⟨(hrest _ _ _ l hl).1, (hrest _ _ _ l hl).2, rfl⟩

/-- Copying one slot and then others copies all of them. -/
theorem SlotsCopied.cons {i : Fin maxPsycPages} {is : List (Fin maxPsycPages)} {np np1 np' : Proc}
    (h : SlotsCopied p [i] np np1) (h' : SlotsCopied p is np1 np') :
    SlotsCopied p (i :: is) np np' where
  pgdir := h'.pgdir.trans h.pgdir
  kstack := h'.kstack.trans h.kstack
  sz := h'.sz.trans h.sz
  timestamp := h'.timestamp.trans h.timestamp
  mem l hl := by
    by_cases hin : l ∈ is
    · rw [h'.mem l hin, h.pgdir]
    · rw [(h'.rest l hin).1, h.mem l (by simpa [hin] using hl)]
  file l hl := by
    by_cases hin : l ∈ is
    · rw [h'.file l hin, h.pgdir]
    · rw [(h'.rest l hin).2.1, h.file l (by simpa [hin] using hl)]
  page l hl hu := by
    by_cases hin : l ∈ is
    · exact h'.page l hin hu
    · obtain ⟨h1, h2⟩ := h.page l (by simpa [hin] using hl) hu
      exact ⟨(h'.rest l hin).2.2.trans h1, h2.trans h'.size⟩
  rest l hl := by
    rw [mem_cons, not_or] at hl
    obtain ⟨h1, h2, h3⟩ := h.rest l (by simpa using hl.1)
    obtain ⟨h1', h2', h3'⟩ := h'.rest l hl.2
    exact ⟨h1'.trans h1, h2'.trans h2, h3'.trans h3⟩
  size := h.size.trans h'.size

/-- **The swap copy as a whole.** -/
theorem forkSlots_eq_ok : ∀ (is : List (Fin maxPsycPages)) {k k' : Kernel} {np np' : Proc},
    Outcome.loop (forkSlot p) is (k, np) = .ok (k', np') →
    (∃ b, k' = { k with forkBuffer := b }) ∧ SlotsCopied p is np np'
  | [], k, k', np, np', h => by
    cases h
    exact ⟨⟨_, rfl⟩, rfl, rfl, rfl, rfl, by simp, by simp, by simp, fun _ _ => ⟨rfl, rfl, rfl⟩, le_rfl⟩
  | i :: is, k, k', np, np', h => by
    obtain ⟨⟨k1, np1⟩, h1, h⟩ := bind_eq_ok.mp h
    obtain ⟨⟨b, rfl⟩, hc1⟩ := forkSlot_eq_ok h1
    obtain ⟨⟨b', rfl⟩, hc⟩ := forkSlots_eq_ok is h
    exact ⟨⟨b', rfl⟩, hc1.cons hc⟩

/-! ## `fork` -/

/-- Without memory there is no directory either. -/
theorem copyonwriteuvm_eq_none {sz : ℕ} (h : k.copyonwriteuvm cur pgdir sz = .ok (none, k')) :
    k.setupkvm cur = .ok (none, k') := by
  obtain ⟨⟨r, k1⟩, hk1, h⟩ := bind_eq_ok.mp h
  cases r with
  | none =>
    cases h
    exact hk1
  | some d =>
    obtain ⟨k2, -, h⟩ := bind_eq_ok.mp h
    cases h

/-- The child of `p` before the swap copy: stack `f` and directory `d` in the recycled entry `q`. -/
def newborn (q p : Proc) (f d : ℕ) : Proc where
  sz := p.sz
  pgdir := d
  kstack := f
  swapFile := .empty
  filePages i := { q.filePages i with isUsed := false }
  memoryPages i := { q.memoryPages i with isUsed := false }
  pageFaults := 0
  pagedOut := 0
  timestamp := p.timestamp
  rRobin := q.rRobin

/-- **What a successful `fork` does.** -/
theorem fork_eq_ok {cpid : ℕ} (hp : k.procs pid = some p)
    (h : fork k pid q = .ok (some cpid, k')) :
    ∃ f k1 k2 d b np, { k with nextpid := k.nextpid + 1 }.kalloc = some (f, k1) ∧
      k1.copyonwriteuvm pid p.pgdir p.sz = .ok (some d, k2) ∧ cpid = k.nextpid ∧
      k' = { k2 with forkBuffer := b }.setProc cpid np ∧
      (2 < pid → SlotsCopied p (List.finRange maxPsycPages) (newborn q p f d) np) ∧
      (¬ 2 < pid → np = newborn q p f d) := by
  replace h := of_proc_bind hp h
  unfold allocproc at h
  cases hk1 : ({ k with nextpid := k.nextpid + 1 } : Kernel).kalloc with
  | none =>
    rw [hk1] at h
    cases h
  | some x =>
    obtain ⟨f, k1⟩ := x
    rw [hk1] at h
    simp only at h
    obtain ⟨⟨r, k2⟩, hk2, h⟩ := bind_eq_ok.mp h
    cases r with
    | none =>
      obtain ⟨k3, hk3, h⟩ := bind_eq_ok.mp h
      cases h
    | some d =>
      obtain ⟨⟨k3, np⟩, hk3, h⟩ := bind_eq_ok.mp h
      cases h
      refine ⟨f, k1, k2, d, k3.forkBuffer, np, rfl, hk2, rfl, ?_⟩
      split at hk3
      · rename_i hpid
        obtain ⟨⟨b, rfl⟩, hc⟩ := forkSlots_eq_ok _ hk3
        exact ⟨rfl, fun _ => hc, fun h => absurd hpid h⟩
      · rename_i hpid
        cases hk3
        exact ⟨rfl, fun h => absurd h hpid, fun _ => rfl⟩

/-- **What a `fork` without memory does.** -/
theorem fork_eq_none (hp : k.procs pid = some p) (h : fork k pid q = .ok (none, k')) :
    k' = { k with nextpid := k.nextpid + 1 } ∨ ∃ f k1 k2, { k with nextpid := k.nextpid + 1 }.kalloc = some (f, k1) ∧
      k1.copyonwriteuvm pid p.pgdir p.sz = .ok (none, k2) ∧ k2.kfree f = .ok k' := by
  replace h := of_proc_bind hp h
  unfold allocproc at h
  cases hk1 : ({ k with nextpid := k.nextpid + 1 } : Kernel).kalloc with
  | none =>
    rw [hk1] at h
    cases h
    exact .inl rfl
  | some x =>
    obtain ⟨f, k1⟩ := x
    rw [hk1] at h
    simp only at h
    obtain ⟨⟨r, k2⟩, hk2, h⟩ := bind_eq_ok.mp h
    cases r with
    | none =>
      obtain ⟨k3, hk3, h⟩ := bind_eq_ok.mp h
      cases h
      exact .inr ⟨f, k1, k2, rfl, hk2, hk3⟩
    | some d =>
      obtain ⟨⟨k3, np⟩, -, h⟩ := bind_eq_ok.mp h
      cases h

/-- The next pid is given away. -/
theorem Inv.bumpPid (h : k.Inv held) : Inv { k with nextpid := k.nextpid + 1 } held :=
  ⟨h.frames.congr rfl rfl fun _ => rfl, h.live, h.apart,
    fun pid p hp => Nat.lt_succ_of_lt (h.fresh pid p hp), h.own,
    fun pid p hp => (h.steady pid p hp).of_walk fun _ _ => rfl, h.kdata⟩

/-- **A new process keeps the invariant**, with a stack and a directory of its own. -/
theorem Inv.newProc (h : k.Inv (p.kstack ::ₘ held)) (hnone : k.procs pid = none)
    (hpid : pid < k.nextpid) (hlive : (k.dirs p.pgdir).isSome)
    (halone : ∀ q r, k.procs q = some r → r.pgdir ≠ p.pgdir)
    (hc : k.kmem.referencesCount p.kstack = 1) (hown : p.Own) (hsteady : p.Steady k) :
    (k.setProc pid p).Inv held := by
  refine ⟨h.frames.newProc hnone hc, fun q r hr => ?_, fun q q' r r' hr hr' heq => ?_,
    fun q r hr => ?_, fun q r hr => ?_, fun q r hr => ?_, h.kdata⟩
  · rcases procs_of_setProc hr with ⟨-, rfl⟩ | ⟨-, hr⟩
    · exact hlive
    · exact h.live q r hr
  · rcases procs_of_setProc hr with ⟨rfl, rfl⟩ | ⟨-, hr0⟩
    · rcases procs_of_setProc hr' with ⟨rfl, -⟩ | ⟨-, hr'⟩
      · rfl
      · exact absurd heq.symm (halone q' r' hr')
    · rcases procs_of_setProc hr' with ⟨-, rfl⟩ | ⟨-, hr'⟩
      · exact absurd heq (halone q r hr0)
      · exact h.apart q q' r r' hr0 hr' heq
  · rcases procs_of_setProc hr with ⟨rfl, -⟩ | ⟨-, hr⟩
    · exact hpid
    · exact h.fresh q r hr
  · rcases procs_of_setProc hr with ⟨-, rfl⟩ | ⟨-, hr⟩
    · exact hown
    · exact h.own q r hr
  · rcases procs_of_setProc hr with ⟨-, rfl⟩ | ⟨-, hr⟩
    · exact hsteady.of_walk fun _ _ => rfl
    · exact (h.steady q r hr).of_walk fun _ _ => rfl

end Kernel

/-- What an unused entry of `ptable` may hold: its slots carry addresses of user pages, from a process
that is gone or from static storage. -/
structure Entry where
  proc : Proc
  memVa : ∀ i, UserPage (proc.memoryPages i).va
  fileVa : ∀ i, UserPage (proc.filePages i).va

/-- The entry a process leaves behind. -/
def Proc.Own.entry {p : Proc} (h : p.Own) : Entry := ⟨p, h.memVa, h.fileVa⟩

namespace Kernel

variable {k k' k₀ : Kernel} {held : Multiset ℕ} {pid cur pgdir d a va f : ℕ} {p : Proc} {e : Pte}
  {q : Entry} {pol : Policy} {acc : Access}

theorem own_newborn (q : Entry) (p : Proc) (f d : ℕ) (hsz : p.sz < kernBase) :
    (newborn q.proc p f d).Own :=
  ⟨hsz, q.memVa, q.fileVa, nofun, nofun⟩

theorem settled_newborn (q p : Proc) (f d : ℕ) (k : Kernel) : (newborn q p f d).Settled k :=
  ⟨nofun, nofun⟩

/-- The copied slots are the child's own. -/
theorem SlotsCopied.own {np np' : Proc} (h : SlotsCopied p (List.finRange maxPsycPages) np np')
    (ho : p.Own) (hsz : np.sz < kernBase) : np'.Own ∧ np'.AllOwn := by
  have hmem := fun i => h.mem i (mem_finRange i)
  have hfile := fun i => h.file i (mem_finRange i)
  have hall : np'.AllOwn :=
    ⟨fun i => by rw [hmem i, h.pgdir], fun i => by rw [hfile i, h.pgdir]⟩
  refine ⟨⟨h.sz ▸ hsz, fun i => ?_, fun i => ?_, fun i _ => hall.mem i, fun i _ => hall.file i⟩, hall⟩
  · rw [hmem i]
    exact ho.memVa i
  · rw [hfile i]
    exact ho.fileVa i

/-- **`fork` keeps the invariant.** -/
theorem Inv.fork {r : Option ℕ} (h : k.Inv 0) (hk : fork k pid q.proc = .ok (r, k')) : k'.Inv 0 := by
  obtain ⟨p, hp, hk'⟩ := proc_bind_eq_ok.mp hk
  have hb := h.bumpPid
  cases r with
  | some cpid =>
    obtain ⟨f, k1, k2, d, b, np, hk1, hk2, rfl, rfl, hcopy, hplain⟩ := fork_eq_ok hp hk
    have hspec := kalloc_spec hk1
    have hp1 : k1.procs pid = some p := hspec.2.2.2 ▸ hp
    have hnext1 : k1.nextpid = k.nextpid + 1 := by
      obtain ⟨m, -, rfl⟩ := kalloc_eq_some.mp hk1
      rfl
    obtain ⟨h2, hfork⟩ := (hb.kalloc hk1).copyonwriteuvm
      (fun g hg => by rw [Multiset.mem_singleton.mp hg, hspec.1]) hp1 hk2
    have hfork := hfork d rfl
    have ho := h.own pid p hp
    obtain ⟨hd, hstack, hown, hsteady⟩ : np.pgdir = d ∧ np.kstack = f ∧ np.Own ∧ np.Steady k2 := by
      by_cases hpid : 2 < pid
      · have hc := hcopy hpid
        obtain ⟨hown, hall⟩ := hc.own ho ho.size
        exact ⟨hc.pgdir, hc.kstack, hown, .inr hall⟩
      · rw [hplain hpid]
        exact ⟨rfl, rfl, own_newborn q p f d ho.size, .inl (settled_newborn ..)⟩
    subst hd hstack
    have h3 : Inv { k2 with forkBuffer := b } (np.kstack ::ₘ 0) :=
      h2.of_dirs (h2.frames.congr rfl rfl fun _ => rfl) rfl rfl rfl rfl
    refine h3.newProc ?_ ?_ hfork.live hfork.alone
      (hfork.sole np.kstack (Multiset.mem_cons_self ..)) hown (hsteady.of_walk fun _ _ => rfl)
    · -- no process has the next pid
      change k2.procs k.nextpid = none
      rw [hfork.procs, hspec.2.2.2]
      by_contra hne
      obtain ⟨r, hr⟩ := Option.ne_none_iff_exists'.mp hne
      exact absurd (h.fresh _ r hr) (Nat.lt_irrefl _)
    · change k.nextpid < k2.nextpid
      rw [hfork.nextpid, hnext1]
      exact Nat.lt_succ_self _
  | none =>
    rcases fork_eq_none hp hk with rfl | ⟨f, k1, k2, hk1, hk2, hk3⟩
    · exact hb
    · have hspec := kalloc_spec hk1
      have hp1 : k1.procs pid = some p := hspec.2.2.2 ▸ hp
      exact ((hb.kalloc hk1).copyonwriteuvm
        (fun g hg => by rw [Multiset.mem_singleton.mp hg, hspec.1]) hp1 hk2).1.kfree hk3

/-! ## What is about the processes alone -/

section Slack

variable {P : Kernel → Prop}

theorem Slack.cowPage (hs : Slack cur P) (h : P k) : Yields (cowPage pgdir d a k) P := by
  unfold Kernel.cowPage
  split
  · exact yields_error
  · rename_i e he
    refine .ite ?_ (.ite yields_error ?_)
    · unfold Kernel.setPageFlagsInDisk
      split
      · exact yields_error
      · exact yields_ok (hs.procs (k := k) rfl h)
    · have h1 : P ((k.setPte pgdir a { e with cow := true, w := false }).incCounter e.addr) :=
        hs.procs (k := k) rfl h
      exact (hs.mappages h1).bind fun r hr => .ite (yields_ok hr) yields_error

theorem Slack.copyonwriteuvm {sz : ℕ} (hs : Slack cur P) (h : P k) :
    Yields (copyonwriteuvm k cur pgdir sz) fun r => P r.2 := by
  refine (hs.setupkvm h).bind fun r hr => ?_
  obtain ⟨o, k1⟩ := r
  cases o with
  | none => exact yields_ok hr
  | some d =>
    have hloop : Yields (Outcome.loop (Kernel.cowPage pgdir d) (pagesFrom 0 sz) k1) P := fun _ hk' =>
      loop_inv (fun _ _ _ _ ha hb => hs.cowPage ha _ hb) hr hk'
    exact hloop.bind fun _ hr => yields_ok hr

/-- **`fork`**, for what is about the processes: the child is entered with the size and the stamps of its
parent. -/
theorem Slack.fork {q : Proc} {r : Option ℕ} (hs : Slack cur P) (h : P k)
    (hp : k.procs cur = some p) (hk : k.fork cur q = .ok (r, k')) :
    (r = none ∧ P k') ∨ ∃ k1 np, r = some k.nextpid ∧ P k1 ∧ k' = k1.setProc k.nextpid np ∧ np.sz = p.sz ∧
      np.timestamp = p.timestamp ∧
      ∀ j, np.inUse j = true → p.inUse j = true ∧ np.timeLoaded j = p.timeLoaded j := by
  have h0 : P { k with nextpid := k.nextpid + 1 } := hs.procs (k := k) rfl h
  cases r with
  | none =>
    refine .inl ⟨rfl, ?_⟩
    rcases fork_eq_none hp hk with rfl | ⟨f, k1, k2, hk1, hk2, hk3⟩
    · exact h0
    · have h2 : P k2 := hs.copyonwriteuvm (hs.kalloc h0 hk1) (none, k2) hk2
      exact hs.kfree h2 _ hk3
  | some cpid =>
    obtain ⟨f, k1, k2, d, b, np, hk1, hk2, rfl, rfl, hcopy, hplain⟩ := fork_eq_ok hp hk
    have h2 : P k2 := hs.copyonwriteuvm (hs.kalloc h0 hk1) (some d, k2) hk2
    have h3 : P { k2 with forkBuffer := b } := hs.procs (k := k2) rfl h2
    refine .inr ⟨_, np, rfl, h3, rfl, ?_⟩
    by_cases hpid : 2 < cur
    · have hc := hcopy hpid
      have hmem := fun i => hc.mem i (mem_finRange i)
      refine ⟨hc.sz, hc.timestamp, fun j hu => ⟨?_, ?_⟩⟩
      · rwa [Proc.inUse, hmem] at hu
      · rw [Proc.timeLoaded, hmem]
        rfl
    · -- `allocproc` has left no slot of the child in use
      rw [hplain hpid]
      exact ⟨rfl, rfl, fun j hu => absurd hu Bool.false_ne_true⟩

end Slack

end Kernel

end Xv6
