import Xv6.Fs.Inode
import Xv6.Lib.Owner

/-!
# Fs/Owner — every data block has one owner

The pointers of an inode are its direct pointers, its indirect pointer and the entries of its indirect
block (`Ptr`).  The sites of the file system are the pointers of its allocated inodes, and `Owns` says
that the data blocks marked used are exactly the blocks they hold, each once (`Owner.Exact`), and that
the blocks before the data are marked used, so that `balloc` never hands one out.

While `writei` or `itrunc` works on an inode, the copy in memory is ahead of the one on disk; so the
inodes are a parameter, and the disk is the special case between the calls.
-/

namespace Xv6

open Outcome Function Finset

/-- The first data block: the bitmap is the last of the blocks before. -/
def Superblock.datastart (sb : Superblock) : ℕ := sb.bmapstart + (sb.size / (bsize * 8) + 1)

/-- Data blocks. -/
def Superblock.IsData (sb : Superblock) (b : ℕ) : Prop := sb.datastart ≤ b ∧ b < sb.size

/-- A pointer of an inode. -/
inductive Ptr where
  | direct (i : Fin 12)
  | indirect
  | entry (j : Fin 128)
  deriving DecidableEq, Fintype

namespace Dinode

variable {d : Dinode} {block block' : ℕ → Block} {p : Ptr}

/-- The block a pointer names, or `0`. -/
def ptr (d : Dinode) (block : ℕ → Block) : Ptr → ℕ
  | .direct i => d.addrs i.castSucc
  | .indirect => d.addrs 12
  | .entry j => if d.addrs 12 = 0 then 0 else (block (d.addrs 12)).word j

/-- The number of pointers that are not set. -/
def missing (d : Dinode) (block : ℕ → Block) : ℕ := (Finset.univ.filter fun q => d.ptr block q = 0).card

/-- Only the indirect block is read. -/
theorem ptr_congr (h : d.addrs 12 ≠ 0 → block' (d.addrs 12) = block (d.addrs 12)) :
    d.ptr block' p = d.ptr block p := by
  cases p with
  | direct i => rfl
  | indirect => rfl
  | entry j =>
    simp only [ptr]
    split
    · rfl
    · rename_i hne
      rw [h hne]

end Dinode

/-- The pointer `bmap` goes through for block `bn` of a file. -/
def Ptr.ofBlock (bn : ℕ) : Ptr := if h : bn < 12 then .direct ⟨bn, h⟩ else .entry (Fs.indexOf bn)

/-- The pointer `addrs[k]`. -/
def Ptr.ofAddr (k : Fin 13) : Ptr := if h : k.val < 12 then .direct ⟨k, h⟩ else .indirect

theorem Ptr.ofAddr_castSucc (i : Fin 12) : ofAddr i.castSucc = .direct i := dif_pos i.isLt

theorem Dinode.ptr_ofAddr (d : Dinode) (block : ℕ → Block) (k : Fin 13) :
    d.ptr block (.ofAddr k) = d.addrs k := by
  rcases Fin.eq_castSucc_or_eq_last k with ⟨i, rfl⟩ | rfl
  · rw [Ptr.ofAddr_castSucc]
    rfl
  · rfl

theorem Ptr.ofBlock_injOn {bn bn' : ℕ} (hbn : bn < maxFile) (hbn' : bn' < maxFile)
    (h : ofBlock bn = ofBlock bn') : bn = bn' := by
  simp only [maxFile, ndirect, nindirect] at hbn hbn'
  simp only [ofBlock] at h
  split at h <;> split at h
  · simpa using h
  · cases h
  · cases h
  · injection h with h
    have hv := congrArg Fin.val h
    simp only [Fs.indexOf, ndirect, Fin.val_ofNat] at hv
    omega

theorem Ptr.ofBlock_ne_indirect (bn : ℕ) : ofBlock bn ≠ .indirect := by
  rw [ofBlock]
  split <;> exact nofun

namespace Fs

variable {fs fs' : Fs} {dn dn' : ℕ → Dinode} {ip ip' : Dinode} {inum i b bn : ℕ} {p : Ptr} {v : Block}

/-- An allocated inode. -/
def Live (sb : Superblock) (dn : ℕ → Dinode) (i : ℕ) : Prop := i < sb.ninodes ∧ (dn i).type ≠ .free

instance (sb : Superblock) (dn : ℕ → Dinode) (i : ℕ) : Decidable (Live sb dn i) :=
  inferInstanceAs (Decidable (_ ∧ _))

/-- What a site holds. -/
def holder (fs : Fs) (dn : ℕ → Dinode) (x : ℕ × Ptr) : ℕ :=
  if Live fs.sb dn x.1 then (dn x.1).ptr fs.block x.2 else 0

/-- **Every data block has one owner**, for the inodes `dn`. -/
structure Owns (fs : Fs) (dn : ℕ → Dinode) : Prop where
  exact : Owner.Exact fs.sb.IsData fs.used (fs.holder dn)
  low : ∀ b < fs.sb.datastart, fs.used b
  size_lt : fs.sb.size < 2 ^ 32

theorem holder_of_live (h : Live fs.sb dn i) : fs.holder dn (i, p) = (dn i).ptr fs.block p := if_pos h

theorem holder_congr (hlive : Live fs'.sb dn' i ↔ Live fs.sb dn i)
    (hptr : Live fs.sb dn i → (dn' i).ptr fs'.block p = (dn i).ptr fs.block p) :
    fs'.holder dn' (i, p) = fs.holder dn (i, p) :=
  if_ctx_congr hlive hptr fun _ => rfl

/-! ## The bitmap -/

/-- **`balloc` returns a free data block**, marked and zeroed. -/
theorem Owns.balloc (h : fs.Owns dn) (hb : fs.balloc = .ok (b, fs')) :
    fs.sb.IsData b ∧ fs.used b = false ∧
      fs' = { fs with used := update fs.used b true }.setBlock b .zero := by
  rw [Fs.balloc] at hb
  split at hb
  · cases hb
  · rename_i b' hfind
    cases hb
    have hfree : fs.used b = false := by simpa using List.find?_some hfind
    have hlt : b < fs.sb.size := List.mem_range.mp (List.mem_of_find?_eq_some hfind)
    refine ⟨⟨?_, hlt⟩, hfree, rfl⟩
    by_contra hlow
    have := h.low b (by omega)
    rw [hfree] at this
    cases this

/-- A free block is in no allocated inode. -/
theorem Owns.addrs_ne (h : fs.Owns dn) (hi : Live fs.sb dn i) (hb : fs.used b = false)
    (h0 : (dn i).ptr fs.block p ≠ 0) : (dn i).ptr fs.block p ≠ b := by
  rw [← holder_of_live hi] at h0 ⊢
  exact h.exact.ne_of_free hb h0

/-- **A free block is taken into a pointer**, when that is how the pointers change. -/
theorem Owns.take (h : fs.Owns dn) (hb : fs.sb.IsData b) (hfree : fs.used b = false)
    (hsb : fs'.sb = fs.sb) (hused : fs'.used = update fs.used b true)
    (hlive : Live fs.sb dn inum) (hlive' : ∀ i, Live fs.sb dn' i ↔ Live fs.sb dn i)
    (h0 : (dn inum).ptr fs.block p = 0) (hnew : (dn' inum).ptr fs'.block p = b)
    (hother : ∀ i q, Live fs.sb dn i → (i, q) ≠ (inum, p) →
      (dn' i).ptr fs'.block q = (dn i).ptr fs.block q) : fs'.Owns dn' := by
  have htake := h.exact.take (x := (inum, p)) (by rw [holder_of_live hlive, h0]) hfree hb
  refine ⟨?_, fun c hc => ?_, hsb ▸ h.size_lt⟩
  · rw [hsb, hused]
    refine htake.congr fun x => ?_
    obtain ⟨i, q⟩ := x
    rw [holder, hsb]
    by_cases hi : Live fs.sb dn i
    · rw [if_pos ((hlive' i).mpr hi)]
      rcases eq_or_ne (i, q) (inum, p) with heq | hne
      · obtain ⟨rfl, rfl⟩ := Prod.mk.inj heq
        rw [update_self]
        exact hnew
      · rw [update_of_ne hne, holder_of_live hi]
        exact hother i q hi hne
    · rw [if_neg (mt (hlive' i).mp hi)]
      have hne : (i, q) ≠ (inum, p) := fun heq => hi ((Prod.mk.inj heq).1 ▸ hlive)
      rw [update_of_ne hne, holder, if_neg hi]
  · rw [hsb] at hc
    have hne : c ≠ b := fun he => by
      have := hb.1
      omega
    rw [hused, update_of_ne hne]
    exact h.low c hc

/-- **New contents for a block of a file** leave the pointers alone. -/
theorem Owns.setBlock (h : fs.Owns dn) (hlive : Live fs.sb dn inum)
    (hb : (dn inum).ptr fs.block p = b) (hp : p ≠ .indirect) :
    (∀ i q, Live fs.sb dn i → (dn i).ptr (fs.setBlock b v).block q = (dn i).ptr fs.block q) ∧
      (fs.setBlock b v).Owns dn := by
  have hptr : ∀ i q, Live fs.sb dn i →
      (dn i).ptr (fs.setBlock b v).block q = (dn i).ptr fs.block q := fun i q hi => by
    refine Dinode.ptr_congr fun hne => update_of_ne (fun he => ?_) _ _
    -- the indirect block of `i` would have a second owner
    have h1 : fs.holder dn (i, .indirect) = (dn i).addrs 12 := holder_of_live hi
    have h2 : fs.holder dn (inum, p) = b := (holder_of_live hlive).trans hb
    have heq := h.exact.inj (i, .indirect) (inum, p) (h1 ▸ hne) (by rw [h1, h2, he])
    exact hp (Prod.mk.inj heq).2.symm
  refine ⟨hptr, h.exact.congr fun x => ?_, h.low, h.size_lt⟩
  exact holder_congr Iff.rfl (hptr x.1 x.2)

/-! ## Allocation -/

/-- **A pointer of inode `inum` takes a free block**: the file system and the inode before and after. -/
structure Takes (fs : Fs) (dn : ℕ → Dinode) (inum : ℕ) (p : Ptr) (b : ℕ) (ip' : Dinode) (fs' : Fs) :
    Prop where
  isData : fs.sb.IsData b
  free : fs.used b = false
  used : fs'.used = Function.update fs.used b true
  zero : (dn inum).ptr fs.block p = 0
  ptr_self : ip'.ptr fs'.block p = b
  ptr_other : ∀ q, q ≠ p → ip'.ptr fs'.block q = (dn inum).ptr fs.block q
  others : ∀ i q, i ≠ inum → Live fs.sb dn i → (dn i).ptr fs'.block q = (dn i).ptr fs.block q
  contents : ∀ i q, Live fs.sb dn i → q ≠ .indirect → (dn i).ptr fs.block q ≠ 0 →
    fs'.block ((dn i).ptr fs.block q) = fs.block ((dn i).ptr fs.block q)
  fields : ip' = { dn inum with addrs := ip'.addrs }
  frame : fs' = { fs with used := fs'.used, block := fs'.block }

theorem live_update (hlive : Live fs.sb dn inum) (hf : ip' = { dn inum with addrs := ip'.addrs }) :
    Live fs.sb (update dn inum ip') i ↔ Live fs.sb dn i := by
  rcases eq_or_ne i inum with rfl | hne
  · have htype : ip'.type = (dn i).type := by rw [hf]
    simp only [Live, update_self, htype]
  · simp only [Live, update_of_ne hne]

theorem Takes.owns (h : Takes fs dn inum p b ip' fs') (hown : fs.Owns dn) (hlive : Live fs.sb dn inum) :
    fs'.Owns (update dn inum ip') := by
  have hsb : fs'.sb = fs.sb := by rw [h.frame]
  refine hown.take h.isData h.free hsb h.used hlive (fun i => live_update hlive h.fields) h.zero ?_ ?_
  · rw [update_self, h.ptr_self]
  · intro i q hi hne
    rcases eq_or_ne i inum with rfl | hin
    · rw [update_self]
      exact h.ptr_other q fun hq => hne (by rw [hq])
    · rw [update_of_ne hin]
      exact h.others i q hin hi

/-! ## Room -/

/-- The number of free blocks. -/
def freeBlocks (fs : Fs) : ℕ := ((Finset.range fs.sb.size).filter fun b => fs.used b = false).card

/-- `balloc` fails only on a full disk. -/
theorem balloc_runs (fs : Fs) :
    Runs fs.balloc (fun e => e = "balloc: out of blocks" ∧ fs.freeBlocks = 0)
      fun r => fs.balloc = .ok r := by
  cases hb : fs.balloc with
  | ok r => exact runs_ok.mpr rfl
  | error e =>
    rw [balloc] at hb
    split at hb
    · rename_i hnone
      cases hb
      refine runs_error.mpr ⟨rfl, card_eq_zero.mpr (filter_eq_empty_iff.mpr fun b hb => ?_)⟩
      have hused := List.find?_eq_none.mp hnone b (List.mem_range.mpr (mem_range.mp hb))
      simpa using hused
    · cases hb

/-- A pointer and a block less. -/
theorem Takes.room (h : Takes fs dn inum p b ip' fs') (hown : fs.Owns dn) :
    ip'.missing fs'.block + 1 = (dn inum).missing fs.block ∧ fs'.freeBlocks + 1 = fs.freeBlocks := by
  have hsb : fs'.sb = fs.sb := by rw [h.frame]
  have hb0 : b ≠ 0 := fun h0 => hown.exact.zero (h0 ▸ h.isData)
  constructor
  · have hset : (Finset.univ.filter fun q => ip'.ptr fs'.block q = 0)
        = (Finset.univ.filter fun q => (dn inum).ptr fs.block q = 0).erase p := by
      ext q
      rcases eq_or_ne q p with rfl | hne
      · simp [h.ptr_self, hb0]
      · simp [h.ptr_other q hne, hne]
    rw [Dinode.missing, Dinode.missing, hset]
    exact card_erase_add_one (by simp [h.zero])
  · have hset : ((Finset.range fs'.sb.size).filter fun c => fs'.used c = false)
        = ((Finset.range fs.sb.size).filter fun c => fs.used c = false).erase b := by
      ext c
      rw [hsb, h.used]
      rcases eq_or_ne c b with rfl | hne
      · simp
      · simp [hne]
    rw [freeBlocks, freeBlocks, hset]
    exact card_erase_add_one (by simp [h.free, h.isData.2])

/-- `balloc` into one of the addresses of the inode. -/
theorem Owns.takes_addr (h : fs.Owns dn) (hlive : Live fs.sb dn inum) (k : Fin 13)
    (h0 : (dn inum).addrs k = 0) (hb : fs.balloc = .ok (b, fs')) :
    Takes fs dn inum (.ofAddr k) b ((dn inum).setAddr k b) fs' := by
  obtain ⟨hdata, hfree, rfl⟩ := h.balloc hb
  have hblock : ∀ c, c ≠ b → update fs.block b .zero c = fs.block c := fun c hc =>
    update_of_ne hc _ _
  have hind : ∀ i, Live fs.sb dn i → (dn i).addrs 12 ≠ 0 → (dn i).addrs 12 ≠ b := fun i hi hne =>
    h.addrs_ne (p := .indirect) hi hfree hne
  refine ⟨hdata, hfree, rfl, by rw [Dinode.ptr_ofAddr, h0], ?_, fun q hq => ?_,
    fun i q _ hi => Dinode.ptr_congr fun hne => hblock _ (hind i hi hne),
    fun i q hi _ hq => hblock _ (h.addrs_ne hi hfree hq), rfl, rfl⟩
  · rw [Dinode.ptr_ofAddr]
    exact update_self ..
  · cases q with
    | direct i =>
      refine update_of_ne (fun he : i.castSucc = k => hq ?_) _ _
      rw [← he, Ptr.ofAddr_castSucc]
    | indirect => exact update_of_ne (fun he : (12 : Fin 13) = k => hq (he ▸ rfl)) _ _
    | entry j =>
      rcases eq_or_ne k 12 with rfl | hk
      · -- the new indirect block has no entries
        simp only [Dinode.ptr, Dinode.setAddr, update_self, h0, if_true]
        split
        · rfl
        · have hz : update fs.block b Block.zero b = .zero := update_self ..
          exact congrArg (fun v : Block => v.word j) hz
      · have haddr : ((dn inum).setAddr k b).addrs 12 = (dn inum).addrs 12 :=
          update_of_ne (Ne.symm hk) _ _
        simp only [Dinode.ptr, haddr]
        split
        · rfl
        · rename_i hne
          exact congrArg (fun v : Block => v.word j) (hblock _ (hind inum hlive hne))

/-- `balloc` into an entry of the indirect block. -/
theorem Owns.takes_entry (h : fs.Owns dn) (hlive : Live fs.sb dn inum) (j : Fin 128)
    (hind : (dn inum).addrs 12 ≠ 0) (h0 : (fs.block ((dn inum).addrs 12)).word j = 0)
    (hb : fs.balloc = .ok (b, fs')) :
    Takes fs dn inum (.entry j) b (dn inum) (fs'.setBlock ((dn inum).addrs 12)
      ((fs'.block ((dn inum).addrs 12)).setWord j b)) := by
  obtain ⟨hdata, hfree, rfl⟩ := h.balloc hb
  set ind := (dn inum).addrs 12 with hindeq
  have hholder : fs.holder dn (inum, .indirect) = ind := holder_of_live hlive
  have hindb : ind ≠ b := h.addrs_ne (p := .indirect) hlive hfree hind
  -- the blocks other than the new one and the indirect one keep their contents
  have hblock : ∀ c, c ≠ b → c ≠ ind → update (update fs.block b .zero) ind
      ((update fs.block b .zero ind).setWord j b) c = fs.block c := fun c hc hc' => by
    rw [update_of_ne hc', update_of_ne hc]
  have hself : update (update fs.block b .zero) ind
      ((update fs.block b .zero ind).setWord j b) ind = (fs.block ind).setWord j b := by
    rw [update_self, update_of_ne hindb]
  -- the indirect block has no other owner
  have hne : ∀ i q, Live fs.sb dn i → (i, q) ≠ (inum, .indirect) → (dn i).ptr fs.block q ≠ 0 →
      (dn i).ptr fs.block q ≠ ind := fun i q hi hiq hq he => by
    rw [← holder_of_live hi] at hq he
    exact hiq (h.exact.inj _ _ hq (he.trans hholder.symm))
  refine ⟨hdata, hfree, rfl, by simp [Dinode.ptr, ← hindeq, hind, h0], ?_, fun q hq => ?_,
    fun i q hi hl => Dinode.ptr_congr fun hi0 => ?_, fun i q hi hq hq0 => ?_, rfl, rfl⟩
  · simp only [Dinode.ptr, ← hindeq, hind, if_false]
    exact (congrArg (fun v : Block => v.word j) hself).trans
      (Block.word_setWord_self _ _ (hdata.2.trans h.size_lt))
  · cases q with
    | direct i => rfl
    | indirect => rfl
    | entry j' =>
      have hj : j' ≠ j := fun he => hq (by rw [he])
      simp only [Dinode.ptr, ← hindeq, hind, if_false]
      exact (congrArg (fun v : Block => v.word j') hself).trans (Block.word_setWord_of_ne _ hj _)
  · exact hblock _ (h.addrs_ne (p := .indirect) hl hfree hi0)
      (hne i .indirect hl (fun he => hi (Prod.mk.inj he).1) hi0)
  · exact hblock _ (h.addrs_ne hi hfree hq0) (hne i q hi (fun he => hq (Prod.mk.inj he).2) hq0)

/-! ## `bmap` -/

/-- **What `bmap` does** for block `bn` of inode `inum`: the pointers that are set stay, so do the contents
of the blocks they name, and block `bn` has an address. -/
structure Maps (fs : Fs) (dn : ℕ → Dinode) (inum bn addr : ℕ) (ip' : Dinode) (fs' : Fs) : Prop where
  owns : fs'.Owns (Function.update dn inum ip')
  addr_ne : addr ≠ 0
  ptr_eq : ip'.ptr fs'.block (.ofBlock bn) = addr
  kept : ∀ q, (dn inum).ptr fs.block q ≠ 0 → ip'.ptr fs'.block q = (dn inum).ptr fs.block q
  others : ∀ i q, i ≠ inum → Live fs.sb dn i → (dn i).ptr fs'.block q = (dn i).ptr fs.block q
  contents : ∀ i q, Live fs.sb dn i → q ≠ .indirect → (dn i).ptr fs.block q ≠ 0 →
    fs'.block ((dn i).ptr fs.block q) = fs.block ((dn i).ptr fs.block q)
  same : (dn inum).ptr fs.block (.ofBlock bn) ≠ 0 → ip' = dn inum ∧ fs' = fs
  room : ip'.missing fs'.block + fs.freeBlocks = (dn inum).missing fs.block + fs'.freeBlocks
  fields : ip' = { dn inum with addrs := ip'.addrs }
  frame : fs' = { fs with used := fs'.used, block := fs'.block }

/-- Nothing is allocated. -/
theorem Owns.maps_same (h : fs.Owns dn) (h0 : (dn inum).ptr fs.block (.ofBlock bn) ≠ 0) :
    Maps fs dn inum bn ((dn inum).ptr fs.block (.ofBlock bn)) (dn inum) fs :=
  ⟨by rwa [update_eq_self], h0, rfl, fun _ _ => rfl, fun _ _ _ _ => rfl, fun _ _ _ _ _ => rfl,
    fun _ => ⟨rfl, rfl⟩, rfl, rfl, rfl⟩

/-- The block itself is allocated. -/
theorem Takes.maps (h : Takes fs dn inum (.ofBlock bn) b ip' fs') (hown : fs.Owns dn)
    (hlive : Live fs.sb dn inum) : Maps fs dn inum bn b ip' fs' where
  owns := h.owns hown hlive
  addr_ne h0 := hown.exact.zero (h0 ▸ h.isData)
  ptr_eq := h.ptr_self
  kept q hq := h.ptr_other q fun he => hq (he ▸ h.zero)
  others := h.others
  contents := h.contents
  same h0 := absurd h.zero h0
  room := by
    have := h.room hown
    omega
  fields := h.fields
  frame := h.frame

/-- The indirect block is allocated, and then the block. -/
theorem Takes.trans_maps {addr : ℕ} {ip1 : Dinode} {fs1 : Fs}
    (h : Takes fs dn inum .indirect b ip1 fs1)
    (h' : Maps fs1 (update dn inum ip1) inum bn addr ip' fs') (hown : fs.Owns dn)
    (hlive : Live fs.sb dn inum) (h0 : (dn inum).ptr fs.block (.ofBlock bn) = 0) : Maps fs dn inum bn addr ip' fs' := by
  have hsb : fs1.sb = fs.sb := by rw [h.frame]
  have hlive1 : ∀ i, Live fs.sb dn i → Live fs1.sb (update dn inum ip1) i := fun i hi => by
    rw [hsb]
    exact (live_update hlive h.fields).mpr hi
  have hkept : ∀ q, (dn inum).ptr fs.block q ≠ 0 → ip1.ptr fs1.block q = (dn inum).ptr fs.block q :=
    fun q hq => h.ptr_other q fun he => hq (he ▸ h.zero)
  have hptr : ∀ i q, Live fs.sb dn i → (dn i).ptr fs.block q ≠ 0 →
      (update dn inum ip1 i).ptr fs1.block q = (dn i).ptr fs.block q := fun i q hi hq => by
    rcases eq_or_ne i inum with rfl | hne
    · rw [update_self]
      exact hkept q hq
    · rw [update_of_ne hne]
      exact h.others i q hne hi
  refine ⟨by simpa using h'.owns, h'.addr_ne, h'.ptr_eq, fun q hq => ?_, fun i q hne hi => ?_,
    fun i q hi hq hq0 => ?_, fun hne => absurd h0 hne, ?_, ?_, ?_⟩
  · have hk := h'.kept q (by rw [update_self, hkept q hq]; exact hq)
    rw [hk, update_self, hkept q hq]
  · have ho := h'.others i q hne (hlive1 i hi)
    rw [update_of_ne hne] at ho
    rw [ho, h.others i q hne hi]
  · have hc := h'.contents i q (hlive1 i hi) hq (by rw [hptr i q hi hq0]; exact hq0)
    rw [hptr i q hi hq0] at hc
    rw [hc, h.contents i q hi hq hq0]
  · have h1 := h.room hown
    have h2 := h'.room
    rw [update_self] at h2
    omega
  · rw [h'.fields, update_self, h.fields]
  · rw [h'.frame, h.frame]

theorem ofAddr_ofNat (h : bn < 12) : Ptr.ofAddr (Fin.ofNat 13 bn) = .ofBlock bn := by
  have hmod : bn % 13 = bn := Nat.mod_eq_of_lt (by omega)
  simp only [Ptr.ofAddr, Ptr.ofBlock, Fin.val_ofNat, hmod, h, dif_pos]

/-- An entry of the indirect block is mapped. -/
theorem Owns.bmap_entry (h : fs.Owns dn) (hlive : Live fs.sb dn inum) (hbn : ¬ bn < 12)
    (hind : (dn inum).addrs 12 ≠ 0) :
    Runs (if (fs.block ((dn inum).addrs 12)).word (indexOf bn) = 0 then do
        let (addr, fs) ← fs.balloc
        .ok (addr, dn inum, fs.setBlock ((dn inum).addrs 12)
          ((fs.block ((dn inum).addrs 12)).setWord (indexOf bn) addr))
      else .ok ((fs.block ((dn inum).addrs 12)).word (indexOf bn), dn inum, fs))
      (fun e => e = "balloc: out of blocks" ∧ fs.freeBlocks < (dn inum).missing fs.block)
      fun r : ℕ × Dinode × Fs => Maps fs dn inum bn r.1 r.2.1 r.2.2 := by
  have hof : Ptr.ofBlock bn = .entry (indexOf bn) := dif_neg hbn
  have hptr : (dn inum).ptr fs.block (.ofBlock bn)
      = (fs.block ((dn inum).addrs 12)).word (indexOf bn) := by
    rw [hof]
    exact if_neg hind
  split
  · rename_i h0
    have hpos : 0 < (dn inum).missing fs.block :=
      card_pos.mpr ⟨.ofBlock bn, by simp [hptr, h0]⟩
    refine Runs.bind (fs.balloc_runs.mono (fun e he => ⟨he.1, he.2 ▸ hpos⟩) fun _ hr => hr)
      fun r hr => runs_ok.mpr ?_
    have ht := h.takes_entry hlive (indexOf bn) hind h0 hr
    rw [← hof] at ht
    exact ht.maps h hlive
  · rename_i h0
    have hm := h.maps_same (hptr ▸ h0 : (dn inum).ptr fs.block (.ofBlock bn) ≠ 0)
    rw [hptr] at hm
    exact runs_ok.mpr hm

/-- **`bmap`** maps the block, unless the disk is full. -/
theorem Owns.bmap (h : fs.Owns dn) (hlive : Live fs.sb dn inum) (hbn : bn < maxFile) :
    Runs (Fs.bmap (dn inum) bn fs)
      (fun e => e = "balloc: out of blocks" ∧ fs.freeBlocks < (dn inum).missing fs.block)
      fun r => Maps fs dn inum bn r.1 r.2.1 r.2.2 := by
  have hpos : ∀ q, (dn inum).ptr fs.block q = 0 → 0 < (dn inum).missing fs.block := fun q hq =>
    card_pos.mpr ⟨q, by simp [hq]⟩
  rw [Fs.bmap]
  split
  · rename_i hd
    have hptr : (dn inum).ptr fs.block (.ofBlock bn) = (dn inum).addrs (Fin.ofNat 13 bn) := by
      rw [← ofAddr_ofNat hd, Dinode.ptr_ofAddr]
    simp only
    split
    · rename_i h0
      refine Runs.bind (fs.balloc_runs.mono (fun e he => ⟨he.1, he.2 ▸ hpos _ (hptr.trans h0)⟩)
        fun _ hr => hr) fun r hr => runs_ok.mpr ?_
      have ht := h.takes_addr hlive _ h0 hr
      rw [ofAddr_ofNat hd] at ht
      exact ht.maps h hlive
    · rename_i h0
      have hm := h.maps_same (hptr ▸ h0 : (dn inum).ptr fs.block (.ofBlock bn) ≠ 0)
      rw [hptr] at hm
      exact runs_ok.mpr hm
  · rename_i hd
    rw [if_pos (by simp only [maxFile, ndirect, nindirect] at *; omega)]
    split
    · rename_i h0
      have hptr0 : (dn inum).ptr fs.block (.ofBlock bn) = 0 := by
        rw [show Ptr.ofBlock bn = .entry (indexOf bn) from dif_neg hd]
        exact if_pos h0
      have hfirst : Runs (do
          let (ind, fs) ← fs.balloc
          .ok (ind, (dn inum).setAddr 12 ind, fs))
          (fun e => e = "balloc: out of blocks" ∧ fs.freeBlocks < (dn inum).missing fs.block)
          fun r : ℕ × Dinode × Fs =>
            Takes fs dn inum .indirect r.1 r.2.1 r.2.2 ∧ r.2.1.addrs 12 = r.1 :=
        Runs.bind (fs.balloc_runs.mono (fun e he => ⟨he.1, he.2 ▸ hpos _ hptr0⟩) fun _ hr => hr)
          fun r hr => runs_ok.mpr ⟨h.takes_addr hlive 12 h0 hr, Dinode.setAddr_addrs_self ..⟩
      refine hfirst.bind fun r hr => ?_
      obtain ⟨ind, ip1, fs1⟩ := r
      obtain ⟨ht, rfl⟩ : Takes fs dn inum .indirect ind ip1 fs1 ∧ ip1.addrs 12 = ind := hr
      have hsb : fs1.sb = fs.sb := by rw [ht.frame]
      have hlive1 : Live fs1.sb (update dn inum ip1) inum :=
        hsb ▸ (live_update hlive ht.fields).mpr hlive
      have hentry := (ht.owns h hlive).bmap_entry hlive1 hd
      simp only [update_self] at hentry
      refine (hentry fun h0 => h.exact.zero (h0 ▸ ht.isData)).mono (fun e he => ⟨he.1, ?_⟩)
        fun r hr => ht.trans_maps hr h hlive hptr0
      have hroom := ht.room h
      have := he.2
      omega
    · rename_i h0
      exact h.bmap_entry hlive hd h0

/-- A block that has an address is looked up only. -/
theorem bmap_eq (h0 : ip.ptr fs.block (.ofBlock bn) ≠ 0) (hbn : bn < maxFile) :
    Fs.bmap ip bn fs = .ok (ip.ptr fs.block (.ofBlock bn), ip, fs) := by
  rw [Fs.bmap]
  split
  · rename_i hd
    rw [← ofAddr_ofNat hd, Dinode.ptr_ofAddr] at h0 ⊢
    exact if_neg h0
  · rename_i hd
    have hof : Ptr.ofBlock bn = .entry (indexOf bn) := dif_neg hd
    rw [hof] at h0 ⊢
    have hind : ip.addrs 12 ≠ 0 := fun he => h0 (if_pos he)
    have hptr : ip.ptr fs.block (.entry (indexOf bn)) = (fs.block (ip.addrs 12)).word (indexOf bn) :=
      if_neg hind
    rw [hptr] at h0 ⊢
    rw [if_pos (by simp only [maxFile, ndirect, nindirect] at *; omega), if_neg hind]
    exact if_neg h0

/-! ## Sizes -/

/-- **Every block below the size of the file has an address.** -/
structure Filled (fs : Fs) (ip : Dinode) : Prop where
  size_le : ip.size ≤ maxFile * bsize
  ptr_ne : ∀ k < ip.size, ip.ptr fs.block (.ofBlock (k / bsize)) ≠ 0

/-- The pointers do not depend on the other fields of the inode. -/
theorem Owns.congr_fields (h : fs.Owns dn) {d : Dinode} (haddrs : d.addrs = (dn inum).addrs)
    (htype : d.type = (dn inum).type) : fs.Owns (update dn inum d) := by
  refine ⟨h.exact.congr fun x => ?_, h.low, h.size_lt⟩
  obtain ⟨i, q⟩ := x
  rcases eq_or_ne i inum with rfl | hne
  · refine holder_congr (by simp only [Live, update_self, htype]) fun _ => ?_
    rw [update_self]
    cases q <;> simp only [Dinode.ptr, haddrs]
  · refine holder_congr (by simp only [Live, update_of_ne hne]) fun _ => ?_
    rw [update_of_ne hne]

/-- The owners do not depend on the inode blocks. -/
theorem Owns.iupdate (h : fs.Owns dn) (d : Dinode) : (fs.iupdate inum d).Owns dn :=
  ⟨h.exact, h.low, h.size_lt⟩

/-! ## A disk without contents -/

/-- The disk after `mkfs`, with inodes that have no blocks. -/
def blank (dn : ℕ → Dinode) : Fs where
  sb := mkfsSuperblock
  used b := decide (b < mkfsSuperblock.datastart)
  block _ := .zero
  dinode := dn
  devsw _ := none

theorem blank_owns (h : ∀ i, (dn i).addrs = fun _ => 0) : (blank dn).Owns dn := by
  have hholder : ∀ x, (blank dn).holder dn x = 0 := fun x => by
    rw [holder]
    split
    · cases x.2 <;> simp [Dinode.ptr, h]
    · rfl
  have hzero : ¬ mkfsSuperblock.IsData 0 := fun h0 => absurd h0.1 (by decide)
  refine ⟨⟨hzero, fun x hx => absurd (hholder x) hx, fun x _ hx => absurd (hholder x) hx,
    fun b hb hused => ?_⟩, fun b hb => decide_eq_true hb, show mkfsSuperblock.size < _ by decide⟩
  exact absurd (of_decide_eq_true hused) (Nat.not_lt.mpr hb.1)

theorem freeBlocks_blank :
    (blank dn).freeBlocks = mkfsSuperblock.size - mkfsSuperblock.datastart := by
  have hset : ((Finset.range mkfsSuperblock.size).filter fun b => (blank dn).used b = false)
      = Finset.Ico mkfsSuperblock.datastart mkfsSuperblock.size := by
    ext b
    simp only [blank, mem_filter, mem_range, mem_Ico, decide_eq_false_iff_not]
    omega
  exact (congrArg Finset.card hset).trans (Nat.card_Ico _ _)

end Fs

end Xv6
