import Xv6.Fs.Icache
import Xv6.Fs.Mkfs

/-!
# Fs/Append — `iappend` of `mkfs` is `writei` of the kernel

`view` is the file system that an image holds while `mkfs` works on it: the blocks below `freeblock` are
the used ones.  As long as the inode is in the inode area, the loop of `iappend` does to the view what the
loop of `writei` does: `mkfs` takes the block that `balloc` would find, and that block is zero already.  So
what is known of `writei` carries over.
-/

namespace Xv6

open Outcome Function

/-! ## Inodes in a block -/

theorem DiskInode.word_lt (d : DiskInode) (k : ℕ) : d.word k < 2 ^ 32 := by
  have h1 := d.type.toNat_lt
  have h2 := d.major.toNat_lt
  have h3 := d.minor.toNat_lt
  have h4 := d.nlink.toNat_lt
  rw [DiskInode.word]
  split
  · omega
  · split
    · omega
    · split
      · exact d.size.toNat_lt
      · exact UInt32.toNat_lt _

namespace Block

variable {b : Block} {i j : Fin 8} {d : DiskInode}

theorem setDinode_cell (k : Fin 16) (o : Fin 4) : b.setDinode i d (cell (inodeWord j k) o) =
    if j = i then UInt8.ofNat (d.word k / 2 ^ (8 * o.val) % 2 ^ 8) else b (cell (inodeWord j k) o) := by
  have hdiv : (cell (inodeWord j k) o).val / 64 = j := by simp only [cell, inodeWord]; omega
  have hword : (cell (inodeWord j k) o).val % 64 / 4 = k := by simp only [cell, inodeWord]; omega
  have hmod : (cell (inodeWord j k) o).val % 4 = o := by simp only [cell, inodeWord]; omega
  rw [setDinode, hdiv, hword, hmod]
  exact if_congr Fin.ext_iff.symm rfl rfl

theorem word_setDinode_self (b : Block) (i : Fin 8) (d : DiskInode) (k : Fin 16) :
    (b.setDinode i d).word (inodeWord i k) = d.word k := by
  have h3 : ((3 : Fin 4) : ℕ) = 3 := rfl
  have hlt := d.word_lt k
  simp only [word, setDinode_cell, if_true, Fin.val_zero, Fin.val_one, Fin.val_two, h3, UInt8.toNat_ofNat',
    Nat.mod_mod]
  norm_num
  omega

theorem word_setDinode_of_ne (b : Block) (h : j ≠ i) (d : DiskInode) (k : Fin 16) :
    (b.setDinode i d).word (inodeWord j k) = b.word (inodeWord j k) := by
  simp only [word, setDinode_cell, if_neg h]

theorem ofNat_low (x y : UInt16) : UInt16.ofNat (x.toNat + 2 ^ 16 * y.toNat) = x := by
  have hx := x.toNat_lt
  apply UInt16.toNat_inj.mp
  rw [UInt16.toNat_ofNat']
  omega

theorem ofNat_high (x y : UInt16) : UInt16.ofNat ((x.toNat + 2 ^ 16 * y.toNat) / 2 ^ 16) = y := by
  have hx := x.toNat_lt
  have hy := y.toNat_lt
  apply UInt16.toNat_inj.mp
  rw [UInt16.toNat_ofNat']
  omega

/-- **An inode that was written is read back.** -/
theorem dinode_setDinode_self (b : Block) (i : Fin 8) (d : DiskInode) : (b.setDinode i d).dinode i = d := by
  have hw := b.word_setDinode_self i d
  refine DiskInode.ext ?_ ?_ ?_ ?_ ?_ (funext fun k => ?_)
  · rw [dinode, hw 0]
    exact ofNat_low ..
  · rw [dinode, hw 0]
    exact ofNat_high ..
  · rw [dinode, hw 1]
    exact ofNat_low ..
  · rw [dinode, hw 1]
    exact ofNat_high ..
  · rw [dinode, hw 2]
    exact UInt32.ofNat_toNat ..
  · have hk : d.word (k.val + 3) = (d.addrs k).toNat := by
      simp [DiskInode.word]
    change UInt32.ofNat ((b.setDinode i d).word (inodeWord i ⟨k + 3, by omega⟩)) = _
    rw [hw, hk, UInt32.ofNat_toNat]

/-- **Other inodes are left alone.** -/
theorem dinode_setDinode_of_ne (b : Block) (h : j ≠ i) (d : DiskInode) :
    (b.setDinode i d).dinode j = b.dinode j := by
  simp only [dinode, word_setDinode_of_ne b h]

end Block

/-! ## The view -/

/-- The inodes of the inode area. -/
def areaInodes : ℕ := ipb * (mkfsSuperblock.bmapstart - mkfsSuperblock.inodestart)

/-- The layout, with all inodes of the inode area. -/
def areaSuperblock : Superblock := { mkfsSuperblock with ninodes := areaInodes }

instance (sb : Superblock) (b : ℕ) : Decidable (sb.IsData b) := inferInstanceAs (Decidable (_ ∧ _))

namespace Mkfs

/-- Inode `i` of the image. -/
def dinode (m : Mkfs) (i : ℕ) : DiskInode := (m.block (iblock i)).dinode (islot i)

/-- **The file system that an image holds** while `mkfs` works on it. -/
def view (m : Mkfs) : Fs where
  sb := areaSuperblock
  used b := decide (b < m.freeblock)
  block b := if areaSuperblock.IsData b then m.block b else .zero
  dinode i := if i < areaInodes then (m.dinode i).inode else .zero
  devsw _ := none

/-- The image has its length and its superblock, and the blocks that are not taken are zero. -/
structure Ok (m : Mkfs) : Prop where
  size : m.size = fsSize
  sb : m.block 1 = .ofSuperblock mkfsSuperblock
  low : areaSuperblock.datastart ≤ m.freeblock
  high : m.freeblock ≤ fsSize
  zero : ∀ b, m.freeblock ≤ b → b < fsSize → m.block b = .zero

variable {m : Mkfs} {b inum : ℕ}

theorem sect_eq (h : b < fsSize) : sect b = b := by
  simp only [sect, fsSize, bsize] at *
  omega

theorem iblock_lt (h : inum < areaInodes) : 32 ≤ iblock inum ∧ iblock inum < 58 := by
  change inum < 208 at h
  change 32 ≤ inum / 8 + 32 ∧ inum / 8 + 32 < 58
  omega

theorem Ok.rsect (h : m.Ok) (hb : b < fsSize) : m.rsect b = .ok (m.block b) := by
  rw [Mkfs.rsect, sect_eq hb, h.size, if_pos hb]

theorem rsect_error (h : m.size = fsSize) (hb : fsSize ≤ b) (hlt : b ≤ 2 * fsSize) : m.rsect b = .error "read" := by
  have hs : sect b = b := by
    simp only [sect, fsSize, bsize] at *
    omega
  rw [Mkfs.rsect, hs, h, if_neg (by omega)]

theorem Ok.wsect (h : m.Ok) (h1 : 1 < b) (hb : b < m.freeblock) (v : Block) :
    m.wsect b v = { m with block := update m.block b v } ∧ (m.wsect b v).Ok := by
  have hlt : b < fsSize := Nat.lt_of_lt_of_le hb h.high
  have he : m.wsect b v = { m with block := update m.block b v } := by
    rw [Mkfs.wsect, sect_eq hlt, Nat.max_eq_left (by rw [h.size]; exact hlt)]
  refine ⟨he, ?_⟩
  rw [he]
  refine ⟨h.size, (update_of_ne (Nat.ne_of_lt h1) ..).trans h.sb, h.low, h.high, fun c hc hlt => ?_⟩
  have hne : c ≠ b := by
    rintro rfl
    exact absurd hb (Nat.not_lt.mpr hc)
  exact (update_of_ne hne ..).trans (h.zero c hc hlt)

/-- A data block is written. -/
theorem view_wsect (hb : areaSuperblock.IsData b) (v : Block) :
    ({ m with block := update m.block b v } : Mkfs).view = m.view.setBlock b v := by
  simp only [view, Fs.setBlock]
  congr 1
  · funext c
    rcases eq_or_ne c b with rfl | hne
    · simp [hb]
    · simp [hne]
  · funext i
    split
    · rename_i hi
      have hne : iblock i ≠ b := by
        have := (iblock_lt hi).2
        have := hb.1
        change 59 ≤ b at this
        omega
      simp only [dinode, update_of_ne hne]
    · rfl

/-- **`winode`** in the inode area is `iupdate`. -/
theorem Ok.winode (h : m.Ok) (hi : inum < areaInodes) (d : DiskInode) :
    ∃ m', m.winode inum d = .ok m' ∧ m'.Ok ∧ m'.view = m.view.iupdate inum d.inode ∧ m'.freeblock = m.freeblock ∧
      m'.freeinode = m.freeinode := by
  have hlt := iblock_lt hi
  have hlow := h.low
  change 59 ≤ m.freeblock at hlow
  obtain ⟨he, hok⟩ := h.wsect (b := iblock inum) (by omega) (by omega) ((m.block (iblock inum)).setDinode (islot inum) d)
  refine ⟨_, by rw [Mkfs.winode, h.rsect (by simp only [fsSize]; omega), ok_bind], hok, ?_, by rw [he], by rw [he]⟩
  rw [he]
  simp only [view, Fs.iupdate]
  congr 1
  · funext c
    split
    · rename_i hc
      have hne : c ≠ iblock inum := by
        have := hc.1
        change 59 ≤ c at this
        omega
      exact update_of_ne hne ..
    · rfl
  · funext i
    rcases eq_or_ne i inum with rfl | hne
    · rw [if_pos hi, update_self]
      simp only [dinode, update_self, Block.dinode_setDinode_self]
    · rw [update_of_ne hne]
      refine if_congr Iff.rfl ?_ rfl
      rcases eq_or_ne (iblock i) (iblock inum) with hb | hb
      · have hslot : islot i ≠ islot inum := by
          intro hs
          have := congrArg Fin.val hs
          change i / 8 + 32 = inum / 8 + 32 at hb
          simp only [islot, Fin.val_ofNat] at this
          omega
        simp only [dinode, hb, update_self, Block.dinode_setDinode_of_ne _ hslot]
      · simp only [dinode, update_of_ne hb]

theorem Ok.rinode (h : m.Ok) (hi : inum < areaInodes) : m.rinode inum = .ok (m.dinode inum) := by
  have hlt := iblock_lt hi
  rw [Mkfs.rinode, h.rsect (by simp only [fsSize]; omega), ok_bind]
  rfl

theorem view_dinode (hi : inum < areaInodes) : m.view.dinode inum = (m.dinode inum).inode := if_pos hi

/-! ## Blocks -/

/-- **The next block is the one `balloc` finds.** -/
theorem Ok.balloc (h : m.Ok) (hlt : m.freeblock < fsSize) :
    m.view.balloc = .ok (m.freeblock, m.takeBlock.view) ∧ m.takeBlock.Ok := by
  have hfind : (List.range m.view.sb.size).find? (fun b => !m.view.used b) = some m.freeblock := by
    refine List.find?_range_eq_some.mpr ⟨by simp [view], List.mem_range.mpr hlt, fun j hj => by simpa [view] using hj⟩
  have hdata : areaSuperblock.IsData m.freeblock := ⟨h.low, hlt⟩
  refine ⟨?_, h.size, h.sb, Nat.le_succ_of_le h.low, hlt, fun b hb => h.zero b (Nat.le_of_succ_le hb)⟩
  have hused : update m.view.used m.freeblock true = m.takeBlock.view.used := by
    funext b
    rcases eq_or_ne b m.freeblock with rfl | hne
    · rw [update_self]
      exact (decide_eq_true (Nat.lt_succ_self _)).symm
    · rw [update_of_ne hne]
      exact decide_eq_decide.mpr (by simp only [takeBlock]; omega)
  have hblock : update m.view.block m.freeblock .zero = m.takeBlock.view.block := by
    funext b
    rcases eq_or_ne b m.freeblock with rfl | hne
    · rw [update_self]
      exact ((if_pos hdata).trans (h.zero _ (Nat.le_refl _) hlt)).symm
    · exact update_of_ne hne ..
  rw [Fs.balloc, hfind]
  simp only [Fs.setBlock]
  rw [hused, hblock]
  rfl

theorem balloc_error (hge : ¬ m.freeblock < fsSize) :
    m.view.balloc = .error "balloc: out of blocks" := by
  have hfind : (List.range m.view.sb.size).find? (fun b => !m.view.used b) = none := by
    refine List.find?_range_eq_none.mpr fun b hb => ?_
    have : b < fsSize := hb
    simp only [view, Bool.not_not, decide_eq_true_eq]
    omega
  rw [Fs.balloc, hfind]

theorem inode_setAddr (d : DiskInode) (k : Fin 13) {a : ℕ} (ha : a ≤ fsSize) :
    (d.setAddr k a).inode = d.inode.setAddr k a := by
  have hlt : a < 2 ^ 32 := by
    simp only [fsSize] at ha
    omega
  simp only [DiskInode.inode, DiskInode.setAddr, Dinode.setAddr]
  congr 1
  funext j
  rcases eq_or_ne j k with rfl | hne
  · rw [update_self, update_self, UInt32.toNat_ofNat_of_lt' hlt]
  · rw [update_of_ne hne, update_of_ne hne]

/-- The block is in the image, and taken. -/
def Taken (m : Mkfs) (b : ℕ) : Prop := areaSuperblock.IsData b ∧ b < m.freeblock

theorem Taken.one_lt (h : m.Taken b) : 1 < b := Nat.lt_of_lt_of_le (by decide) h.1.1

theorem Taken.view_block (h : m.Taken b) : m.view.block b = m.block b := if_pos h.1

theorem Ok.rsect_taken (h : m.Ok) (hb : m.Taken b) : m.rsect b = .ok (m.block b) :=
  h.rsect (Nat.lt_of_lt_of_le hb.2 h.high)

/-- **`mkfs` has fetched the block that `bmap` finds.** -/
structure Fetched (m : Mkfs) (x : ℕ) (buf : Block) (m' : Mkfs) : Prop where
  ok : m'.Ok
  taken : m'.Taken x
  buf : buf = m'.block x
  inode : m'.freeinode = m.freeinode

theorem Ok.fetched (h : m.Ok) (hb : m.Taken b) : Fetched m b (m.block b) m := ⟨h, hb, rfl, rfl⟩

variable {ind fbn : ℕ} {din : DiskInode}

/-- The entry of the indirect block. -/
theorem Ok.mapEntry_agree (h : m.Ok) (hind : m.Taken ind)
    (hent : (m.block ind).word (Fs.indexOf fbn) ≠ 0 → m.Taken ((m.block ind).word (Fs.indexOf fbn))) :
    Agree (fun a c => c = (a.1, a.2.2.1.inode, a.2.2.2.view) ∧ Fetched m a.1 a.2.1 a.2.2.2)
      (do
        let (x, m) ← m.mapEntry ind fbn
        let buf ← m.rsect x
        .ok (x, buf, din, m))
      (if (m.view.block ind).word (Fs.indexOf fbn) = 0 then do
        let (addr, fs) ← m.view.balloc
        .ok (addr, din.inode, fs.setBlock ind ((fs.block ind).setWord (Fs.indexOf fbn) addr))
      else .ok ((m.view.block ind).word (Fs.indexOf fbn), din.inode, m.view)) := by
  rw [mapEntry, h.rsect_taken hind, ok_bind, hind.view_block]
  split
  · rename_i h0
    have hword : ((m.block ind).setWord (Fs.indexOf fbn) m.freeblock).word (Fs.indexOf fbn) = m.freeblock :=
      Block.word_setWord_self _ _ (by have := h.high; simp only [fsSize] at this; omega)
    simp only [ok_bind]
    rw [hword]
    by_cases hlt : m.freeblock < fsSize
    · obtain ⟨hb, hok⟩ := h.balloc hlt
      have hindlt : ind < m.takeBlock.freeblock := Nat.lt_succ_of_lt hind.2
      obtain ⟨he, hok'⟩ := hok.wsect hind.one_lt hindlt ((m.block ind).setWord (Fs.indexOf fbn) m.freeblock)
      have htaken : (m.takeBlock.wsect ind ((m.block ind).setWord (Fs.indexOf fbn) m.freeblock)).Taken m.freeblock :=
        ⟨⟨h.low, hlt⟩, by rw [he]; exact Nat.lt_succ_self _⟩
      rw [hok'.rsect_taken htaken, hb]
      simp only [ok_bind]
      refine ⟨?_, hok', htaken, rfl, by rw [he]; rfl⟩
      rw [he, view_wsect hind.1, (show m.takeBlock.view.block ind = m.block ind from if_pos hind.1)]
    · have hhigh := h.high
      have hsize : (m.takeBlock.wsect ind ((m.block ind).setWord (Fs.indexOf fbn) m.freeblock)).size = fsSize := by
        have hlt : ind < fsSize := hind.1.2
        simp only [Mkfs.wsect, takeBlock, sect_eq hlt, h.size]
        omega
      rw [rsect_error hsize (Nat.le_of_not_lt hlt) (by omega), balloc_error hlt]
      trivial
  · rename_i h0
    rw [ok_bind]
    simp only
    rw [h.rsect_taken (hent h0)]
    exact ⟨rfl, h.fetched (hent h0)⟩

/-- **The block that `mkfs` fetches is the one that `bmap` finds.** -/
theorem Ok.fetchBlock_agree (din : DiskInode) (h : m.Ok) (hfbn : fbn < maxFile)
    (hptr : ∀ q, din.inode.ptr m.view.block q ≠ 0 → m.Taken (din.inode.ptr m.view.block q)) :
    Agree (fun a c => c = (a.1, a.2.2.1.inode, a.2.2.2.view) ∧ Fetched m a.1 a.2.1 a.2.2.2)
      (m.fetchBlock fbn din) (Fs.bmap din.inode fbn m.view) := by
  have hhigh := h.high
  have haddr : ∀ k, din.addrs k = 0 ↔ din.inode.addrs k = 0 := fun k => UInt32.toNat_inj.symm
  have hset : ∀ k, ((din.setAddr k m.freeblock).addrs k).toNat = m.freeblock := fun k => by
    have := congrArg (fun d : Dinode => d.addrs k) (inode_setAddr din k hhigh)
    rw [Dinode.setAddr_addrs_self] at this
    exact this
  rw [fetchBlock, Fs.bmap]
  split
  · -- a direct block
    rename_i hd
    simp only [mapAddr, haddr]
    split
    · simp only
      rw [hset]
      by_cases hlt : m.freeblock < fsSize
      · obtain ⟨hb, hok⟩ := h.balloc hlt
        have htaken : m.takeBlock.Taken m.freeblock := ⟨⟨h.low, hlt⟩, Nat.lt_succ_self _⟩
        rw [hb, hok.rsect_taken htaken, ok_bind, ok_bind, ← inode_setAddr din _ hhigh]
        exact ⟨rfl, hok, htaken, rfl, rfl⟩
      · rw [rsect_error (show m.takeBlock.size = fsSize from h.size) (Nat.le_of_not_lt hlt) (by omega),
          balloc_error hlt]
        trivial
    · rename_i h0
      have htaken : m.Taken (din.inode.addrs (Fin.ofNat 13 fbn)) := by
        have := hptr (.ofAddr (Fin.ofNat 13 fbn))
        rw [Dinode.ptr_ofAddr] at this
        exact this h0
      simp only
      rw [show (din.addrs (Fin.ofNat 13 fbn)).toNat = din.inode.addrs (Fin.ofNat 13 fbn) from rfl,
        h.rsect_taken htaken]
      exact ⟨rfl, h.fetched htaken⟩
  · -- a block behind the indirect block
    rename_i hd
    rw [if_pos (by simp only [maxFile, ndirect, nindirect] at *; omega)]
    simp only [mapAddr, haddr]
    split
    · rename_i h0
      simp only
      rw [hset]
      by_cases hlt : m.freeblock < fsSize
      · obtain ⟨hb, hok⟩ := h.balloc hlt
        have htaken : m.takeBlock.Taken m.freeblock := ⟨⟨h.low, hlt⟩, Nat.lt_succ_self _⟩
        have hzero : m.takeBlock.block m.freeblock = .zero := h.zero _ (Nat.le_refl _) hlt
        rw [hb, ok_bind, ok_bind, ← inode_setAddr din _ hhigh]
        have hent : m.takeBlock.Taken ((m.takeBlock.block m.freeblock).word (Fs.indexOf fbn)) ∨
            (m.takeBlock.block m.freeblock).word (Fs.indexOf fbn) = 0 := .inr (by rw [hzero]; rfl)
        exact (hok.mapEntry_agree htaken (hent.resolve_right ·)).mono fun a c h =>
          ⟨h.1, h.2.ok, h.2.taken, h.2.buf, h.2.inode⟩
      · rw [mapEntry, rsect_error (show m.takeBlock.size = fsSize from h.size) (Nat.le_of_not_lt hlt) (by omega),
          balloc_error hlt]
        trivial
    · rename_i h0
      have htaken : m.Taken (din.inode.addrs 12) := hptr .indirect h0
      have hent := hptr (.entry (Fs.indexOf fbn))
      simp only [Dinode.ptr, if_neg h0, htaken.view_block] at hent
      rw [ok_bind]
      exact h.mapEntry_agree htaken hent

/-! ## The loop -/

theorem Ok.taken_ptr {dn : ℕ → Dinode} (hown : m.view.Owns dn) (hlive : Fs.Live areaSuperblock dn inum) (q : Ptr)
    (hq : (dn inum).ptr m.view.block q ≠ 0) : m.Taken ((dn inum).ptr m.view.block q) := by
  have hh : m.view.holder dn (inum, q) = (dn inum).ptr m.view.block q := Fs.holder_of_live hlive
  have hmem := hown.exact.mem (inum, q) (by rwa [hh])
  rw [hh] at hmem
  exact ⟨hmem.1, of_decide_eq_true hmem.2⟩

/-- **The loop of `iappend` is the loop of `writei`.** -/
theorem Ok.appendLoop_agree : ∀ (turns : ℕ) {m : Mkfs} (din : DiskInode) {dn : ℕ → Dinode} (p : ℕ → UInt8)
    (off n : ℕ), m.Ok → m.view.Owns dn → Fs.Live areaSuperblock dn inum → dn inum = din.inode → n ≤ turns →
    off + n ≤ maxFile * bsize →
    Agree (fun a c => c = (a.1.inode, a.2.2.view) ∧ a.2.1 = off + n ∧ a.2.2.Ok ∧ a.2.2.freeinode = m.freeinode)
      (appendLoop turns din p off n m) (Fs.writeLoop turns din.inode p off n m.view)
  | 0, m, din, dn, p, off, n, h, _, _, _, hn, _ => by
    obtain rfl : n = 0 := by omega
    exact ⟨rfl, rfl, h, rfl⟩
  | turns + 1, m, din, dn, p, off, n, h, hown, hlive, hdn, hn, hmax => by
    rw [appendLoop, Fs.writeLoop]
    split
    · rename_i h0
      subst h0
      exact ⟨rfl, rfl, h, rfl⟩
    · rename_i h0
      have hlt : off % bsize < bsize := Nat.mod_lt _ (by decide)
      have hoff : off < maxFile * bsize := by omega
      have hfbn := Fs.div_bsize_lt hoff
      have hn1 : (off / bsize + 1) * bsize - off = bsize - off % bsize := by
        have := Nat.div_add_mod' off bsize
        rw [Nat.add_mul, Nat.one_mul]
        omega
      have hstart : off - off / bsize * bsize = off % bsize := by
        have := Nat.div_add_mod' off bsize
        omega
      simp only [hn1, hstart]
      rw [if_pos hfbn]
      have hagree := h.fetchBlock_agree din hfbn fun q hq => by
        rw [← hdn] at hq ⊢
        exact Ok.taken_ptr hown hlive q hq
      have hmaps := (hown.bmap hlive hfbn)
      rw [hdn] at hmaps
      cases hf : m.fetchBlock (off / bsize) din with
      | error e =>
        rw [hf] at hagree
        obtain ⟨e', he'⟩ := hagree.of_error
        rw [he']
        trivial
      | ok a =>
        obtain ⟨x, buf, din1, m1⟩ := a
        rw [hf] at hagree
        obtain ⟨c, hc, rfl, hfetch⟩ := hagree.of_ok
        have hfetch : Fetched m x buf m1 := hfetch
        have hlive' : Fs.Live m.view.sb dn inum := hlive
        rw [hc]
        simp only [ok_bind]
        have hmap : Fs.Maps m.view dn inum (off / bsize) x din1.inode m1.view := hmaps.of_ok hc
        have hturn := hmap.stores_turn p hlive (min_le_right n (bsize - off % bsize)) hoff (by omega)
        obtain ⟨he, hok⟩ := hfetch.ok.wsect hfetch.taken.one_lt hfetch.taken.2
          (buf.move (off % bsize) (min n (bsize - off % bsize)) p)
        have hview : (m1.wsect x (buf.move (off % bsize) (min n (bsize - off % bsize)) p)).view
            = m1.view.setBlock x ((m1.view.block x).move (off % bsize) (min n (bsize - off % bsize)) p) := by
          rw [he, view_wsect hfetch.taken.1, hfetch.taken.view_block, hfetch.buf]
        have hrest := Ok.appendLoop_agree turns din1
          (fun k => p (min n (bsize - off % bsize) + k)) (off + min n (bsize - off % bsize))
          (n - min n (bsize - off % bsize)) hok (by rw [hview]; exact hturn.owns)
          ((Fs.live_update hlive' hturn.fields).mpr hlive') (update_self ..) (by omega) (by omega)
        rw [hview] at hrest
        refine hrest.mono fun a c hac => ?_
        obtain ⟨h1, h2, h3, h4⟩ := hac
        refine ⟨h1, by omega, h3, h4.trans ?_⟩
        rw [he]
        exact hfetch.inode

/-- The loop comes to its end only below the largest size of a file. -/
theorem appendLoop_le : ∀ (turns : ℕ) {m : Mkfs} {din : DiskInode} {p : ℕ → UInt8} {off n : ℕ}
    {r : DiskInode × ℕ × Mkfs}, appendLoop turns din p off n m = .ok r → n ≤ turns → 0 < n →
    off + n ≤ maxFile * bsize
  | 0, m, din, p, off, n, r, _, hn, hpos => by omega
  | turns + 1, m, din, p, off, n, r, h, hn, hpos => by
    rw [appendLoop, if_neg (by omega)] at h
    dsimp only at h
    split at h
    · rename_i hfbn
      obtain ⟨a, -, h⟩ := bind_eq_ok.mp h
      have hend : (off / bsize + 1) * bsize ≤ maxFile * bsize := Nat.mul_le_mul_right _ hfbn
      have hdiv := Nat.div_add_mod' off bsize
      have hlt : off % bsize < bsize := Nat.mod_lt _ (by decide)
      rw [Nat.add_mul, Nat.one_mul] at hend h
      rcases Nat.eq_zero_or_pos (n - min n (off / bsize * bsize + bsize - off)) with h0 | h0
      · omega
      · have := appendLoop_le turns h (by omega) h0
        omega
    · cases h

end Mkfs

/-! ## What `writei` leaves alone -/

namespace Fs

variable {fs fs' : Fs} {dn : ℕ → Dinode} {ip ip' : Dinode} {inum bn addr : ℕ} {k : Fin 12}

theorem setAddr_of_ne {j i : Fin 13} {a : ℕ} (h : j ≠ i) : (ip.setAddr i a).addrs j = ip.addrs j :=
  update_of_ne h ..

/-- `bmap` sets the address of its block, or that of the indirect block. -/
theorem bmap_addrs (h : Fs.bmap ip bn fs = .ok (addr, ip', fs')) (hk : k.val ≠ bn) :
    ip'.addrs k.castSucc = ip.addrs k.castSucc := by
  have hlast : k.castSucc ≠ 12 := fun e => by
    have hv := congrArg Fin.val e
    change k.val = 12 at hv
    omega
  rw [Fs.bmap] at h
  split at h
  · rename_i hd
    have hne : k.castSucc ≠ Fin.ofNat 13 bn := fun e => hk (by
      have := congrArg Fin.val e
      simp only [ndirect] at hd
      simp only [Fin.val_castSucc, Fin.val_ofNat] at this
      omega)
    dsimp only at h
    split at h
    · obtain ⟨r, -, h⟩ := bind_eq_ok.mp h
      cases h
      exact setAddr_of_ne hne
    · cases h
      rfl
  · split at h
    · obtain ⟨⟨ind, ip1, fs1⟩, h1, h⟩ := bind_eq_ok.mp h
      have hip : ip' = ip1 := by
        dsimp only at h
        split at h
        · obtain ⟨r, -, h⟩ := bind_eq_ok.mp h
          cases h
          rfl
        · cases h
          rfl
      rw [hip]
      split at h1
      · obtain ⟨r, -, h1⟩ := bind_eq_ok.mp h1
        cases h1
        exact setAddr_of_ne hlast
      · cases h1
        rfl
    · cases h

/-- The loop of `writei` sets the addresses of the blocks of its range only. -/
theorem writeLoop_addrs : ∀ (turns : ℕ) {fs : Fs} {ip : Dinode} {src : ℕ → UInt8} {off n : ℕ},
    Fs.writeLoop turns ip src off n fs = .ok (ip', fs') → (∀ j, off ≤ j → j < off + n → k.val ≠ j / bsize) →
    ip'.addrs k.castSucc = ip.addrs k.castSucc
  | 0, fs, ip, src, off, n, h, _ => by
    cases h
    rfl
  | turns + 1, fs, ip, src, off, n, h, hk => by
    rw [Fs.writeLoop] at h
    split at h
    · cases h
      rfl
    · obtain ⟨⟨addr, ip1, fs1⟩, h1, h⟩ := bind_eq_ok.mp h
      rw [writeLoop_addrs turns h fun j h1 h2 => hk j (by omega) (by omega)]
      exact bmap_addrs h1 (hk off (Nat.le_refl _) (by omega))

/-- **The contents of other inodes are left alone.** -/
theorem Owns.writeLoop_contents {i : ℕ} {q : Ptr} (hne : i ≠ inum) (hq : q ≠ .indirect) : ∀ (turns : ℕ) {fs : Fs}
    {dn : ℕ → Dinode} {src : ℕ → UInt8} {off n : ℕ}, fs.Owns dn → Live fs.sb dn inum → Live fs.sb dn i →
    off + n ≤ maxFile * bsize → Fs.writeLoop turns (dn inum) src off n fs = .ok (ip', fs') →
    (dn i).ptr fs.block q ≠ 0 → fs'.block ((dn i).ptr fs.block q) = fs.block ((dn i).ptr fs.block q)
  | 0, fs, dn, src, off, n, _, _, _, _, h, _ => by
    cases h
    rfl
  | turns + 1, fs, dn, src, off, n, hown, hlive, hi, hmax, h, hq0 => by
    rw [Fs.writeLoop] at h
    split at h
    · cases h
      rfl
    · rename_i h0
      have hlt : off % bsize < bsize := Nat.mod_lt _ (by decide)
      have hoff : off < maxFile * bsize := by omega
      obtain ⟨⟨addr, ip1, fs1⟩, h1, h⟩ := bind_eq_ok.mp h
      have hmap : Maps fs dn inum (off / bsize) addr ip1 fs1 := (hown.bmap hlive (div_bsize_lt hoff)).of_ok h1
      have hturn := hmap.stores_turn src hlive (min_le_right n (bsize - off % bsize)) hoff (by omega)
      set fs2 := fs1.setBlock addr
        ((fs1.block addr).move (off % bsize) (min n (bsize - off % bsize)) src) with hfs2
      have hsb : fs2.sb = fs.sb := by rw [hturn.frame]
      have hdn : update dn inum ip1 i = dn i := update_of_ne hne ..
      have hptr2 : (update dn inum ip1 i).ptr fs2.block q = (dn i).ptr fs.block q := by
        rw [hdn, hturn.others i q hne hi]
      -- the block that is written belongs to `inum`
      have haddr : (dn i).ptr fs.block q ≠ addr := fun e => by
        have hsb1 : fs1.sb = fs.sb := by rw [hmap.frame]
        have hself : fs1.holder (update dn inum ip1) (inum, .ofBlock (off / bsize)) = addr := by
          rw [holder_of_live (hsb1 ▸ (live_update hlive hmap.fields).mpr hlive), update_self, hmap.ptr_eq]
        have hother : fs1.holder (update dn inum ip1) (i, q) = addr := by
          rw [holder_of_live (hsb1 ▸ (live_update hlive hmap.fields).mpr hi), hdn, hmap.others i q hne hi, e]
        have := hmap.owns.exact.inj _ _ (by rw [hother]; exact hmap.addr_ne) (hother.trans hself.symm)
        exact hne (congrArg Prod.fst this)
      have hcont : fs2.block ((dn i).ptr fs.block q) = fs.block ((dn i).ptr fs.block q) :=
        (update_of_ne haddr ..).trans (hmap.contents i q hi hq hq0)
      have h : Fs.writeLoop turns (update dn inum ip1 inum)
          (fun k => src (min n (bsize - off % bsize) + k)) (off + min n (bsize - off % bsize))
          (n - min n (bsize - off % bsize)) fs2 = .ok (ip', fs') := by
        rw [update_self]
        exact h
      have hrest := Owns.writeLoop_contents hne hq turns hturn.owns
        (hsb ▸ (live_update hlive hturn.fields).mpr hlive) (hsb ▸ (live_update hlive hturn.fields).mpr hi)
        (by omega) h (by rw [hptr2]; exact hq0)
      rw [hptr2] at hrest
      exact hrest.trans hcont

end Fs

/-! ## `iappend` -/

namespace Mkfs

variable {m m' : Mkfs} {inum : ℕ} {data : List UInt8}

/-- **The data is behind the end of the file**, as `writei` would have put it there. -/
structure Appended (m : Mkfs) (inum : ℕ) (data : List UInt8) (m' : Mkfs) : Prop where
  ok : m'.Ok
  inode : m'.freeinode = m.freeinode
  written : Fs.Written m.view inum (fun k => data.getD k 0) (m.view.dinode inum).size data.length
    (m'.view.dinode inum) m'.view
  elsewhere : ∀ i q, i ≠ inum → Fs.Live areaSuperblock m.view.dinode i → q ≠ .indirect →
    (m.view.dinode i).ptr m.view.block q ≠ 0 →
    m'.view.block ((m.view.dinode i).ptr m.view.block q) = m.view.block ((m.view.dinode i).ptr m.view.block q)
  addrs : ∀ k : Fin 12, (m.view.dinode inum).size + data.length ≤ k.val * bsize →
    (m'.view.dinode inum).addrs k.castSucc = (m.view.dinode inum).addrs k.castSucc

/-- **`iappend`** appends, unless the file gets too large or the disk is full. -/
theorem Ok.iappend (h : m.Ok) (hs : m.view.Sound) (hlive : Fs.Live areaSuperblock m.view.dinode inum)
    (hpos : 0 < data.length) : Runs (m.iappend inum data)
      (fun _ => maxFile * bsize < (m.view.dinode inum).size + data.length ∨
        m.view.freeBlocks < (m.view.dinode inum).missing m.view.block) (Appended m inum data) := by
  have hi : inum < areaInodes := hlive.1
  have hdin : (m.dinode inum).inode = m.view.dinode inum := (view_dinode hi).symm
  have hoff : (m.dinode inum).size.toNat = (m.view.dinode inum).size := congrArg Dinode.size hdin
  have hbound : maxFile * bsize < UInt32.size := by decide
  rw [Mkfs.iappend, h.rinode hi, ok_bind, hoff]
  rcases Nat.lt_or_ge (maxFile * bsize) ((m.view.dinode inum).size + data.length) with hbig | hmax
  · -- an assertion fails
    refine Runs.bind (P := fun _ => False) ⟨fun _ _ => .inl hbig, fun r hr => ?_⟩ fun r hr => hr.elim
    have := appendLoop_le _ hr (Nat.le_refl _) hpos
    omega
  · have hagree := h.appendLoop_agree data.length (m.dinode inum) (fun k => data.getD k 0)
      (m.view.dinode inum).size data.length hs.owns hlive hdin.symm (Nat.le_refl _) hmax
    have hruns := hs.owns.writeLoop data.length (fun k => data.getD k 0) (m.view.dinode inum).size data.length
      hlive (Nat.le_refl _) hmax
    rw [hdin] at hagree
    cases ha : appendLoop data.length (m.dinode inum) (fun k => data.getD k 0) (m.view.dinode inum).size
        data.length m with
    | error e =>
      rw [ha] at hagree
      obtain ⟨e', he'⟩ := hagree.of_error
      exact runs_error.mpr (.inr (hruns.1 e' he').2)
    | ok r =>
      obtain ⟨din1, off1, m1⟩ := r
      rw [ha] at hagree
      obtain ⟨c, hc, rfl, hoff1, hok1, hfree1⟩ := hagree.of_ok
      dsimp only at hoff1 hok1 hfree1 hc
      have hst : Fs.Stores m.view m.view.dinode inum (fun k => data.getD k 0) (m.view.dinode inum).size
        data.length din1.inode m1.view := hruns.of_ok hc
      obtain ⟨m2, hm2, hok2, hview2, -, hfree2⟩ := hok1.winode hi { din1 with size := UInt32.ofNat off1 }
      have hsize : ({ din1 with size := UInt32.ofNat off1 } : DiskInode).inode
          = { din1.inode with size := (m.view.dinode inum).size + data.length } := by
        simp only [DiskInode.inode]
        rw [UInt32.toNat_ofNat_of_lt' (by omega), hoff1]
      have hself : m2.view.dinode inum = { din1.inode with size := (m.view.dinode inum).size + data.length } := by
        rw [hview2, Fs.iupdate, ← hsize]
        exact update_self ..
      have hw := hst.written (hs.filled inum hlive) (Nat.le_refl _) hmax
      have hold : din1.inode.size = (m.view.dinode inum).size := by rw [hst.fields]
      rw [if_pos ⟨hpos, by omega⟩, ← hsize, ← hview2, hsize, ← hself] at hw
      rw [ok_bind]
      dsimp only
      rw [hm2]
      refine runs_ok.mpr ⟨hok2, hfree2.trans hfree1, hw, fun i q hne hli hq hq0 => ?_, fun k hk => ?_⟩
      · have hcont := hs.owns.writeLoop_contents hne hq _ hlive hli hmax hc hq0
        rw [hview2]
        exact hcont
      · have haddrs : (m2.view.dinode inum).addrs = din1.inode.addrs := by rw [hself]
        rw [haddrs]
        refine Fs.writeLoop_addrs _ hc fun j _ hj he => ?_
        have := (Nat.le_div_iff_mul_le (by decide : 0 < bsize)).mp (Nat.le_of_eq he)
        omega

end Mkfs

end Xv6
