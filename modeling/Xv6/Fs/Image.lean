import Xv6.Fs.Append

/-!
# Fs/Image — the disk that `mkfs` makes is the one that the kernel reads

`Built cs m` says that the image `m` holds the files `cs`, in inodes 1, 2 and so on, in a sound file system:
the root directory is the first of them.  `mkfs` keeps it as long as the inodes are in the inode area, so
every file is read back by `readi`, and no block is used twice.

The last step rounds the size of the root directory up by `(off/BSIZE + 1) * BSIZE`.  When the entries fill
their blocks exactly, that is a block more than the directory has.  And nothing keeps the inode numbers
below the end of the inode area.
-/

namespace Xv6

open Outcome Function List

/-! ## What `fs.c` relies on -/

/-- **The kernel can work with the disk**: inodes 1 to `files.length + 1` are in the inode area and have a
block for every index below their size, all their blocks and the blocks before the data are marked used, no
block is used twice, and the files are read back without a change of the file system. -/
structure Agrees (files : List InputFile) (fs : Fs) : Prop where
  superblock : fs.sb = mkfsSuperblock
  inside : ∀ inum, 1 ≤ inum → inum ≤ files.length + 1 → inum / ipb + fs.sb.inodestart < fs.sb.bmapstart
  filled : ∀ inum, 1 ≤ inum → inum ≤ files.length + 1 → fs.Filled (fs.dinode inum)
  low : ∀ b < fs.sb.datastart, fs.used b
  marked : ∀ inum q, 1 ≤ inum → inum ≤ files.length + 1 → (fs.dinode inum).ptr fs.block q ≠ 0 →
    fs.sb.IsData ((fs.dinode inum).ptr fs.block q) ∧ fs.used ((fs.dinode inum).ptr fs.block q)
  apart : ∀ i q j r, 1 ≤ i → i ≤ files.length + 1 → 1 ≤ j → j ≤ files.length + 1 →
    (fs.dinode i).ptr fs.block q ≠ 0 → (fs.dinode i).ptr fs.block q = (fs.dinode j).ptr fs.block r →
    (i, q) = (j, r)
  reads : ∀ k f, files[k]? = some f → (fs.dinode (k + 2)).size = f.bytes.length ∧
    ∀ off n, off ≤ f.bytes.length → off + n < 2 ^ 32 → Fs.readi (fs.dinode (k + 2)) off n fs =
      .ok ((((f.bytes.drop off).take n).length, (f.bytes.drop off).take n), fs.dinode (k + 2), fs)

/-! ## Images that hold files -/

namespace Mkfs

variable {m m' : Mkfs} {cs : List (List UInt8)} {c data : List UInt8} {i : ℕ}

/-- Inode `inum` is a file or a directory with these bytes. -/
structure HoldsFile (fs : Fs) (inum : ℕ) (c : List UInt8) : Prop where
  live : (fs.dinode inum).type ≠ .free
  notDev : (fs.dinode inum).type ≠ .dev
  size : (fs.dinode inum).size = c.length
  bytes : ∀ k < c.length, fs.byte (fs.dinode inum) k = c.getD k 0

/-- A file whose inode, pointers and blocks stay is the same file. -/
theorem HoldsFile.congr {fs fs' : Fs} {inum : ℕ} (h : HoldsFile fs inum c) (hfill : fs.Filled (fs.dinode inum))
    (hdinode : fs'.dinode inum = fs.dinode inum)
    (hptr : ∀ q, (fs.dinode inum).ptr fs'.block q = (fs.dinode inum).ptr fs.block q)
    (hblock : ∀ q, q ≠ .indirect → (fs.dinode inum).ptr fs.block q ≠ 0 →
      fs'.block ((fs.dinode inum).ptr fs.block q) = fs.block ((fs.dinode inum).ptr fs.block q)) :
    HoldsFile fs' inum c := by
  refine ⟨hdinode ▸ h.live, hdinode ▸ h.notDev, hdinode ▸ h.size, fun k hk => ?_⟩
  have hne := hfill.ptr_ne k (h.size ▸ hk)
  rw [← h.bytes k hk, Fs.byte, Fs.byte, hdinode, hptr, hblock _ (Ptr.ofBlock_ne_indirect _) hne]

/-- **The image holds the files `cs`**, in inodes 1, 2 and so on. -/
structure Built (cs : List (List UInt8)) (m : Mkfs) : Prop where
  ok : m.Ok
  inode : m.freeinode = cs.length + 1
  sound : m.view.Sound
  area : cs.length < areaInodes
  holds : ∀ i c, cs[i]? = some c → HoldsFile m.view (i + 1) c
  free : ∀ i, i = 0 ∨ cs.length < i → (m.view.dinode i).type = .free
  beyond : ∀ c, cs[0]? = some c → ∀ k : Fin 12, c.length ≤ k.val * bsize → (m.view.dinode 1).addrs k.castSucc = 0

theorem Built.live (h : Built cs m) (hc : cs[i]? = some c) : Fs.Live areaSuperblock m.view.dinode (i + 1) := by
  have hlt := (List.getElem?_eq_some_iff.mp hc).1
  have harea := h.area
  exact ⟨show i + 1 < areaInodes by omega, (h.holds i c hc).live⟩

/-- **`ialloc`** takes the next inode for an empty file. -/
theorem Built.ialloc (h : Built cs m) (harea : cs.length + 1 < areaInodes) {t : UInt16} (ht : t = 1 ∨ t = 2) :
    ∃ m', m.ialloc t = .ok (cs.length + 1, m') ∧ Built (cs ++ [[]]) m' ∧
      ∃ d, m'.view = m.view.iupdate (cs.length + 1) d := by
  have hfree : (m.view.dinode (cs.length + 1)).type = .free := h.free _ (.inr (Nat.lt_succ_self _))
  set d : DiskInode := ⟨t, 0, 0, 1, 0, fun _ => 0⟩ with hd
  have hok : ({ m with freeinode := m.freeinode + 1 } : Mkfs).Ok := ⟨h.ok.size, h.ok.sb, h.ok.low, h.ok.high, h.ok.zero⟩
  obtain ⟨m', hm', hok', hview, -, hfi⟩ := hok.winode harea d
  have hview : m'.view = m.view.iupdate (cs.length + 1) d.inode := hview
  have htype : d.inode.type ≠ .free ∧ d.inode.type ≠ .dev := by
    rcases ht with rfl | rfl <;> decide
  -- first a zeroed inode with the type, then the link
  have hsound : m'.view.Sound := by
    have h1 := (h.sound.edits_ialloc hfree d.inode.type).sound h.sound
    have hlive : Fs.Live areaSuperblock (m.view.iupdate (cs.length + 1) { Dinode.zero with type := d.inode.type }).dinode
        (cs.length + 1) := ⟨harea, by simp only [Fs.iupdate, update_self]; exact htype.1⟩
    have h2 := (h1.edits_fields (d := d.inode) hlive (by simp [Fs.iupdate]) (by simp [Fs.iupdate]; rfl)
      (by simp [Fs.iupdate]; rfl)).sound h1
    have he : (m.view.iupdate (cs.length + 1) { Dinode.zero with type := d.inode.type }).iupdate (cs.length + 1) d.inode
        = m'.view := by
      rw [hview]
      simp only [Fs.iupdate, update_idem]
    rwa [he] at h2
  have hself : m'.view.dinode (cs.length + 1) = d.inode := by
    rw [hview]
    exact update_self ..
  have hother : ∀ j, j ≠ cs.length + 1 → m'.view.dinode j = m.view.dinode j := fun j hj => by
    rw [hview]
    exact update_of_ne hj ..
  have hblock : m'.view.block = m.view.block := by rw [hview]; rfl
  refine ⟨m', ?_, ⟨hok', ?_, hsound, ?_, fun j e he => ?_, fun j hj => ?_, fun e he k hk => ?_⟩, _, hview⟩
  · rw [h.inode] at hm'
    rw [Mkfs.ialloc, h.inode]
    rw [hm', ok_bind]
  · rw [hfi, length_append, h.inode]
    rfl
  · rw [length_append]
    exact harea
  · rcases Nat.lt_or_ge j cs.length with hj | hj
    · rw [List.getElem?_append_left hj] at he
      refine (h.holds j e he).congr (h.sound.filled _ (h.live he)) (hother _ (by omega)) (fun q => ?_) fun q _ _ => ?_
      · rw [hblock]
      · rw [hblock]
    · rw [List.getElem?_append_right hj] at he
      obtain ⟨hj', hc⟩ := List.getElem?_eq_some_iff.mp he
      have hj0 : j = cs.length := by
        simp only [length_singleton] at hj'
        omega
      subst hj0
      simp only [Nat.sub_self, getElem_cons_zero] at hc
      subst hc
      exact ⟨hself ▸ htype.1, hself ▸ htype.2, by rw [hself]; rfl, fun p hp => absurd hp (Nat.not_lt_zero _)⟩
  · rw [length_append] at hj
    rw [hother j (by simp only [length_singleton] at hj; omega)]
    exact h.free j (by simp only [length_singleton] at hj; omega)
  · rcases Nat.eq_zero_or_pos cs.length with h0 | h0
    · have : m'.view.dinode 1 = d.inode := by
        rw [h0] at hself
        exact hself
      rw [this]
      rfl
    · rw [List.getElem?_append_left h0] at he
      rw [hother 1 (by omega)]
      exact h.beyond e he k hk

/-- **`iappend`** appends to one of the files. -/
theorem Built.iappend (h : Built cs m) (hc : cs[i]? = some c) (hpos : 0 < data.length) :
    Runs (m.iappend (i + 1) data)
      (fun _ => maxFile * bsize < c.length + data.length ∨
        m.view.freeBlocks < (m.view.dinode (i + 1)).missing m.view.block)
      fun m' => Built (cs.set i (c ++ data)) m' ∧ Appended m (i + 1) data m' := by
  have hold := h.holds i c hc
  have hlt := (List.getElem?_eq_some_iff.mp hc).1
  have hlive := h.live hc
  have hruns := h.ok.iappend h.sound hlive hpos
  rw [hold.size] at hruns
  refine hruns.mono (fun _ he => he) fun m' ha => ⟨?_, ha⟩
  have hw := ha.written
  have hother : ∀ j, j ≠ i + 1 → m'.view.dinode j = m.view.dinode j := fun j hj => by
    rw [hw.dinode]
    exact update_of_ne hj ..
  have hfields := hw.fields
  rw [hold.size, max_eq_right (Nat.le_add_right _ _)] at hfields
  refine ⟨ha.ok, by rw [ha.inode, h.inode, length_set], hw.edits.sound h.sound, by rw [length_set]; exact h.area,
    fun j d hd => ?_, fun j hj => ?_, fun d hd k hk => ?_⟩
  · rw [List.getElem?_set] at hd
    split at hd
    · rename_i hij
      subst hij
      cases hd
      refine ⟨by rw [hfields]; exact hold.live, by rw [hfields]; exact hold.notDev, by
        rw [hfields, length_append], fun k hk => ?_⟩
      rw [length_append] at hk
      rcases Nat.lt_or_ge k c.length with hkc | hkc
      · rw [hw.outside k (by rw [hold.size]; exact hkc) (by rw [hold.size]; omega), hold.bytes k hkc,
          getD_append _ _ _ _ hkc]
      · rw [hw.inside k (by rw [hold.size]; exact hkc) (by rw [hold.size]; omega), hold.size,
          getD_append_right _ _ _ _ hkc]
    · rename_i hij
      have hj := h.holds j d hd
      have hne : j + 1 ≠ i + 1 := by omega
      exact hj.congr (h.sound.filled _ (h.live hd)) (hother _ hne) (fun q => hw.others (j + 1) q hne (h.live hd))
        fun q hq hq0 => ha.elsewhere (j + 1) q hne (h.live hd) hq hq0
  · rw [length_set] at hj
    rw [hother j (by omega)]
    exact h.free j hj
  · rw [List.getElem?_set] at hd
    split at hd
    · rename_i hi0
      subst hi0
      cases hd
      rw [length_append] at hk
      rw [ha.addrs k (by rw [hold.size]; exact hk)]
      exact h.beyond c hc k (by omega)
    · rename_i hi0
      rw [hother 1 (by omega)]
      exact h.beyond d hd k hk

/-! ## The run of `main` -/

theorem zeroes : ∀ {n : ℕ} (b : ℕ), n ≤ fsSize →
    (List.range n).foldl (fun m i => m.wsect i .zero) (⟨0, fun _ => .zero, 1, b⟩ : Mkfs) = ⟨n, fun _ => .zero, 1, b⟩
  | 0, _, _ => rfl
  | n + 1, b, h => by
    rw [range_succ, foldl_append, zeroes b (Nat.le_of_succ_le h), foldl_cons, foldl_nil,
      Mkfs.wsect, sect_eq h, update_eq_self]
    congr 1
    exact max_eq_right (Nat.le_succ n)

theorem start_eq : start = ⟨fsSize, update (fun _ => .zero) 1 (.ofSuperblock mkfsSuperblock), 1,
    areaSuperblock.datastart⟩ := by
  rw [start, zeroes _ (Nat.le_refl _)]
  rfl

/-- An image whose inodes are zero holds no file. -/
theorem Ok.built_nil (hok : m.Ok) (hnext : m.freeblock = areaSuperblock.datastart) (hinode : m.freeinode = 1)
    (hzero : ∀ b, 1 < b → m.block b = .zero) : Built [] m := by
  have hfree : ∀ i, (m.view.dinode i).type = .free := fun i => by
    simp only [view]
    split
    · rename_i hi
      rw [dinode, hzero _ (by have := iblock_lt hi; omega)]
      rfl
    · rfl
  have hholder : ∀ x, m.view.holder m.view.dinode x = 0 := fun x => if_neg fun h => h.2 (hfree x.1)
  have hdata : ¬ areaSuperblock.IsData 0 := by decide
  have hown : m.view.Owns m.view.dinode := by
    refine ⟨⟨hdata, fun x hx => absurd (hholder x) hx, fun x _ hx => absurd (hholder x) hx, fun b hb hused => ?_⟩,
      fun b hb => decide_eq_true (hnext ▸ hb), show fsSize < 2 ^ 32 by decide⟩
    have hlt := of_decide_eq_true hused
    rw [hnext] at hlt
    exact absurd hlt (Nat.not_lt.mpr hb.1)
  refine ⟨hok, hinode, ⟨hown, fun i hi => absurd (hfree i) hi.2⟩, by decide, fun j e he => ?_,
    fun i _ => hfree i, fun e he => ?_⟩ <;> cases he

/-- The image starts without files. -/
theorem built_start : Built [] start := by
  have hstart : start.block = update (fun _ => .zero) 1 (.ofSuperblock mkfsSuperblock) := by rw [start_eq]
  have hnext : start.freeblock = areaSuperblock.datastart := by rw [start_eq]
  have hblock : ∀ b, 1 < b → start.block b = .zero := fun b hb => by
    rw [hstart, update_of_ne (Nat.ne_of_gt hb)]
  refine Ok.built_nil ⟨by rw [start_eq], by rw [hstart, update_self], Nat.le_of_eq hnext.symm, ?_,
    fun b hb _ => hblock b ?_⟩ hnext (by rw [start_eq]) hblock
  · rw [hnext]
    decide
  · rw [hnext] at hb
    exact Nat.lt_of_lt_of_le (by decide) hb

/-- The chunks of a file are appended one after the other. -/
theorem Built.loop_iappend : ∀ (reads : List (List UInt8)) {m : Mkfs} {cs : List (List UInt8)} {c : List UInt8},
    Built cs m → cs[i]? = some c → (∀ r ∈ reads, 0 < r.length) → loop (Mkfs.iappend (i + 1)) reads m = .ok m' →
    Built (cs.set i (c ++ reads.flatten)) m'
  | [], m, cs, c, h, hc, _, hm => by
    cases hm
    obtain ⟨hlt, rfl⟩ := List.getElem?_eq_some_iff.mp hc
    rwa [flatten_nil, append_nil, set_getElem_self]
  | r :: reads, m, cs, c, h, hc, hpos, hm => by
    obtain ⟨m1, h1, hm⟩ := bind_eq_ok.mp hm
    have hb := ((h.iappend hc (hpos r mem_cons_self)).of_ok h1).1
    have hlt := (List.getElem?_eq_some_iff.mp hc).1
    have hrest := Built.loop_iappend reads hb (c := c ++ r) (by rw [List.getElem?_set_self hlt])
      (fun r hr => hpos r (mem_cons_of_mem _ hr)) hm
    rw [set_set, append_assoc] at hrest
    exact hrest

theorem length_dirent (inum : ℕ) (name : List UInt8) : (dirent inum name).length = 16 := by
  simp [dirent, dirSiz]

section AddFile

variable {root : List UInt8} {f : InputFile}

/-- The entry of a new file in the root directory. -/
theorem Built.addEntry (h : Built (root :: cs) m) (harea : cs.length + 2 < areaInodes) :
    ∃ m1 d, m.ialloc 2 = .ok (cs.length + 2, m1) ∧ m1.view = m.view.iupdate (cs.length + 2) d ∧
      Runs (m1.iappend rootIno (dirent (cs.length + 2) (dropUnderscore f.name)))
        (fun _ => maxFile * bsize < root.length + 16 ∨
          m1.view.freeBlocks < (m1.view.dinode 1).missing m1.view.block)
        fun m₂ => Built ((root ++ dirent (cs.length + 2) (dropUnderscore f.name)) :: (cs ++ [[]])) m₂ ∧
          Appended m1 1 (dirent (cs.length + 2) (dropUnderscore f.name)) m₂ := by
  obtain ⟨m1, h1, hb1, d, hd⟩ := h.ialloc harea (.inr rfl)
  have hlen := length_dirent (cs.length + 2) (dropUnderscore f.name)
  have hpos : 0 < (dirent (cs.length + 2) (dropUnderscore f.name)).length := by
    rw [hlen]
    decide
  have hruns := hb1.iappend (i := 0) (c := root) rfl hpos
  rw [hlen] at hruns
  exact ⟨m1, d, h1, hd, hruns⟩

/-- **A file is added**: an entry in the root directory, and the file. -/
theorem Built.addFile (h : Built (root :: cs) m) (harea : cs.length + 2 < areaInodes) (hm : m.addFile f = .ok m') :
    ∃ entry, entry.length = 16 ∧ Built ((root ++ entry) :: (cs ++ [f.bytes])) m' := by
  rw [Mkfs.addFile] at hm
  split at hm
  · cases hm
  · obtain ⟨m1, -, h1, -, hruns⟩ := h.addEntry (f := f) harea
    rw [h1, ok_bind] at hm
    dsimp only at hm
    obtain ⟨m₂, h2, hm⟩ := bind_eq_ok.mp hm
    have hb := (hruns.of_ok h2).1
    have hget : ((root ++ dirent (cs.length + 2) (dropUnderscore f.name)) :: (cs ++ [[]]))[cs.length + 1]? = some [] := by
      rw [List.getElem?_cons_succ, List.getElem?_append_right (Nat.le_refl _), Nat.sub_self]
      rfl
    have hfile := hb.loop_iappend f.reads hget (fun r hr => (f.sized r hr).1) hm
    refine ⟨dirent (cs.length + 2) (dropUnderscore f.name), length_dirent _ _, ?_⟩
    rwa [set_cons_succ, set_append_right _ _ (Nat.le_refl _), Nat.sub_self, nil_append] at hfile

/-- **The files are added** one after the other. -/
theorem Built.loop_addFile : ∀ (files : List InputFile) {m : Mkfs} {cs : List (List UInt8)} {root : List UInt8},
    Built (root :: cs) m → cs.length + files.length + 1 < areaInodes → loop Mkfs.addFile files m = .ok m' →
    ∃ root', root'.length = root.length + 16 * files.length ∧ Built (root' :: (cs ++ files.map InputFile.bytes)) m'
  | [], m, cs, root, h, _, hm => by
    cases hm
    exact ⟨root, rfl, by rwa [map_nil, append_nil]⟩
  | f :: files, m, cs, root, h, harea, hm => by
    obtain ⟨m1, h1, hm⟩ := bind_eq_ok.mp hm
    rw [length_cons] at harea
    obtain ⟨entry, hentry, hb⟩ := h.addFile (by omega) h1
    have hlen : (cs ++ [f.bytes]).length = cs.length + 1 := by rw [length_append, length_singleton]
    obtain ⟨root', hroot, hb'⟩ := Built.loop_addFile files hb (by omega) hm
    refine ⟨root', ?_, ?_⟩
    · rw [hroot, length_append, length_cons]
      omega
    · rwa [append_assoc] at hb'

end AddFile

/-- **The root directory** has two entries. -/
theorem built_makeRoot (hm : start.makeRoot = .ok m) : ∃ root, root.length = 32 ∧ Built [root] m := by
  obtain ⟨m1, h1, hb1, -⟩ := built_start.ialloc (by decide) (t := 1) (.inl rfl)
  rw [makeRoot, h1, ok_bind] at hm
  dsimp only at hm
  rw [if_pos (show ([] : List (List UInt8)).length + 1 = rootIno from rfl)] at hm
  obtain ⟨m₂, h2, hm⟩ := bind_eq_ok.mp hm
  have hb2 := ((hb1.iappend (i := 0) (c := []) rfl (by rw [length_dirent]; decide)).of_ok h2).1
  have hb3 := ((hb2.iappend (i := 0) rfl (by rw [length_dirent]; decide)).of_ok hm).1
  refine ⟨_, ?_, hb3⟩
  rw [length_append, nil_append, length_dirent, length_dirent]

end Mkfs

/-! ## The finished disk -/

namespace Block

theorem or_and_distrib (x y z : UInt8) : (x ||| y) &&& z = (x &&& z) ||| (y &&& z) := by
  apply UInt8.toBitVec_inj.mp
  ext i hi
  simp [Bool.and_or_distrib_right]

theorem one_bit {i j : ℕ} (hi : i < 8) (hj : j < 8) :
    ((1 : UInt8) <<< UInt8.ofNat i) &&& (1 <<< UInt8.ofNat j) = 0 ↔ i ≠ j := by
  have h : ∀ i j : Fin 8, ((1 : UInt8) <<< UInt8.ofNat i) &&& (1 <<< UInt8.ofNat j) = 0 ↔ i.val ≠ j.val := by decide
  exact h ⟨i, hi⟩ ⟨j, hj⟩

theorem bit_setBit (b : Block) {i bi : ℕ} (hbi : bi < bsize * 8) :
    (b.setBit i).bit bi = (decide (bi = i) || b.bit bi) := by
  simp only [bsize] at hbi
  have hval : (Fin.ofNat 512 (bi / 8)).val = bi / 8 := Nat.mod_eq_of_lt (by omega)
  have hi8 := Nat.mod_lt i (show 0 < 8 by decide)
  have hbi8 := Nat.mod_lt bi (show 0 < 8 by decide)
  simp only [bit, setBit, hval]
  split
  · rename_i hk
    rw [or_and_distrib]
    have hone := one_bit hi8 hbi8
    have heq : bi = i ↔ i % 8 = bi % 8 := by omega
    simp only [ne_eq, UInt8.or_eq_zero_iff, hone, not_and, not_not, heq]
    rw [← Bool.decide_or]
    exact decide_eq_decide.mpr (by tauto)
  · rename_i hk
    have hne : bi ≠ i := fun h => hk (by rw [h])
    simp [hne]

/-- **The bitmap** that `balloc` writes. -/
theorem bit_foldl {bi : ℕ} (hbi : bi < bsize * 8) : ∀ {used : ℕ}, used ≤ bsize * 8 →
    ((List.range used).foldl setBit zero).bit bi = decide (bi < used)
  | 0, _ => by
    rw [range_zero, foldl_nil]
    simp [bit, zero]
  | used + 1, h => by
    rw [range_succ, foldl_append, foldl_cons, foldl_nil, bit_setBit _ hbi,
      bit_foldl hbi (Nat.le_of_succ_le h), ← Bool.decide_or]
    exact decide_eq_decide.mpr (by omega)

theorem superblock_ofSuperblock : (ofSuperblock mkfsSuperblock).superblock = mkfsSuperblock := by
  rfl

end Block

namespace Mkfs

variable {m m₂ m3 : Mkfs} {fs : Fs} {devsw : ℤ → Option Device}

/-- The kernel sees what the view shows. -/
structure Seen (m : Mkfs) (fs : Fs) : Prop where
  sb : fs.sb = mkfsSuperblock
  used : ∀ b < bsize * 8, fs.used b = m.view.used b
  block : ∀ b, areaSuperblock.IsData b → fs.block b = m.view.block b
  dinode : ∀ i < areaInodes, fs.dinode i = m.view.dinode i

/-- **The bitmap makes the view real.** -/
theorem Ok.seen (h : m3.Ok) (hm : m3.balloc m3.freeblock = .ok m) : Seen m3 (.ofDisk m.block devsw) := by
  rw [Mkfs.balloc] at hm
  split at hm
  swap
  · cases hm
  rename_i hused
  cases hm
  have hlow := h.low
  change 59 ≤ m3.freeblock at hlow
  obtain ⟨he, -⟩ := h.wsect (b := mkfsSuperblock.bmapstart) (by decide) (Nat.lt_of_lt_of_le (by decide) hlow)
    ((List.range m3.freeblock).foldl Block.setBit .zero)
  rw [he]
  set block := update m3.block mkfsSuperblock.bmapstart ((List.range m3.freeblock).foldl Block.setBit .zero)
    with hblock
  have hne : ∀ b, b ≠ mkfsSuperblock.bmapstart → block b = m3.block b := fun b hb => update_of_ne hb ..
  have hsb : (Fs.ofDisk block devsw).sb = mkfsSuperblock := by
    change (block 1).superblock = _
    rw [hne 1 (by decide), h.sb, Block.superblock_ofSuperblock]
  refine ⟨hsb, fun b hb => ?_, fun b hb => ?_, fun i hi => ?_⟩
  · change (block ((block 1).superblock.bmapstart + b / (bsize * 8))).bit (b % (bsize * 8)) = decide (b < m3.freeblock)
    change (block 1).superblock = _ at hsb
    rw [hsb, Nat.div_eq_of_lt hb, Nat.mod_eq_of_lt hb, Nat.add_zero, hblock, update_self,
      Block.bit_foldl hb (Nat.le_of_lt hused)]
  · have hb59 : 59 ≤ b := hb.1
    refine (hne b fun h => ?_).trans (if_pos hb).symm
    rw [h] at hb59
    exact absurd hb59 (by decide)
  · have hlt := iblock_lt hi
    change ((block (i / ipb + (block 1).superblock.inodestart)).dinode (islot i)).inode = _
    change (block 1).superblock = _ at hsb
    rw [hsb, view_dinode hi]
    change ((block (iblock i)).dinode (islot i)).inode = _
    rw [hne _ (fun h => by rw [h] at hlt; exact absurd hlt.2 (by decide))]
    rfl

/-- **The size of the root directory is rounded**; all else stays. -/
theorem Ok.fixRoot (h : m₂.Ok) (hm : m₂.fixRoot = .ok m3)
    (hsize : (m₂.view.dinode 1).size ≤ maxFile * bsize) : m3.Ok ∧ m3.view = m₂.view.iupdate 1
      { m₂.view.dinode 1 with size := ((m₂.view.dinode 1).size / bsize + 1) * bsize } := by
  have hroot : (1 : ℕ) < areaInodes := by decide
  have hdin : m₂.view.dinode 1 = (m₂.dinode 1).inode := view_dinode hroot
  have hlt : ((m₂.view.dinode 1).size / bsize + 1) * bsize < UInt32.size := by
    simp only [maxFile, ndirect, nindirect, bsize, UInt32.size] at *
    omega
  rw [Mkfs.fixRoot, rootIno, h.rinode hroot, ok_bind] at hm
  obtain ⟨m', hm', hok, hview, -⟩ := h.winode hroot { m₂.dinode 1 with
    size := UInt32.ofNat (((m₂.dinode 1).size.toNat / bsize + 1) * bsize) }
  cases hm.symm.trans hm'
  refine ⟨hok, hview.trans ?_⟩
  have hs : (m₂.dinode 1).size.toNat = (m₂.view.dinode 1).size := by rw [hdin]; rfl
  rw [← hs] at hlt
  rw [hs, hdin]
  simp only [DiskInode.inode]
  rw [UInt32.toNat_ofNat_of_lt' hlt]

/-- **The finished disk**: what the image held, with another size of the root directory. -/
structure Finished (m : Mkfs) (root : List UInt8) (fs : Fs) : Prop where
  sb : fs.sb = mkfsSuperblock
  used : ∀ b < bsize * 8, fs.used b = m.view.used b
  block : ∀ b, areaSuperblock.IsData b → fs.block b = m.view.block b
  dinode : ∀ i < areaInodes, i ≠ 1 → fs.dinode i = m.view.dinode i
  root : fs.dinode 1 = { m.view.dinode 1 with size := (root.length / bsize + 1) * bsize }

variable {root : List UInt8} {cs : List (List UInt8)} {i : ℕ}

theorem Built.finished (h : Built (root :: cs) m₂) (hfix : m₂.fixRoot = .ok m3)
    (hbitmap : m3.balloc m3.freeblock = .ok m) : Finished m₂ root (.ofDisk m.block devsw) := by
  have hsize := (h.holds 0 root rfl).size
  obtain ⟨hok, hview⟩ := h.ok.fixRoot hfix (h.sound.filled 1 (h.live (i := 0) (c := root) rfl)).size_le
  have hseen : Seen m3 (.ofDisk m.block devsw) := hok.seen hbitmap
  rw [hsize] at hview
  refine ⟨hseen.sb, fun b hb => ?_, fun b hb => ?_, fun i hi hne => ?_, ?_⟩
  · rw [hseen.used b hb, hview]
    rfl
  · rw [hseen.block b hb, hview]
    rfl
  · rw [hseen.dinode i hi, hview]
    simp only [Fs.iupdate, update_of_ne hne]
  · rw [hseen.dinode 1 (by decide), hview]
    simp only [Fs.iupdate, update_self]

theorem Finished.ptr (h : Finished m root fs) (hown : m.view.Owns m.view.dinode)
    (hi : Fs.Live areaSuperblock m.view.dinode i) (q : Ptr) :
    (fs.dinode i).ptr fs.block q = (m.view.dinode i).ptr m.view.block q := by
  have haddrs : (fs.dinode i).addrs = (m.view.dinode i).addrs := by
    rcases eq_or_ne i 1 with rfl | hne
    · rw [h.root]
    · rw [h.dinode i hi.1 hne]
  have hblock : (m.view.dinode i).addrs 12 ≠ 0 → fs.block ((m.view.dinode i).addrs 12)
      = m.view.block ((m.view.dinode i).addrs 12) := fun hne =>
    h.block _ (Ok.taken_ptr hown hi .indirect hne).1
  rw [← Dinode.ptr_congr hblock]
  cases q <;> simp only [Dinode.ptr, haddrs]

/-- A file other than the root directory is on the disk as it was in the image. -/
theorem Finished.file (h : Finished m root fs) (hb : Built (root :: cs) m) {c : List UInt8} (hc : cs[i]? = some c) :
    HoldsFile fs (i + 2) c ∧ fs.Filled (fs.dinode (i + 2)) := by
  have hc' : (root :: cs)[i + 1]? = some c := hc
  have hlive := hb.live hc'
  have hfill := hb.sound.filled _ hlive
  have hdinode := h.dinode (i + 2) hlive.1 (by omega)
  have hptr : ∀ q, (m.view.dinode (i + 2)).ptr fs.block q = (m.view.dinode (i + 2)).ptr m.view.block q := fun q => by
    rw [← h.ptr hb.sound.owns hlive, hdinode]
  refine ⟨(hb.holds (i + 1) c hc').congr hfill hdinode hptr fun q _ hq => ?_, ?_⟩
  · exact h.block _ (Ok.taken_ptr hb.sound.owns hlive q hq).1
  · rw [hdinode]
    exact ⟨hfill.size_le, fun k hk => by rw [hptr]; exact hfill.ptr_ne k hk⟩

/-- **The root directory has all its blocks** exactly when its entries do not fill them. -/
theorem Finished.root_filled_iff (h : Finished m root fs) (hb : Built (root :: cs) m) (hlen : root.length < 12 * bsize) :
    fs.Filled (fs.dinode 1) ↔ root.length % bsize ≠ 0 := by
  have hlive := hb.live (i := 0) (c := root) rfl
  have hfill := hb.sound.filled _ hlive
  have hptr := h.ptr hb.sound.owns hlive
  have hsize : (m.view.dinode 1).size = root.length := (hb.holds 0 root rfl).size
  have hdiv := Nat.div_add_mod' root.length bsize
  have hmod : root.length % bsize < bsize := Nat.mod_lt _ (by decide)
  have hroot : (fs.dinode 1).size = (root.length / bsize + 1) * bsize := by rw [h.root]
  have hlast : root.length / bsize < 12 := Nat.div_lt_of_lt_mul (by rwa [Nat.mul_comm])
  rw [Nat.add_mul, Nat.one_mul] at hroot
  constructor
  · intro hf hzero
    have hne := hf.ptr_ne root.length (by omega)
    rw [hptr, Ptr.ofBlock, dif_pos hlast] at hne
    exact hne (hb.beyond root rfl ⟨_, hlast⟩ (by dsimp only; omega))
  · intro hne
    refine ⟨?_, fun k hk => ?_⟩
    · rw [hroot]
      simp only [maxFile, ndirect, nindirect, bsize] at *
      omega
    · rw [hptr]
      -- the first byte of the block is in the directory
      have hkdiv : k / bsize ≤ root.length / bsize := by
        have hk' : k < (root.length / bsize + 1) * bsize := by
          rw [Nat.add_mul, Nat.one_mul]
          omega
        exact Nat.le_of_lt_succ (Nat.div_lt_of_lt_mul (by rwa [Nat.mul_comm]))
      have hstart : k / bsize * bsize < (m.view.dinode 1).size := by
        have := Nat.mul_le_mul_right bsize hkdiv
        omega
      have hp := hfill.ptr_ne _ hstart
      rwa [Nat.mul_div_cancel _ (by decide)] at hp

theorem map_range_getD (bs : List UInt8) (off n : ℕ) :
    (List.range (min n (bs.length - off))).map (fun k => bs.getD (off + k) 0) = (bs.drop off).take n := by
  refine ext_getElem (by simp) fun k h1 h2 => ?_
  simp only [length_map, length_range] at h1
  rw [getElem_map, getElem_range, getElem_take, getElem_drop,
    getD_eq_getElem _ _ (by omega)]

/-- **A file is read back** by `readi`, and nothing is allocated. -/
theorem HoldsFile.readi {inum : ℕ} {c : List UInt8} (h : HoldsFile fs inum c) (hf : fs.Filled (fs.dinode inum))
    {off n : ℕ} (hoff : off ≤ c.length) (hn : off + n < 2 ^ 32) : Fs.readi (fs.dinode inum) off n fs =
      .ok ((((c.drop off).take n).length, (c.drop off).take n), fs.dinode inum, fs) := by
  have hlen : ((c.drop off).take n).length = min n (c.length - off) := by
    rw [length_take, length_drop]
  have hbytes : (List.range (min n (c.length - off))).map (fun k => fs.byte (fs.dinode inum) (off + k))
      = (c.drop off).take n := by
    rw [← map_range_getD]
    refine map_congr_left fun k hk => h.bytes _ ?_
    have := mem_range.mp hk
    omega
  rw [hf.readi h.notDev (by omega), if_pos ⟨by rw [h.size]; exact hoff, hn⟩, h.size, hlen, hbytes]

/-- **The finished disk**, when the inodes are in the inode area. -/
theorem Finished.agrees_iff {files : List InputFile} (h : Finished m root fs)
    (hb : Built (root :: files.map InputFile.bytes) m) (hroot : root.length = 16 * (files.length + 2)) :
    Agrees files fs ↔ (files.length + 2) % 32 ≠ 0 := by
  have harea := hb.area
  rw [length_cons, length_map] at harea
  change files.length + 1 < 208 at harea
  have hrootf := h.root_filled_iff hb (by rw [hroot]; simp only [bsize]; omega)
  have hmod : root.length % bsize ≠ 0 ↔ (files.length + 2) % 32 ≠ 0 := by
    rw [hroot]
    simp only [bsize]
    omega
  rw [hmod] at hrootf
  refine ⟨fun ha => hrootf.mp (ha.filled 1 (Nat.le_refl _) (by omega)), fun hne => ?_⟩
  have hown := hb.sound.owns
  have hlive : ∀ i, 1 ≤ i → i ≤ files.length + 1 → Fs.Live areaSuperblock m.view.dinode i := fun i h1 h2 => by
    have hc := List.getElem?_eq_getElem (l := root :: files.map InputFile.bytes) (i := i - 1)
      (by rw [length_cons, length_map]; omega)
    have := hb.live hc
    rwa [Nat.sub_add_cancel h1] at this
  have hholder : ∀ i q, 1 ≤ i → i ≤ files.length + 1 →
      m.view.holder m.view.dinode (i, q) = (fs.dinode i).ptr fs.block q := fun i q h1 h2 => by
    rw [h.ptr hown (hlive i h1 h2)]
    exact Fs.holder_of_live (hlive i h1 h2)
  have hget : ∀ {k : ℕ} {f : InputFile}, files[k]? = some f → (files.map InputFile.bytes)[k]? = some f.bytes := fun hf => by
    rw [List.getElem?_map, hf]
    rfl
  refine ⟨h.sb, fun i h1 h2 => ?_, fun i h1 h2 => ?_, fun b hlow => ?_, fun i q h1 h2 hq => ?_,
    fun i q j r h1 h2 h3 h4 hq he => ?_, fun k f hf => ?_⟩
  · rw [h.sb]
    change i / 8 + 32 < 58
    omega
  · rcases eq_or_ne i 1 with rfl | hi
    · exact hrootf.mpr hne
    · have hlt : i - 2 < files.length := by omega
      have := (h.file hb (hget (List.getElem?_eq_getElem hlt))).2
      rwa [Nat.sub_add_cancel (by omega)] at this
  · rw [h.sb] at hlow
    rw [h.used b (Nat.lt_trans hlow (by decide))]
    exact hown.low b hlow
  · have hmem := hown.exact.mem (i, q) (by rw [hholder i q h1 h2]; exact hq)
    rw [hholder i q h1 h2] at hmem
    rw [h.sb]
    have hlt : (fs.dinode i).ptr fs.block q < fsSize := hmem.1.2
    exact ⟨hmem.1, by rw [h.used _ (Nat.lt_trans hlt (by decide))]; exact hmem.2⟩
  · rw [← hholder i q h1 h2] at hq he
    rw [← hholder j r h3 h4] at he
    exact hown.exact.inj _ _ hq he
  · obtain ⟨hfile, hfill⟩ := h.file hb (hget hf)
    exact ⟨hfile.size, fun off n hoff hn => hfile.readi hfill hoff hn⟩

end Mkfs

/-! ## Runs that come to their end -/

namespace Mkfs

variable {m : Mkfs} {root : List UInt8} {cs : List (List UInt8)} {f : InputFile} {n : ℕ}

theorem view_freeBlocks (m : Mkfs) : m.view.freeBlocks = fsSize - m.freeblock := by
  have hset : ((Finset.range fsSize).filter fun b => m.view.used b = false) = Finset.Ico m.freeblock fsSize := by
    ext b
    simp only [view, Finset.mem_filter, Finset.mem_range, Finset.mem_Ico, decide_eq_false_iff_not]
    omega
  exact (congrArg Finset.card hset).trans (Nat.card_Ico _ _)

theorem freeBlocks_iupdate (fs : Fs) (inum : ℕ) (d : Dinode) : (fs.iupdate inum d).freeBlocks = fs.freeBlocks := rfl

set_option maxRecDepth 4000 in
theorem missing_le (d : Dinode) (block : ℕ → Block) : d.missing block ≤ 141 :=
  (Finset.card_le_univ _).trans (by decide)

/-- There are blocks for the rest of the root directory, and `n` more. -/
def Spare (n : ℕ) (m : Mkfs) : Prop := (m.view.dinode 1).missing m.view.block + n ≤ m.view.freeBlocks

/-- An entry is appended to the root directory. -/
theorem Built.iappend_returns {entry : List UInt8} (h : Built (root :: cs) m) (hs : Spare n m) (hpos : 0 < entry.length)
    (hlen : root.length + entry.length ≤ maxFile * bsize) :
    Returns (m.iappend 1 entry) fun m' => Built ((root ++ entry) :: cs) m' ∧ Spare n m' := by
  rw [Spare] at hs
  have hruns := h.iappend (i := 0) (c := root) rfl hpos
  simp only [Nat.zero_add] at hruns
  refine (hruns.returns fun e he => ?_).mono fun m' _ ⟨hb, ha⟩ => ⟨hb, ?_⟩
  · rcases he with he | he <;> omega
  · have hroom := ha.written.room
    rw [Spare]
    omega

theorem makeRoot_returns : Returns start.makeRoot fun m => (∃ root, root.length = 32 ∧ Built [root] m) ∧ Spare 141 m := by
  obtain ⟨m1, h1, hb1, d, hd⟩ := built_start.ialloc (by decide) (t := 1) (.inl rfl)
  have hspare : Spare 141 m1 := by
    have hfree : m1.view.freeBlocks = start.view.freeBlocks := by
      rw [hd, freeBlocks_iupdate]
    have hstart : start.freeblock = 59 := by rw [start_eq]; rfl
    have hmiss := missing_le (m1.view.dinode 1) m1.view.block
    rw [Spare, hfree, view_freeBlocks, hstart]
    simp only [fsSize]
    omega
  rw [makeRoot, h1, ok_bind]
  dsimp only
  rw [if_pos (show ([] : List (List UInt8)).length + 1 = rootIno from rfl)]
  refine (hb1.iappend_returns hspare (by rw [length_dirent]; decide) (by rw [length_dirent]; decide)).bind
    fun m₂ hm₂ => ?_
  obtain ⟨hb2, hs2⟩ := hm₂
  refine (hb2.iappend_returns hs2 (by rw [length_dirent]; decide) (by
    rw [length_append, length_dirent, length_dirent]; decide)).mono fun m3 _ hm3 => ⟨⟨_, ?_, hm3.1⟩, hm3.2⟩
  rw [length_append, nil_append, length_dirent, length_dirent]

theorem Built.addFile_returns (h : Built (root :: cs) m) (hs : Spare 141 m) (harea : cs.length + 2 < areaInodes)
    (hlen : root.length + 16 ≤ maxFile * bsize) (hname : f.name.contains 47 = false) (hreads : f.reads.length ≤ 1) :
    Returns (m.addFile f) fun m' => m'.Ok ∧ (f.reads = [] → Spare 141 m') := by
  obtain ⟨m1, d, h1, hd, hruns⟩ := h.addEntry (f := f) harea
  have hs1 : (m1.view.dinode 1).missing m1.view.block + 141 ≤ m1.view.freeBlocks := by
    have hfree : m1.view.freeBlocks = m.view.freeBlocks := by rw [hd, freeBlocks_iupdate]
    have hroot : m1.view.dinode 1 = m.view.dinode 1 := by
      rw [hd]
      simp only [Fs.iupdate]
      rw [update_of_ne (by omega)]
    have hblock : m1.view.block = m.view.block := by rw [hd]; rfl
    rw [hfree, hroot, hblock]
    exact hs
  rw [Mkfs.addFile, hname, if_neg Bool.false_ne_true, h1, ok_bind]
  refine (hruns.returns fun e he => ?_).bind fun m₂ hm₂ => ?_
  · rcases he with he | he <;> omega
  obtain ⟨hb2, ha2⟩ := hm₂
  have hroom := ha2.written.room
  have hs2 : Spare 141 m₂ := by
    rw [Spare]
    omega
  rcases Nat.le_one_iff_eq_zero_or_eq_one.mp hreads with hr | hr
  · rw [length_eq_zero_iff.mp hr]
    exact returns_ok.mpr ⟨hb2.ok, fun _ => hs2⟩
  · obtain ⟨r, hr⟩ := length_eq_one_iff.mp hr
    rw [hr]
    have hsized := f.sized r (by rw [hr]; exact mem_singleton.mpr rfl)
    have hget : ((root ++ dirent (cs.length + 2) (dropUnderscore f.name)) :: (cs ++ [[]]))[cs.length + 1]? = some [] := by
      rw [List.getElem?_cons_succ, List.getElem?_append_right (Nat.le_refl _), Nat.sub_self]
      rfl
    refine ((hb2.iappend hget hsized.1).returns fun e he => ?_).bind fun m3 hb3 =>
      returns_ok.mpr ⟨hb3.1.ok, fun h => absurd h (cons_ne_nil _ _)⟩
    have hmiss := missing_le (m₂.view.dinode (cs.length + 1 + 1)) m₂.view.block
    rw [Spare] at hs2
    rcases he with he | he
    · have : bsize ≤ maxFile * bsize := by decide
      simp only [length_nil] at he
      omega
    · omega

theorem Ok.finish_returns (h : m.Ok) : ∃ m', (do
    let m ← m.fixRoot
    m.balloc m.freeblock) = .ok m' := by
  obtain ⟨m1, h1, hok, -⟩ := h.winode (show 1 < areaInodes by decide) { m.dinode 1 with
    size := UInt32.ofNat (((m.dinode 1).size.toNat / bsize + 1) * bsize) }
  have hlt : m1.freeblock < bsize * 8 := Nat.lt_of_le_of_lt hok.high (by decide)
  have hfix : m.fixRoot = .ok m1 := by
    rw [Mkfs.fixRoot, rootIno, h.rinode (by decide), ok_bind]
    exact h1
  rw [hfix, ok_bind, Mkfs.balloc, if_pos hlt]
  exact ⟨_, rfl⟩

/-- Empty files are added. -/
theorem Built.loop_returns : ∀ (files : List InputFile) {m : Mkfs} {cs : List (List UInt8)} {root : List UInt8},
    Built (root :: cs) m → Spare 141 m → (∀ f ∈ files, f.name.contains 47 = false ∧ f.reads = []) →
    cs.length + files.length + 1 < areaInodes → root.length + 16 * files.length ≤ maxFile * bsize →
    Returns (loop Mkfs.addFile files m) Ok
  | [], m, cs, root, h, _, _, _, _ => returns_ok.mpr h.ok
  | f :: files, m, cs, root, h, hs, hf, harea, hlen => by
    obtain ⟨hname, hreads⟩ := hf f mem_cons_self
    rw [length_cons] at harea hlen
    obtain ⟨m1, h1, -, hs1⟩ := h.addFile_returns hs (by omega) (by omega) hname (by rw [hreads]; decide)
    obtain ⟨entry, hentry, hb⟩ := h.addFile (by omega) h1
    have hcs : (cs ++ [f.bytes]).length = cs.length + 1 := by rw [length_append, length_singleton]
    have hroot : (root ++ entry).length = root.length + 16 := by rw [length_append, hentry]
    obtain ⟨m', hm', hok⟩ := Built.loop_returns files hb (hs1 hreads)
      (fun f hf' => hf f (mem_cons_of_mem _ hf')) (by omega) (by omega)
    exact ⟨m', by rw [loop_cons, h1, ok_bind, hm'], hok⟩

end Mkfs

/-! ## The whole program -/

theorem mkfs_returns {files : List InputFile}
    (hloop : ∀ root m, root.length = 32 → Mkfs.Built [root] m → Mkfs.Spare 141 m →
      Returns (loop Mkfs.addFile files m) Mkfs.Ok) : ∃ m, mkfs files = .ok m := by
  obtain ⟨m1, h1, ⟨root, hroot, hb⟩, hs⟩ := Mkfs.makeRoot_returns
  obtain ⟨m₂, h2, hok⟩ := hloop root m1 hroot hb hs
  obtain ⟨m, hm⟩ := hok.finish_returns
  exact ⟨m, by rw [mkfs, h1, ok_bind, h2, ok_bind, hm]⟩

/-- The image before its last steps, and the disk after them. -/
theorem mkfs_finished {files : List InputFile} {m : Mkfs} (devsw : ℤ → Option Device) (h : mkfs files = .ok m)
    (hle : files.length ≤ 206) : ∃ m₂ root, root.length = 16 * (files.length + 2) ∧
      Mkfs.Built (root :: files.map InputFile.bytes) m₂ ∧ Mkfs.Finished m₂ root (.ofDisk m.block devsw) := by
  rw [mkfs] at h
  obtain ⟨m1, h1, h⟩ := bind_eq_ok.mp h
  obtain ⟨m₂, h2, h⟩ := bind_eq_ok.mp h
  obtain ⟨m3, h3, h⟩ := bind_eq_ok.mp h
  obtain ⟨root, hroot, hb1⟩ := Mkfs.built_makeRoot h1
  obtain ⟨root', hroot', hb2⟩ := hb1.loop_addFile files (show 0 + files.length + 1 < 208 by omega) h2
  exact ⟨m₂, root', by omega, hb2, hb2.finished h3 h⟩

/-- **`mkfs` and the kernel agree on the disk** exactly when the inode numbers stay inside the inode area and
the entries of the root directory do not fill their blocks. -/
theorem mkfs_agrees_iff (files : List InputFile) (m : Mkfs) (devsw : ℤ → Option Device) (h : mkfs files = .ok m) :
    Agrees files (.ofDisk m.block devsw) ↔ files.length ≤ 206 ∧ (files.length + 2) % 32 ≠ 0 := by
  rcases Nat.lt_or_ge 206 files.length with hlt | hle
  · -- the last inode is not in the inode area
    refine iff_of_false (fun ha => ?_) fun hc => by omega
    have hin := ha.inside (files.length + 1) (by omega) (Nat.le_refl _)
    rw [ha.superblock] at hin
    change (files.length + 1) / 8 + 32 < 58 at hin
    omega
  · obtain ⟨m₂, root, hroot, hb, hfin⟩ := mkfs_finished devsw h hle
    rw [hfin.agrees_iff hb hroot]
    exact (and_iff_right hle).symm

/-- A file of two bytes. -/
def helloFile : InputFile := ⟨[104], [[72, 105]], by decide⟩

theorem mkfs_agrees_hello : ∃ m, mkfs [helloFile] = .ok m ∧ Agrees [helloFile] (.ofDisk m.block fun _ => none) := by
  obtain ⟨m, hm⟩ : ∃ m, mkfs [helloFile] = .ok m := by
    refine mkfs_returns fun root m hroot hb hs => ?_
    obtain ⟨m', hm', hok, -⟩ := hb.addFile_returns (f := helloFile) hs (by decide) (by rw [hroot]; decide) rfl
      (Nat.le_refl _)
    exact ⟨m', by rw [loop_cons, hm', ok_bind, loop_nil], hok⟩
  exact ⟨m, hm, (mkfs_agrees_iff _ m _ hm).mpr (by decide)⟩

/-- An empty file. -/
def emptyInput : InputFile := ⟨[101], [], nofun⟩

/-- **Thirty files and the two entries for itself fill the block of the root directory**: its size is two
blocks, and it has one. -/
theorem mkfs_thirty_files : ∃ m, mkfs (List.replicate 30 emptyInput) = .ok m ∧
    ((Fs.ofDisk m.block fun _ => none).dinode 1).size = 2 * bsize ∧
    ((Fs.ofDisk m.block fun _ => none).dinode 1).addrs 1 = 0 ∧
    ¬ Agrees (List.replicate 30 emptyInput) (.ofDisk m.block fun _ => none) := by
  obtain ⟨m, hm⟩ : ∃ m, mkfs (List.replicate 30 emptyInput) = .ok m := by
    refine mkfs_returns fun root m hroot hb hs => hb.loop_returns _ hs (fun f hf => ?_) (by decide) ?_
    · rw [List.eq_of_mem_replicate hf]
      exact ⟨rfl, rfl⟩
    · rw [hroot, List.length_replicate]
      decide
  obtain ⟨m₂, root, hroot, hb, hfin⟩ := mkfs_finished (fun _ => none) hm (by rw [List.length_replicate]; decide)
  have hagrees := hfin.agrees_iff hb hroot
  rw [List.length_replicate] at hroot hagrees
  refine ⟨m, hm, ?_, ?_, fun ha => hagrees.mp ha rfl⟩
  · rw [hfin.root, hroot]
    rfl
  · rw [hfin.root]
    exact hb.beyond root rfl 1 (by rw [hroot]; decide)

end Xv6
