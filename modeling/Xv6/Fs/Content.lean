import Xv6.Fs.Owner

/-!
# Fs/Content — `readi` and `writei` turn by turn

`byte ip k` is the byte at offset `k` of a file.  `Stores` says what a part of the loop of `writei` does
to the file system: the bytes of its range are those of the buffer, the others are as they were, and the
blocks of the range have addresses.  One turn maps a block and moves bytes into it (`stores_turn`), and
the turns compose.
-/

namespace Xv6

open Outcome Function

namespace Fs

variable {fs fs' : Fs} {dn : ℕ → Dinode} {ip ip' : Dinode} {inum bn addr : ℕ} {src : ℕ → UInt8}
  {off n m k : ℕ}

/-- **The byte at offset `k`** of a file. -/
def byte (fs : Fs) (ip : Dinode) (k : ℕ) : UInt8 :=
  fs.block (ip.ptr fs.block (.ofBlock (k / bsize))) (Block.off k)

/-- **What the loop of `writei` does** for the range from `off` to `off + n`. -/
structure Stores (fs : Fs) (dn : ℕ → Dinode) (inum : ℕ) (src : ℕ → UInt8) (off n : ℕ) (ip' : Dinode)
    (fs' : Fs) : Prop where
  owns : fs'.Owns (Function.update dn inum ip')
  kept : ∀ q, (dn inum).ptr fs.block q ≠ 0 → ip'.ptr fs'.block q = (dn inum).ptr fs.block q
  others : ∀ i q, i ≠ inum → Live fs.sb dn i → (dn i).ptr fs'.block q = (dn i).ptr fs.block q
  mapped : ∀ k, off ≤ k → k < off + n → ip'.ptr fs'.block (.ofBlock (k / bsize)) ≠ 0
  inside : ∀ k, off ≤ k → k < off + n → fs'.byte ip' k = src (k - off)
  outside : ∀ k, k < maxFile * bsize → ¬ (off ≤ k ∧ k < off + n) →
    (dn inum).ptr fs.block (.ofBlock (k / bsize)) ≠ 0 → fs'.byte ip' k = fs.byte (dn inum) k
  same : (∀ k, off ≤ k → k < off + n → (dn inum).ptr fs.block (.ofBlock (k / bsize)) ≠ 0) →
    ip' = dn inum
  room : ip'.missing fs'.block + fs.freeBlocks = (dn inum).missing fs.block + fs'.freeBlocks
  fields : ip' = { dn inum with addrs := ip'.addrs }
  frame : fs' = { fs with used := fs'.used, block := fs'.block }

theorem Owns.stores_nil (h : fs.Owns dn) (src : ℕ → UInt8) (off : ℕ) :
    Stores fs dn inum src off 0 (dn inum) fs where
  owns := by rwa [update_eq_self]
  kept _ _ := rfl
  others _ _ _ _ := rfl
  mapped k h1 h2 := absurd h2 (by omega)
  inside k h1 h2 := absurd h2 (by omega)
  outside _ _ _ _ := rfl
  same _ := rfl
  room := rfl
  fields := rfl
  frame := rfl

/-- Different blocks of a file have different addresses. -/
theorem Owns.ptr_ofBlock_ne {bn' : ℕ} (h : fs.Owns dn) (hlive : Live fs.sb dn inum) (hbn : bn < maxFile)
    (hbn' : bn' < maxFile) (hne : bn' ≠ bn) (h0 : (dn inum).ptr fs.block (.ofBlock bn') ≠ 0) :
    (dn inum).ptr fs.block (.ofBlock bn') ≠ (dn inum).ptr fs.block (.ofBlock bn) := by
  intro he
  rw [← holder_of_live hlive] at h0 he
  rw [← holder_of_live hlive] at he
  have heq := h.exact.inj _ _ h0 he
  exact hne (Ptr.ofBlock_injOn hbn' hbn (Prod.mk.inj heq).2)

theorem div_bsize_lt (h : k < maxFile * bsize) : k / bsize < maxFile := Nat.div_lt_of_lt_mul (by
  rwa [Nat.mul_comm] at h)

/-- The offsets up to the end of a block are in that block. -/
theorem div_bsize_eq (h1 : off ≤ k) (h2 : k < off + (bsize - off % bsize)) : k / bsize = off / bsize := by
  have h := Nat.div_add_mod off bsize
  have hlt : off % bsize < bsize := Nat.mod_lt _ (by decide)
  exact Nat.div_eq_of_lt_le (by rw [Nat.mul_comm]; omega) (by rw [Nat.succ_mul, Nat.mul_comm]; omega)

/-- The bytes of a block after some have been moved into it. -/
theorem move_off {b : Block} (hk : k / bsize = off / bsize) :
    b.move (off % bsize) m src (Block.off k)
      = if off ≤ k ∧ k < off + m then src (k - off) else b (Block.off k) := by
  have h1 := Nat.div_add_mod k bsize
  have h2 := Nat.div_add_mod off bsize
  have h3 : off % bsize < bsize := Nat.mod_lt _ (by decide)
  rw [hk] at h1
  have hsub : k % bsize - off % bsize = k - off := by omega
  have hiff : off % bsize ≤ k % bsize ∧ k % bsize < off % bsize + m ↔ off ≤ k ∧ k < off + m := by
    omega
  simp only [Block.move, Block.off, hiff, hsub]

/-- **One turn** of the loop: a block is mapped, and bytes are moved into it. -/
theorem Maps.stores_turn (src : ℕ → UInt8) (h : Maps fs dn inum (off / bsize) addr ip' fs') (hlive : Live fs.sb dn inum)
    (hm : m ≤ bsize - off % bsize) (hoff : off < maxFile * bsize) (hpos : 0 < m) :
    Stores fs dn inum src off m ip'
      (fs'.setBlock addr ((fs'.block addr).move (off % bsize) m src)) := by
  have hsb : fs'.sb = fs.sb := by rw [h.frame]
  have hlive1 : Live fs'.sb (update dn inum ip') inum :=
    hsb ▸ (live_update hlive h.fields).mpr hlive
  have haddr : (update dn inum ip' inum).ptr fs'.block (.ofBlock (off / bsize)) = addr := by
    rw [update_self, h.ptr_eq]
  obtain ⟨hptr, hown⟩ := h.owns.setBlock (v := (fs'.block addr).move (off % bsize) m src) hlive1 haddr
    (Ptr.ofBlock_ne_indirect _)
  set fs2 := fs'.setBlock addr ((fs'.block addr).move (off % bsize) m src) with hfs2
  have hptr1 : ∀ q, ip'.ptr fs2.block q = ip'.ptr fs'.block q := fun q => by
    have := hptr inum q hlive1
    rwa [update_self] at this
  have hrange : ∀ k, off ≤ k → k < off + m → k / bsize = off / bsize := fun k h1 h2 =>
    div_bsize_eq h1 (by omega)
  -- a byte in the block of this turn
  have hin : ∀ k, k / bsize = off / bsize → fs2.byte ip' k
      = if off ≤ k ∧ k < off + m then src (k - off) else fs'.byte ip' k := fun k hk => by
    rw [byte, byte, hptr1, hk, h.ptr_eq, hfs2]
    exact (congrFun (update_self ..) _).trans (move_off hk)
  -- a byte in another block of the file
  have hout : ∀ k, k < maxFile * bsize → k / bsize ≠ off / bsize →
      ip'.ptr fs'.block (.ofBlock (k / bsize)) ≠ 0 → fs2.byte ip' k = fs'.byte ip' k :=
    fun k hk hne h0 => by
      have hdiff := h.owns.ptr_ofBlock_ne hlive1 (div_bsize_lt hoff) (div_bsize_lt hk) hne
        (by rwa [update_self])
      rw [haddr, update_self] at hdiff
      rw [byte, byte, hptr1]
      exact congrFun (update_of_ne hdiff _ _) _
  -- `bmap` kept the bytes of the blocks that had an address
  have hmap : ∀ k, (dn inum).ptr fs.block (.ofBlock (k / bsize)) ≠ 0 →
      fs'.byte ip' k = fs.byte (dn inum) k := fun k h0 => by
    rw [byte, byte, h.kept _ h0]
    exact congrFun (h.contents inum _ hlive (Ptr.ofBlock_ne_indirect _) h0) _
  refine ⟨hown, fun q hq => (hptr1 q).trans (h.kept q hq), fun i q hi hl => ?_, fun k h1 h2 => ?_,
    fun k h1 h2 => ?_, fun k hk hnot h0 => ?_, fun hall => ?_, ?_, h.fields, ?_⟩
  · have hl1 : Live fs'.sb (update dn inum ip') i := hsb ▸ (live_update hlive h.fields).mpr hl
    have := hptr i q hl1
    rw [update_of_ne hi] at this
    rw [this, h.others i q hi hl]
  · rw [hptr1, hrange k h1 h2, h.ptr_eq]
    exact h.addr_ne
  · rw [hin k (hrange k h1 h2), if_pos ⟨h1, h2⟩]
  · rw [← hmap k h0]
    rcases eq_or_ne (k / bsize) (off / bsize) with hkb | hkb
    · rw [hin k hkb, if_neg hnot]
    · exact hout k hk hkb (by rw [h.kept _ h0]; exact h0)
  · exact (h.same (hall off le_rfl (by omega))).1
  · have hmiss : ip'.missing fs2.block = ip'.missing fs'.block := by
      simp only [Dinode.missing, hptr1]
    rw [hmiss]
    exact h.room
  · exact congrArg (fun g : Fs => { g with used := fs2.used, block := fs2.block }) h.frame

/-- **Ranges that follow each other** are stored one after the other. -/
theorem Stores.trans {ip1 : Dinode} {fs1 : Fs} (h : Stores fs dn inum src off m ip1 fs1)
    (h' : Stores fs1 (update dn inum ip1) inum (fun k => src (m + k)) (off + m) n ip' fs')
    (hlive : Live fs.sb dn inum) (hmax : off + m + n ≤ maxFile * bsize) :
    Stores fs dn inum src off (m + n) ip' fs' := by
  have hsb : fs1.sb = fs.sb := by rw [h.frame]
  have hlive1 : ∀ i, Live fs.sb dn i → Live fs1.sb (update dn inum ip1) i := fun i hi =>
    hsb ▸ (live_update hlive h.fields).mpr hi
  obtain ⟨howns, hkept, hothers, hmapped, hinside, houtside, hsame, hroom, hfields, hframe⟩ := h'
  simp only [update_self, update_idem] at howns hkept houtside hsame hroom hfields
  refine ⟨howns, fun q hq => ?_, fun i q hi hl => ?_, fun k h1 h2 => ?_, fun k h1 h2 => ?_,
    fun k hk hnot h0 => ?_, fun hall => ?_, ?_, ?_, ?_⟩
  · rw [hkept q (by rw [h.kept q hq]; exact hq), h.kept q hq]
  · have ho := hothers i q hi (hlive1 i hl)
    rw [update_of_ne hi] at ho
    rw [ho, h.others i q hi hl]
  · rcases Nat.lt_or_ge k (off + m) with hlt | hge
    · rw [hkept _ (h.mapped k h1 hlt)]
      exact h.mapped k h1 hlt
    · exact hmapped k hge (by omega)
  · rcases Nat.lt_or_ge k (off + m) with hlt | hge
    · rw [houtside k (by omega) (by omega) (h.mapped k h1 hlt), h.inside k h1 hlt]
    · rw [hinside k hge (by omega)]
      congr 1
      omega
  · rw [houtside k hk (by omega) (by rw [h.kept _ h0]; exact h0), h.outside k hk (by omega) h0]
  · have h1 := h.same fun k hk hk' => hall k hk (by omega)
    rw [hsame fun k hk hk' => ?_, h1]
    have h0 := hall k (by omega) (by omega)
    rw [h.kept _ h0]
    exact h0
  · have := h.room
    omega
  · rw [hfields, h.fields]
  · rw [hframe, h.frame]

/-- **The loop of `writei`** stores its range, unless the disk is full. -/
theorem Owns.writeLoop : ∀ (turns : ℕ) {fs : Fs} {dn : ℕ → Dinode} (src : ℕ → UInt8) (off n : ℕ),
    fs.Owns dn → Live fs.sb dn inum → n ≤ turns → off + n ≤ maxFile * bsize →
    Runs (Fs.writeLoop turns (dn inum) src off n fs)
      (fun e => e = "balloc: out of blocks" ∧ fs.freeBlocks < (dn inum).missing fs.block)
      fun r => Stores fs dn inum src off n r.1 r.2
  | 0, fs, dn, src, off, n, h, _, hn, _ => by
    obtain rfl : n = 0 := by omega
    exact runs_ok.mpr (h.stores_nil src off)
  | turns + 1, fs, dn, src, off, n, h, hlive, hn, hmax => by
    rw [Fs.writeLoop]
    split
    · rename_i h0
      subst h0
      exact runs_ok.mpr (h.stores_nil src off)
    · rename_i h0
      have hlt : off % bsize < bsize := Nat.mod_lt _ (by decide)
      have hoff : off < maxFile * bsize := by omega
      refine (h.bmap hlive (div_bsize_lt hoff)).bind fun r hr => ?_
      obtain ⟨addr, ip1, fs1⟩ := r
      have hturn := hr.stores_turn src hlive (min_le_right n (bsize - off % bsize)) hoff (by omega)
      set fs2 := fs1.setBlock addr
        ((fs1.block addr).move (off % bsize) (min n (bsize - off % bsize)) src)
      have hsb : fs2.sb = fs.sb := by rw [hturn.frame]
      have hrest := Owns.writeLoop turns (fun k => src (min n (bsize - off % bsize) + k))
        (off + min n (bsize - off % bsize)) (n - min n (bsize - off % bsize)) hturn.owns
        (hsb ▸ (live_update hlive hturn.fields).mpr hlive) (by omega) (by omega)
      rw [update_self] at hrest
      refine hrest.mono (fun e he => ⟨he.1, ?_⟩) fun r hr' => ?_
      · have := hturn.room
        have := he.2
        omega
      · have hall := hturn.trans hr' hlive (by omega)
        rwa [Nat.add_sub_cancel' (min_le_left _ _)] at hall

/-! ## Whole calls -/

/-- **An accepted write**: the range holds the bytes of the buffer, the file grows to its end, and the
inode on disk is the one in memory. -/
structure Written (fs : Fs) (inum : ℕ) (src : ℕ → UInt8) (off n : ℕ) (ip' : Dinode) (fs' : Fs) :
    Prop where
  owns : fs'.Owns fs'.dinode
  sb : fs'.sb = fs.sb
  devsw : fs'.devsw = fs.devsw
  dinode : fs'.dinode = Function.update fs.dinode inum ip'
  fields : ip' = { fs.dinode inum with
    addrs := ip'.addrs, size := max (fs.dinode inum).size (off + n) }
  filled : fs'.Filled ip'
  others : ∀ i q, i ≠ inum → Live fs.sb fs.dinode i →
    (fs.dinode i).ptr fs'.block q = (fs.dinode i).ptr fs.block q
  inside : ∀ k, off ≤ k → k < off + n → fs'.byte ip' k = src (k - off)
  outside : ∀ k < (fs.dinode inum).size, ¬ (off ≤ k ∧ k < off + n) →
    fs'.byte ip' k = fs.byte (fs.dinode inum) k
  room : ip'.missing fs'.block + fs.freeBlocks = (fs.dinode inum).missing fs.block + fs'.freeBlocks

/-- The two ways `writei` ends after its loop. -/
theorem Stores.written (h : Stores fs fs.dinode inum src off n ip' fs')
    (hfill : fs.Filled (fs.dinode inum)) (hoff : off ≤ (fs.dinode inum).size)
    (hmax : off + n ≤ maxFile * bsize) :
    if n > 0 ∧ off + n > ip'.size then
      Written fs inum src off n { ip' with size := off + n }
        (fs'.iupdate inum { ip' with size := off + n })
    else Written fs inum src off n ip' fs' := by
  have hsize : ip'.size = (fs.dinode inum).size := by rw [h.fields]
  have hdinode : fs'.dinode = fs.dinode := by rw [h.frame]
  have hfilled : ∀ k < max (fs.dinode inum).size (off + n),
      ip'.ptr fs'.block (.ofBlock (k / bsize)) ≠ 0 := fun k hk => by
    rcases Nat.lt_or_ge k (fs.dinode inum).size with hlt | hge
    · rw [h.kept _ (hfill.ptr_ne k hlt)]
      exact hfill.ptr_ne k hlt
    · exact h.mapped k (by omega) (by omega)
  have houtside : ∀ k < (fs.dinode inum).size, ¬ (off ≤ k ∧ k < off + n) →
      fs'.byte ip' k = fs.byte (fs.dinode inum) k := fun k hk hnot =>
    h.outside k (lt_of_lt_of_le hk hfill.size_le) hnot (hfill.ptr_ne k hk)
  have hmaxle : max (fs.dinode inum).size (off + n) ≤ maxFile * bsize := max_le hfill.size_le hmax
  split
  · rename_i hgrow
    have hmaxeq : max (fs.dinode inum).size (off + n) = off + n := by omega
    have hdn : update fs'.dinode inum { ip' with size := off + n }
        = update (update fs.dinode inum ip') inum { ip' with size := off + n } := by
      rw [update_idem, hdinode]
    refine ⟨?_, by rw [h.frame]; rfl, by rw [h.frame]; rfl, by rw [← hdinode]; rfl, ?_, ⟨?_, ?_⟩,
      h.others, h.inside, houtside, h.room⟩
    · refine Owns.iupdate ?_ _
      change fs'.Owns (update fs'.dinode inum _)
      rw [hdn]
      exact h.owns.congr_fields (by rw [update_self]) (by rw [update_self])
    · rw [hmaxeq, h.fields]
    · rw [← hmaxeq]
      exact hmaxle
    · intro k hk
      exact hfilled k (by rw [hmaxeq]; exact hk)
  · rename_i hgrow
    have hle : off + n ≤ (fs.dinode inum).size := by
      rcases Nat.eq_zero_or_pos n with rfl | hpos
      · exact hoff
      · omega
    have hmaxeq : max (fs.dinode inum).size (off + n) = (fs.dinode inum).size := by omega
    have hsame : ip' = fs.dinode inum := h.same fun k _ hk => hfill.ptr_ne k (by omega)
    have hdn : update fs.dinode inum ip' = fs.dinode := by
      rw [hsame, update_eq_self]
    refine ⟨?_, by rw [h.frame], by rw [h.frame], by rw [hdn, hdinode], ?_, ⟨?_, ?_⟩, h.others, h.inside,
      houtside, h.room⟩
    · have hown := h.owns
      rwa [hdn, ← hdinode] at hown
    · rw [hmaxeq, hsame]
    · rw [hsize]
      exact hfill.size_le
    · intro k hk
      exact hfilled k (by omega)

/-- **`writei`** on a file or a directory accepts a write that begins in the file and ends below the
limit, and refuses any other with `-1`. -/
theorem Owns.writei (src : ℕ → UInt8) (off : ℕ) (h : fs.Owns fs.dinode) (hlive : Live fs.sb fs.dinode inum)
    (hfill : fs.Filled (fs.dinode inum)) (htype : (fs.dinode inum).type ≠ .dev) (hn : n < 2 ^ 32) :
    Runs (Fs.writei inum (fs.dinode inum) src off n fs)
      (fun e => e = "balloc: out of blocks" ∧ fs.freeBlocks < (fs.dinode inum).missing fs.block)
      fun r => if off ≤ (fs.dinode inum).size ∧ off + n ≤ maxFile * bsize then
          r.1 = n ∧ Written fs inum src off n r.2.1 r.2.2
        else r = (-1, fs.dinode inum, fs) := by
  have hsize := hfill.size_le
  have hbound : maxFile * bsize < 2 ^ 32 := by decide
  rw [Fs.writei, if_neg htype]
  split
  · rename_i hrefuse
    rw [runs_ok, if_neg]
    omega
  · rename_i haccept
    split
    · rw [runs_ok, if_neg]
      omega
    · rename_i hmax
      have hok : off ≤ (fs.dinode inum).size ∧ off + n ≤ maxFile * bsize := by omega
      refine (h.writeLoop n src off n hlive le_rfl hok.2).bind fun r hr => ?_
      obtain ⟨ip1, fs1⟩ := r
      have hw := Stores.written hr hfill hok.1 hok.2
      simp only
      split at hw <;> rename_i hgrow
      · rw [if_pos hgrow, runs_ok, if_pos hok]
        exact ⟨rfl, hw⟩
      · rw [if_neg hgrow, runs_ok, if_pos hok]
        exact ⟨rfl, hw⟩

/-- **The loop of `readi`**, over blocks that have addresses, changes nothing. -/
theorem readLoop_eq : ∀ (turns off n : ℕ), n ≤ turns → off + n ≤ maxFile * bsize →
    (∀ k, off ≤ k → k < off + n → ip.ptr fs.block (.ofBlock (k / bsize)) ≠ 0) →
    Fs.readLoop turns ip off n fs = .ok ((List.range n).map fun k => fs.byte ip (off + k), ip, fs)
  | 0, off, n, hn, _, _ => by
    obtain rfl : n = 0 := by omega
    rfl
  | turns + 1, off, n, hn, hmax, hptr => by
    rw [Fs.readLoop]
    split
    · rename_i h0
      subst h0
      rfl
    · rename_i h0
      have hlt : off % bsize < bsize := Nat.mod_lt _ (by decide)
      have hb := bmap_eq (hptr off le_rfl (by omega)) (div_bsize_lt (show off < _ by omega))
      have hrest := readLoop_eq turns (off + min n (bsize - off % bsize))
        (n - min n (bsize - off % bsize)) (by omega) (by omega) fun k h1 h2 => hptr k (by omega) (by omega)
      rw [hb, ok_bind]
      simp only
      rw [hrest, ok_bind]
      have hsplit : n = min n (bsize - off % bsize) + (n - min n (bsize - off % bsize)) := by omega
      -- the bytes of this turn are in one block
      have hfirst : ∀ k < min n (bsize - off % bsize),
          fs.block (ip.ptr fs.block (.ofBlock (off / bsize))) (Block.off (off % bsize + k))
            = fs.byte ip (off + k) := fun k hk => by
        rw [byte, div_bsize_eq (Nat.le_add_right off k) (by omega)]
        congr 1
        simp only [Block.off, Nat.mod_add_mod]
      have hall : (List.range n).map (fun k => fs.byte ip (off + k))
          = (List.range (min n (bsize - off % bsize))).map (fun k =>
              fs.block (ip.ptr fs.block (.ofBlock (off / bsize))) (Block.off (off % bsize + k)))
            ++ (List.range (n - min n (bsize - off % bsize))).map fun k =>
              fs.byte ip (off + min n (bsize - off % bsize) + k) := by
        conv_lhs => rw [hsplit, List.range_add, List.map_append, List.map_map]
        congr 1
        · exact List.map_congr_left fun k hk => (hfirst k (List.mem_range.mp hk)).symm
        · exact List.map_congr_left fun k _ => congrArg (fs.byte ip) (Nat.add_assoc ..).symm
      rw [hall]

/-- **`readi`** on a file or a directory returns what there is of the range, and refuses a range that begins
behind the file or wraps around with `-1`. -/
theorem Filled.readi (h : fs.Filled ip) (htype : ip.type ≠ .dev) (hn : n < 2 ^ 32) :
    Fs.readi ip off n fs = .ok (if off ≤ ip.size ∧ off + n < 2 ^ 32 then
        ((min n (ip.size - off) : ℕ), (List.range (min n (ip.size - off))).map fun k => fs.byte ip (off + k))
      else (-1, []), ip, fs) := by
  have hsize := h.size_le
  have hbound : maxFile * bsize < 2 ^ 32 := by decide
  rw [Fs.readi, if_neg htype]
  split
  · rw [if_neg (by omega)]
  · have hlen : (if off + n > ip.size then ip.size - off else n) = min n (ip.size - off) := by
      split <;> omega
    rw [hlen, if_pos (by omega)]
    simp only
    rw [readLoop_eq _ _ _ le_rfl (by omega) fun k _ hk => h.ptr_ne k (by omega), ok_bind]

end Fs

end Xv6
