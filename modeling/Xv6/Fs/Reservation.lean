import Xv6.Fs.Nested

/-!
# Fs/Reservation — a chunk of `filewrite` logs ten blocks at most

`filewrite` hands `writei` at most three blocks at a time, and `begin_op` reserves `MAXOPBLOCKS` blocks of
the log for it.  A turn of `writei` logs its data block and, if it has to allocate that, a block of the bitmap;
the indirect block and its own bitmap block come on top, once, and the inode block at the end (`Bill`).

There is no slack.  A chunk that does not start at a block boundary touches four blocks; but then the file
ends in the first of them or behind it, so that one need not be allocated.  The bitmap may have any
number of blocks.
-/

namespace Xv6

open Outcome Function List

/-- The block that an event logs. -/
def WriteEvent.logs : WriteEvent → Option ℕ
  | .logWrite b => some b
  | .touch _ => none

/-- The blocks that `log_write` gets. -/
def logged (evs : List WriteEvent) : List ℕ := evs.filterMap WriteEvent.logs

theorem logged_append (evs evs' : List WriteEvent) : logged (evs ++ evs') = logged evs ++ logged evs' :=
  filterMap_append

theorem logged_cons (b : ℕ) (evs : List WriteEvent) : logged (.logWrite b :: evs) = b :: logged evs := rfl

theorem logged_map (bs : List ℕ) : logged (bs.map .logWrite) = bs := by
  rw [logged, filterMap_map]
  exact filterMap_some

theorem logged_touches (va m : ℕ) : logged (Fs.touches va m) = [] := by
  rw [logged, Fs.touches, filterMap_map]
  exact filterMap_eq_nil_iff.mpr fun _ _ => rfl

namespace Fs

variable {fs fs' : Fs} {ip ip' : Dinode} {bn b addr k off n : ℕ} {bs rest : List ℕ}

/-- **What `k` turns of `writei` may log**: a data block and a block of the bitmap each, and the indirect
block, with a block of the bitmap if it is new. -/
def Bill (ip : Dinode) (k : ℕ) (bs : List ℕ) : Prop :=
  ∃ data maps ind : List ℕ, bs ⊆ data ++ maps ++ ind ∧ data.length ≤ k ∧ maps.length ≤ k ∧
    ind.length ≤ 2 ∧ (ip.addrs 12 ≠ 0 → ind = [ip.addrs 12])

theorem bill_nil (ip : Dinode) (k : ℕ) : Bill ip k [] :=
  ⟨[], [], [ip.addrs 12], by simp, by simp, by simp, by simp, fun _ => rfl⟩

theorem Bill.mono {k' : ℕ} (h : Bill ip k bs) (hk : k ≤ k') : Bill ip k' bs := by
  obtain ⟨data, maps, ind, hsub, hd, hm, hi, hind⟩ := h
  exact ⟨data, maps, ind, hsub, hd.trans hk, hm.trans hk, hi, hind⟩

/-- The number of blocks on it. -/
theorem Bill.card_le (h : Bill ip k bs) : bs.toFinset.card ≤ 2 * k + 2 := by
  obtain ⟨data, maps, ind, hsub, hd, hm, hi, -⟩ := h
  have hcard : bs.toFinset.card ≤ (data ++ maps ++ ind).toFinset.card :=
    Finset.card_le_card fun b hb => mem_toFinset.mpr (hsub (mem_toFinset.mp hb))
  have hlen := toFinset_card_le (data ++ maps ++ ind)
  simp only [length_append] at hlen
  omega

/-- A turn that leaves the indirect block alone, or logs it. -/
theorem Bill.turn {m : ℕ} (h : Bill ip' k rest) (hind : ip'.addrs 12 = ip.addrs 12)
    (hbs : ∀ b ∈ bs, b = addr ∨ b = m ∨ ip.addrs 12 ≠ 0 ∧ b = ip.addrs 12) :
    Bill ip (k + 1) (bs ++ addr :: rest) := by
  obtain ⟨data, maps, ind, hsub, hd, hm, hi, heq⟩ := h
  rw [hind] at heq
  refine ⟨addr :: data, m :: maps, ind, fun b hb => ?_, Nat.succ_le_succ hd, Nat.succ_le_succ hm, hi, heq⟩
  simp only [mem_append, mem_cons] at hb ⊢
  rcases hb with hb | rfl | hb
  · rcases hbs b hb with rfl | rfl | ⟨hne, rfl⟩
    · exact .inl (.inl (.inl rfl))
    · exact .inl (.inr (.inl rfl))
    · exact .inr (by rw [heq hne]; exact mem_singleton_self _)
  · exact .inl (.inl (.inl rfl))
  · have := hsub hb
    simp only [mem_append] at this
    tauto

/-- A turn that allocates the indirect block, with the block `c` of the bitmap. -/
theorem Bill.turn_new {m c : ℕ} (h : Bill ip' k rest) (h0 : ip.addrs 12 = 0) (hne : ip'.addrs 12 ≠ 0)
    (hbs : ∀ b ∈ bs, b = addr ∨ b = m ∨ b = c ∨ b = ip'.addrs 12) :
    Bill ip (k + 1) (bs ++ addr :: rest) := by
  obtain ⟨data, maps, ind, hsub, hd, hm, -, heq⟩ := h
  refine ⟨addr :: data, m :: maps, [c, ip'.addrs 12], fun b hb => ?_, Nat.succ_le_succ hd,
    Nat.succ_le_succ hm, le_rfl, fun h => absurd h0 h⟩
  simp only [mem_append, mem_cons, not_mem_nil, or_false] at hb ⊢
  rcases hb with hb | rfl | hb
  · rcases hbs b hb with rfl | rfl | rfl | rfl <;> tauto
  · exact .inl (.inl (.inl rfl))
  · have := hsub hb
    rw [heq hne] at this
    simp only [mem_append, mem_singleton] at this
    tauto

/-! ## Allocating -/

/-- `balloc` never finds block 0, which is the boot block. -/
theorem balloc_ne_zero (h0 : fs.used 0 = true) (h : fs.balloc = .ok (b, fs')) :
    b ≠ 0 ∧ fs'.used 0 = true ∧ fs'.block b = .zero ∧ fs.ballocLogs = [bblock fs.sb b, b] := by
  have hlogs : fs.ballocLogs = [bblock fs.sb b, b] := by
    rw [ballocLogs, h]
  rw [balloc] at h
  split at h
  · cases h
  · rename_i c hc
    cases h
    have hfree : fs.used b = false := by simpa using List.find?_some hc
    have hb : b ≠ 0 := fun hz => by
      rw [hz, h0] at hfree
      cases hfree
    refine ⟨hb, ?_, update_self .., hlogs⟩
    change update fs.used b true 0 = true
    rwa [update_of_ne (Ne.symm hb)]

theorem setAddr_indirect (ip : Dinode) (hbn : bn < ndirect) (a : ℕ) :
    (ip.setAddr (Fin.ofNat 13 bn) a).addrs 12 = ip.addrs 12 := by
  refine update_of_ne (fun h => ?_) ..
  have := congrArg Fin.val h
  simp only [ndirect, Fin.val_ofNat] at *
  change 12 = bn % 13 at this
  omega

/-- **A turn of `writei` that finds its block**, or allocates it. -/
theorem Bill.bmap (h0 : fs.used 0 = true) (h : bmap ip bn fs = .ok (addr, ip', fs')) :
    fs'.used 0 = true ∧ ∀ k rest, Bill ip' k rest → Bill ip (k + 1) (bmapLogs ip bn fs ++ addr :: rest) := by
  rw [Fs.bmap] at h
  rw [bmapLogs]
  split at h
  · rename_i hbn
    rw [if_pos hbn]
    simp only at h
    split at h
    · rename_i hz
      obtain ⟨⟨b, fs1⟩, hb, h⟩ := bind_eq_ok.mp h
      cases h
      obtain ⟨-, h0', -, hlogs⟩ := balloc_ne_zero h0 hb
      rw [if_pos hz, hlogs]
      refine ⟨h0', fun k rest hr => hr.turn (m := bblock fs.sb b) (setAddr_indirect ip hbn _) ?_⟩
      simp
    · rename_i hz
      cases h
      rw [if_neg hz]
      exact ⟨h0, fun k rest hr => hr.turn (m := 0) rfl (by simp)⟩
  · rename_i hbn
    rw [if_neg hbn]
    split at h
    · by_cases hind : ip.addrs 12 = 0
      · rw [if_pos hind, bind_assoc] at h
        obtain ⟨⟨ind, fs1⟩, hi, h⟩ := bind_eq_ok.mp h
        obtain ⟨hne, h0', hzero, hlogs⟩ := balloc_ne_zero h0 hi
        rw [if_pos hind, hi]
        simp only [ok_bind, hzero, Block.word_zero, if_true] at h ⊢
        obtain ⟨⟨b, fs2⟩, hb, h⟩ := bind_eq_ok.mp h
        cases h
        obtain ⟨-, h0'', -, hlogs'⟩ := balloc_ne_zero h0' hb
        have h12 : (ip.setAddr 12 ind).addrs 12 = ind := Dinode.setAddr_addrs_self ip 12 ind
        rw [hlogs, hlogs']
        refine ⟨h0'', fun k rest hr => hr.turn_new (m := bblock fs1.sb b) (c := bblock fs.sb ind) hind
          (h12 ▸ hne) ?_⟩
        rw [h12]
        simp
      · rw [if_neg hind, ok_bind] at h
        rw [if_neg hind]
        simp only at h
        split at h
        · rename_i hz
          obtain ⟨⟨b, fs2⟩, hb, h⟩ := bind_eq_ok.mp h
          cases h
          obtain ⟨-, h0', -, hlogs⟩ := balloc_ne_zero h0 hb
          rw [if_pos hz, hlogs]
          refine ⟨h0', fun k rest hr => hr.turn (m := bblock fs.sb b) rfl ?_⟩
          simp [hind]
        · rename_i hz
          cases h
          rw [if_neg hz]
          exact ⟨h0, fun k rest hr => hr.turn (m := 0) rfl (by simp)⟩
    · cases h

theorem ballocLogs_of_error {e : String} (h : fs.balloc = .error e) : fs.ballocLogs = [] := by
  rw [ballocLogs, h]

/-- What `bmap` has logged when it runs out of blocks. -/
theorem bill_of_error {e : String} (hbn : bn < maxFile) (h : Fs.bmap ip bn fs = .error e) (k : ℕ) :
    Bill ip k (bmapLogs ip bn fs) := by
  rw [Fs.bmap] at h
  rw [bmapLogs]
  split at h
  · rename_i hd
    rw [if_pos hd]
    split
    · rename_i hz
      simp only [hz, if_true] at h
      cases hb : fs.balloc with
      | error e' =>
        rw [ballocLogs_of_error hb]
        exact bill_nil ip k
      | ok r =>
        rw [hb] at h
        cases h
    · exact bill_nil ip k
  · rename_i hd
    have hrange : bn - ndirect < nindirect := by simp only [maxFile] at hbn; omega
    rw [if_neg hd]
    rw [if_pos hrange] at h
    by_cases hind : ip.addrs 12 = 0
    · rw [if_pos hind]
      cases hi : fs.balloc with
      | error e' => exact bill_nil ip k
      | ok r =>
        obtain ⟨ind, fs1⟩ := r
        have hfirst : fs.ballocLogs = [bblock fs.sb ind, ind] := by rw [ballocLogs, hi]
        rw [if_pos hind, hi] at h
        cases hb : fs1.balloc with
        | error e' =>
          simp only [hfirst, ballocLogs_of_error hb]
          exact ⟨[], [], [bblock fs.sb ind, ind], by simp, by simp, by simp, le_rfl, fun h => absurd hind h⟩
        | ok r' =>
          simp only [ok_bind, hb] at h
          split at h <;> cases h
    · rw [if_neg hind]
      rw [if_neg hind, ok_bind] at h
      split
      · rename_i hz
        simp only [hz, if_true] at h
        cases hb : fs.balloc with
        | error e' =>
          rw [ballocLogs_of_error hb]
          exact ⟨[], [], [ip.addrs 12], by simp, by simp, by simp, by simp, fun _ => rfl⟩
        | ok r =>
          rw [hb] at h
          cases h
      · exact bill_nil ip k

/-! ## Turns -/

/-- The number of blocks that `n` bytes at `off` lie in. -/
def turnsOf (off n : ℕ) : ℕ := if n = 0 then 0 else (off % bsize + n + (bsize - 1)) / bsize

/-- One turn leaves one block less. -/
theorem turnsOf_turn (off : ℕ) (hn : n ≠ 0) :
    turnsOf (off + min n (bsize - off % bsize)) (n - min n (bsize - off % bsize)) + 1 = turnsOf off n := by
  rw [turnsOf, turnsOf, if_neg hn]
  by_cases hle : n ≤ bsize - off % bsize
  · rw [min_eq_left hle, if_pos (Nat.sub_self n)]
    simp only [bsize] at *
    omega
  · rw [min_eq_right (by omega), if_neg (by omega)]
    simp only [bsize] at *
    omega

/-- **The loop of `writei`**: each turn pays for its block. -/
theorem bill_writeLoop : ∀ (turns : ℕ) {ip : Dinode} {src : ℕ → UInt8} {va off n : ℕ} {fs : Fs},
    fs.used 0 = true → off + n ≤ maxFile * bsize →
    Bill ip (turnsOf off n) (logged (writeLoopEvents turns ip src va off n fs))
  | 0, ip, _, _, _, _, _, _, _ => bill_nil ip _
  | turns + 1, ip, src, va, off, n, fs, h0, hmax => by
    rw [writeLoopEvents]
    split
    · exact bill_nil ip _
    · rename_i hn
      rw [logged_append, logged_map, ← turnsOf_turn off hn]
      have hbn : off / bsize < maxFile := div_bsize_lt (by omega)
      cases hb : Fs.bmap ip (off / bsize) fs with
      | error e =>
        simp only
        rw [show logged [] = [] from rfl, append_nil]
        exact bill_of_error hbn hb _
      | ok r =>
        obtain ⟨addr, ip', fs'⟩ := r
        obtain ⟨h0', hturn⟩ := Bill.bmap h0 hb
        simp only
        rw [logged_append, logged_touches, nil_append]
        refine hturn _ _ (bill_writeLoop turns h0' ?_)
        omega

/-- A block that the file has costs nothing but itself. -/
theorem bmapLogs_eq_nil (h : ip.ptr fs.block (.ofBlock bn) ≠ 0) : bmapLogs ip bn fs = [] := by
  rw [bmapLogs]
  split
  · rename_i hd
    rw [← ofAddr_ofNat hd, Dinode.ptr_ofAddr] at h
    exact if_neg h
  · rename_i hd
    have hof : Ptr.ofBlock bn = .entry (indexOf bn) := dif_neg hd
    rw [hof] at h
    have hind : ip.addrs 12 ≠ 0 := fun he => h (if_pos he)
    have hptr : ip.ptr fs.block (.entry (indexOf bn)) = (fs.block (ip.addrs 12)).word (indexOf bn) :=
      if_neg hind
    rw [hptr] at h
    rw [if_neg hind, if_neg h]

/-- **The loop of `writei` on a chunk.**  Behind a block boundary the first block is there. -/
theorem card_writeLoop_le (src : ℕ → UInt8) (va : ℕ) (h0 : fs.used 0 = true)
    (hfull : ∀ k < ip.size, ip.ptr fs.block (.ofBlock (k / bsize)) ≠ 0) (hoff : off ≤ ip.size)
    (hmax : off + n ≤ maxFile * bsize) (hn : n ≤ chunk) :
    (logged (writeLoopEvents n ip src va off n fs)).toFinset.card ≤ 9 := by
  have hchunk : n ≤ 1536 := hn
  by_cases haligned : off % bsize = 0 ∨ n = 0
  · have hturns : turnsOf off n ≤ 3 := by
      simp only [turnsOf, bsize] at *
      split <;> omega
    exact (((bill_writeLoop n h0 hmax).mono hturns).card_le).trans (by decide)
  · obtain ⟨hun, hpos⟩ := not_or.mp haligned
    obtain ⟨turns, rfl⟩ := Nat.exists_eq_succ_of_ne_zero hpos
    have hptr : ip.ptr fs.block (.ofBlock (off / bsize)) ≠ 0 := by
      have hblock : (off - 1) / bsize = off / bsize := by
        simp only [bsize] at *
        omega
      rw [← hblock]
      exact hfull (off - 1) (by
        simp only [bsize] at hun
        omega)
    have hturns := turnsOf_turn off hpos
    have hthree : turnsOf (off + min (turns + 1) (bsize - off % bsize))
        (turns + 1 - min (turns + 1) (bsize - off % bsize)) ≤ 3 := by
      have hfour : turnsOf off (turns + 1) ≤ 4 := by
        simp only [turnsOf, bsize]
        split <;> omega
      exact Nat.le_of_succ_le_succ (hturns.trans_le hfour)
    rw [writeLoopEvents, if_neg hpos, bmapLogs_eq_nil hptr, bmap_eq hptr (div_bsize_lt (by omega)),
      map_nil, nil_append]
    simp only
    rw [logged_append, logged_touches, nil_append, logged_cons, toFinset_cons]
    refine (Finset.card_insert_le _ _).trans (Nat.succ_le_succ ?_)
    refine ((bill_writeLoop turns ?_ ?_).mono hthree).card_le
    · exact h0
    · simp only [Nat.succ_eq_add_one] at *
      omega

end Fs

/-- **A chunk fits its reservation.**  Of a file whose blocks below `size` are all allocated, a chunk that
`filewrite` hands to `writei` logs at most `MAXOPBLOCKS` blocks. -/
theorem chunk_fits_reservation {fs : Fs} {ip : Dinode} {n : ℕ} (inum : ℕ) (src : ℕ → UInt8) (va off : ℕ)
    (h0 : fs.used 0 = true) (hfull : ∀ k < ip.size, ip.ptr fs.block (.ofBlock (k / bsize)) ≠ 0)
    (hn : n ≤ chunk) : (logged (Fs.writeiEvents inum ip src va off n fs)).toFinset.card ≤ maxOpBlocks := by
  rw [Fs.writeiEvents]
  split
  · -- a driver logs nothing
    split
    · exact Nat.zero_le _
    · split
      · exact Nat.zero_le _
      · rw [logged_touches]
        exact Nat.zero_le _
  · split
    · exact Nat.zero_le _
    · rename_i hrange
      split
      · exact Nat.zero_le _
      · rename_i hmax
        have hoff : off ≤ ip.size := by omega
        have hloop := Fs.card_writeLoop_le src va h0 hfull hoff (Nat.not_lt.mp hmax) hn
        rw [logged_append, List.toFinset_append]
        refine (Finset.card_union_le _ _).trans (Nat.add_le_add hloop (?_ : _ ≤ 1))
        split
        · exact le_rfl
        · exact Nat.zero_le _

/-- A file that ends one byte before it needs an indirect block. -/
def tightFile : Dinode where
  type := .file
  major := 0
  minor := 0
  nlink := 1
  size := 12 * bsize - 1
  addrs := fun i => if i.val < 12 then 100 + i else 0

/-- A chunk that starts with the last byte of the direct blocks. -/
theorem chunk_fits_reservation_tight :
    (logged (Fs.writeiEvents 1 tightFile (fun _ => 7) 0 (12 * bsize - 1) chunk
      { Fs.blank (fun _ => .zero) with used := fun b => decide (b < 200) })).toFinset.card ≤ maxOpBlocks := by
  refine chunk_fits_reservation 1 _ 0 _ (by decide) (fun k hk => ?_) le_rfl
  have hlt : k / bsize < 12 := by
    simp only [tightFile, bsize] at *
    omega
  rw [Ptr.ofBlock, dif_pos hlt]
  simp [Dinode.ptr, tightFile, hlt]

end Xv6
