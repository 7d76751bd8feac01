import Xv6.Fs.Dirent
import Xv6.Fs.References

/-!
# Fs/Directory — the calls on a directory

A directory that is locked and whose size is a number of whole entries (`Opened`) is read through its table:
`dirlookup` searches the table for the key of the name (`scan_eq`), `dirlink` inserts an entry into it
(`dirlink_absent`), and `sys_unlink` empties a slot (`Unlinks`).
-/

namespace Xv6

open Outcome CString Function List

namespace FsState

variable {s s' : FsState} {dp e : Fin nInode} {inum off n : ℕ}

variable {extra : Fin nInode → ℕ}

/-! ## The bytes of an inode -/

/-- The bytes of the inode of an entry. -/
def bytes (s : FsState) (e : Fin nInode) : List UInt8 :=
  (List.range (s.icache e).ip.size).map (s.fs.byte (s.icache e).ip)

/-- The slots of a directory. -/
def slots (s : FsState) (dp : Fin nInode) : SlotMap.Table (List Char) ℕ := table (s.bytes dp)

theorem length_bytes : (s.bytes e).length = (s.icache e).ip.size := by simp [bytes]

theorem Grants.bytes_eq (h : Grants s extra s') (he : (s.icache e).Usable) : s'.bytes e = s.bytes e := by
  rw [bytes, bytes, h.fs, (h.usable e he).2]

theorem Ok.readi (h : s.Ok) (he : (s.icache e).Usable) (htype : (s.icache e).ip.type ≠ .dev)
    (hn : n < 2 ^ 32) (hoff : off ≤ (s.bytes e).length) (hlt : off + n < 2 ^ 32) :
    s.readi e off n = .ok (((min n ((s.bytes e).length - off) : ℕ), ((s.bytes e).drop off).take n), s) := by
  have hslice : ((s.bytes e).drop off).take n = (List.range (min n ((s.icache e).ip.size - off))).map
      fun k => s.fs.byte (s.icache e).ip (off + k) := by
    refine ext_getElem (by simp [length_bytes]) fun k _ _ => ?_
    simp [bytes]
  have hfill : s.fs.Filled (s.icache e).ip := (h.copy e he).1 ▸ h.sound.filled _ (h.live he)
  rw [FsState.readi, hfill.readi htype hn, ok_bind, length_bytes, hslice,
    if_pos ⟨length_bytes (s := s) ▸ hoff, hlt⟩]
  exact congrArg (fun t => Except.ok (_, t)) (setEntry_eq_self s e)

/-- There are enough free blocks for the file to grow to its limit. -/
def Roomy (s : FsState) (e : Fin nInode) : Prop := (s.icache e).ip.missing s.fs.block ≤ s.fs.freeBlocks

/-- **A write was accepted.** -/
structure Wrote (s : FsState) (e : Fin nInode) (src : ℕ → UInt8) (off n : ℕ) (s' : FsState) : Prop where
  ok : s'.Ok
  bytes : s'.bytes e = ByteFile.overwrite (s.bytes e) src off n
  icache : s'.icache = Function.update s.icache e { s.icache e with ip := (s'.icache e).ip }
  type : (s'.icache e).ip.type = (s.icache e).ip.type
  room : s'.Roomy e

/-- **`writei`** accepts a write that begins in the file and ends below the limit. -/
theorem Ok.writei (h : s.Ok) (he : (s.icache e).Usable) (htype : (s.icache e).ip.type ≠ .dev)
    (hroom : s.Roomy e) (src : ℕ → UInt8) (off : ℕ) (hn : n < 2 ^ 32) :
    Returns (s.writei e src off n) fun r =>
      if off ≤ (s.bytes e).length ∧ off + n ≤ maxBytes then r.1 = n ∧ Wrote s e src off n r.2
      else r = (-1, s) := by
  obtain ⟨hip, hfree⟩ := h.copy e he
  have hlive := h.live he
  have hfill := h.sound.filled _ hlive
  have hruns := (h.sound.owns.writei src off hlive hfill (hip ▸ htype) hn).returns fun err herr => by
    rw [Roomy, hip] at hroom
    omega
  rw [FsState.writei, length_bytes, hip, maxBytes]
  refine hruns.bind fun r hr => returns_ok.mpr ?_
  obtain ⟨r, ip', fs'⟩ := r
  by_cases hfit : off ≤ (s.fs.dinode (s.icache e).inum).size ∧ off + n ≤ maxFile * bsize
  · rw [if_pos hfit] at hr
    obtain ⟨hr, hw⟩ : r = n ∧ Fs.Written s.fs (s.icache e).inum src off n ip' fs' := hr
    have htype' : ip'.type = (s.icache e).ip.type := by rw [hw.fields, hip]
    rw [if_pos hfit]
    refine ⟨hr, h.editEntry he hw.edits rfl fun _ => ⟨rfl, htype' ▸ hfree⟩, ?_, ?_, ?_, ?_⟩
    · have hb := FileState.toBytes_written (s := ⟨s.fs, (s.icache e).inum, (s.icache e).ip, true, true, 0⟩)
        hip hw (hip ▸ hfit.1)
      have hbytes := congrArg ByteFile.bytes hb
      simp only [FsState.bytes, FsState.setEntry, update_self]
      exact hbytes
    · simp only [FsState.setEntry, update_self]
    · simp only [FsState.setEntry, update_self, htype']
    · have hr' := hw.room
      simp only [Roomy, FsState.setEntry, update_self, hip] at hroom ⊢
      omega
  · rw [if_neg hfit] at hr
    rw [if_neg hfit]
    cases hr
    rw [← hip]
    exact congrArg (Prod.mk (-1)) (setEntry_eq_self s e)

/-! ## Directories -/

/-- **A directory that is locked**, of whole entries. -/
structure Opened (s : FsState) (dp : Fin nInode) : Prop where
  usable : (s.icache dp).Usable
  type : (s.icache dp).ip.type = .dir
  whole : (s.bytes dp).length % direntSize = 0

/-- **A directory that can be changed**: there are blocks for it, and no two entries have one name. -/
structure IsDir (s : FsState) (dp : Fin nInode) : Prop extends Opened s dp where
  room : s.Roomy dp
  distinct : SlotMap.Distinct (s.slots dp)

theorem Opened.grants (hd : s.Opened dp) (h : Grants s extra s') : s'.Opened dp := by
  obtain ⟨-, hip⟩ := h.usable dp hd.usable
  exact ⟨h.usable_of hd.usable, hip ▸ hd.type, h.bytes_eq hd.usable ▸ hd.whole⟩

theorem IsDir.grants (hd : s.IsDir dp) (h : Grants s extra s') : s'.IsDir dp := by
  refine ⟨hd.toOpened.grants h, ?_, ?_⟩
  · rw [Roomy, (h.usable dp hd.usable).2, h.fs]
    exact hd.room
  · rw [slots, h.bytes_eq hd.usable]
    exact hd.distinct

theorem Grants.slots_eq (h : Grants s extra s') (hd : s.Opened dp) : s'.slots dp = s.slots dp := by
  rw [slots, slots, h.bytes_eq hd.usable]

theorem Opened.not_dev (hd : s.Opened dp) : (s.icache dp).ip.type ≠ .dev := by
  rw [hd.type]
  exact nofun

theorem Ok.length_lt (h : s.Ok) (he : (s.icache e).Usable) : (s.bytes e).length ≤ maxBytes := by
  rw [length_bytes, (h.copy e he).1]
  exact (h.sound.filled _ (h.live he)).size_le

/-- **An entry is read.** -/
theorem Ok.read_entry (h : s.Ok) (hd : s.Opened dp) {i : ℕ} (hi : i < (s.bytes dp).length / direntSize) :
    s.readi dp (direntSize * i) direntSize
      = .ok ((direntSize, ((s.bytes dp).drop (direntSize * i)).take direntSize), s) := by
  have hle := h.length_lt hd.usable
  have hmax : maxBytes < 2 ^ 31 := by decide
  have hin : direntSize * i + direntSize ≤ (s.bytes dp).length := by
    simp only [direntSize] at *
    omega
  have hsize : direntSize < 2 ^ 31 := by decide
  rw [h.readi hd.usable hd.not_dev (by omega) (by omega) (by omega), Nat.min_eq_left (by omega)]

variable {name : ℕ → Char}

/-- There is no slot behind the end of a directory. -/
theorem drop_slots {i : ℕ} (h : (s.bytes dp).length / direntSize ≤ i) : (s.slots dp).drop i = [] :=
  drop_eq_nil_of_le (by rwa [slots, length_table])

/-- **The loop of `dirlookup`** searches the slots from `i` on. -/
theorem Ok.dirscan_eq (h : s.Ok) (hd : s.Opened dp) : ∀ (turns i : ℕ),
    (s.bytes dp).length / direntSize - i ≤ turns →
    FsState.dirscan turns dp name (direntSize * i) s
      = .ok ((SlotMap.find (nameKey name) ((s.slots dp).drop i) i).map fun r => (r.1, direntSize * r.2), s)
  | 0, i, hturns => by
    rw [FsState.dirscan, drop_slots (by omega)]
    rfl
  | turns + 1, i, hturns => by
    have hnext := Ok.dirscan_eq h hd turns (i + 1) (by omega)
    have hwhole := hd.whole
    rw [FsState.dirscan, ← length_bytes]
    by_cases hi : i < (s.bytes dp).length / direntSize
    · rw [if_pos (by simp only [direntSize] at *; omega), h.read_entry hd hi, ok_bind, slots,
        drop_table _ hi]
      simp only [ne_eq, not_true_eq_false, if_false]
      rw [Nat.mul_succ] at hnext
      change (if (entry (s.bytes dp) i).inum = 0 then _ else _) = _
      by_cases h0 : (entry (s.bytes dp) i).inum = 0
      · rw [if_pos h0, hnext, Dirent.slot, if_pos h0, SlotMap.find]
        rfl
      · rw [if_neg h0, Dirent.slot, if_neg h0, SlotMap.find]
        by_cases hk : nameKey (chars (entry (s.bytes dp) i).name) = nameKey name
        · rw [if_pos hk]
          exact if_pos (namecmp_eq_zero_iff.mpr hk.symm)
        · rw [if_neg hk]
          exact (if_neg fun hz => hk (namecmp_eq_zero_iff.mp hz).symm).trans hnext
    · rw [if_neg (by simp only [direntSize] at *; omega), drop_slots (Nat.le_of_not_lt hi)]
      rfl

/-- **`dirlookup` searches the table.** -/
theorem Ok.scan_eq (h : s.Ok) (hd : s.Opened dp) (name : ℕ → Char) :
    s.scan dp name
      = .ok ((SlotMap.find (nameKey name) (s.slots dp) 0).map fun r => (r.1, direntSize * r.2), s) := by
  rw [FsState.scan, if_neg (not_not_intro hd.type), ← length_bytes]
  exact h.dirscan_eq hd _ 0 ((Nat.sub_le _ _).trans (Nat.div_le_self _ _))

/-- **The loop of `dirlink`** looks for the first empty slot from `i` on. -/
theorem Ok.dirhole_eq (h : s.Ok) (hd : s.Opened dp) : ∀ (turns i : ℕ),
    (s.bytes dp).length / direntSize - i ≤ turns → i ≤ (s.bytes dp).length / direntSize →
    FsState.dirhole turns dp (direntSize * i) s
      = .ok (direntSize * (i + SlotMap.hole ((s.slots dp).drop i)), s)
  | 0, i, hturns, _ => by
    rw [FsState.dirhole, drop_slots (by omega)]
    rfl
  | turns + 1, i, hturns, hle => by
    have hwhole := hd.whole
    rw [FsState.dirhole, ← length_bytes]
    by_cases hi : i < (s.bytes dp).length / direntSize
    · have hnext := Ok.dirhole_eq h hd turns (i + 1) (by omega) hi
      rw [if_pos (by simp only [direntSize] at *; omega), h.read_entry hd hi, ok_bind, slots,
        drop_table _ hi]
      simp only [ne_eq, not_true_eq_false, if_false]
      rw [Nat.mul_succ] at hnext
      change (if (entry (s.bytes dp) i).inum = 0 then _ else _) = _
      by_cases h0 : (entry (s.bytes dp) i).inum = 0
      · rw [if_pos h0, Dirent.slot, if_pos h0]
        rfl
      · have hhole : ∀ (p : List Char × ℕ) t, SlotMap.hole (some p :: t) = SlotMap.hole t + 1 :=
          fun p t => by simp [SlotMap.hole, findIdx_cons]
        rw [if_neg h0, hnext, Dirent.slot, if_neg h0, hhole, slots]
        congr 3
        omega
    · rw [if_neg (by simp only [direntSize] at *; omega), drop_slots (Nat.le_of_not_lt hi)]
      rfl

/-! ## The calls -/

/-- The slots after a write of an entry. -/
theorem IsDir.wrote {data : List UInt8} {j : ℕ} (hd : s.IsDir dp)
    (hw : Wrote s dp (data.getD · 0) (direntSize * j) direntSize s') (hdata : data.length = direntSize)
    (hj : j ≤ (s.slots dp).length)
    (hdistinct : SlotMap.Distinct (SlotMap.put (s.slots dp) j (Dirent.ofBytes data).slot)) :
    s'.IsDir dp ∧ s'.slots dp = SlotMap.put (s.slots dp) j (Dirent.ofBytes data).slot := by
  rw [slots, length_table] at hj
  have hslots : s'.slots dp = SlotMap.put (s.slots dp) j (Dirent.ofBytes data).slot := by
    rw [slots, hw.bytes, table_overwrite hd.whole hj hdata, slots]
  have hentry : s'.icache dp = { s.icache dp with ip := (s'.icache dp).ip } := by
    conv_lhs => rw [hw.icache, update_self]
  refine ⟨⟨⟨?_, hw.type.trans hd.type, ?_⟩, hw.room, hslots ▸ hdistinct⟩, hslots⟩
  · rw [hentry]
    exact hd.usable
  · have hwhole := hd.whole
    rw [hw.bytes, ByteFile.length_overwrite]
    simp only [direntSize] at *
    omega

variable {nm : ℕ → UInt8} {v i : ℕ}

theorem Ok.dirlookup_none (h : s.Ok) (hd : s.Opened dp)
    (hnone : SlotMap.find (nameKey name) (s.slots dp) 0 = none) :
    s.dirlookup dp name = .ok (none, s) := by
  rw [FsState.dirlookup, h.scan_eq hd, hnone]
  rfl

theorem Ok.dirlookup_some (h : s.Ok) (hd : s.Opened dp)
    (hsome : SlotMap.find (nameKey name) (s.slots dp) 0 = some (v, i)) :
    s.dirlookup dp name = (do
      let (ip, s) ← s.iget v
      .ok (some (ip, direntSize * i), s)) := by
  rw [FsState.dirlookup, h.scan_eq hd, hsome]
  rfl

/-- **`dirlookup` takes a reference** to the inode it finds. -/
theorem Ok.dirlookup_grants (h : s.Ok) (hd : s.Opened dp)
    (hsome : SlotMap.find (nameKey name) (s.slots dp) 0 = some (v, i)) (hin : v < s.fs.sb.ninodes) :
    Runs (s.dirlookup dp name) (· = "iget: no inodes") fun r => ∃ ip,
      r.1 = some (ip, direntSize * i) ∧ r.2.Ok ∧ Grants s (Pi.single ip 1) r.2 ∧
        (r.2.icache ip).inum = v := by
  rw [h.dirlookup_some hd hsome]
  have hget : Runs (s.iget v) (· = "iget: no inodes") fun r => r.2.Ok ∧ Grants s (Pi.single r.1 1) r.2 ∧
      (r.2.icache r.1).inum = v :=
    ⟨(h.iget hin).1, fun r hr => ⟨(h.iget hin).of_ok hr, grants_iget hr⟩⟩
  exact hget.bind fun r hr => runs_ok.mpr ⟨r.1, rfl, hr⟩

/-- **The inode is locked.** -/
theorem Ok.ilock_grants (h : s.Ok) (he : 0 < (s.icache e).ref) :
    Runs (s.ilock e) (· = "ilock: no type") fun s' => s'.Ok ∧ Grants s 0 s' ∧ (s'.icache e).Usable :=
  ⟨(h.ilock he).1, fun _ hs' => ⟨(h.ilock he).of_ok hs', grants_ilock hs'⟩⟩

/-- **A slot is emptied.** -/
theorem Ok.clear_entry (h : s.Ok) (hd : s.IsDir dp) (hi : i < (s.slots dp).length) :
    Returns (s.writei dp (fun _ => 0) (direntSize * i) direntSize) fun r => r.1 = direntSize ∧ r.2.Ok ∧
      r.2.IsDir dp ∧ r.2.slots dp = (s.slots dp).set i none ∧
      ∀ e, (r.2.icache e).inum = (s.icache e).inum := by
  have hzero : (fun _ : ℕ => (0 : UInt8)) = ((List.replicate direntSize 0).getD · 0) := by
    funext k
    rw [getD_eq_getElem?_getD, List.getElem?_replicate]
    split <;> rfl
  have hle := h.length_lt hd.usable
  have hput : SlotMap.put (s.slots dp) i (Dirent.ofBytes (List.replicate direntSize 0)).slot
      = (s.slots dp).set i none := by
    rw [slot_zero, SlotMap.put, if_pos hi]
  have hi' : i < (s.bytes dp).length / direntSize := by rwa [slots, length_table] at hi
  rw [hzero]
  refine (h.writei hd.usable hd.not_dev hd.room _ _ (by decide)).mono fun r _ hr => ?_
  rw [if_pos (by simp only [direntSize] at *; omega)] at hr
  obtain ⟨hr, hw⟩ := hr
  obtain ⟨hd', hslots⟩ := hd.wrote hw length_replicate hi.le (by
    rw [hput]
    exact hd.distinct.clear i)
  refine ⟨hr, hw.ok, hd', hslots.trans hput, fun e => ?_⟩
  rw [hw.icache]
  rcases eq_or_ne e dp with rfl | hne
  · rw [update_self]
  · rw [update_of_ne hne]

/-- **`dirlink` inserts a name that is not there**, if the directory can take it. -/
theorem Ok.dirlink_absent (h : s.Ok) (hd : s.IsDir dp) (hpos : 0 < inum) (hlt : inum < 2 ^ 16)
    (hnone : SlotMap.find (nameKey (chars nm)) (s.slots dp) 0 = none) :
    if SlotMap.hole (s.slots dp) < maxBytes / direntSize then
      Returns (s.dirlink dp nm inum) fun r => r.1 = 0 ∧ r.2.Ok ∧ r.2.IsDir dp ∧
        r.2.slots dp = SlotMap.insert (s.slots dp) (nameKey (chars nm)) inum
    else s.dirlink dp nm inum = .error "dirlink" := by
  have hhole : SlotMap.hole (s.slots dp) ≤ (s.slots dp).length := findIdx_le_length
  have hwhole := hd.whole
  have hdata : (Dirent.bytes inum nm).length = direntSize := by
    rw [Dirent.bytes, length_append, length_strncpy]
    rfl
  have hscan := h.dirhole_eq hd.toOpened (s.icache dp).ip.size 0 (by
    rw [← length_bytes]
    exact (Nat.sub_le _ _).trans (Nat.div_le_self _ _)) (Nat.zero_le _)
  rw [drop_zero, Nat.zero_add, Nat.mul_zero] at hscan
  have hlength : (s.slots dp).length = (s.bytes dp).length / direntSize := length_table _
  obtain ⟨⟨r, s'⟩, hwrite, hr⟩ := h.writei hd.usable hd.not_dev hd.room ((Dirent.bytes inum nm).getD · 0)
    (direntSize * SlotMap.hole (s.slots dp)) (show direntSize < 2 ^ 32 by decide)
  have hmax : maxBytes / direntSize * direntSize = maxBytes := by decide
  rw [FsState.dirlink, h.dirlookup_none hd.toOpened hnone, ok_bind]
  simp only
  rw [hscan, ok_bind, hwrite, ok_bind]
  split
  · rename_i hroom
    rw [if_pos (by simp only [direntSize] at *; omega)] at hr
    obtain ⟨rfl, hw⟩ : r = direntSize ∧ _ := hr
    have hkey := SlotMap.lookup_eq_none_iff_find.mpr hnone
    have hslot := slot_bytes nm hpos hlt
    obtain ⟨hd', hslots⟩ := hd.wrote hw hdata hhole (by
      rw [hslot]
      exact hd.distinct.insert hkey)
    simp only [ne_eq, not_true_eq_false, if_false]
    rw [hslot] at hslots
    exact returns_ok.mpr ⟨rfl, hw.ok, hd', hslots⟩
  · rename_i hroom
    rw [if_neg (by simp only [direntSize] at *; omega)] at hr
    cases hr
    rfl

/-- `isdirempty` changes nothing. -/
theorem Ok.isdirempty (h : s.Ok) (he : (s.icache e).Usable) (htype : (s.icache e).ip.type ≠ .dev) :
    ∀ (turns off : ℕ), Runs (FsState.isdirempty turns e off s) (· = "isdirempty: readi") fun r => r.2 = s
  | 0, _ => runs_ok.mpr rfl
  | turns + 1, off => by
    rw [FsState.isdirempty]
    split
    · rename_i hlt
      rw [← length_bytes] at hlt
      have hle := h.length_lt he
      have hmax : maxBytes + direntSize < 2 ^ 32 := by decide
      rw [h.readi he htype (by omega) hlt.le (by omega), ok_bind]
      simp only
      split
      · exact runs_error.mpr rfl
      · split
        · exact runs_ok.mpr rfl
        · exact Ok.isdirempty h he htype turns (off + direntSize)
    · exact runs_ok.mpr rfl

/-- The panics of an `unlink`: something has run out, or the inode of the entry is not as it should be. -/
def unlinkPanics : List String :=
  ["iget: no inodes", "ilock: no type", "unlink: nlink < 1", "isdirempty: readi"]

/-- What `unlinkEntry` does to the directory: it empties the slot of the name, or leaves all as it is, where
the name is `.` or `..`, is not there, or is that of a directory. -/
def Unlinks (s : FsState) (dp : Fin nInode) (nm : ℕ → UInt8) : Option (Fin nInode) → FsState → Prop
  | some ip, s' => ∃ v i, SlotMap.find (nameKey (chars nm)) (s.slots dp) 0 = some (v, i) ∧
      (s'.icache ip).inum = v ∧ s'.slots dp = (s.slots dp).set i none
  | none, s' => s'.slots dp = s.slots dp ∧
      (namecmp (chars nm) dot = 0 ∨ namecmp (chars nm) dotdot = 0 ∨
        SlotMap.lookup (s.slots dp) (nameKey (chars nm)) = none ∨
        ∃ v, SlotMap.lookup (s.slots dp) (nameKey (chars nm)) = some v ∧ (s.fs.dinode v).type = .dir)

/-- **An entry is removed.** -/
theorem Ok.unlinkEntry (h : s.Ok) (hd : s.IsDir dp) (nm : ℕ → UInt8)
    (hin : ∀ v, SlotMap.lookup (s.slots dp) (nameKey (chars nm)) = some v → v < s.fs.sb.ninodes) :
    Runs (s.unlinkEntry dp nm) (· ∈ unlinkPanics) fun r =>
      r.2.Ok ∧ r.2.IsDir dp ∧ Unlinks s dp nm r.1 r.2 := by
  rw [FsState.unlinkEntry]
  split
  · rename_i hdots
    exact runs_ok.mpr ⟨h, hd, rfl, by tauto⟩
  · cases hfind : SlotMap.find (nameKey (chars nm)) (s.slots dp) 0 with
    | none =>
      rw [h.dirlookup_none hd.toOpened hfind]
      exact runs_ok.mpr ⟨h, hd, rfl, .inr (.inr (.inl (SlotMap.lookup_eq_none_iff_find.mpr hfind)))⟩
    | some r =>
      obtain ⟨v, i⟩ := r
      have hlook := SlotMap.lookup_eq_some_of_find hfind
      have hget : Runs (s.dirlookup dp (chars nm)) (· ∈ unlinkPanics) _ :=
        (h.dirlookup_grants hd.toOpened hfind (hin v hlook)).mono (fun err herr => by rw [herr]; decide)
          fun _ hr => hr
      refine hget.bind fun r hr => ?_
      obtain ⟨r, s1⟩ := r
      obtain ⟨ip, rfl, hok1, hg1, hinum1⟩ := hr
      simp only at hok1 hg1 hinum1 ⊢
      have hpos : 0 < (s1.icache ip).ref := by
        rw [hg1.ref, Pi.single_eq_same]
        exact Nat.succ_pos _
      refine ((hok1.ilock_grants hpos).mono (fun err herr => by rw [herr]; decide) fun _ hs2 => hs2).bind
        fun s2 hs2 => ?_
      obtain ⟨hok, hg2, hu⟩ := hs2
      have hg := hg1.trans hg2
      rw [add_zero] at hg
      have hinum : (s2.icache ip).inum = v := (hg2.inum ip hpos).trans hinum1
      split
      · exact runs_error.mpr (by decide)
      · rename_i hnlink
        have hempty : Runs (if (s2.icache ip).ip.type = .dir
            then FsState.isdirempty (s2.icache ip).ip.size ip (2 * direntSize) s2 else .ok (true, s2))
            (· ∈ unlinkPanics) fun r => r.2 = s2 ∧ (r.1 = false → (s2.icache ip).ip.type = .dir) := by
          split
          · rename_i htype
            exact (hok.isdirempty hu (by rw [htype]; exact nofun) _ _).mono
              (fun err herr => by rw [herr]; decide) fun r hr => ⟨hr, fun _ => htype⟩
          · exact runs_ok.mpr ⟨rfl, nofun⟩
        refine hempty.bind fun r hr => ?_
        obtain ⟨empty, s3⟩ := r
        obtain ⟨rfl, hdir⟩ : s3 = s2 ∧ (empty = false → _) := hr
        cases empty with
        | false =>
          -- the reference is given back, and the inode has a link
          obtain ⟨s4, hs4, hok4, hg4, -⟩ := hok.iput_grants (by rwa [zero_add]) fun hlast =>
            hnlink (by rw [hlast.2.1]; exact Nat.one_pos)
          simp only [Bool.not_false, if_true]
          rw [hs4, ok_bind]
          refine runs_ok.mpr ⟨hok4, hd.grants hg4, hg4.slots_eq hd.toOpened, .inr (.inr (.inr ⟨v, hlook, ?_⟩))⟩
          have hcopy := (hok.copy ip hu).1
          rw [hinum, hg.fs] at hcopy
          rw [← hcopy]
          exact hdir rfl
        | true =>
          obtain ⟨-, hslot⟩ := SlotMap.getElem_of_find _ hfind
          rw [Nat.sub_zero] at hslot
          have hslots := hg.slots_eq hd.toOpened
          obtain ⟨⟨r, s4⟩, hwrite, rfl, hok4, hd4, hset, hinum4⟩ := hok.clear_entry (hd.grants hg)
            (hslots.symm ▸ (List.getElem?_eq_some_iff.mp hslot).1)
          simp only [Bool.not_true, Bool.false_eq_true, if_false]
          rw [hwrite, ok_bind]
          simp only [ne_eq, not_true_eq_false, if_false]
          exact runs_ok.mpr ⟨hok4, hd4, v, i, hfind, (hinum4 ip).trans hinum, hset.trans (by rw [hslots])⟩

end FsState

end Xv6
