import Xv6.Fs.File
import Xv6.Fs.Icache
import Xv6.Fs.SwapName
import Xv6.Lib.SlotMap

/-!
# Fs/Dirent — directory entries

The functions of `fs.c` and `sysfile.c` that read and write the entries of a directory, on an inode in the
cache.  An entry is 16 bytes of the file: a number and `DIRSIZ` bytes of a name, which has no NUL if it is
that long.  To a reader of the file the entries are a table of slots (`table`): the key of a slot is the
name up to its NUL or `DIRSIZ`, and what `namecmp` compares is the key (`namecmp_eq_zero_iff`).  A write of
16 bytes at the offset of an entry changes one slot (`table_overwrite`).
-/

namespace Xv6

open Outcome CString List

/-- `sizeof(struct dirent)`. -/
def direntSize : ℕ := 16

/-- `struct dirent`. -/
structure Dirent where
  inum : ℕ
  name : ℕ → UInt8

/-- The bytes of memory that `readi` has filled. -/
def Dirent.ofBytes (data : List UInt8) : Dirent where
  inum := (data.getD 0 0).toNat + 2 ^ 8 * (data.getD 1 0).toNat
  name i := data.getD (2 + i) 0

/-- An array of bytes as one of characters. -/
def chars (name : ℕ → UInt8) : ℕ → Char := fun i => Char.ofUInt8 (name i)

/-- The bytes that `strncpy` stores for the string at offset `o` of `t`: up to the NUL, and then NULs. -/
def strncpy (t : ℕ → UInt8) : ℕ → ℕ → List UInt8
  | 0, _ => []
  | n + 1, o => if t o = 0 then List.replicate (n + 1) 0 else t o :: strncpy t n (o + 1)

/-- The bytes of `de` in `dirlink`. -/
def Dirent.bytes (inum : ℕ) (name : ℕ → UInt8) : List UInt8 :=
  [UInt8.ofNat inum, UInt8.ofNat (inum / 2 ^ 8)] ++ strncpy name dirSiz 0

namespace FsState

/-- `readi` on the inode of an entry. -/
def readi (e : Fin nInode) (off n : ℕ) (s : FsState) : Except String (Reply × FsState) := do
  let (r, ip, fs) ← Fs.readi (s.icache e).ip off n s.fs
  .ok (r, { s.setEntry e { s.icache e with ip := ip } with fs := fs })

/-- `writei` on the inode of an entry. -/
def writei (e : Fin nInode) (src : ℕ → UInt8) (off n : ℕ) (s : FsState) :
    Except String (ℤ × FsState) := do
  let (r, ip, fs) ← Fs.writei (s.icache e).inum (s.icache e).ip src off n s.fs
  .ok (r, { s.setEntry e { s.icache e with ip := ip } with fs := fs })

/-- The loop of `dirlookup` from `off` on: the number in the entry that matches, and its offset. -/
def dirscan : ℕ → Fin nInode → (ℕ → Char) → ℕ → FsState → Except String (Option (ℕ × ℕ) × FsState)
  | 0, _, _, _, s => .ok (none, s)
  | turns + 1, dp, name, off, s =>
    if off < (s.icache dp).ip.size then do
      let (r, s) ← s.readi dp off direntSize
      if r.1 ≠ direntSize then .error "dirlookup read"
      else
        let de := Dirent.ofBytes r.2
        if de.inum = 0 then dirscan turns dp name (off + direntSize) s
        else if namecmp name (chars de.name) = 0 then .ok (some (de.inum, off), s)
        else dirscan turns dp name (off + direntSize) s
    else .ok (none, s)

/-- What `dirlookup` finds before `iget`.  Each turn of its loop moves on, so `size` turns suffice. -/
def scan (dp : Fin nInode) (name : ℕ → Char) (s : FsState) : Except String (Option (ℕ × ℕ) × FsState) :=
  if (s.icache dp).ip.type ≠ .dir then .error "dirlookup not DIR"
  else dirscan (s.icache dp).ip.size dp name 0 s

/-- `dirlookup`: the entry of the cache, and `*poff`. -/
def dirlookup (dp : Fin nInode) (name : ℕ → Char) (s : FsState) :
    Except String (Option (Fin nInode × ℕ) × FsState) := do
  let (r, s) ← s.scan dp name
  match r with
  | none => .ok (none, s)
  | some (inum, off) => do
    let (ip, s) ← s.iget inum
    .ok (some (ip, off), s)

/-- The loop of `dirlink` from `off` on: the offset of the first empty entry, or the end. -/
def dirhole : ℕ → Fin nInode → ℕ → FsState → Except String (ℕ × FsState)
  | 0, _, off, s => .ok (off, s)
  | turns + 1, dp, off, s =>
    if off < (s.icache dp).ip.size then do
      let (r, s) ← s.readi dp off direntSize
      if r.1 ≠ direntSize then .error "dirlink read"
      else if (Dirent.ofBytes r.2).inum = 0 then .ok (off, s)
      else dirhole turns dp (off + direntSize) s
    else .ok (off, s)

/-- `dirlink`. -/
def dirlink (dp : Fin nInode) (name : ℕ → UInt8) (inum : ℕ) (s : FsState) :
    Except String (ℤ × FsState) := do
  let (r, s) ← s.dirlookup dp (chars name)
  match r with
  | some (ip, _) => do
    let s ← s.iput ip
    .ok (-1, s)
  | none => do
    let (off, s) ← dirhole (s.icache dp).ip.size dp 0 s
    let (r, s) ← s.writei dp ((Dirent.bytes inum name).getD · 0) off direntSize
    if r ≠ direntSize then .error "dirlink" else .ok (0, s)

/-- The loop of `isdirempty` from `off` on. -/
def isdirempty : ℕ → Fin nInode → ℕ → FsState → Except String (Bool × FsState)
  | 0, _, _, s => .ok (true, s)
  | turns + 1, dp, off, s =>
    if off < (s.icache dp).ip.size then do
      let (r, s) ← s.readi dp off direntSize
      if r.1 ≠ direntSize then .error "isdirempty: readi"
      else if (Dirent.ofBytes r.2).inum ≠ 0 then .ok (false, s)
      else isdirempty turns dp (off + direntSize) s
    else .ok (true, s)

/-- `"."` and `".."`. -/
def dot : ℕ → Char := copy (fun _ => nul) 0 ".".toList

@[inherit_doc dot] def dotdot : ℕ → Char := copy (fun _ => nul) 0 "..".toList

/-- **The entry `name` is removed**, as in `sys_unlink` with the directory locked: the inode of the entry,
which the caller still has to drop a link of, or `none` where it goes to `bad`. -/
def unlinkEntry (dp : Fin nInode) (name : ℕ → UInt8) (s : FsState) :
    Except String (Option (Fin nInode) × FsState) :=
  if namecmp (chars name) dot = 0 ∨ namecmp (chars name) dotdot = 0 then .ok (none, s)
  else do
    let (r, s) ← s.dirlookup dp (chars name)
    match r with
    | none => .ok (none, s)
    | some (ip, off) => do
      let s ← s.ilock ip
      if (s.icache ip).ip.nlink < 1 then .error "unlink: nlink < 1"
      else do
        let (empty, s) ← (if (s.icache ip).ip.type = .dir
          then isdirempty (s.icache ip).ip.size ip (2 * direntSize) s else .ok (true, s))
        if !empty then do
          let s ← s.iput ip
          .ok (none, s)
        else do
          let (r, s) ← s.writei dp (fun _ => 0) off direntSize
          if r ≠ direntSize then .error "unlink: writei" else .ok (some ip, s)

end FsState

/-! ## Names -/

/-- The bytes of a name that count: up to the NUL, and no more than `DIRSIZ`. -/
def nameKey (name : ℕ → Char) : List Char := text name dirSiz 0

/-- **`namecmp` compares the keys.** -/
theorem namecmp_eq_zero_iff {p q : ℕ → Char} : namecmp p q = 0 ↔ nameKey p = nameKey q :=
  strncmp_eq_zero_iff dirSiz 0

theorem length_strncpy (t : ℕ → UInt8) : ∀ n o, (strncpy t n o).length = n
  | 0, _ => rfl
  | n + 1, o => by
    rw [strncpy]
    split
    · exact length_replicate
    · rw [length_cons, length_strncpy t n]

theorem chars_eq_nul {name : ℕ → UInt8} {i : ℕ} : chars name i = nul ↔ name i = 0 := by
  refine ⟨fun h => ?_, fun h => by rw [chars, h]; rfl⟩
  have hnat : (name i).toNat = 0 := congrArg Char.toNat h
  exact UInt8.toNat_inj.mp hnat

/-- **`strncpy` copies the key.** -/
theorem text_strncpy (t m : ℕ → UInt8) : ∀ n o, (∀ i < n, m (o + i) = (strncpy t n o).getD i 0) →
    text (chars m) n o = text (chars t) n o
  | 0, _, _ => rfl
  | n + 1, o, h => by
    have h0 := h 0 (Nat.succ_pos n)
    rw [strncpy] at h h0
    rw [text, text]
    split at h0
    · rename_i hz
      have hm : m o = 0 := by simpa using h0
      rw [if_pos (chars_eq_nul.mpr hm), if_pos (chars_eq_nul.mpr hz)]
    · rename_i hz
      rw [if_neg hz] at h
      have hm : m o = t o := by simpa using h0
      have hrest := text_strncpy t m n (o + 1) fun i hi => by
        have := h (i + 1) (by omega)
        rw [show o + 1 + i = o + (i + 1) by omega, this, getD_cons_succ]
      rw [hrest, chars, chars, hm]

/-! ## The table -/

/-- A slot of a directory. -/
def Dirent.slot (de : Dirent) : Option (List Char × ℕ) :=
  if de.inum = 0 then none else some (nameKey (chars de.name), de.inum)

/-- Entry `i` of a directory with these bytes. -/
def entry (bs : List UInt8) (i : ℕ) : Dirent := .ofBytes ((bs.drop (direntSize * i)).take direntSize)

/-- **The entries of a directory.** -/
def table (bs : List UInt8) : SlotMap.Table (List Char) ℕ :=
  (List.range (bs.length / direntSize)).map fun i => (entry bs i).slot

theorem slot_bytes (name : ℕ → UInt8) {inum : ℕ} (hpos : 0 < inum) (hlt : inum < 2 ^ 16) :
    (Dirent.ofBytes (Dirent.bytes inum name)).slot = some (nameKey (chars name), inum) := by
  have hinum : (Dirent.ofBytes (Dirent.bytes inum name)).inum = inum := by
    simp only [Dirent.ofBytes, Dirent.bytes, cons_append, getD_cons_zero, getD_cons_succ,
      UInt8.toNat_ofNat']
    omega
  have hname : nameKey (chars (Dirent.ofBytes (Dirent.bytes inum name)).name) = nameKey (chars name) :=
    text_strncpy name _ dirSiz 0 fun i _ => by
      rw [Nat.zero_add]
      change (Dirent.bytes inum name).getD (2 + i) 0 = _
      rw [Dirent.bytes, Nat.add_comm]
      rfl
  rw [Dirent.slot, hinum, if_neg (by omega), hname]

theorem slot_zero : (Dirent.ofBytes (List.replicate direntSize 0)).slot = none := rfl

theorem length_table (bs : List UInt8) : (table bs).length = bs.length / direntSize := by simp [table]

theorem getElem?_table (bs : List UInt8) {i : ℕ} (h : i < bs.length / direntSize) :
    (table bs)[i]? = some (entry bs i).slot := by simp [table, h]

/-- **The first entry from `i` on.** -/
theorem drop_table (bs : List UInt8) {i : ℕ} (h : i < bs.length / direntSize) :
    (table bs).drop i = (entry bs i).slot :: (table bs).drop (i + 1) := by
  rw [drop_eq_getElem_cons (by rwa [length_table])]
  simp [table]

/-- The bytes of an entry after a write at the offset of one. -/
theorem slice_overwrite {bs data : List UInt8} {i j : ℕ} (hj : direntSize * j ≤ bs.length)
    (hdata : data.length = direntSize)
    (hi : direntSize * i + direntSize ≤ max bs.length (direntSize * j + direntSize)) :
    ((ByteFile.overwrite bs (data.getD · 0) (direntSize * j) direntSize).drop (direntSize * i)).take
        direntSize
      = if i = j then data else (bs.drop (direntSize * i)).take direntSize := by
  have hlen : (ByteFile.overwrite bs (data.getD · 0) (direntSize * j) direntSize).length
      = max bs.length (direntSize * j + direntSize) := ByteFile.length_overwrite
  refine ext_getElem ?_ fun k hk hk' => ?_
  · rw [length_take, length_drop, hlen]
    split
    · omega
    · rw [length_take, length_drop]
      simp only [direntSize] at *
      omega
  · rw [length_take, length_drop, hlen] at hk
    have hget : (ByteFile.overwrite bs (data.getD · 0) (direntSize * j) direntSize).getD
        (direntSize * i + k) 0 = _ := ByteFile.getD_overwrite (by omega)
    rw [getElem_take, getElem_drop, ← getD_eq_getElem _ 0, hget]
    by_cases hij : i = j
    · subst hij
      rw [if_pos (by omega), Nat.add_sub_cancel_left]
      simp only [if_true]
      exact getD_eq_getElem _ _ (by omega)
    · simp only [if_neg hij, length_take, length_drop] at hk' ⊢
      rw [if_neg (by simp only [direntSize] at *; omega), getElem_take, getElem_drop,
        getD_eq_getElem _ _ (by omega)]

/-- **A write of an entry changes its slot**, or adds one. -/
theorem table_overwrite {bs data : List UInt8} {j : ℕ} (hbs : bs.length % direntSize = 0)
    (hj : j ≤ bs.length / direntSize) (hdata : data.length = direntSize) :
    table (ByteFile.overwrite bs (data.getD · 0) (direntSize * j) direntSize)
      = SlotMap.put (table bs) j (Dirent.ofBytes data).slot := by
  have hlen : (ByteFile.overwrite bs (data.getD · 0) (direntSize * j) direntSize).length
      = max bs.length (direntSize * j + direntSize) := ByteFile.length_overwrite
  have hslot : ∀ i, direntSize * i + direntSize ≤ max bs.length (direntSize * j + direntSize) →
      (entry (ByteFile.overwrite bs (data.getD · 0) (direntSize * j) direntSize) i).slot
        = if i = j then (Dirent.ofBytes data).slot else (entry bs i).slot := fun i hi => by
    rw [entry, slice_overwrite (by simp only [direntSize] at *; omega) hdata hi]
    split <;> rfl
  refine ext_getElem? fun i => ?_
  by_cases hi : i < (max bs.length (direntSize * j + direntSize)) / direntSize
  · rw [getElem?_table _ (by rwa [hlen]), hslot i (by simp only [direntSize] at *; omega), SlotMap.put,
      length_table]
    by_cases hin : j < bs.length / direntSize
    · rw [if_pos hin]
      by_cases hij : i = j
      · subst hij
        rw [if_pos rfl, List.getElem?_set_self (by rwa [length_table])]
      · rw [if_neg hij, List.getElem?_set_ne (Ne.symm hij), getElem?_table _ (by
          simp only [direntSize] at *; omega)]
    · rw [if_neg hin]
      by_cases hij : i = j
      · subst hij
        rw [if_pos rfl, show i = (table bs).length by rw [length_table]; omega,
          List.getElem?_concat_length]
      · rw [if_neg hij, List.getElem?_append_left (by
          rw [length_table]; simp only [direntSize] at *; omega), getElem?_table _ (by
          simp only [direntSize] at *; omega)]
  · rw [List.getElem?_eq_none (by rw [length_table, hlen]; omega), SlotMap.put, length_table,
      List.getElem?_eq_none]
    split
    · rw [length_set, length_table]
      simp only [direntSize] at *
      omega
    · rw [length_append, length_table, length_singleton]
      simp only [direntSize] at *
      omega

end Xv6
