import Xv6.Fs.Truncate

/-!
# Fs/Icache — the inode cache, and runs of the inode calls

A call changes one inode: `Edits` says how the disk changes with it.  The entries of the cache that are
referenced and valid are copies of allocated inodes, one for each (`FsState.Ok`), so a call on such an
entry works on what is on disk.  `blocks_have_one_owner` is the result: whatever sequence of calls is made,
every data block that is marked used has one owner, and no call frees a free block.
-/

namespace Xv6

open Outcome Function

namespace Fs

variable {fs fs' : Fs} {inum : ℕ} {d : Dinode}

/-- **Disk blocks have one owner**, and every block below the size of an inode is allocated. -/
structure OneOwner (fs : Fs) : Prop where
  exact : Owner.Exact fs.sb.IsData fs.used (fs.holder fs.dinode)
  filled : ∀ i, Live fs.sb fs.dinode i → fs.Filled (fs.dinode i)

/-- One owner, and the blocks before the data marked used. -/
structure Sound (fs : Fs) : Prop where
  owns : fs.Owns fs.dinode
  filled : ∀ i, Live fs.sb fs.dinode i → fs.Filled (fs.dinode i)

theorem Sound.oneOwner (h : fs.Sound) : fs.OneOwner := ⟨h.owns.exact, h.filled⟩

/-- **Inode `inum` becomes `d`**, and the other inodes keep their blocks. -/
structure Edits (fs : Fs) (inum : ℕ) (d : Dinode) (fs' : Fs) : Prop where
  owns : fs'.Owns fs'.dinode
  sb : fs'.sb = fs.sb
  dinode : fs'.dinode = Function.update fs.dinode inum d
  filled : fs'.Filled d
  others : ∀ i q, i ≠ inum → Live fs.sb fs.dinode i →
    (fs.dinode i).ptr fs'.block q = (fs.dinode i).ptr fs.block q

theorem Edits.live_of_ne {i : ℕ} (h : Edits fs inum d fs') (hne : i ≠ inum) :
    Live fs'.sb fs'.dinode i ↔ Live fs.sb fs.dinode i := by
  rw [h.sb, h.dinode, Live, Live, update_of_ne hne]

theorem Edits.sound (h : Edits fs inum d fs') (hs : fs.Sound) : fs'.Sound := by
  refine ⟨h.owns, fun i hi => ?_⟩
  rcases eq_or_ne i inum with rfl | hne
  · rw [h.dinode, update_self]
    exact h.filled
  · have hlive := (h.live_of_ne hne).mp hi
    rw [h.dinode, update_of_ne hne]
    refine ⟨(hs.filled i hlive).size_le, fun k hk => ?_⟩
    rw [h.others i _ hne hlive]
    exact (hs.filled i hlive).ptr_ne k hk

theorem Written.edits {src : ℕ → UInt8} {off n : ℕ} (h : Written fs inum src off n d fs') :
    Edits fs inum d fs' := ⟨h.owns, h.sb, h.dinode, h.filled, h.others⟩

/-- The type, the size and the pointers stay. -/
theorem Sound.edits_fields (h : fs.Sound) (hlive : Live fs.sb fs.dinode inum)
    (htype : d.type = (fs.dinode inum).type) (hsize : d.size = (fs.dinode inum).size)
    (haddrs : d.addrs = (fs.dinode inum).addrs) : Edits fs inum d (fs.iupdate inum d) := by
  have hptr : ∀ q, d.ptr fs.block q = (fs.dinode inum).ptr fs.block q := fun q => by
    cases q <;> simp only [Dinode.ptr, haddrs]
  refine ⟨(h.owns.congr_fields haddrs htype).iupdate d, rfl, rfl,
    ⟨hsize ▸ (h.filled inum hlive).size_le, fun k hk => ?_⟩, fun _ _ _ _ => rfl⟩
  exact (hptr _).symm ▸ (h.filled inum hlive).ptr_ne k (hsize ▸ hk)

theorem filled_emptied (t : InodeType) : fs.Filled { emptied d with type := t } :=
  ⟨Nat.zero_le _, fun k hk => absurd hk (Nat.not_lt_zero k)⟩

/-- The blocks are freed and the inode has none, whatever its type becomes. -/
theorem Frees.edits (h : Frees fs (heldBy (fs.dinode inum) fs.block fun _ => True) fs') (hs : fs.Sound)
    (hlive : Live fs.sb fs.dinode inum) (t : InodeType) :
    Edits fs inum { emptied (fs.dinode inum) with type := t }
      (fs'.iupdate inum { emptied (fs.dinode inum) with type := t }) where
  owns := by
    have hdn : (fs'.iupdate inum { emptied (fs.dinode inum) with type := t }).dinode
        = update fs.dinode inum { emptied (fs.dinode inum) with type := t } := by
      rw [h.frame]
      rfl
    rw [hdn]
    exact (h.owns hs.owns hlive rfl).iupdate _
  sb := by rw [h.frame]; rfl
  dinode := by rw [h.frame]; rfl
  filled := filled_emptied t
  others i q _ _ := by rw [h.frame]; rfl

/-- A free inode is allocated. -/
theorem Sound.edits_ialloc (h : fs.Sound) (hfree : (fs.dinode inum).type = .free) (t : InodeType) :
    Edits fs inum { Dinode.zero with type := t } (fs.iupdate inum { Dinode.zero with type := t }) where
  owns := by
    refine ⟨h.owns.exact.congr fun x => ?_, h.owns.low, h.owns.size_lt⟩
    obtain ⟨i, q⟩ := x
    rcases eq_or_ne i inum with rfl | hne
    · -- it had no blocks and has none
      have hold : fs.holder fs.dinode (i, q) = 0 := if_neg fun hl => hl.2 hfree
      have hptr : ({ Dinode.zero with type := t } : Dinode).ptr fs.block q = 0 := by
        cases q <;> rfl
      rw [hold, holder]
      split
      · simpa [iupdate] using hptr
      · rfl
    · refine holder_congr ?_ fun _ => ?_
      · simp only [Live, iupdate, update_of_ne hne]
      · simp only [iupdate, update_of_ne hne]
  sb := rfl
  dinode := rfl
  filled := ⟨Nat.zero_le _, fun k hk => absurd hk (Nat.not_lt_zero k)⟩
  others _ _ _ _ := rfl

/-- **Reading never allocates.** -/
theorem Sound.readi (h : fs.Sound) (hlive : Live fs.sb fs.dinode inum) (off : ℕ) {n : ℕ}
    (hn : n < 2 ^ 32) :
    ∃ r, Fs.readi (fs.dinode inum) off n fs = .ok (r, fs.dinode inum, fs) := by
  by_cases htype : (fs.dinode inum).type = .dev
  · rw [Fs.readi, if_pos htype]
    split
    · exact ⟨_, rfl⟩
    · split
      · exact ⟨_, rfl⟩
      · exact ⟨_, rfl⟩
  · exact ⟨_, (h.filled inum hlive).readi htype hn⟩

/-- **`writei`** edits the inode or leaves all as it is, and panics only on a full disk. -/
theorem Sound.writei (h : fs.Sound) (hlive : Live fs.sb fs.dinode inum) (src : ℕ → UInt8) (off : ℕ)
    {n : ℕ} (hn : n < 2 ^ 32) :
    Runs (Fs.writei inum (fs.dinode inum) src off n fs) (· = "balloc: out of blocks")
      fun r => Edits fs inum r.2.1 r.2.2 ∧ r.2.1.type = (fs.dinode inum).type := by
  have hself : Edits fs inum (fs.dinode inum) fs :=
    ⟨h.owns, rfl, (update_eq_self ..).symm, h.filled inum hlive, fun _ _ _ _ => rfl⟩
  by_cases htype : (fs.dinode inum).type = .dev
  · rw [Fs.writei, if_pos htype]
    split
    · exact runs_ok.mpr ⟨hself, rfl⟩
    · split
      · exact runs_ok.mpr ⟨hself, rfl⟩
      · exact runs_ok.mpr ⟨hself, rfl⟩
  · refine (h.owns.writei src off hlive (h.filled inum hlive) htype hn).mono (fun e he => he.1)
      fun r hr => ?_
    split at hr
    · exact ⟨hr.2.edits, by rw [hr.2.fields]⟩
    · rw [hr]
      exact ⟨hself, rfl⟩

end Fs

/-! ## The cache -/

/-- An entry that a caller may read the inode from: it has a reference to it and has locked it. -/
def CachedInode.Usable (c : CachedInode) : Prop := 0 < c.ref ∧ c.valid = true

instance (c : CachedInode) : Decidable c.Usable := inferInstanceAs (Decidable (_ ∧ _))

namespace FsState

variable {s : FsState} {e : Fin nInode} {c : CachedInode} {inum : ℕ} {d : Dinode} {fs' : Fs}

/-- **The file system is sound, and the usable entries of the cache are copies of allocated inodes**, no two
of one inode. -/
structure Ok (s : FsState) : Prop where
  sound : s.fs.Sound
  range : ∀ e, 0 < (s.icache e).ref → (s.icache e).inum < s.fs.sb.ninodes
  copy : ∀ e, (s.icache e).Usable → (s.icache e).ip = s.fs.dinode (s.icache e).inum ∧
    (s.icache e).ip.type ≠ .free
  unique : ∀ e e', 0 < (s.icache e).ref → 0 < (s.icache e').ref →
    (s.icache e).inum = (s.icache e').inum → e = e'

theorem Ok.live (h : s.Ok) (he : (s.icache e).Usable) :
    Fs.Live s.fs.sb s.fs.dinode (s.icache e).inum :=
  ⟨h.range e he.1, (h.copy e he).1 ▸ (h.copy e he).2⟩

theorem setEntry_self (s : FsState) (e : Fin nInode) (c : CachedInode) :
    (s.setEntry e c).icache e = c := update_self ..

theorem setEntry_of_ne (s : FsState) {e e' : Fin nInode} (c : CachedInode) (h : e' ≠ e) :
    (s.setEntry e c).icache e' = s.icache e' := update_of_ne h _ _

section

variable (h : s.Ok)

include h

/-- A new entry in the cache. -/
theorem Ok.setEntry (hrange : 0 < c.ref → c.inum < s.fs.sb.ninodes)
    (hcopy : c.Usable → c.ip = s.fs.dinode c.inum ∧ c.ip.type ≠ .free)
    (hunique : 0 < c.ref → ∀ e', e' ≠ e → 0 < (s.icache e').ref → (s.icache e').inum ≠ c.inum) :
    (s.setEntry e c).Ok := by
  have hself := s.setEntry_self e c
  have hother : ∀ e', e' ≠ e → (s.setEntry e c).icache e' = s.icache e' := fun _ => s.setEntry_of_ne c
  refine ⟨h.sound, fun e' he' => ?_, fun e' he' => ?_, fun e1 e2 h1 h2 heq => ?_⟩
  · rcases eq_or_ne e' e with rfl | hne
    · rw [hself] at he' ⊢
      exact hrange he'
    · rw [hother e' hne] at he' ⊢
      exact h.range e' he'
  · rcases eq_or_ne e' e with rfl | hne
    · rw [hself] at he' ⊢
      exact hcopy he'
    · rw [hother e' hne] at he' ⊢
      exact h.copy e' he'
  · rcases eq_or_ne e1 e with rfl | hne1 <;> rcases eq_or_ne e2 e1 with rfl | hne
    · rfl
    · rw [hself] at h1 heq
      rw [hother e2 hne] at h2 heq
      exact absurd heq.symm (hunique h1 e2 hne h2)
    · rfl
    · rw [hother e1 hne1] at h1 heq
      rcases eq_or_ne e2 e with rfl | hne2
      · rw [hself] at h2 heq
        exact absurd heq (hunique h2 e1 hne1 h1)
      · rw [hother e2 hne2] at h2 heq
        exact h.unique e1 e2 h1 h2 heq

/-- The count of references changes. -/
theorem Ok.setRef (he : 0 < (s.icache e).ref) (r : ℕ) :
    (s.setEntry e { s.icache e with ref := r }).Ok :=
  h.setEntry (fun _ => h.range e he) (fun hu => h.copy e ⟨he, hu.2⟩) fun _ e' hne he' heq =>
    hne (h.unique e' e he' he heq)

/-- An inode that is in no usable entry is edited. -/
theorem Ok.edit (hed : Fs.Edits s.fs inum d fs')
    (hother : ∀ e, (s.icache e).Usable → (s.icache e).inum ≠ inum) : Ok { s with fs := fs' } := by
  refine ⟨hed.sound h.sound, fun e he => hed.sb ▸ h.range e he, fun e he => ?_, h.unique⟩
  change (s.icache e).ip = fs'.dinode (s.icache e).inum ∧ _
  rw [hed.dinode, update_of_ne (hother e he)]
  exact h.copy e he

/-- **A call edits the inode of a usable entry**, on disk and in the cache. -/
theorem Ok.editEntry (he : (s.icache e).Usable)
    (hed : Fs.Edits s.fs (s.icache e).inum d fs') (hinum : c.inum = (s.icache e).inum)
    (hcopy : c.Usable → c.ip = d ∧ d.type ≠ .free) : Ok { s.setEntry e c with fs := fs' } := by
  have hne : ∀ e', e' ≠ e → 0 < (s.icache e').ref → (s.icache e').inum ≠ (s.icache e).inum :=
    fun e' hne he' heq => hne (h.unique e' e he' he.1 heq)
  -- in between the entry is not valid
  have h1 : (s.setEntry e { s.icache e with valid := false }).Ok :=
    h.setEntry (fun _ => h.range e he.1) (fun hu => absurd hu.2 Bool.false_ne_true) fun _ => hne
  have h2 := h1.edit hed fun e' he' heq => by
    rcases eq_or_ne e' e with rfl | hee
    · rw [setEntry_self] at he'
      exact absurd he'.2 Bool.false_ne_true
    · rw [setEntry_of_ne _ _ hee] at he' heq
      exact hne e' hee he'.1 heq
  have h3 := h2.setEntry (e := e) (c := c) (fun _ => hinum ▸ hed.sb ▸ h.range e he.1)
    (fun hu => by
      obtain ⟨hip, ht⟩ := hcopy hu
      rw [hinum, hed.dinode, update_self, hip]
      exact ⟨rfl, ht⟩)
    fun _ e' hee he' => by
      simp only [setEntry_of_ne _ _ hee] at he' ⊢
      exact hinum ▸ hne e' hee he'
  simpa only [FsState.setEntry, update_idem] using h3

/-! ## The calls -/

/-- **`iget`** finds the entry of the inode or takes an unused one. -/
theorem Ok.iget (hin : inum < s.fs.sb.ninodes) :
    Runs (FsState.iget inum s) (· = "iget: no inodes") fun r => r.2.Ok := by
  rw [FsState.iget]
  split
  · rename_i i hfind
    have hi : 0 < (s.icache i).ref ∧ (s.icache i).inum = inum := by simpa using List.find?_some hfind
    exact runs_ok.mpr (h.setRef hi.1 _)
  · rename_i hnone
    split
    · refine runs_ok.mpr (h.setEntry (fun _ => hin) (fun hu => absurd hu.2 Bool.false_ne_true)
        fun _ e' _ he' heq => ?_)
      have := List.find?_eq_none.mp hnone e' (List.mem_finRange e')
      simp [he', heq] at this
    · exact runs_error.mpr rfl

/-- **`ialloc`** takes a free inode, of which no usable entry is a copy. -/
theorem Ok.ialloc (t : InodeType) :
    Runs (FsState.ialloc t s) (fun err => err = "iget: no inodes" ∨ err = "ialloc: no inodes")
      fun r => r.2.Ok := by
  rw [FsState.ialloc]
  split
  · rename_i inum hfind
    have hfree : (s.fs.dinode inum).type = .free := by simpa using List.find?_some hfind
    have hin := List.mem_range'_1.mp (List.mem_of_find?_eq_some hfind)
    refine (Ok.iget (h.edit (h.sound.edits_ialloc hfree t) fun e he heq => ?_)
      (by change inum < s.fs.sb.ninodes; omega)).mono (fun _ => .inl) fun _ hr => hr
    exact (h.live he).2 (heq ▸ hfree)
  · exact runs_error.mpr (.inr rfl)

/-- **`ilock`** reads the inode if the entry is not valid. -/
theorem Ok.ilock (he : 0 < (s.icache e).ref) :
    Runs (FsState.ilock e s) (· = "ilock: no type") Ok := by
  rw [FsState.ilock, if_neg (by omega)]
  split
  · exact runs_ok.mpr h
  · simp only
    split
    · exact runs_error.mpr rfl
    · rename_i htype
      exact runs_ok.mpr (h.setEntry (fun _ => h.range e he) (fun _ => ⟨rfl, htype⟩)
        fun _ e' hne he' heq => hne (h.unique e' e he' he heq))

/-- **`itrunc`** empties the inode. -/
theorem Ok.itrunc (he : (s.icache e).Usable) :
    Returns (s.fs.itrunc (s.icache e).inum (s.icache e).ip) fun r =>
      r.1.type = (s.icache e).ip.type ∧ r.2 = r.2.iupdate (s.icache e).inum r.1 ∧
      ∀ (t : InodeType) (c : CachedInode), c.inum = (s.icache e).inum →
        (c.Usable → c.ip = { r.1 with type := t } ∧ t ≠ .free) →
        Ok { s.setEntry e c with fs := r.2.iupdate c.inum { r.1 with type := t } } := by
  have hlive := h.live he
  rw [(h.copy e he).1]
  refine (h.sound.owns.itrunc_frees hlive).mono fun r _ hr => ?_
  obtain ⟨hr1, fs1, hf, hr2⟩ := hr
  refine ⟨by rw [hr1]; rfl, by rw [hr2]; simp only [Fs.iupdate, update_idem],
    fun t c hinum hcopy => ?_⟩
  have hed := hf.edits h.sound hlive t
  have hfs : r.2.iupdate c.inum { r.1 with type := t }
      = fs1.iupdate (s.icache e).inum { Fs.emptied (s.fs.dinode (s.icache e).inum) with type := t } := by
    rw [hr2, hr1, hinum]
    simp only [Fs.iupdate, update_idem]
  rw [hfs]
  exact h.editEntry he hed hinum fun hu => hr1 ▸ hcopy hu

/-- **`iput`** frees the inode with its last reference, if it has no links. -/
theorem Ok.iput (he : 0 < (s.icache e).ref) : Returns (FsState.iput e s) Ok := by
  rw [FsState.iput]
  by_cases hlast : (s.icache e).valid = true ∧ (s.icache e).ip.nlink = 0 ∧ (s.icache e).ref = 1
  · simp only [if_pos hlast]
    refine Returns.bind (P := fun s' => s'.Ok ∧ 0 < (s'.icache e).ref)
      ((h.itrunc ⟨he, hlast.1⟩).bind fun r hr => returns_ok.mpr ⟨?_, ?_⟩) fun s' hs' =>
        returns_ok.mpr (hs'.1.setRef hs'.2 _)
    · exact hr.2.2 .free { s.icache e with ip := { r.1 with type := .free }, valid := false } rfl
        fun hu => absurd hu.2 Bool.false_ne_true
    · rw [show _ = _ from s.setEntry_self e _]
      exact he
  · simp only [if_neg hlast, ok_bind]
    exact returns_ok.mpr (h.setRef he _)

end

end FsState

/-! ## Runs -/

/-- The calls on inodes; `e` is the entry the caller holds. -/
inductive InodeCall where
  | ialloc (t : InodeType)
  | iget (inum : ℕ)
  | idup (e : Fin nInode)
  | ilock (e : Fin nInode)
  | iupdate (e : Fin nInode) (major minor : ℤ) (nlink : ℕ)
  | readi (e : Fin nInode) (off n : UInt32)
  | writei (e : Fin nInode) (src : ℕ → UInt8) (off n : UInt32)
  | itrunc (e : Fin nInode)
  | iput (e : Fin nInode)

namespace InodeCall

/-- **The code.**  `iupdate` comes with the assignments to the fields that its callers set. -/
def run : InodeCall → FsState → Except String FsState
  | .ialloc t, s => do
    let (_, s) ← s.ialloc t
    .ok s
  | .iget inum, s => do
    let (_, s) ← s.iget inum
    .ok s
  | .idup e, s => .ok (s.idup e)
  | .ilock e, s => s.ilock e
  | .iupdate e major minor nlink, s =>
    let ip := { (s.icache e).ip with major := major, minor := minor, nlink := nlink }
    .ok { s.setEntry e { s.icache e with ip := ip } with fs := s.fs.iupdate (s.icache e).inum ip }
  | .readi e off n, s => do
    let (_, ip, fs) ← Fs.readi (s.icache e).ip off.toNat n.toNat s.fs
    .ok { s.setEntry e { s.icache e with ip := ip } with fs := fs }
  | .writei e src off n, s => do
    let (_, ip, fs) ← Fs.writei (s.icache e).inum (s.icache e).ip src off.toNat n.toNat s.fs
    .ok { s.setEntry e { s.icache e with ip := ip } with fs := fs }
  | .itrunc e, s => do
    let (ip, fs) ← s.fs.itrunc (s.icache e).inum (s.icache e).ip
    .ok { s.setEntry e { s.icache e with ip := ip } with fs := fs }
  | .iput e, s => s.iput e

/-- What a caller has to see to: it has a reference, and has locked the inode before it uses it. -/
def Allowed : InodeCall → FsState → Prop
  | .ialloc _, _ => True
  | .iget inum, s => inum < s.fs.sb.ninodes
  | .idup e, s | .ilock e, s | .iput e, s => 0 < (s.icache e).ref
  | .iupdate e _ _ _, s | .readi e _ _, s | .writei e _ _ _, s | .itrunc e, s => (s.icache e).Usable

instance decidableAllowed : ∀ (c : InodeCall) (s : FsState), Decidable (c.Allowed s)
  | .ialloc _, _ => .isTrue trivial
  | .iget _, _ | .idup _, _ | .ilock _, _ | .iput _, _ => inferInstanceAs (Decidable (_ < _))
  | .iupdate e _ _ _, s | .readi e _ _, s | .writei e _ _ _, s | .itrunc e, s =>
    inferInstanceAs (Decidable (s.icache e).Usable)

/-- The panics of the calls: something has run out, or the caller locks an inode that is free. -/
def panics : List String :=
  ["balloc: out of blocks", "iget: no inodes", "ialloc: no inodes", "ilock: no type"]

/-- **One call.** -/
theorem run_ok (c : InodeCall) {s : FsState} (h : s.Ok) (hc : c.Allowed s) :
    Runs (c.run s) (· ∈ panics) FsState.Ok := by
  cases c with
  | ialloc t =>
    refine ((h.ialloc t).mono (fun err he => ?_) fun _ hr => hr).bind fun r hr => runs_ok.mpr hr
    rcases he with rfl | rfl <;> simp [panics]
  | iget inum =>
    refine ((h.iget hc).mono (fun err he => ?_) fun _ hr => hr).bind fun r hr => runs_ok.mpr hr
    simp [panics, he]
  | idup e => exact runs_ok.mpr (h.setRef hc _)
  | ilock e => exact (h.ilock hc).mono (fun err he => by simp [panics, he]) fun _ hr => hr
  | iupdate e major minor nlink =>
    obtain ⟨hip, ht⟩ := h.copy e hc
    refine runs_ok.mpr (h.editEntry hc (h.sound.edits_fields (h.live hc) ?_ ?_ ?_) rfl fun _ => ⟨rfl, ht⟩)
    · rw [← hip]
    · rw [← hip]
    · rw [← hip]
  | readi e off n =>
    obtain ⟨hip, ht⟩ := h.copy e hc
    obtain ⟨r, hr⟩ := h.sound.readi (h.live hc) off.toNat n.toNat_lt
    rw [run, hip, hr, ok_bind]
    exact runs_ok.mpr (h.setEntry (fun _ => h.range e hc.1) (fun _ => ⟨rfl, hip ▸ ht⟩)
      fun _ e' hne he' heq => hne (h.unique e' e he' hc.1 heq))
  | writei e src off n =>
    obtain ⟨hip, ht⟩ := h.copy e hc
    rw [run, hip]
    refine ((h.sound.writei (h.live hc) src off.toNat n.toNat_lt).mono (fun err he => ?_)
      fun _ hr => hr).bind fun r hr => runs_ok.mpr (h.editEntry hc hr.1 rfl fun _ => ⟨rfl, ?_⟩)
    · simp [panics, he]
    · rw [hr.2, ← hip]
      exact ht
  | itrunc e =>
    obtain ⟨r, hr, htype, hself, hok⟩ := h.itrunc hc
    rw [run, hr, ok_bind]
    refine runs_ok.mpr ?_
    rw [hself]
    exact hok r.1.type { s.icache e with ip := r.1 } rfl fun _ => ⟨rfl, htype ▸ (h.copy e hc).2⟩
  | iput e =>
    obtain ⟨s', hs', hok⟩ := h.iput hc
    rw [run, hs']
    exact runs_ok.mpr hok

end InodeCall

theorem loop_run_ok : ∀ (cs : List InodeCall) {s : FsState}, s.Ok →
    Along InodeCall.run InodeCall.Allowed cs s →
    Runs (loop InodeCall.run cs s) (· ∈ InodeCall.panics) FsState.Ok
  | [], _, h, _ => runs_ok.mpr h
  | c :: cs, s, h, hal => by
    have hc := c.run_ok h hal.1
    rw [loop_cons]
    cases hr : c.run s with
    | error err => exact runs_error.mpr (hc.1 err hr)
    | ok s' => exact loop_run_ok cs (hc.2 s' hr) (hal.2 s' hr)

/-- **Disk blocks have one owner**, after every sequence of calls on inodes that the callers hold.  No call
frees a free block, and reading allocates nothing. -/
theorem blocks_have_one_owner (cs : List InodeCall) (s : FsState) (h : s.Ok)
    (hal : Along InodeCall.run InodeCall.Allowed cs s) :
    Runs (loop InodeCall.run cs s) (fun err => err ∈ InodeCall.panics ∧ err ≠ "freeing free block")
      fun s' => s'.fs.OneOwner ∧ s'.Ok ∧
        ∀ (e : Fin nInode) (off n : UInt32), (s'.icache e).Usable →
          ∃ r, Fs.readi (s'.icache e).ip off.toNat n.toNat s'.fs = .ok (r, (s'.icache e).ip, s'.fs) := by
  refine (loop_run_ok cs h hal).mono (fun err herr => ⟨herr, ?_⟩)
    fun s' hs => ⟨hs.sound.oneOwner, hs, fun e off n he => ?_⟩
  · rintro rfl
    revert herr
    decide
  · rw [(hs.copy e he).1]
    exact hs.sound.readi (hs.live he) _ n.toNat_lt

/-- A disk with one inode, a file without links, and an empty cache. -/
def oneFile : FsState where
  fs := .blank fun i => if i = 1 then { Dinode.zero with type := .file } else .zero
  icache _ := ⟨0, 0, false, .zero⟩

theorem oneFile_ok : oneFile.Ok where
  sound := ⟨Fs.blank_owns fun i => by dsimp only; split <;> rfl, fun i _ =>
    have hsize : (oneFile.fs.dinode i).size = 0 := by dsimp only [oneFile, Fs.blank]; split <;> rfl
    ⟨hsize ▸ Nat.zero_le _, fun k hk => absurd (hsize ▸ hk) (Nat.not_lt_zero k)⟩⟩
  range _ he := absurd he (Nat.lt_irrefl 0)
  copy _ he := absurd he.1 (Nat.lt_irrefl 0)
  unique _ _ he _ := absurd he (Nat.lt_irrefl 0)

/-- The file is written, truncated with its last reference and freed; a directory is created in its place. -/
def fileRun : List InodeCall :=
  let e : Fin nInode := ⟨0, by decide⟩
  [.iget 1, .ilock e, .writei e (fun _ => 7) 0 600, .readi e 0 600, .iput e, .ialloc .dir]

theorem blocks_have_one_owner_file :
    oneFile.Ok ∧ Along InodeCall.run InodeCall.Allowed fileRun oneFile ∧
      Runs (loop InodeCall.run fileRun oneFile) (fun err => err ≠ "freeing free block")
        fun s' => s'.fs.OneOwner := by
  have hal : Along InodeCall.run InodeCall.Allowed fileRun oneFile := by decide +kernel
  exact ⟨oneFile_ok, hal, (blocks_have_one_owner fileRun oneFile oneFile_ok hal).mono
    (fun _ he => he.2) fun _ hs => hs.1⟩

/-- The same disk with a free map that is all zeros. -/
def unmarked : Fs := { oneFile.fs with used := fun _ => false }

/-- **`balloc` hands out block 0 if the free map does not mark it**: the file has a byte, and its block
has no address. -/
theorem balloc_block_zero :
    unmarked.OneOwner ∧ Returns (Fs.writei 1 (unmarked.dinode 1) (fun _ => 7) 0 1 unmarked)
      fun r => r.1 = 1 ∧ ¬ r.2.2.OneOwner := by
  have hholder : ∀ x, unmarked.holder unmarked.dinode x = 0 := fun x => by
    rw [Fs.holder]
    split
    · dsimp only [unmarked, oneFile, Fs.blank]
      split <;> cases x.2 <;> rfl
    · rfl
  have hrun : Returns (Fs.writei 1 (unmarked.dinode 1) (fun _ => 7) 0 1 unmarked) fun r =>
      r.1 = 1 ∧ Fs.Live r.2.2.sb r.2.2.dinode 1 ∧ (r.2.2.dinode 1).size = 1 ∧
        (r.2.2.dinode 1).ptr r.2.2.block (.ofBlock (0 / bsize)) = 0 := by decide +kernel
  refine ⟨⟨⟨fun h0 => absurd h0.1 (by decide), fun x hx => absurd (hholder x) hx,
    fun x _ hx => absurd (hholder x) hx, fun b _ hb => absurd hb Bool.false_ne_true⟩,
    fun i hi => ⟨(oneFile_ok.sound.filled i hi).size_le, (oneFile_ok.sound.filled i hi).ptr_ne⟩⟩,
    hrun.mono fun r _ hr => ⟨hr.1, fun h => ?_⟩⟩
  obtain ⟨-, hlive, hsize, hptr⟩ := hr
  exact (h.filled 1 hlive).ptr_ne 0 (by omega) hptr

end Xv6
