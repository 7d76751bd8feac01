import Xv6.Fs.DirectoryMap
import Xv6.Fs.Path

/-!
# Fs/Namex — path resolution

`namex` of `fs.c`: from the root or the current directory it looks up one component of the path after the
other.  On the disk a path leads from inode to inode (`Fs.walk`); `namex` returns the inode it leads to, and
has one more reference to it and to nothing else (`path_resolution`).

Each lookup needs an entry of the inode cache for the inode it finds, while the one it looks in is still held.
If there is none `iget` panics, so the result holds exactly if the cache has the entries (`Passable`).
-/

namespace Xv6

open Outcome CString

namespace Fs

/-- The bytes of an inode on disk. -/
def contents (fs : Fs) (i : ℕ) : List UInt8 := (List.range (fs.dinode i).size).map (fs.byte (fs.dinode i))

/-- The inode that a directory has under a name. -/
def child (fs : Fs) (i : ℕ) (c : List Char) : Option ℕ := SlotMap.lookup (table (fs.contents i)) c

/-- **The inode reached** by looking up the components one after the other. -/
def walk (fs : Fs) : ℕ → List (List Char) → Option ℕ
  | i, [] => some i
  | i, c :: cs => if (fs.dinode i).type = .dir then (fs.child i c).bind (walk fs · cs) else none

/-- **What `namex` returns**: the inode that the path leads to, or the directory that the last component is
to be looked up in. -/
def target (fs : Fs) (nameiparent : Bool) (i : ℕ) (cs : List (List Char)) : Option ℕ :=
  if nameiparent then
    if cs = [] then none else (fs.walk i cs.dropLast).filter fun j => (fs.dinode j).type = .dir
  else fs.walk i cs

end Fs

namespace FsState

/-- The loop of `namex`: the inode, or 0, and the array `name`.  Each turn takes a component off the path. -/
def namexLoop : ℕ → Bool → Fin nInode → List Char → (ℕ → Char) → FsState →
    Except String (Option (Fin nInode) × (ℕ → Char) × FsState)
  | 0, _, _, _, name, s => .ok (none, name, s)
  | turns + 1, nameiparent, ip, path, name, s =>
    match skipelem path name with
    | none =>
      if nameiparent then do
        let s ← s.iput ip
        .ok (none, name, s)
      else .ok (some ip, name, s)
    | some (path, name) => do
      let s ← s.ilock ip
      if (s.icache ip).ip.type ≠ .dir then do
        let s ← s.iput ip
        .ok (none, name, s)
      else if nameiparent ∧ path = [] then .ok (some ip, name, s)
      else do
        let (next, s) ← s.dirlookup ip name
        let s ← s.iput ip
        match next with
        | none => .ok (none, name, s)
        | some (next, _) => namexLoop turns nameiparent next path name s

variable {s s₁ : FsState} {e : Fin nInode} {i v : ℕ} {nameiparent : Bool}

/-! ## The entries of the cache -/

/-- An entry in use has the inode. -/
def Cached (s : FsState) (i : ℕ) : Prop := ∃ e, 0 < (s.icache e).ref ∧ (s.icache e).inum = i

/-- An inode that is allocated and stays so while it is looked at: it has links, or someone holds it. -/
def Stays (s : FsState) (i : ℕ) : Prop :=
  Fs.Live s.fs.sb s.fs.dinode i ∧ (0 < (s.fs.dinode i).nlink ∨ s.Cached i)

/-- **A directory tree**: directories have whole entries, which name inodes that stay. -/
structure Tree (s : FsState) : Prop where
  root : s.Stays rootIno
  whole : ∀ i, Fs.Live s.fs.sb s.fs.dinode i → (s.fs.dinode i).type = .dir →
    (s.fs.dinode i).size % direntSize = 0
  links : ∀ i, Fs.Live s.fs.sb s.fs.dinode i → (s.fs.dinode i).type = .dir → ∀ c j, s.fs.child i c = some j →
    s.Stays j

/-- **There is an entry for inode `j`** while inode `i` is held too. -/
def Spare (s : FsState) (i j : ℕ) : Prop :=
  s.Cached j ∨ j = i ∨ ∃ e, (s.icache e).ref = 0 ∧ (s.Cached i ∨ ∃ e', e' ≠ e ∧ (s.icache e').ref = 0)

/-- **The cache has an entry for every inode on the way.** -/
def Passable (s : FsState) (nameiparent : Bool) : ℕ → List (List Char) → Prop
  | _, [] => True
  | i, c :: cs => (s.fs.dinode i).type = .dir → ¬ (nameiparent ∧ cs = []) → ∀ j, s.fs.child i c = some j →
      s.Spare i j ∧ Passable s nameiparent j cs

/-- `iget` finds an entry for the next inode exactly if there was one before the walk. -/
theorem Grants.spare_iff (h : Grants s (Pi.single e 1) s₁) (hok : s₁.Ok) (hi : (s₁.icache e).inum = i) :
    (∃ e', (s₁.icache e').ref = 0 ∨ (s₁.icache e').inum = v) ↔ s.Spare i v := by
  have hself : (s₁.icache e).ref = (s.icache e).ref + 1 := by rw [h.ref, Pi.single_eq_same]
  have hother : ∀ e', e' ≠ e → (s₁.icache e').ref = (s.icache e').ref := fun e' hne => by
    rw [h.ref, Pi.single_eq_of_ne hne, Nat.add_zero]
  constructor
  · rintro ⟨e', he'⟩
    rcases Nat.eq_zero_or_pos (s₁.icache e').ref with h0 | hpos
    · -- an unused entry, which is not the one of the walk
      have hne : e' ≠ e := fun heq => by rw [heq] at h0; omega
      refine .inr (.inr ⟨e', hother e' hne ▸ h0, ?_⟩)
      rcases Nat.eq_zero_or_pos (s.icache e).ref with hz | hp
      · exact .inr ⟨e, Ne.symm hne, hz⟩
      · exact .inl ⟨e, hp, (h.inum e hp).symm.trans hi⟩
    · have hv := he'.resolve_left (by omega)
      rcases eq_or_ne e' e with rfl | hne
      · exact .inr (.inl (hv.symm.trans hi))
      · have hp : 0 < (s.icache e').ref := hother e' hne ▸ hpos
        exact .inl ⟨e', hp, (h.inum e' hp).symm.trans hv⟩
  · rintro (⟨e', hp, hv⟩ | rfl | ⟨e', h0, hrest⟩)
    · exact ⟨e', .inr ((h.inum e' hp).trans hv)⟩
    · exact ⟨e, .inr hi⟩
    · rcases eq_or_ne e' e with rfl | hne
      · rcases hrest with ⟨e1, hp, hin⟩ | ⟨e1, hne, h1⟩
        · -- the inode has one entry
          have hp1 : 0 < (s₁.icache e1).ref := by rw [h.ref]; omega
          have := hok.unique e1 e' hp1 (by omega) (((h.inum e1 hp).trans hin).trans hi.symm)
          rw [this] at hp
          omega
        · exact ⟨e1, .inl ((hother e1 hne).trans h1)⟩
      · exact ⟨e', .inl ((hother e' hne).trans h0)⟩

/-! ## One lookup -/

theorem Ok.bytes_eq (h : s.Ok) (he : (s.icache e).Usable) : s.bytes e = s.fs.contents (s.icache e).inum := by
  rw [FsState.bytes, (h.copy e he).1]
  rfl

/-- **An allocated inode can be locked.** -/
theorem Ok.ilock_returns (h : s.Ok) (he : 0 < (s.icache e).ref)
    (hlive : Fs.Live s.fs.sb s.fs.dinode (s.icache e).inum) :
    Returns (s.ilock e) fun s' => s'.Ok ∧ Grants s 0 s' ∧ (s'.icache e).Usable := by
  have hruns := h.ilock_grants he
  cases hlock : s.ilock e with
  | ok s' => exact returns_ok.mpr (hruns.of_ok hlock)
  | error err =>
    rw [FsState.ilock, if_neg (by omega)] at hlock
    split at hlock
    · cases hlock
    · simp only at hlock
      rw [if_neg hlive.2] at hlock
      cases hlock

/-- **What is known of the inode that `namex` holds**: its number, and that `iput` will not free it. -/
structure Held (s : FsState) (extra : Fin nInode → ℕ) (e : Fin nInode) (i : ℕ) (s₁ : FsState) : Prop where
  ok : s₁.Ok
  grants : Grants s (extra + Pi.single e 1) s₁
  inum : (s₁.icache e).inum = i
  live : Fs.Live s.fs.sb s.fs.dinode i
  kept : 0 < (s.fs.dinode i).nlink ∨ 0 < (s.icache e).ref

variable {extra : Fin nInode → ℕ}

theorem Held.pos (h : Held s extra e i s₁) : 0 < (s₁.icache e).ref := by
  rw [h.grants.ref, Pi.add_apply, Pi.single_eq_same]
  omega

/-- **`namex` gives it back.** -/
theorem Held.iput (h : Held s extra e i s₁) : Returns (s₁.iput e) fun s2 => s2.Ok ∧ Grants s extra s2 ∧
    ∀ e', (s2.icache e').inum = (s₁.icache e').inum := by
  refine h.ok.iput_grants h.grants fun ⟨hv, hn, hr⟩ => ?_
  rcases h.kept with hl | hp
  · have hip := (h.ok.copy e ⟨h.pos, hv⟩).1
    rw [h.inum, h.grants.fs] at hip
    rw [hip] at hn
    omega
  · rw [h.grants.ref, Pi.add_apply, Pi.single_eq_same] at hr
    omega

/-- **`namex` locks it.** -/
theorem Held.ilock (h : Held s extra e i s₁) : Returns (s₁.ilock e) fun s2 =>
    Held s extra e i s2 ∧ (s2.icache e).Usable ∧ (s2.icache e).ip = s.fs.dinode i := by
  have hlive : Fs.Live s₁.fs.sb s₁.fs.dinode (s₁.icache e).inum := by
    rw [h.grants.fs, h.inum]
    exact h.live
  refine (h.ok.ilock_returns h.pos hlive).mono fun s2 _ hs2 => ?_
  obtain ⟨hok, hg, hu⟩ := hs2
  have hgrants := h.grants.trans hg
  rw [add_zero] at hgrants
  have hinum := (hg.inum e h.pos).trans h.inum
  refine ⟨⟨hok, hgrants, hinum, h.live, h.kept⟩, hu, ?_⟩
  rw [(hok.copy e hu).1, hinum, hgrants.fs]

/-- An inode that stays is held by a reference. -/
theorem Stays.held (hs : s.Stays i) (hok : s₁.Ok) (hg : Grants s (extra + Pi.single e 1) s₁)
    (hinum : (s₁.icache e).inum = i) : Held s extra e i s₁ := by
  refine ⟨hok, hg, hinum, hs.1, hs.2.imp_right fun ⟨e1, hp, hin⟩ => ?_⟩
  -- the entry that someone holds is the one
  have hp1 : 0 < (s₁.icache e1).ref := by rw [hg.ref]; omega
  have hpe : 0 < (s₁.icache e).ref := by
    rw [hg.ref, Pi.add_apply, Pi.single_eq_same]
    omega
  rwa [← hok.unique e1 e hp1 hpe (((hg.inum e1 hp).trans hin).trans hinum.symm)]

/-- **`namex` looks a component up** in it, and holds what it finds too. -/
theorem Held.dirlookup (name : ℕ → Char) (h : Held s 0 e i s₁) (ht : s.Tree) (hu : (s₁.icache e).Usable)
    (hip : (s₁.icache e).ip = s.fs.dinode i) (htype : (s.fs.dinode i).type = .dir) :
    match s.fs.child i (nameKey name) with
    | none => s₁.dirlookup e name = .ok (none, s₁)
    | some v => (s.Spare i v → Returns (s₁.dirlookup e name) fun r => ∃ e' o, r.1 = some (e', o) ∧
          Held s (Pi.single e' 1) e i r.2 ∧ (r.2.icache e').inum = v) ∧
        (¬ s.Spare i v → ¬ ∃ r, s₁.dirlookup e name = .ok r) := by
  have hfs := h.grants.fs
  have hbytes : s₁.bytes e = s.fs.contents i := by rw [h.ok.bytes_eq hu, h.inum, hfs]
  have hopen : s₁.Opened e := by
    refine ⟨hu, by rw [hip, htype], ?_⟩
    rw [hbytes, Fs.contents, List.length_map, List.length_range]
    exact ht.whole i h.live htype
  have hslots : s₁.slots e = table (s.fs.contents i) := by rw [slots, hbytes]
  have hg := h.grants
  rw [zero_add] at hg
  rw [Fs.child, ← hslots]
  cases hfind : SlotMap.find (nameKey name) (s₁.slots e) 0 with
  | none =>
    rw [SlotMap.lookup_eq_none_iff_find.mpr hfind]
    exact h.ok.dirlookup_none hopen hfind
  | some r =>
    obtain ⟨v, o⟩ := r
    have hlook := SlotMap.lookup_eq_some_of_find hfind
    have hchild : s.fs.child i (nameKey name) = some v := by rw [Fs.child, ← hslots, hlook]
    have hlive := (ht.links i h.live htype _ v hchild).1
    rw [hlook, h.ok.dirlookup_some hopen hfind]
    refine ⟨fun hspare => ?_, fun hno => ?_⟩
    · obtain ⟨⟨e', s2⟩, hget, -⟩ := iget_returns_iff.mpr ((hg.spare_iff h.ok h.inum).mpr hspare)
      obtain ⟨hg2, hinum2⟩ := grants_iget hget
      have hrange : v < s₁.fs.sb.ninodes := by
        rw [hfs]
        exact hlive.1
      have hall := hg.trans hg2
      rw [add_comm] at hall
      rw [hget]
      refine returns_ok.mpr ⟨e', direntSize * o, rfl, ⟨(h.ok.iget hrange).of_ok hget, hall,
        (hg2.inum e h.pos).trans h.inum, h.live, h.kept⟩, hinum2⟩
    · rintro ⟨r, hr⟩
      obtain ⟨x, hx, -⟩ := bind_eq_ok.mp hr
      exact hno ((hg.spare_iff h.ok h.inum).mp (iget_returns_iff.mp ⟨x, hx, trivial⟩))

/-! ## The loop -/

/-- What the loop returns, as the loop computes it. -/
def resolve (s : FsState) (nameiparent : Bool) : ℕ → List (List Char) → Option ℕ
  | i, [] => if nameiparent then none else some i
  | i, c :: cs =>
    if (s.fs.dinode i).type ≠ .dir then none
    else if nameiparent ∧ cs = [] then some i
    else (s.fs.child i c).bind (resolve s nameiparent · cs)

/-- **What `namex` returns**: one more reference to the target and to nothing else, or none at all; and the
last component, for the parent. -/
def Resolves (s : FsState) (nameiparent : Bool) (cs : List (List Char)) (t : Option ℕ)
    (r : Option (Fin nInode) × (ℕ → Char) × FsState) : Prop :=
  match t with
  | some j => ∃ e, r.1 = some e ∧ (r.2.2.icache e).inum = j ∧ r.2.2.Ok ∧ Grants s (Pi.single e 1) r.2.2 ∧
      (nameiparent = true → cs.getLast? = some (nameKey r.2.1))
  | none => r.1 = none ∧ r.2.2.Ok ∧ Grants s 0 r.2.2

theorem Held.resolves_none (h : Held s 0 e i s₁) {name : ℕ → Char} {cs : List (List Char)} :
    Returns (do let s ← s₁.iput e; .ok (none, name, s)) (Resolves s nameiparent cs none) :=
  h.iput.bind fun _ hs2 => returns_ok.mpr ⟨rfl, hs2.1, hs2.2.1⟩

theorem Held.resolves_some (h : Held s 0 e i s₁) {name : ℕ → Char} {cs : List (List Char)}
    (hlast : nameiparent = true → cs.getLast? = some (nameKey name)) :
    Resolves s nameiparent cs (some i) (some e, name, s₁) := by
  have hg := h.grants
  rw [zero_add] at hg
  exact ⟨e, rfl, h.inum, h.ok, hg, hlast⟩

/-- Only the last component matters. -/
theorem resolves_cons {c : List Char} {cs : List (List Char)} (hcs : nameiparent = true → cs ≠ []) :
    Resolves s nameiparent (c :: cs) = Resolves s nameiparent cs := by
  funext t r
  have hlast : (nameiparent = true → (c :: cs).getLast? = some (nameKey r.2.1)) =
      (nameiparent = true → cs.getLast? = some (nameKey r.2.1)) :=
    propext (forall_congr' fun hp => by rw [List.getLast?_cons_of_ne_nil (hcs hp)])
  cases t with
  | none => rfl
  | some j => simp only [Resolves, hlast]

/-- **The loop of `namex`** resolves the rest of the path, exactly if the cache has the entries. -/
theorem Held.namexLoop (ht : s.Tree) : ∀ (turns : ℕ) {e : Fin nInode} {i : ℕ} {s₁ : FsState}
    (path : List Char) (name : ℕ → Char), Held s 0 e i s₁ → (∀ c ∈ path, c ≠ nul) → path.length < turns →
    (Returns (FsState.namexLoop turns nameiparent e path name s₁)
        (Resolves s nameiparent (components path) (s.resolve nameiparent i (components path))) ↔
      s.Passable nameiparent i (components path))
  | turns + 1, e, i, s₁, path, name, h, hnul, hturns => by
    rw [FsState.namexLoop]
    split
    · -- no component is left
      rename_i hskip
      rw [components_eq_nil hskip]
      refine iff_of_true ?_ trivial
      cases nameiparent with
      | true => exact h.resolves_none
      | false => exact returns_ok.mpr (h.resolves_some nofun)
    · rename_i rest name' hskip
      obtain ⟨hcomp, hlen, hnul', hdrop⟩ := components_skipelem hnul hskip
      have hrest := rest_eq_nil_iff hnul' hdrop
      rw [hcomp]
      obtain ⟨s2, hs2, h2, hu, hip⟩ := h.ilock
      rw [hs2, ok_bind, hip]
      by_cases htype : (s.fs.dinode i).type = .dir
      · rw [if_neg (not_not_intro htype), resolve, if_neg (not_not_intro htype)]
        by_cases hlast : nameiparent ∧ components rest = []
        · -- stop one level early
          rw [if_pos (by rwa [hrest]), if_pos hlast]
          refine iff_of_true (returns_ok.mpr (h2.resolves_some fun _ => ?_)) fun _ hno => absurd hlast hno
          rw [hlast.2]
          rfl
        · rw [if_neg (by rwa [hrest]), if_neg hlast, resolves_cons fun hp he => hlast ⟨hp, he⟩]
          have hlook := h2.dirlookup name' ht hu hip htype
          have hpass : s.Passable nameiparent i (nameKey name' :: components rest) ↔
              ∀ j, s.fs.child i (nameKey name') = some j →
                s.Spare i j ∧ s.Passable nameiparent j (components rest) :=
            ⟨fun hp => hp htype hlast, fun hp _ _ => hp⟩
          rw [hpass]
          cases hchild : s.fs.child i (nameKey name') with
          | none =>
            rw [hchild] at hlook
            rw [hlook, ok_bind]
            exact iff_of_true h2.resolves_none nofun
          | some v =>
            rw [hchild] at hlook
            have hstays := ht.links i h.live htype _ v hchild
            simp only [Option.some.injEq, forall_eq', Option.bind_some]
            by_cases hspare : s.Spare i v
            · obtain ⟨⟨r, s3⟩, hs3, e', o, rfl, h3, hinum⟩ := hlook.1 hspare
              obtain ⟨s4, hs4, hok4, hg4, hin4⟩ := h3.iput
              have h4 : Held s 0 e' v s4 := hstays.held hok4 (by rwa [zero_add]) ((hin4 e').trans hinum)
              rw [hs3, ok_bind]
              simp only
              rw [hs4, ok_bind]
              have hnext := Held.namexLoop ht turns rest name' h4 hnul' (by omega)
              exact hnext.trans ⟨fun hp => ⟨hspare, hp⟩, And.right⟩
            · refine iff_of_false ?_ fun hp => hspare hp.1
              rintro ⟨r, hr, -⟩
              obtain ⟨x, hx, -⟩ := bind_eq_ok.mp hr
              exact hlook.2 hspare ⟨x, hx⟩
      · rw [if_pos htype, resolve, if_pos htype]
        exact iff_of_true h2.resolves_none fun hd => absurd hd htype

/-- Where the path starts. -/
def start (s : FsState) (cwd : Fin nInode) (path : List Char) : ℕ :=
  if path.head? = some '/' then rootIno else (s.icache cwd).inum

/-- **The cache has the entries that `namex` needs**: one for the root, if it starts there, and one for every
inode on the way. -/
def Served (s : FsState) (cwd : Fin nInode) (path : List Char) (nameiparent : Bool) : Prop :=
  (path.head? = some '/' → ∃ e, (s.icache e).ref = 0 ∨ (s.icache e).inum = rootIno) ∧
    s.Passable nameiparent (s.start cwd path) (components path)

end FsState

end Xv6
