import Xv6.Fs.Icache

/-!
# Fs/References — references to inodes

A call that takes references to inodes and reads them changes the counts of the cache and nothing that the
holder of another reference can see: `Grants` says how many references to each entry it has taken.  `iget`
takes one, `ilock` none, and `iput` gives one back unless it frees the inode.
-/

namespace Xv6

open Outcome

namespace FsState

variable {s s' : FsState} {e : Fin nInode} {inum : ℕ}

/-- **References are taken**, `extra e` of them to entry `e`; what is cached stays, and so does the disk. -/
structure Grants (s : FsState) (extra : Fin nInode → ℕ) (s' : FsState) : Prop where
  fs : s'.fs = s.fs
  ref : ∀ e, (s'.icache e).ref = (s.icache e).ref + extra e
  inum : ∀ e, 0 < (s.icache e).ref → (s'.icache e).inum = (s.icache e).inum
  usable : ∀ e, (s.icache e).Usable → (s'.icache e).valid = true ∧ (s'.icache e).ip = (s.icache e).ip

variable {extra : Fin nInode → ℕ}

theorem grants_self (s : FsState) : Grants s 0 s := ⟨rfl, fun _ => rfl, fun _ _ => rfl, fun _ h => ⟨h.2, rfl⟩⟩

/-- **`iget`**: the entry of the inode, or an unused one. -/
theorem iget_cases (h : s.iget inum = .ok (e, s')) :
    (0 < (s.icache e).ref ∧ (s.icache e).inum = inum ∧
      s' = s.setEntry e { s.icache e with ref := (s.icache e).ref + 1 }) ∨
    ((∀ e', 0 < (s.icache e').ref → (s.icache e').inum ≠ inum) ∧ (s.icache e).ref = 0 ∧
      s' = s.setEntry e { s.icache e with inum := inum, ref := 1, valid := false }) := by
  rw [FsState.iget] at h
  split at h
  · rename_i i hfind
    cases h
    have hi := List.find?_some hfind
    exact .inl ⟨(by simpa using hi : _ ∧ _).1, (by simpa using hi : _ ∧ _).2, rfl⟩
  · rename_i hnone
    split at h
    · rename_i i hfind
      cases h
      refine .inr ⟨fun e' he' heq => ?_, by simpa using List.find?_some hfind, rfl⟩
      have := List.find?_eq_none.mp hnone e' (List.mem_finRange e')
      simp [he', heq] at this
    · cases h

/-- `iget` finds an entry exactly if there is one for it. -/
theorem iget_returns_iff :
    Returns (s.iget inum) (fun _ => True) ↔ ∃ e, (s.icache e).ref = 0 ∨ (s.icache e).inum = inum := by
  constructor
  · rintro ⟨⟨e, s'⟩, h, -⟩
    rcases iget_cases h with ⟨-, h, -⟩ | ⟨-, h, -⟩
    · exact ⟨e, .inr h⟩
    · exact ⟨e, .inl h⟩
  · rintro ⟨e, he⟩
    rw [FsState.iget]
    split
    · exact returns_ok.mpr trivial
    · rename_i hnone
      split
      · exact returns_ok.mpr trivial
      · rename_i hfull
        have h1 := List.find?_eq_none.mp hnone e (List.mem_finRange e)
        have h2 := List.find?_eq_none.mp hfull e (List.mem_finRange e)
        simp only [decide_eq_true_eq] at h1 h2
        exact absurd (he.resolve_left h2) fun hin => h1 ⟨Nat.pos_of_ne_zero h2, hin⟩

theorem setEntry_eq_self (s : FsState) (e : Fin nInode) : s.setEntry e (s.icache e) = s := by
  rw [setEntry, Function.update_eq_self]

/-- One entry is changed. -/
theorem grants_setEntry {c : CachedInode} {r : ℕ} (href : c.ref = (s.icache e).ref + r)
    (hinum : 0 < (s.icache e).ref → c.inum = (s.icache e).inum)
    (husable : (s.icache e).Usable → c.valid = true ∧ c.ip = (s.icache e).ip) :
    Grants s (Pi.single e r) (s.setEntry e c) := by
  refine ⟨rfl, fun e' => ?_, fun e' he' => ?_, fun e' he' => ?_⟩
  all_goals rcases eq_or_ne e' e with rfl | hne
  · rw [setEntry_self, href, Pi.single_eq_same]
  · rw [setEntry_of_ne s _ hne, Pi.single_eq_of_ne hne, Nat.add_zero]
  · rw [setEntry_self, hinum he']
  · rw [setEntry_of_ne s _ hne]
  · rw [setEntry_self]
    exact husable he'
  · rw [setEntry_of_ne s _ hne]
    exact ⟨he'.2, rfl⟩

/-- **`iget` takes one reference**, to the inode it is asked for. -/
theorem grants_iget (h : s.iget inum = .ok (e, s')) :
    Grants s (Pi.single e 1) s' ∧ (s'.icache e).inum = inum := by
  rcases iget_cases h with ⟨-, hin, rfl⟩ | ⟨-, hzero, rfl⟩
  · exact ⟨grants_setEntry rfl (fun _ => rfl) fun hu => ⟨hu.2, rfl⟩, by rw [setEntry_self]; exact hin⟩
  · refine ⟨grants_setEntry (by rw [hzero]) (fun hpos => absurd hpos (by omega)) fun hu =>
      absurd hu.1 (by omega), by rw [setEntry_self]⟩

/-- `ilock` takes no reference. -/
theorem grants_ilock (h : s.ilock e = .ok s') : Grants s 0 s' ∧ (s'.icache e).Usable := by
  rw [FsState.ilock] at h
  split at h
  · cases h
  · rename_i hpos
    split at h
    · rename_i hv
      cases h
      exact ⟨grants_self s, by omega, hv⟩
    · rename_i hv
      simp only at h
      split at h
      · cases h
      · cases h
        rw [← Pi.single_zero e]
        refine ⟨grants_setEntry rfl (fun _ => rfl) fun hu => absurd hu.2 hv, ?_⟩
        rw [setEntry_self]
        exact ⟨by simp only; omega, rfl⟩

theorem Grants.trans {extra' : Fin nInode → ℕ} {s'' : FsState} (h : Grants s extra s')
    (h' : Grants s' extra' s'') : Grants s (extra + extra') s'' := by
  have hpos : ∀ e, 0 < (s.icache e).ref → 0 < (s'.icache e).ref := fun e he => by rw [h.ref]; omega
  refine ⟨h'.fs.trans h.fs, fun e => ?_, fun e he => (h'.inum e (hpos e he)).trans (h.inum e he),
    fun e he => ?_⟩
  · rw [h'.ref, h.ref, Pi.add_apply, Nat.add_assoc]
  · obtain ⟨hv, hip⟩ := h.usable e he
    obtain ⟨hv', hip'⟩ := h'.usable e ⟨hpos e he.1, hv⟩
    exact ⟨hv', hip'.trans hip⟩

/-- **`iput` gives a reference back**, where it does not free the inode. -/
theorem Grants.iput (h : Grants s (extra + Pi.single e 1) s')
    (hkeep : ¬ ((s'.icache e).valid = true ∧ (s'.icache e).ip.nlink = 0 ∧ (s'.icache e).ref = 1)) :
    Returns (s'.iput e) fun s'' => Grants s extra s'' ∧
      ∀ e', (s''.icache e').inum = (s'.icache e').inum := by
  rw [FsState.iput, if_neg hkeep, ok_bind]
  have hone : (s'.icache e).ref = (s.icache e).ref + (extra e + 1) := by
    rw [h.ref, Pi.add_apply, Pi.single_eq_same]
  have hinum : ∀ e', ((s'.setEntry e { s'.icache e with ref := (s'.icache e).ref - 1 }).icache e').inum
      = (s'.icache e').inum := fun e' => by
    rcases eq_or_ne e' e with rfl | hne
    · rw [setEntry_self]
    · rw [setEntry_of_ne s' _ hne]
  refine returns_ok.mpr ⟨⟨h.fs, fun e' => ?_, fun e' he' => (hinum e').trans (h.inum e' he'),
    fun e' he' => ?_⟩, hinum⟩
  · rcases eq_or_ne e' e with rfl | hne
    · rw [setEntry_self, hone]
      rfl
    · rw [setEntry_of_ne s' _ hne, h.ref, Pi.add_apply, Pi.single_eq_of_ne hne, Nat.add_zero]
  · rcases eq_or_ne e' e with rfl | hne
    · rw [setEntry_self]
      exact h.usable e' he'
    · rw [setEntry_of_ne s' _ hne]
      exact h.usable e' he'

/-- The reference is given back, and the file system stays as it was. -/
theorem Ok.iput_grants (h : s'.Ok) (hg : Grants s (extra + Pi.single e 1) s')
    (hkeep : ¬ ((s'.icache e).valid = true ∧ (s'.icache e).ip.nlink = 0 ∧ (s'.icache e).ref = 1)) :
    Returns (s'.iput e) fun s'' => s''.Ok ∧ Grants s extra s'' ∧
      ∀ e', (s''.icache e').inum = (s'.icache e').inum := by
  have hpos : 0 < (s'.icache e).ref := by
    rw [hg.ref, Pi.add_apply, Pi.single_eq_same]
    omega
  obtain ⟨s1, hs1, hok⟩ := h.iput hpos
  exact (hg.iput hkeep).mono fun s2 hs2 hg2 => ⟨Except.ok.inj (hs1.symm.trans hs2) ▸ hok, hg2⟩

theorem Grants.usable_of (h : Grants s extra s') (he : (s.icache e).Usable) : (s'.icache e).Usable :=
  ⟨by rw [h.ref]; exact Nat.add_pos_left he.1 _, (h.usable e he).1⟩

end FsState

end Xv6
