import Xv6.Fs.Content

/-!
# Fs/Truncate — `itrunc` frees the blocks of an inode

`itrunc` frees the direct blocks, then the blocks the indirect block names, and then the indirect block.
In a file system whose blocks have one owner each these are different blocks, all marked used, so no
`bfree` panics, and what is freed is what the inode held (`Owner.Exact.release`).
-/

namespace Xv6

open Outcome Function List

namespace Fs

variable {fs fs1 fs' : Fs} {dn : ℕ → Dinode} {ip : Dinode} {inum b : ℕ} {p : Ptr} {S S' : ℕ → Prop} {ι : Type}

/-- **The blocks `S` are marked free**, and nothing else changes. -/
structure Frees (fs : Fs) (S : ℕ → Prop) (fs' : Fs) : Prop where
  used : ∀ b, fs'.used b = true ↔ fs.used b = true ∧ ¬ S b
  frame : fs' = { fs with used := fs'.used }

theorem Frees.trans (h : Frees fs S fs1) (h' : Frees fs1 S' fs') :
    Frees fs (fun b => S b ∨ S' b) fs' where
  used b := by rw [h'.used, h.used, and_assoc, not_or]
  frame := by rw [h'.frame, h.frame]

theorem Frees.congr (h : Frees fs S fs') (hS : ∀ b, S' b ↔ S b) : Frees fs S' fs' where
  used b := by rw [h.used, hS]
  frame := h.frame

theorem frees_nothing (fs : Fs) : Frees fs (fun _ => False) fs := ⟨fun _ => by simp, rfl⟩

theorem bfree_frees (h : fs.used b = true) : Returns (Fs.bfree b fs) (Frees fs (· = b)) := by
  rw [Fs.bfree, if_pos h]
  refine returns_ok.mpr ⟨fun c => ?_, rfl⟩
  rcases eq_or_ne c b with rfl | hne
  · simp
  · simp [hne]

/-- `bfree`, unless the pointer is not set. -/
def bfreeSet (b : ℕ) (fs : Fs) : Except String Fs := if b ≠ 0 then Fs.bfree b fs else .ok fs

/-- **A loop that frees the blocks some pointers name**, all marked used and none twice. -/
theorem loop_bfreeSet (a : ι → ℕ) : ∀ (is : List ι), is.Nodup → ∀ {fs : Fs},
    (∀ i ∈ is, a i ≠ 0 → fs.used (a i) = true) →
    (∀ i ∈ is, ∀ j ∈ is, a i ≠ 0 → a i = a j → i = j) →
    Returns (loop (fun i => bfreeSet (a i)) is fs) (Frees fs fun b => ∃ i ∈ is, a i ≠ 0 ∧ a i = b)
  | [], _, fs, _, _ => returns_ok.mpr ((frees_nothing fs).congr fun b => by simp)
  | i :: is, hnd, fs, hused, hinj => by
    obtain ⟨hi, hnd⟩ := nodup_cons.mp hnd
    have hmem : ∀ j ∈ is, j ∈ i :: is := fun j hj => mem_cons_of_mem i hj
    rw [loop_cons, bfreeSet]
    by_cases h0 : a i = 0
    · rw [if_neg (not_not.mpr h0), ok_bind]
      refine (loop_bfreeSet a is hnd (fun j hj => hused j (hmem j hj))
        fun j hj k hk => hinj j (hmem j hj) k (hmem k hk)).mono fun fs' _ hf => hf.congr fun b => ?_
      simp [h0]
    · rw [if_pos h0]
      refine (bfree_frees (hused i mem_cons_self h0)).bind fun fs1 hf1 => ?_
      -- the others are still used, for they are other blocks
      refine (loop_bfreeSet a is hnd (fun j hj hj0 => (hf1.used _).mpr
        ⟨hused j (hmem j hj) hj0, fun he => hi ?_⟩)
        fun j hj k hk => hinj j (hmem j hj) k (hmem k hk)).mono fun fs' _ hf => ?_
      · rwa [← hinj j (hmem j hj) i mem_cons_self hj0 he]
      · refine (hf1.trans hf).congr fun b => ?_
        simp [h0, eq_comm]

/-- The direct pointers in `is` are cleared. -/
def clearDirect (ip : Dinode) (is : List (Fin 12)) : Dinode :=
  is.foldl (fun ip i => ip.setAddr i.castSucc 0) ip

theorem clearDirect_addrs (is : List (Fin 12)) (k : Fin 13) : ∀ (ip : Dinode),
    (clearDirect ip is).addrs k = if ∃ i ∈ is, i.castSucc = k then 0 else ip.addrs k := by
  induction is with
  | nil => intro ip; simp [clearDirect]
  | cons i is ih =>
    intro ip
    rw [clearDirect, foldl_cons, ← clearDirect, ih]
    rcases eq_or_ne i.castSucc k with rfl | hne
    · simp [Dinode.setAddr]
    · simp [Dinode.setAddr, hne, update_of_ne (Ne.symm hne)]

theorem clearDirect_fields (is : List (Fin 12)) : ∀ (ip : Dinode),
    clearDirect ip is = { ip with addrs := (clearDirect ip is).addrs } := by
  induction is with
  | nil => intro ip; rfl
  | cons i is ih => exact fun ip => ih (ip.setAddr i.castSucc 0)

theorem truncDirect_eq (i : Fin 12) (ip : Dinode) (fs : Fs) :
    truncDirect i (ip, fs)
      = bfreeSet (ip.addrs i.castSucc) fs >>= fun fs' => .ok (ip.setAddr i.castSucc 0, fs') := by
  rw [truncDirect, bfreeSet]
  split
  · rfl
  · rename_i h0
    rw [ok_bind, Dinode.setAddr]
    simp only [← not_not.mp h0, update_eq_self]

/-- The loop over the direct blocks frees what they name and clears them. -/
theorem loop_truncDirect (a : Fin 12 → ℕ) : ∀ (is : List (Fin 12)), is.Nodup →
    ∀ (ip : Dinode) (fs : Fs), (∀ i ∈ is, ip.addrs i.castSucc = a i) →
    loop truncDirect is (ip, fs)
      = loop (fun i => bfreeSet (a i)) is fs >>= fun fs' => .ok (clearDirect ip is, fs')
  | [], _, _, _, _ => rfl
  | i :: is, hnd, ip, fs, ha => by
    obtain ⟨hi, hnd⟩ := nodup_cons.mp hnd
    have hrest : ∀ j ∈ is, (ip.setAddr i.castSucc 0).addrs j.castSucc = a j := fun j hj => by
      have hne : j.castSucc ≠ i.castSucc := fun he => hi (Fin.castSucc_injective _ he ▸ hj)
      rw [← ha j (mem_cons_of_mem i hj)]
      exact update_of_ne hne _ _
    rw [loop_cons, loop_cons, truncDirect_eq, ha i mem_cons_self]
    cases bfreeSet (a i) fs with
    | error e => rfl
    | ok fs1 => exact loop_truncDirect a is hnd _ fs1 hrest

/-- An inode without blocks. -/
def emptied (ip : Dinode) : Dinode := { ip with size := 0, addrs := fun _ => 0 }

theorem clearDirect_setAddr (ip : Dinode) :
    { (clearDirect ip (List.finRange 12)).setAddr 12 0 with size := 0 } = emptied ip := by
  have haddrs : update (clearDirect ip (List.finRange 12)).addrs 12 0 = fun _ => 0 := by
    funext k
    rcases Fin.eq_castSucc_or_eq_last k with ⟨i, rfl⟩ | rfl
    · have hne : i.castSucc ≠ 12 := fun he => absurd (congrArg Fin.val he) (Nat.ne_of_lt i.isLt)
      rw [update_of_ne hne, clearDirect_addrs, if_pos ⟨i, by simp, rfl⟩]
    · exact update_self (12 : Fin 13) _ _
  simp only [Dinode.setAddr, haddrs, emptied]
  rw [clearDirect_fields]

/-- The blocks that the pointers `Q` of an inode hold. -/
def heldBy (d : Dinode) (block : ℕ → Block) (Q : Ptr → Prop) (b : ℕ) : Prop :=
  ∃ q, Q q ∧ d.ptr block q ≠ 0 ∧ d.ptr block q = b

section

variable (h : fs.Owns dn) (hlive : Live fs.sb dn inum)

include h hlive

theorem Owns.ptr_used
    (hq : (dn inum).ptr fs.block p ≠ 0) : fs.used ((dn inum).ptr fs.block p) = true := by
  rw [← holder_of_live hlive] at hq ⊢
  exact (h.exact.mem _ hq).2

theorem Owns.ptr_inj {q : Ptr}
    (hp : (dn inum).ptr fs.block p ≠ 0)
    (heq : (dn inum).ptr fs.block p = (dn inum).ptr fs.block q) : p = q := by
  rw [← holder_of_live hlive] at hp
  rw [← holder_of_live hlive, ← holder_of_live (p := q) hlive] at heq
  exact (Prod.mk.inj (h.exact.inj _ _ hp heq)).2

/-- **A loop over pointers of an inode** frees what they hold, after others have been freed. -/
theorem Owns.loop_free {Q : Ptr → Prop}
    (hf : Frees fs (heldBy (dn inum) fs.block Q) fs1) (f : ι → Ptr) (hinj : Function.Injective f)
    (hQ : ∀ i, ¬ Q (f i)) {is : List ι} (hnd : is.Nodup) :
    Returns (loop (fun i => bfreeSet ((dn inum).ptr fs.block (f i))) is fs1)
      (Frees fs (heldBy (dn inum) fs.block fun q => Q q ∨ ∃ i ∈ is, f i = q)) := by
  refine (loop_bfreeSet _ is hnd (fun i _ hi => (hf.used _).mpr ⟨h.ptr_used hlive hi, ?_⟩)
    fun i _ j _ hi hij => hinj (h.ptr_inj hlive hi hij)).mono fun fs2 _ hf2 =>
      (hf.trans hf2).congr fun b => ?_
  · rintro ⟨q, hq, hq0, hqi⟩
    exact hQ i (h.ptr_inj hlive hq0 hqi ▸ hq)
  · constructor
    · rintro ⟨q, hq | ⟨i, hi, rfl⟩, hq0, hqb⟩
      · exact .inl ⟨q, hq, hq0, hqb⟩
      · exact .inr ⟨i, hi, hq0, hqb⟩
    · rintro (⟨q, hq, hq0, hqb⟩ | ⟨i, hi, hq0, hqb⟩)
      · exact ⟨q, .inl hq, hq0, hqb⟩
      · exact ⟨f i, .inr ⟨i, hi, rfl⟩, hq0, hqb⟩

/-- The direct blocks are freed. -/
theorem Owns.loop_truncDirect :
    Returns (loop truncDirect (List.finRange 12) (dn inum, fs)) fun r =>
      r.1 = clearDirect (dn inum) (List.finRange 12) ∧
        Frees fs (heldBy (dn inum) fs.block fun q => ∃ i, .direct i = q) r.2 := by
  rw [Fs.loop_truncDirect (fun i => (dn inum).addrs i.castSucc) _ (nodup_finRange 12) _ _
    fun _ _ => rfl]
  have hnone : Frees fs (heldBy (dn inum) fs.block fun _ => False) fs :=
    (frees_nothing fs).congr fun b => by simp [heldBy]
  refine (h.loop_free hlive hnone .direct (fun i j hij => Ptr.direct.inj hij) (fun _ => id)
    (nodup_finRange 12)).bind fun fs1 hf => returns_ok.mpr ⟨rfl, hf.congr fun b => ?_⟩
  simp [heldBy]

/-- The blocks the indirect block names are freed, and then the indirect block. -/
theorem Owns.loop_truncIndirect
    (hf : Frees fs (heldBy (dn inum) fs.block fun q => ∃ i, .direct i = q) fs1)
    (h0 : (dn inum).addrs 12 ≠ 0) :
    Returns (do
      let fs ← loop (truncIndirect (fs.block ((dn inum).addrs 12))) (List.finRange 128) fs1
      let fs ← Fs.bfree ((dn inum).addrs 12) fs
      .ok (ip, fs))
      fun r => r.1 = ip ∧ Frees fs (heldBy (dn inum) fs.block fun _ => True) r.2 := by
  have hentry : truncIndirect (fs.block ((dn inum).addrs 12))
      = fun j => bfreeSet ((dn inum).ptr fs.block (.entry j)) := by
    funext j
    rw [show (dn inum).ptr fs.block (.entry j) = _ from if_neg h0]
    rfl
  rw [hentry]
  refine (h.loop_free hlive hf .entry (fun i j hij => Ptr.entry.inj hij) (by simp)
    (nodup_finRange 128)).bind fun fs2 hf2 => ?_
  have hind : fs2.used ((dn inum).addrs 12) = true := by
    refine (hf2.used _).mpr ⟨h.ptr_used (p := .indirect) hlive h0, ?_⟩
    rintro ⟨q, hq, hq0, hqi⟩
    obtain rfl : q = .indirect := h.ptr_inj hlive hq0 hqi
    simp at hq
  refine (bfree_frees hind).bind fun fs3 hf3 =>
    returns_ok.mpr ⟨rfl, (hf2.trans hf3).congr fun b => ?_⟩
  constructor
  · rintro ⟨q, -, hq0, hqb⟩
    cases q with
    | direct i => exact .inl ⟨_, .inl ⟨i, rfl⟩, hq0, hqb⟩
    | indirect => exact .inr hqb.symm
    | entry j => exact .inl ⟨_, .inr ⟨j, mem_finRange j, rfl⟩, hq0, hqb⟩
  · rintro (⟨q, -, hq0, hqb⟩ | rfl)
    · exact ⟨q, trivial, hq0, hqb⟩
    · exact ⟨.indirect, trivial, h0, rfl⟩

/-- **`itrunc` returns, and frees exactly the blocks of the inode.** -/
theorem Owns.itrunc_frees :
    Returns (Fs.itrunc inum (dn inum) fs) fun r => r.1 = emptied (dn inum) ∧
      ∃ fs1, Frees fs (heldBy (dn inum) fs.block fun _ => True) fs1 ∧ r.2 = fs1.iupdate inum r.1 := by
  rw [Fs.itrunc]
  refine (h.loop_truncDirect hlive).bind fun r hr => ?_
  obtain ⟨ip1, fs1⟩ := r
  obtain ⟨rfl, hf1⟩ : ip1 = clearDirect (dn inum) (List.finRange 12) ∧ Frees fs _ fs1 := hr
  have hlast : (clearDirect (dn inum) (List.finRange 12)).addrs 12 = (dn inum).addrs 12 := by
    rw [clearDirect_addrs, if_neg]
    rintro ⟨i, -, hi⟩
    exact absurd (congrArg Fin.val hi) (Nat.ne_of_lt i.isLt)
  have hblock : fs1.block = fs.block := by rw [hf1.frame]
  simp only [hlast, hblock]
  by_cases h0 : (dn inum).addrs 12 = 0
  · rw [if_neg (not_not.mpr h0), ok_bind]
    have hzero : clearDirect (dn inum) (List.finRange 12)
        = (clearDirect (dn inum) (List.finRange 12)).setAddr 12 0 := by
      simp only [Dinode.setAddr, ← hlast.trans h0, update_eq_self]
    refine returns_ok.mpr ⟨?_, fs1, hf1.congr fun b => ?_, rfl⟩
    · rw [hzero]
      exact clearDirect_setAddr (dn inum)
    · -- without an indirect block, only direct pointers hold blocks
      constructor
      · rintro ⟨q, -, hq0, hqb⟩
        cases q with
        | direct i => exact ⟨_, ⟨i, rfl⟩, hq0, hqb⟩
        | indirect => exact absurd h0 hq0
        | entry j => exact absurd (if_pos h0) hq0
      · rintro ⟨q, -, hq0, hqb⟩
        exact ⟨q, trivial, hq0, hqb⟩
  · rw [if_pos h0]
    refine (h.loop_truncIndirect hlive hf1 h0).bind fun r hr => returns_ok.mpr ?_
    obtain ⟨ip2, fs2⟩ := r
    obtain ⟨rfl, hf2⟩ : ip2 = (clearDirect (dn inum) (List.finRange 12)).setAddr 12 0 ∧
      Frees fs _ fs2 := hr
    exact ⟨clearDirect_setAddr (dn inum), fs2, hf2, rfl⟩

end

/-- **The blocks of an inode are freed and its pointers cleared**: the others keep theirs. -/
theorem Frees.owns (hf : Frees fs (heldBy (dn inum) fs.block fun _ => True) fs1) (h : fs.Owns dn)
    (hlive : Live fs.sb dn inum) (hip : ip.addrs = fun _ => 0) :
    fs1.Owns (update dn inum ip) := by
  have hsb : fs1.sb = fs.sb := by rw [hf.frame]
  have hblock : fs1.block = fs.block := by rw [hf.frame]
  refine ⟨?_, fun b hb => ?_, hsb ▸ h.size_lt⟩
  · rw [hsb]
    refine h.exact.release (fun x => x.1 = inum) (fun x hx => ?_) (fun x hx => ?_) fun b => ?_
    · rw [holder, hx, update_self]
      split
      · cases x.2 <;> simp [Dinode.ptr, hip]
      · rfl
    · refine holder_congr ?_ fun _ => ?_
      · simp only [Live, update_of_ne hx, hsb]
      · rw [update_of_ne hx, hblock]
    · rw [hf.used]
      refine and_congr_right fun _ => ⟨fun hno x hx h0 he => hno ?_, fun hno => ?_⟩
      · obtain ⟨i, q⟩ := x
        obtain rfl : i = inum := hx
        rw [holder_of_live hlive] at h0 he
        exact ⟨q, trivial, h0, he⟩
      · rintro ⟨q, -, hq0, hqb⟩
        rw [← holder_of_live hlive] at hq0 hqb
        exact hno (inum, q) rfl hq0 hqb
  · rw [hsb] at hb
    refine (hf.used b).mpr ⟨h.low b hb, ?_⟩
    rintro ⟨q, -, hq0, rfl⟩
    rw [← holder_of_live hlive] at hq0 hb
    have := (h.exact.mem _ hq0).1.1
    omega

end Fs

end Xv6
