import Xv6.Proc.Exec

/-!
# Proc/Copyout — `copyout` byte by byte

`copyout` cuts its range at the page boundaries.  It is the same as asking `uva2ka` for every byte
(`copyout_eq`), and what it writes is said of single bytes then, however the directory maps the pages.

`uva2ka` reads the entry `walkpgdir` points to, without a test of the pointer.  So `copyout` does what it should
exactly if the first byte of the range that is closed to user mode, if there is one, has a page table.
-/

namespace Xv6

namespace Kernel

open Outcome Function List

variable {k k' : Kernel} {d va va' f o : ℕ} {b : UInt8} {bs xs : List UInt8}

/-! ## The loop over the bytes -/

/-- `copyout` with a page for every byte. -/
def copyoutBytes (d : ℕ) : ℕ → List UInt8 → Kernel → Except String (Bool × Kernel)
  | _, [], k => .ok (true, k)
  | va, b :: bs, k => do
    match ← k.uva2ka d va with
    | none => return (false, k)
    | some f => copyoutBytes d (va + 1) bs (k.fillFrame f (va % pgSize) [b])

theorem uva2ka_congr (h : vpn va = vpn va') : k.uva2ka d va = k.uva2ka d va' := by
  rw [uva2ka, uva2ka, k.walkpgdir_congr d h]

theorem fillFrame_nil : k.fillFrame f o [] = k := by
  have hno : ∀ i : Fin pgSize, ¬(o ≤ (i : ℕ) ∧ (i : ℕ) < o + ([] : List UInt8).length) := by simp
  simp only [fillFrame, setMem, if_neg (hno _), update_eq_self]

theorem fillFrame_cons : k.fillFrame f o (b :: bs) = (k.fillFrame f o [b]).fillFrame f (o + 1) bs := by
  simp only [fillFrame, setMem, update_self, update_idem, length_cons, length_nil]
  congr 2
  funext i
  by_cases hi : (i : ℕ) = o
  · rw [if_pos (by omega), if_neg (by omega), if_pos (by omega), hi, Nat.sub_self]
    rfl
  · by_cases hin : o + 1 ≤ (i : ℕ) ∧ (i : ℕ) < o + 1 + bs.length
    · rw [if_pos (by omega), if_pos hin, show (i : ℕ) - o = i - (o + 1) + 1 by omega]
      rfl
    · rw [if_neg (by omega), if_neg hin, if_neg (by omega)]

/-- **The bytes of one page** are one piece. -/
theorem copyoutBytes_append (ys : List UInt8) : ∀ (xs : List UInt8) (va o : ℕ) {k : Kernel},
    (∀ i < xs.length, k.uva2ka d (va + i) = .ok (some f) ∧ (va + i) % pgSize = o + i) →
    copyoutBytes d va (xs ++ ys) k = copyoutBytes d (va + xs.length) ys (k.fillFrame f o xs)
  | [], va, o, k, _ => by rw [fillFrame_nil]; rfl
  | x :: xs, va, o, k, h => by
    obtain ⟨hf, ho⟩ := h 0 (Nat.succ_pos _)
    rw [Nat.add_zero] at hf ho
    have hrest := copyoutBytes_append ys (k := k.fillFrame f o [x]) xs (va + 1) (o + 1) fun i hi => by
      have hi := h (i + 1) (Nat.succ_lt_succ hi)
      rwa [show va + (i + 1) = va + 1 + i by omega, show o + (i + 1) = o + 1 + i by omega] at hi
    simp only [cons_append, copyoutBytes, hf, ok_bind, ho, Nat.add_zero, hrest]
    rw [← fillFrame_cons, length_cons, show va + 1 + xs.length = va + (xs.length + 1) by omega]

theorem copyoutBytes_congr : ∀ (bs : List UInt8) (va va' : ℕ) {k : Kernel}, va % 2 ^ 32 = va' % 2 ^ 32 →
    copyoutBytes d va bs k = copyoutBytes d va' bs k
  | [], _, _, _, _ => rfl
  | b :: bs, va, va', k, h => by
    have hv : vpn va = vpn va' := by
      simp only [vpn, pgSize]
      omega
    have ho : va % pgSize = va' % pgSize := by
      simp only [pgSize]
      omega
    rw [copyoutBytes, copyoutBytes, uva2ka_congr hv, ho]
    refine congrArg _ (funext fun r => ?_)
    cases r with
    | none => rfl
    | some f => exact copyoutBytes_congr bs _ _ (by omega)

theorem copyoutFrom_eq : ∀ (n va : ℕ) (bs : List UInt8) {k : Kernel}, bs.length ≤ n →
    copyoutFrom d n va bs k = copyoutBytes d va bs k
  | 0, va, bs, k, hn => by
    rw [length_eq_zero_iff.mp (Nat.le_zero.mp hn)]
    rfl
  | n + 1, va, [], k, hn => rfl
  | n + 1, va, b :: bs, k, hn => by
    have hpage : ∀ i, va % pgSize + i < pgSize → k.uva2ka d (va + i) = k.uva2ka d (pgRoundDown va) :=
      fun i hi => uva2ka_congr (by simp only [vpn, pgRoundDown, pgSize] at *; omega)
    have hfst := hpage 0 (Nat.mod_lt va (by decide))
    rw [Nat.add_zero] at hfst
    rw [copyoutFrom, if_neg (by simp)]
    cases hf : k.uva2ka d (pgRoundDown va) with
    | error e =>
      simp only [copyoutBytes, hfst, hf]
      rfl
    | ok r =>
      cases r with
      | none => simp only [copyoutBytes, hfst, hf, ok_bind]
      | some f =>
        have hoff : va - pgRoundDown va = va % pgSize := by
          simp only [pgRoundDown, pgSize]
          omega
        have hlt : va % pgSize < pgSize := Nat.mod_lt va (by decide)
        set m := min (pgSize - va % pgSize) (b :: bs).length with hm
        have htake : ((b :: bs).take m).length = m := by rw [length_take]; omega
        have hbytes := copyoutBytes_append (d := d) (f := f) ((b :: bs).drop m) ((b :: bs).take m) va
          (va % pgSize) (k := k) fun i hi => by
            refine ⟨(hpage i (by omega)).trans hf, ?_⟩
            simp only [pgSize] at *
            omega
        rw [take_append_drop, htake] at hbytes
        simp only [hf, ok_bind, hoff, hbytes, ← hm]
        rw [copyoutFrom_eq n _ _ (by rw [length_drop]; simp only [length_cons] at *; omega)]
        -- behind the last byte the addresses differ
        by_cases hend : (b :: bs).length ≤ m
        · rw [drop_of_length_le hend, copyoutBytes, copyoutBytes]
        · refine copyoutBytes_congr _ _ _ ?_
          simp only [pgRoundDown, pgSize] at *
          omega

/-- **`copyout` is the loop over the bytes.** -/
theorem copyout_eq (k : Kernel) (d va : ℕ) (bs : List UInt8) : k.copyout d va bs = copyoutBytes d va bs k :=
  copyoutFrom_eq _ _ _ le_rfl

/-! ## What it writes -/

/-- The frame and the place in it of a byte that user mode may access. -/
def userCell (k : Kernel) (d va : ℕ) : Option (ℕ × Fin pgSize) :=
  (k.walkpgdir d va).bind fun e => if e.p && e.u then some (e.addr, pgOff va) else none

/-- **The bytes `bs` have been written at `va`, and nothing else.**  Where the directory maps two bytes of the
range to one place, the later one stays. -/
structure Copied (d va : ℕ) (bs : List UInt8) (k k' : Kernel) : Prop where
  rest : k' = { k with mem := k'.mem }
  beside : ∀ f o, (∀ i < bs.length, k.userCell d (va + i) ≠ some (f, o)) → k'.mem f o = k.mem f o
  bytes : ∀ i < bs.length, ∀ f o, k.userCell d (va + i) = some (f, o) →
    (∀ j, i < j → j < bs.length → k.userCell d (va + j) ≠ some (f, o)) → bs[i]? = some (k'.mem f o)

/-- **What `copyout` should leave**: the bytes are written up to the first one whose page is closed to user
mode, and the result says whether there is one. -/
def CopiedUpTo (d va : ℕ) (bs : List UInt8) (k : Kernel) (r : Bool × Kernel) : Prop :=
  ∃ n ≤ bs.length, (∀ i < n, (k.userCell d (va + i)).isSome) ∧ (n < bs.length → k.userCell d (va + n) = none) ∧
    Copied d va (bs.take n) k r.2 ∧ (r.1 = true ↔ n = bs.length)

/-- **`copyout` is confined to user pages.** -/
def Confined (k : Kernel) (d va : ℕ) (bs : List UInt8) : Prop :=
  Returns (k.copyout d va bs) (CopiedUpTo d va bs k)

/-- The first byte of the range that is closed to user mode has a page table. -/
def Backed (k : Kernel) (d va n : ℕ) : Prop :=
  ∀ i < n, (∀ j < i, (k.userCell d (va + j)).isSome) → (k.walkpgdir d (va + i)).isSome

theorem Copied.nil : Copied d va [] k k := ⟨rfl, fun _ _ _ => rfl, nofun⟩

theorem mem_fillFrame_byte (f' : ℕ) (i : Fin pgSize) : (k.fillFrame f (va % pgSize) [b]).mem f' i
    = if (f', i) = (f, pgOff va) then b else k.mem f' i := by
  simp only [fillFrame, setMem]
  by_cases hf : f' = f
  · subst hf
    by_cases hi : (i : ℕ) = va % pgSize
    · have hoff : i = pgOff va := Fin.ext hi
      subst hoff
      simp [pgOff]
    · have hoff : i ≠ pgOff va := fun h => hi (congrArg Fin.val h)
      simp only [update_self, length_cons, length_nil, Prod.mk.injEq, true_and, if_neg hoff]
      rw [if_neg (by omega)]
  · rw [update_of_ne hf, if_neg (by simp [hf])]

/-- **One byte, then the rest.** -/
theorem Copied.cons (hc : k.userCell d va = some (f, pgOff va))
    (h : Copied d (va + 1) bs (k.fillFrame f (va % pgSize) [b]) k') : Copied d va (b :: bs) k k' where
  rest := h.rest
  beside g i hno := by
    have hfst := hno 0 (Nat.succ_pos _)
    rw [Nat.add_zero, hc] at hfst
    rw [h.beside g i fun j hj => ?_, mem_fillFrame_byte, if_neg fun heq => hfst (by rw [heq])]
    have hj := hno (j + 1) (Nat.succ_lt_succ hj)
    rwa [show va + (j + 1) = va + 1 + j by omega] at hj
  bytes := by
    rintro (_ | n) hn g i hcell hlast
    · rw [Nat.add_zero, hc] at hcell
      rw [h.beside g i fun j hj => ?_, mem_fillFrame_byte, if_pos (Option.some.inj hcell).symm]
      · rfl
      · have hj := hlast (j + 1) (Nat.succ_pos j) (Nat.succ_lt_succ hj)
        rwa [show va + (j + 1) = va + 1 + j by omega] at hj
    · refine h.bytes n (Nat.lt_of_succ_lt_succ hn) g i ?_ fun j hnj hj => ?_
      · rwa [show va + (n + 1) = va + 1 + n by omega] at hcell
      · have hj := hlast (j + 1) (Nat.succ_lt_succ hnj) (Nat.succ_lt_succ hj)
        rwa [show va + (j + 1) = va + 1 + j by omega] at hj

theorem CopiedUpTo.cons {r : Bool × Kernel} (hc : k.userCell d va = some (f, pgOff va))
    (h : CopiedUpTo d (va + 1) bs (k.fillFrame f (va % pgSize) [b]) r) : CopiedUpTo d va (b :: bs) k r := by
  obtain ⟨n, hn, hopen, hshut, hcopied, hr⟩ := h
  refine ⟨n + 1, Nat.succ_le_succ hn, ?_, fun hlt => ?_, hcopied.cons hc, hr.trans Nat.succ_inj.symm⟩
  · rintro (_ | i) hi
    · rw [Nat.add_zero, hc]
      rfl
    · rw [show va + (i + 1) = va + 1 + i by omega]
      exact hopen i (Nat.lt_of_succ_lt_succ hi)
  · rw [show va + (n + 1) = va + 1 + n by omega]
    exact hshut (Nat.lt_of_succ_lt_succ hlt)

theorem backed_succ {n : ℕ} : k.Backed d va (n + 1) ↔
    (k.walkpgdir d va).isSome ∧ ((k.userCell d va).isSome → k.Backed d (va + 1) n) := by
  have hshift : ∀ i, va + 1 + i = va + (i + 1) := fun i => by omega
  constructor
  · refine fun h => ⟨h 0 (Nat.succ_pos n) nofun, fun h0 i hi hopen => ?_⟩
    rw [hshift]
    refine h (i + 1) (Nat.succ_lt_succ hi) ?_
    rintro (_ | j) hj
    · exact h0
    · rw [← hshift]
      exact hopen j (Nat.lt_of_succ_lt_succ hj)
  · rintro ⟨h0, h⟩ (_ | i) hi hopen
    · exact h0
    · rw [← hshift]
      refine h (hopen 0 (Nat.succ_pos i)) i (Nat.lt_of_succ_lt_succ hi) fun j hj => ?_
      rw [hshift]
      exact hopen (j + 1) (Nat.succ_lt_succ hj)

/-- **The loop over the bytes** stops where user mode is shut out, or traps where it finds no table. -/
theorem copyoutBytes_cases : ∀ (bs : List UInt8) (va : ℕ) {k : Kernel},
    k.Backed d va bs.length ∧ Returns (copyoutBytes d va bs k) (CopiedUpTo d va bs k) ∨
      ¬ k.Backed d va bs.length ∧ copyoutBytes d va bs k = .error "trap"
  | [], va, k => .inl ⟨nofun, returns_ok.mpr ⟨0, le_rfl, nofun, nofun, .nil, by simp⟩⟩
  | b :: bs, va, k => by
    rw [length_cons, backed_succ, copyoutBytes, uva2ka]
    cases hw : k.walkpgdir d va with
    | none => exact .inr ⟨fun h => Bool.noConfusion h.1, rfl⟩
    | some e =>
      cases hpu : e.p && e.u with
      | false =>
        have hshut : k.userCell d va = none := by rw [userCell, hw, Option.bind_some, if_neg (by simp [hpu])]
        refine .inl ⟨⟨rfl, fun h => ?_⟩, ?_⟩
        · rw [hshut] at h
          cases h
        · simp only [ok_bind, hpu]
          exact returns_ok.mpr ⟨0, Nat.zero_le _, nofun, fun _ => hshut, .nil, by simp⟩
      | true =>
        have hc : k.userCell d va = some (e.addr, pgOff va) := by
          rw [userCell, hw, Option.bind_some, if_pos hpu]
        simp only [ok_bind, hpu, if_true]
        rcases copyoutBytes_cases bs (va + 1) (k := k.fillFrame e.addr (va % pgSize) [b]) with
          ⟨hb, h⟩ | ⟨hb, h⟩
        · exact .inl ⟨⟨rfl, fun _ => hb⟩, h.mono fun r _ hr => hr.cons hc⟩
        · exact .inr ⟨fun hno => hb (hno.2 (by rw [hc]; rfl)), h⟩

/-- **`copyout` is confined to user pages exactly where it finds its tables**: `uva2ka` does not test what
`walkpgdir` returns. -/
theorem copyout_confined_iff (k : Kernel) (d va : ℕ) (bs : List UInt8) :
    k.Confined d va bs ↔ k.Backed d va bs.length := by
  rw [Confined, copyout_eq]
  rcases copyoutBytes_cases bs va (d := d) (k := k) with ⟨hb, h⟩ | ⟨hb, h⟩
  · exact iff_of_true h hb
  · refine iff_of_false (fun ⟨r, hr, _⟩ => ?_) hb
    rw [h] at hr
    cases hr

/-- **The entry of a missing table is read**, here for the page behind the last one of a directory. -/
theorem copyout_no_table :
    sparse.copyout 1000 0x800000 [0] = .error "trap" ∧ ¬ sparse.Confined 1000 0x800000 [0] := by
  have htrap : sparse.copyout 1000 0x800000 [0] = .error "trap" := by rfl
  refine ⟨htrap, fun ⟨r, hr, _⟩ => ?_⟩
  rw [htrap] at hr
  cases hr

end Kernel

end Xv6
