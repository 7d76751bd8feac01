import Xv6.Fs.Mkfs
import Xv6.Lib.CString

/-!
# Fs/SwapName — the names of swap files

`createSwapFile` and `removeSwapFile` build the path of a swap file in an array of `DIGITS` bytes on the
stack: `itoa` counts the digits of the pid, writes a NUL behind the place of the last one and then the
digits from the last to the first.  `skipelem` cuts the last component of the path to `DIRSIZ` bytes, and
`namecmp` compares no more of it.

Three limits meet here.  The digits are right for every pid; but the path has room for seven of them, and
the name for nine.  So the array overflows from pid `10 ^ 7` on, and from `10 ^ 9` on ten pids in a row have
one swap file (`namePid`).
-/

namespace Xv6

open Function List

open CString

/-- `DIGITS`, the size of the array `path`. -/
def digitsSize : ℕ := 14

/-- The digits that `itoa` picks from. -/
def digit (i : ℕ) : Char := "0123456789".toList.getD i nul

/-- The first loop of `itoa`: where the representation of `shifter` ends that begins at `p`. -/
def digitsEnd (shifter p : ℕ) : ℕ :=
  if shifter / 10 = 0 then p + 1 else digitsEnd (shifter / 10) (p + 1)
termination_by shifter

/-- The second loop of `itoa`: the digits of `i` from `p` back. -/
def putDigits (i p : ℕ) (m : ℕ → Char) : ℕ → Char :=
  if i / 10 = 0 then Function.update m (p - 1) (digit (i % 10))
  else putDigits (i / 10) (p - 1) (Function.update m (p - 1) (digit (i % 10)))
termination_by i

/-- `itoa`, for the string that begins at offset `b` of the memory `m`. -/
def itoa (i : ℤ) (b : ℕ) (m : ℕ → Char) : ℕ → Char :=
  let (p, m) := if i < 0 then (b + 1, Function.update m b '-') else (b, m)
  let e := digitsEnd i.natAbs p
  putDigits i.natAbs e (Function.update m e nul)

/-- The memory from `path` on after its first two statements in `createSwapFile` and `removeSwapFile`. -/
def swapPath (pid : ℕ) (m : ℕ → Char) : ℕ → Char := itoa pid 6 (copy m 0 "/.swap".toList)

/-- The characters `skipelem` steps over. -/
def isSlash (c : Char) : Bool := c == '/'

/-- `skipelem` on a path: what follows the first component, and the array `name`, which held `name`
before. -/
def skipelem (path : List Char) (name : ℕ → Char) : Option (List Char × (ℕ → Char)) :=
  match path.dropWhile isSlash with
  | [] => none
  | c :: s =>
    let elem := (c :: s).takeWhile fun c => !isSlash c
    let rest := (c :: s).dropWhile fun c => !isSlash c
    some (rest.dropWhile isSlash,
      if dirSiz ≤ elem.length then copy name 0 (elem.take dirSiz)
      else Function.update (copy name 0 elem) elem.length nul)

/-- `namecmp`. -/
def namecmp (s t : ℕ → Char) : ℤ := strncmp s t dirSiz 0

/-! ## The digits of a pid -/

theorem digit_eq {i : ℕ} (h : i < 10) : digit i = i.digitChar :=
  (by decide : ∀ i : Fin 10, digit i = Nat.digitChar i) ⟨i, h⟩

/-- **The first loop counts the digits.** -/
theorem digitsEnd_eq (i p : ℕ) : digitsEnd i p = p + (Nat.toDigits 10 i).length := by
  induction i using Nat.strongRecOn generalizing p with
  | ind i ih =>
    rw [digitsEnd, Nat.toDigits_eq_if (by decide)]
    by_cases hlt : i < 10
    · rw [if_pos (Nat.div_eq_of_lt hlt), if_pos hlt, length_singleton]
    · rw [if_neg (by omega), if_neg hlt, ih (i / 10) (by omega), length_append, length_singleton]
      omega

/-- **The second loop writes the digits**, from the last to the first. -/
theorem putDigits_eq (i p : ℕ) (m : ℕ → Char) :
    putDigits i (p + (Nat.toDigits 10 i).length) m = copy m p (Nat.toDigits 10 i) := by
  induction i using Nat.strongRecOn generalizing m with
  | ind i ih =>
    rw [putDigits, digit_eq (Nat.mod_lt i (by decide)), Nat.toDigits_eq_if (by decide)]
    by_cases hlt : i < 10
    · rw [if_pos (Nat.div_eq_of_lt hlt), if_pos hlt, Nat.mod_eq_of_lt hlt]
      rfl
    · have hback : p + (Nat.toDigits 10 (i / 10) ++ [(i % 10).digitChar]).length - 1
          = p + (Nat.toDigits 10 (i / 10)).length := by
        rw [length_append, length_singleton]
        omega
      rw [if_neg (by omega), if_neg hlt, hback, ih (i / 10) (by omega), copy_concat]

/-- **`itoa` writes the decimal digits and a NUL**, and nothing else. -/
theorem itoa_eq (i b : ℕ) (m : ℕ → Char) : itoa i b m = copy m b (Nat.toDigits 10 i ++ [nul]) := by
  rw [itoa, if_neg (by omega)]
  simp only [Int.natAbs_natCast]
  rw [digitsEnd_eq, putDigits_eq, copy_concat]

/-- The path is one string. -/
theorem swapPath_eq (pid : ℕ) (m : ℕ → Char) :
    swapPath pid m = copy m 0 ("/.swap".toList ++ Nat.toDigits 10 pid ++ [nul]) := by
  rw [swapPath, itoa_eq, append_assoc]
  exact copy_copy "/.swap".toList _ 0

/-- **The path stays in its array exactly below pid `10 ^ 7`.** -/
theorem swapPath_fits_iff (pid : ℕ) :
    (∀ m o, digitsSize ≤ o → swapPath pid m o = m o) ↔ pid < 10 ^ 7 := by
  have hsize : ("/.swap".toList ++ Nat.toDigits 10 pid).length = 6 + (Nat.toDigits 10 pid).length := by
    rw [length_append]
    rfl
  rw [← Nat.length_toDigits_le_iff (b := 10) (n := pid) (k := 7) (by decide) (by decide)]
  constructor
  · intro h
    by_contra hlong
    -- the NUL stands behind the array
    have hx := h (fun _ => 'x') (0 + ("/.swap".toList ++ Nat.toDigits 10 pid).length) (by
      rw [hsize, digitsSize]
      omega)
    rw [swapPath_eq, copy_length] at hx
    exact absurd hx (by decide)
  · intro hlen m o ho
    rw [swapPath_eq]
    refine copy_of_le _ (le_trans ?_ ho)
    rw [length_append, hsize, length_singleton, digitsSize]
    omega

/-! ## Names of pids -/

theorem digits_char {pid : ℕ} {c : Char} (h : c ∈ Nat.toDigits 10 pid) : c ≠ nul ∧ isSlash c = false := by
  have hdig := Nat.isDigit_of_mem_toDigits (by decide) (by decide) h
  refine ⟨fun hc => ?_, ?_⟩
  · rw [hc] at hdig
    exact absurd hdig (by decide)
  · refine beq_eq_false_iff_ne.mpr fun hc => ?_
    rw [hc] at hdig
    exact absurd hdig (by decide)

/-- The characters of the last component of the path. -/
def swapElem (pid : ℕ) : List Char := ".swap".toList ++ Nat.toDigits 10 pid

theorem swapElem_eq (pid : ℕ) : swapElem pid = ".swap".toList ++ Nat.toDigits 10 pid := rfl

theorem swapElem_char {pid : ℕ} {c : Char} (h : c ∈ swapElem pid) : c ≠ nul ∧ isSlash c = false := by
  rcases mem_append.mp h with h | h
  · exact (by simp [nul, isSlash] : ∀ c ∈ ".swap".toList, c ≠ nul ∧ isSlash c = false) c h
  · exact digits_char h

/-- The path is read as it was written. -/
theorem text_swapPath {pid n : ℕ} (m : ℕ → Char) (hn : (swapElem pid).length + 1 < n) :
    text (swapPath pid m) n 0 = '/' :: swapElem pid := by
  have hpath : "/.swap".toList ++ Nat.toDigits 10 pid = '/' :: swapElem pid := rfl
  rw [swapPath_eq, hpath, copy_concat]
  refine text_copy _ (fun c hc => ?_) ?_ fun _ => update_self ..
  · rcases mem_cons.mp hc with rfl | hc
    · decide
    · exact (swapElem_char hc).1
  · rw [length_cons]
    omega

/-- **`skipelem` leaves the first `DIRSIZ` characters of a last component.** -/
theorem skipelem_last {path elem : List Char} (hpath : path.dropWhile isSlash = elem) (hne : elem ≠ [])
    (hchar : ∀ c ∈ elem, c ≠ nul ∧ isSlash c = false) (name : ℕ → Char) :
    ∃ name', skipelem path name = some ([], name') ∧ text name' dirSiz 0 = elem.take dirSiz := by
  have htake : elem.takeWhile (fun c => !isSlash c) = elem :=
    takeWhile_eq_self_iff.mpr fun c hc => by simp [(hchar c hc).2]
  have hdrop : elem.dropWhile (fun c => !isSlash c) = [] :=
    dropWhile_eq_nil_iff.mpr fun c hc => by simp [(hchar c hc).2]
  obtain ⟨c, s, rfl⟩ := exists_cons_of_ne_nil hne
  have hskip : skipelem path name = some ([], if dirSiz ≤ (c :: s).length then
      copy name 0 ((c :: s).take dirSiz) else update (copy name 0 (c :: s)) (c :: s).length nul) := by
    rw [skipelem, hpath]
    simp only [htake, hdrop, dropWhile_nil]
  refine ⟨_, hskip, ?_⟩
  split
  · rename_i hle
    have hlen : ((c :: s).take dirSiz).length = dirSiz := length_take_of_le hle
    exact text_copy _ (fun x hx => (hchar x (mem_of_mem_take hx)).1) hlen.le
      fun hlt => absurd hlen hlt.ne
  · rename_i hlt
    rw [take_of_length_le (by omega)]
    have hend : update (copy name 0 (c :: s)) (c :: s).length nul
        = copy (update name (c :: s).length nul) 0 (c :: s) := by
      have h1 := copy_copy (m := name) (c :: s) [nul] 0
      have h2 := copy_concat (m := name) (c :: s) nul 0
      rw [Nat.zero_add] at h1 h2
      exact h1.trans h2
    rw [hend]
    refine text_copy _ (fun x hx => (hchar x hx).1) (by omega) fun _ => ?_
    rw [Nat.zero_add, update_self]

/-- The pid that a name shows: nine digits. -/
def namePid (pid : ℕ) : ℕ := if pid < 10 ^ 9 then pid else pid / 10

theorem take_toDigits {pid : ℕ} (h : pid < 10 ^ 10) :
    (Nat.toDigits 10 pid).take 9 = Nat.toDigits 10 (namePid pid) := by
  unfold namePid
  split
  · rename_i hlt
    exact take_of_length_le ((Nat.length_toDigits_le_iff (by decide) (by decide)).mpr hlt)
  · rename_i hge
    have hle : (Nat.toDigits 10 (pid / 10)).length ≤ 9 :=
      (Nat.length_toDigits_le_iff (by decide) (by decide)).mpr (by omega)
    have hlt : ¬ (Nat.toDigits 10 (pid / 10)).length ≤ 8 := fun h8 => by
      have := (Nat.length_toDigits_le_iff (b := 10) (by decide) (by decide)).mp h8
      omega
    rw [Nat.toDigits_eq_if (by decide), if_neg (by omega)]
    exact take_left' (by omega)

theorem toDigits_injective {a b : ℕ} (h : Nat.toDigits 10 a = Nat.toDigits 10 b) : a = b := by
  have := congrArg (Nat.ofDigitChars 10 · 0) h
  simpa only [Nat.ofDigitChars_toDigits (b := 10) (by decide) (by decide)] using this

/-- **The name of a swap file shows nine digits of the pid.** -/
theorem take_swapElem {pid : ℕ} (h : pid < 10 ^ 10) :
    (swapElem pid).take dirSiz = ".swap".toList ++ Nat.toDigits 10 (namePid pid) := by
  have hsize : dirSiz = ".swap".toList.length + 9 := by decide
  rw [swapElem_eq, hsize, take_length_add_append, take_toDigits h]

/-- What `nameiparent` leaves in `name`: the path is read to its end. -/
theorem exists_swapName {pid : ℕ} (h : pid < 10 ^ 10) (m name : ℕ → Char) :
    ∃ s, skipelem (text (swapPath pid m) 18 0) name = some ([], s) ∧
      text s dirSiz 0 = ".swap".toList ++ Nat.toDigits 10 (namePid pid) := by
  have hlen : (swapElem pid).length ≤ 15 := by
    have := (Nat.length_toDigits_le_iff (b := 10) (k := 10) (by decide) (by decide)).mpr h
    rw [swapElem_eq, length_append]
    exact Nat.add_le_add_left this 5
  have hdrop : ('/' :: swapElem pid).dropWhile isSlash = swapElem pid := rfl
  rw [text_swapPath m (by omega), ← take_swapElem h]
  exact skipelem_last hdrop (by simp [swapElem_eq]) (fun c hc => swapElem_char hc) name

/-- **The names of swap files**: the digits are right; the path fits its array below pid `10 ^ 7`; and two
pids have different names if they differ within nine digits. -/
theorem swapFile_names {pid pid' : ℕ} (h : pid < 2 ^ 31) (h' : pid' < 2 ^ 31) :
    (∀ b m, itoa pid b m = copy m b (Nat.toDigits 10 pid ++ [nul])) ∧
    ((∀ m o, digitsSize ≤ o → swapPath pid m o = m o) ↔ pid < 10 ^ 7) ∧
    ∀ m m' name name', ∃ s s', skipelem (text (swapPath pid m) 18 0) name = some ([], s) ∧
      skipelem (text (swapPath pid' m') 18 0) name' = some ([], s') ∧
      (namecmp s s' = 0 ↔ namePid pid = namePid pid') := by
  refine ⟨fun b m => itoa_eq pid b m, swapPath_fits_iff pid, fun m m' name name' => ?_⟩
  obtain ⟨s, hs, ht⟩ := exists_swapName (h.trans (by decide)) m name
  obtain ⟨s', hs', ht'⟩ := exists_swapName (h'.trans (by decide)) m' name'
  refine ⟨s, s', hs, hs', ?_⟩
  rw [namecmp, strncmp_eq_zero_iff, ht, ht', List.append_cancel_left_eq]
  exact ⟨toDigits_injective, fun heq => by rw [heq]⟩

/-- Processes 3 and 4 have paths that fit, and names of their own. -/
theorem swapFile_names_of_small : (∀ m o, digitsSize ≤ o → swapPath 3 m o = m o) ∧
    ∃ s s', skipelem (text (swapPath 3 fun _ => nul) 18 0) (fun _ => nul) = some ([], s) ∧
      skipelem (text (swapPath 4 fun _ => nul) 18 0) (fun _ => nul) = some ([], s') ∧ namecmp s s' ≠ 0 := by
  obtain ⟨-, hfits, hnames⟩ := swapFile_names (show 3 < 2 ^ 31 by decide) (show 4 < 2 ^ 31 by decide)
  obtain ⟨s, s', hs, hs', hcmp⟩ := hnames (fun _ => nul) (fun _ => nul) (fun _ => nul) fun _ => nul
  exact ⟨hfits.mpr (by decide), s, s', hs, hs', fun h => absurd (hcmp.mp h) (by decide)⟩

/-- The path of process 10000000 runs over its array, and processes 1000000000 and 1000000001 have one swap
file. -/
theorem swapFile_names_clash : swapPath 10000000 (fun _ => 'x') digitsSize = nul ∧
    ∃ s s', skipelem (text (swapPath 1000000000 fun _ => nul) 18 0) (fun _ => nul) = some ([], s) ∧
      skipelem (text (swapPath 1000000001 fun _ => nul) 18 0) (fun _ => nul) = some ([], s') ∧
      namecmp s s' = 0 := by
  refine ⟨(congrFun (swapPath_eq ..) _).trans (by decide +kernel), ?_⟩
  obtain ⟨s, hs, ht⟩ := exists_swapName (show 1000000000 < 10 ^ 10 by decide) (fun _ => nul) fun _ => nul
  obtain ⟨s', hs', ht'⟩ := exists_swapName (show 1000000001 < 10 ^ 10 by decide) (fun _ => nul) fun _ => nul
  have hsame : namePid 1000000000 = namePid 1000000001 := by decide
  rw [hsame] at ht
  exact ⟨s, s', hs, hs', (strncmp_eq_zero_iff ..).mpr (ht.trans ht'.symm)⟩

end Xv6
