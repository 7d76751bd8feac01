import Xv6.Fs.Dirent

/-!
# Fs/Path — the components of a path

A path is the list of its characters up to the NUL.  Its `components` are what stands between the slashes,
without what is empty, cut to `DIRSIZ`.  One call of `skipelem` takes the first of them off
(`components_skipelem`), so iterating it gives them all (`elems_eq`).
-/

namespace Xv6

open Function List

open CString

/-- **The components of a path**: the nonempty pieces between slashes, cut to `DIRSIZ`. -/
def components (path : List Char) : List (List Char) :=
  ((path.splitOn '/').filter (· ≠ [])).map (List.take dirSiz)

variable {path rest elem : List Char} {name name' : ℕ → Char}

theorem components_nil : components [] = [] := rfl

theorem components_slash (path : List Char) : components ('/' :: path) = components path := by
  rw [components, List.splitOn, splitOnP_cons_eq_if_modifyHead,
    if_pos (beq_self_eq_true '/')]
  rfl

/-- Leading slashes do not matter. -/
theorem components_dropWhile : ∀ path : List Char, components (path.dropWhile isSlash) = components path
  | [] => rfl
  | c :: path => by
    rw [dropWhile_cons]
    split
    · rename_i hc
      obtain rfl : c = '/' := beq_iff_eq.mp hc
      rw [components_slash, components_dropWhile path]
    · rfl

/-- **The first component.** -/
theorem components_append (helem : ∀ c ∈ elem, isSlash c = false) (hne : elem ≠ [])
    (hrest : ∀ c ∈ rest.head?, isSlash c = true) :
    components (elem ++ rest) = elem.take dirSiz :: components rest := by
  cases rest with
  | nil =>
    have hsplit : elem.splitOn '/' = [elem] := splitOnP_eq_singleton helem
    rw [append_nil, components, hsplit, components_nil, filter_cons_of_pos (by simpa using hne)]
    rfl
  | cons c rest =>
    obtain rfl : c = '/' := beq_iff_eq.mp (hrest c rfl)
    have hsplit : (elem ++ '/' :: rest).splitOn '/' = elem :: rest.splitOn '/' :=
      splitOnP_append_cons_of_forall_mem helem '/' rfl rest
    rw [components_slash, components, hsplit, filter_cons_of_pos (by simpa using hne)]
    rfl

theorem head_dropWhile {p : Char → Bool} {l : List Char} {c : Char} (h : c ∈ (l.dropWhile p).head?) :
    p c = false := by
  have hne : l.dropWhile p ≠ [] := fun he => by rw [he] at h; cases h
  have := head_dropWhile_not p hne
  rw [List.head?_eq_some_head hne] at h
  cases h
  simpa using this

/-- **The name that `skipelem` copies** is read back, cut to `DIRSIZ`. -/
theorem nameKey_elem (hnul : ∀ c ∈ elem, c ≠ nul) (name : ℕ → Char) :
    nameKey (if dirSiz ≤ elem.length then copy name 0 (elem.take dirSiz)
      else update (copy name 0 elem) elem.length nul) = elem.take dirSiz := by
  split
  · rename_i hlen
    refine text_copy _ (fun c hc => hnul c (mem_of_mem_take hc)) ?_ fun hlt => ?_
    · rw [length_take]
      exact min_le_left _ _
    · rw [length_take] at hlt
      omega
  · rename_i hlen
    have hcopy : update (copy name 0 elem) elem.length nul
        = copy (update name elem.length nul) 0 elem := by
      have h1 := copy_copy elem [nul] 0 (m := name)
      have h2 := copy_concat elem nul 0 (m := name)
      rw [Nat.zero_add] at h1 h2
      exact h1.trans h2
    rw [hcopy, nameKey, text_copy elem hnul (by omega) fun _ => by rw [Nat.zero_add, update_self],
      take_of_length_le (by omega)]

/-- **`skipelem` takes the first component off.** -/
theorem components_skipelem (hnul : ∀ c ∈ path, c ≠ nul) (h : skipelem path name = some (rest, name')) :
    components path = nameKey name' :: components rest ∧ rest.length < path.length ∧
      (∀ c ∈ rest, c ≠ nul) ∧ rest.dropWhile isSlash = rest := by
  rw [skipelem] at h
  split at h
  · cases h
  · rename_i c l hpath
    have hc : isSlash c = false := head_dropWhile (by rw [hpath]; rfl)
    have hmem : ∀ x ∈ c :: l, x ∈ path := fun x hx => dropWhile_sublist isSlash |>.mem (hpath ▸ hx)
    set elem := (c :: l).takeWhile fun c => !isSlash c with helem
    set tail := (c :: l).dropWhile fun c => !isSlash c with htail
    have hsplit : c :: l = elem ++ tail := takeWhile_append_dropWhile.symm
    have hne : elem ≠ [] := by
      rw [helem, takeWhile_cons, if_pos (by simp [hc])]
      exact cons_ne_nil _ _
    have hslash : ∀ x ∈ elem, isSlash x = false := fun x hx => by
      simpa using mem_takeWhile_imp hx
    simp only at h
    cases h
    refine ⟨?_, ?_, fun x hx => ?_, ?_⟩
    · rw [← components_dropWhile path, hpath, hsplit, components_append hslash hne fun x hx => by
        simpa using head_dropWhile hx, components_dropWhile,
        nameKey_elem fun x hx => hnul x (hmem x (hsplit ▸ mem_append_left _ hx))]
    · have h1 := (dropWhile_sublist isSlash (l := tail)).length_le
      have h2 := (dropWhile_sublist isSlash (l := path)).length_le
      have h3 := congrArg List.length hsplit
      rw [hpath] at h2
      rw [length_append] at h3
      have := length_pos_iff.mpr hne
      omega
    · exact hnul x (hmem x (hsplit ▸ mem_append_right _ (dropWhile_sublist isSlash |>.mem hx)))
    · exact dropWhile_idempotent _ _

/-- `skipelem` returns 0 for a path without components. -/
theorem components_eq_nil (h : skipelem path name = none) : components path = [] := by
  rw [skipelem] at h
  split at h
  · rename_i hpath
    rw [← components_dropWhile, hpath, components_nil]
  · cases h

/-- What is left of a path is empty exactly if it has no components. -/
theorem rest_eq_nil_iff (hnul : ∀ c ∈ rest, c ≠ nul) (hrest : rest.dropWhile isSlash = rest) :
    rest = [] ↔ components rest = [] := by
  constructor
  · rintro rfl
    rfl
  · intro hcomp
    cases hskip : skipelem rest (fun _ => nul) with
    | some r =>
      rw [(components_skipelem hnul hskip).1] at hcomp
      cases hcomp
    | none =>
      rw [skipelem, hrest] at hskip
      split at hskip
      · rfl
      · cases hskip

end Xv6
