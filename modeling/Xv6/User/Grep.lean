import Xv6.Lib.CString
import Xv6.User.Regex

/-!
# User/Grep — the reading loop of `grep.c`

`grep` reads into a buffer behind what it has kept, puts a NUL behind the bytes, deals with the lines that end in
the buffer, and moves the rest to the front.  A stream is the list of the results of its reads.

The rest is kept only if a line has ended in the buffer: otherwise `p == buf`, and `m = 0` forgets all there is.
So the output is right, whatever the pattern, exactly if no read without a newline comes before one with a
newline (`grep_right_iff`).
-/

namespace Xv6

open Function List

namespace Grep

open CString

/-! ## The code -/

/-- `sizeof(buf)`. -/
def bufSize : ℕ := 1024

/-- `strchr`; the first number bounds the characters looked at. -/
def strchr (buf : ℕ → Char) (c : Char) : ℕ → ℕ → Option ℕ
  | 0, _ => none
  | n + 1, s => if buf s = nul then none else if buf s = c then some s else strchr buf c n (s + 1)

/-- `memmove` of `ulib.c`: from the front on. -/
def memmove : ℕ → (ℕ → Char) → ℕ → ℕ → ℕ → Char
  | 0, buf, _, _ => buf
  | n + 1, buf, dst, src => memmove n (Function.update buf dst (buf src)) (dst + 1) (src + 1)

/-- The characters that `write(1, p, n)` sends. -/
def slice (buf : ℕ → Char) (p n : ℕ) : List Char := (List.range n).map fun i => buf (p + i)

/-- The loop over the lines, from `p` on: the buffer, the new `p` and the output. -/
def scan (pattern : List Char) : ℕ → (ℕ → Char) → ℕ → List Char → (ℕ → Char) × ℕ × List Char
  | 0, buf, p, out => (buf, p, out)
  | n + 1, buf, p, out =>
    match strchr buf '\n' bufSize p with
    | none => (buf, p, out)
    | some q =>
      if matchText pattern (text (Function.update buf q nul) bufSize p) then
        scan pattern n (Function.update buf q '\n') (q + 1)
          (out ++ slice (Function.update buf q '\n') p (q + 1 - p))
      else scan pattern n (Function.update buf q nul) (q + 1) out

/-- The buffer, `m`, and what has been written. -/
structure State where
  buf : ℕ → Char
  m : ℕ
  out : List Char

/-- A turn of the loop: `read` has returned the bytes `chunk`. -/
def turn (pattern : List Char) (s : State) (chunk : List Char) : State :=
  let m := s.m + chunk.length
  let (buf, p, out) := scan pattern bufSize (Function.update (copy s.buf s.m chunk) m nul) 0 s.out
  let m := if p = 0 then 0 else m
  if 0 < m then ⟨memmove (m - p) buf 0 p, m - p, out⟩ else ⟨buf, m, out⟩

/-- What `grep` writes for the results of its reads.  The buffer holds what the last file has left in it. -/
def grep (buf : ℕ → Char) (pattern : List Char) (chunks : List (List Char)) : List Char :=
  (chunks.foldl (turn pattern) ⟨buf, 0, []⟩).out

/-- Each read returns something, and at most what is asked for. -/
def Reads (pattern : List Char) : State → List (List Char) → Prop
  | _, [] => True
  | s, c :: cs => c ≠ [] ∧ c.length ≤ bufSize - s.m - 1 ∧ Reads pattern (turn pattern s c) cs

/-! ## Lines -/

/-- The lines of a stream that end in a newline, and what is left. -/
def cut : List Char → List (List Char) × List Char
  | [] => ([], [])
  | c :: s =>
    if c = '\n' then ([] :: (cut s).1, (cut s).2)
    else match (cut s).1 with
      | [] => ([], c :: (cut s).2)
      | l :: ls => ((c :: l) :: ls, (cut s).2)

/-- The lines that match, each with its newline. -/
def select (pattern : List Char) (lines : List (List Char)) : List Char :=
  (lines.filter (matchText pattern)).flatMap (· ++ ['\n'])

/-- **What `grep` should write**: the lines of the stream that match, in order. -/
def matching (pattern stream : List Char) : List Char := select pattern (cut stream).1

variable {pattern s t l : List Char} {buf buf' : ℕ → Char} {p n : ℕ} {out : List Char} {c : Char}

theorem cut_of_notMem : ∀ {s : List Char}, '\n' ∉ s → cut s = ([], s)
  | [], _ => rfl
  | c :: s, h => by
    rw [mem_cons, not_or] at h
    rw [cut, if_neg (Ne.symm h.1), cut_of_notMem h.2]

theorem cut_line : ∀ {l : List Char}, '\n' ∉ l → ∀ s, cut (l ++ '\n' :: s) = (l :: (cut s).1, (cut s).2)
  | [], _, s => by rw [nil_append, cut, if_pos rfl]
  | c :: l, h, s => by
    rw [mem_cons, not_or] at h
    rw [cons_append, cut, if_neg (Ne.symm h.1), cut_line h.2]

/-- **Induction over the lines of a stream.** -/
theorem line_induction {P : List Char → Prop} (hrest : ∀ s, '\n' ∉ s → P s)
    (hline : ∀ l s, '\n' ∉ l → P s → P (l ++ '\n' :: s)) (s : List Char) : P s := by
  induction hn : s.length using Nat.strong_induction_on generalizing s with
  | _ n ih =>
    subst hn
    by_cases hs : '\n' ∈ s
    · obtain ⟨l, t, rfl, hl⟩ := eq_append_cons_of_mem hs
      exact hline l t hl (ih t.length (by simp; omega) t rfl)
    · exact hrest s hs

/-- The lines of two streams, one behind the other. -/
theorem cut_append (s t : List Char) :
    cut (s ++ t) = ((cut s).1 ++ (cut ((cut s).2 ++ t)).1, (cut ((cut s).2 ++ t)).2) := by
  induction s using line_induction with
  | hrest s hs => rw [cut_of_notMem hs]; rfl
  | hline l s hl ih =>
    rw [append_assoc, cons_append, cut_line hl, cut_line hl, ih]
    rfl

/-- What is left has no newline. -/
theorem notMem_cut_snd (s : List Char) : '\n' ∉ (cut s).2 := by
  induction s using line_induction with
  | hrest s hs => rwa [cut_of_notMem hs]
  | hline l s hl ih => rwa [cut_line hl]

/-- What is left is the end of the stream. -/
theorem cut_snd_suffix (s : List Char) : (cut s).2 <:+ s := by
  induction s using line_induction with
  | hrest s hs => rw [cut_of_notMem hs]
  | hline l s hl ih =>
    rw [cut_line hl]
    exact ih.trans ⟨l ++ ['\n'], by simp⟩

theorem select_cons (l : List Char) (ls : List (List Char)) :
    select pattern (l :: ls) = (if matchText pattern l then l ++ ['\n'] else []) ++ select pattern ls := by
  rw [select, select, filter_cons]
  split <;> rfl

theorem select_append (ls ls' : List (List Char)) :
    select pattern (ls ++ ls') = select pattern ls ++ select pattern ls' := by
  rw [select, filter_append, flatMap_append]
  rfl

/-! ## Strings in the buffer -/

/-- The characters `s` stand in the buffer from `p` on. -/
def Chars (buf : ℕ → Char) : ℕ → List Char → Prop
  | _, [] => True
  | p, c :: s => buf p = c ∧ Chars buf (p + 1) s

/-- A string without a NUL, and the NUL behind it. -/
structure Str (buf : ℕ → Char) (p : ℕ) (s : List Char) : Prop where
  chars : Chars buf p s
  text : ∀ c ∈ s, c ≠ nul
  stop : buf (p + s.length) = nul

theorem Chars.congr : ∀ {s : List Char} {p : ℕ}, Chars buf p s →
    (∀ i, p ≤ i → i < p + s.length → buf' i = buf i) → Chars buf' p s
  | [], _, _, _ => trivial
  | c :: s, p, h, heq => by
    rw [length_cons] at heq
    exact ⟨(heq p le_rfl (by omega)).trans h.1, h.2.congr fun i hi hlt => heq i (by omega) (by omega)⟩

theorem chars_append : ∀ {s : List Char} {p : ℕ},
    Chars buf p (s ++ t) ↔ Chars buf p s ∧ Chars buf (p + s.length) t
  | [], p => by simp [Chars]
  | c :: s, p => by
    rw [cons_append, Chars, Chars, chars_append, and_assoc, length_cons,
      show p + 1 + s.length = p + (s.length + 1) by omega]

theorem chars_copy : ∀ (s : List Char) (p : ℕ), Chars (copy buf p s) p s
  | [], _ => trivial
  | c :: s, p =>
      ⟨update_self .., (chars_copy s (p + 1)).congr fun i hi _ => update_of_ne (by omega) ..⟩

theorem slice_eq : ∀ {s : List Char} {p : ℕ}, Chars buf p s → slice buf p s.length = s
  | [], _, _ => rfl
  | c :: s, p, h => by
    rw [slice, length_cons, range_succ_eq_map, map_cons, map_map]
    refine congrArg₂ _ h.1 (Eq.trans (map_congr_left fun i _ => ?_) (slice_eq h.2))
    exact congrArg buf (by simp only [Nat.succ_eq_add_one]; omega)

theorem Str.tail (h : Str buf p (c :: s)) : Str buf (p + 1) s :=
  ⟨h.chars.2, fun x hx => h.text x (mem_cons_of_mem _ hx), by
    rw [← h.stop, length_cons, show p + 1 + s.length = p + (s.length + 1) by omega]⟩

theorem Str.congr (h : Str buf p s) (heq : ∀ i, p ≤ i → buf' i = buf i) : Str buf' p s :=
  ⟨h.chars.congr fun i hi _ => heq i hi, h.text, (heq _ (Nat.le_add_right ..)).trans h.stop⟩

theorem text_eq : ∀ {s : List Char} {p n : ℕ}, Str buf p s → s.length ≤ n → text buf n p = s
  | [], _, 0, _, _ => rfl
  | [], p, n + 1, h, _ => if_pos h.stop
  | c :: s, p, n + 1, h, hn => by
    have hc : buf p = c := h.chars.1
    rw [text, hc, if_neg (h.text c mem_cons_self), text_eq h.tail (Nat.le_of_succ_le_succ hn)]

theorem strchr_of_notMem : ∀ {s : List Char} {p : ℕ} (n : ℕ), Str buf p s → '\n' ∉ s →
    strchr buf '\n' n p = none
  | _, _, 0, _, _ => rfl
  | [], p, n + 1, h, _ => if_pos h.stop
  | c :: s, p, n + 1, h, hs => by
    have hc : buf p = c := h.chars.1
    rw [mem_cons, not_or] at hs
    rw [strchr, hc, if_neg (h.text c mem_cons_self), if_neg (Ne.symm hs.1)]
    exact strchr_of_notMem n h.tail hs.2

theorem strchr_line : ∀ {l : List Char} {p n : ℕ}, Str buf p (l ++ '\n' :: s) → '\n' ∉ l → l.length < n →
    strchr buf '\n' n p = some (p + l.length)
  | [], p, n + 1, h, _, _ => by
    have hp : buf p = '\n' := h.chars.1
    rw [strchr, hp, if_neg (by decide), if_pos rfl]
    rfl
  | c :: l, p, n + 1, h, hl, hn => by
    have hc : buf p = c := h.chars.1
    rw [mem_cons, not_or] at hl
    rw [strchr, hc, if_neg (h.text c mem_cons_self), if_neg (Ne.symm hl.1),
      strchr_line h.tail hl.2 (Nat.lt_of_succ_lt_succ hn), length_cons, Nat.add_right_comm, Nat.add_assoc]

/-- Behind a line the rest of the string stands, whatever is written before. -/
theorem Str.rest (h : Str buf p (l ++ '\n' :: s)) (x : Char) :
    Str (update buf (p + l.length) x) (p + l.length + 1) s := by
  refine Str.congr ⟨?_, fun c hc => h.text c (by simp [hc]), ?_⟩ fun i hi => update_of_ne (by omega) ..
  · exact (chars_append.mp h.chars).2.2
  · rw [← h.stop, length_append, length_cons]
    exact congrArg buf (by omega)

/-- The line itself, once its newline is a NUL. -/
theorem Str.line (h : Str buf p (l ++ '\n' :: s)) : Str (update buf (p + l.length) nul) p l :=
  ⟨(chars_append.mp h.chars).1.congr fun i _ hi => update_of_ne (by omega) ..,
    fun c hc => h.text c (by simp [hc]), update_self ..⟩

/-! ## The loops -/

/-- **The loop over the lines** writes the lines that match and stops in front of the rest. -/
theorem scan_spec (pattern : List Char) {s : List Char} : ∀ {n : ℕ} {buf : ℕ → Char} {p : ℕ} (out : List Char),
    Str buf p s → s.length < n → s.length < bufSize → ∃ buf',
      scan pattern n buf p out = (buf', p + (s.length - (cut s).2.length), out ++ matching pattern s) ∧
      Str buf' (p + (s.length - (cut s).2.length)) (cut s).2 := by
  induction s using line_induction with
  | hrest s hs =>
    intro n buf p out h hn _
    obtain ⟨n, rfl⟩ : ∃ k, n = k + 1 := ⟨n - 1, by omega⟩
    refine ⟨buf, ?_, ?_⟩
    · simp only [scan, strchr_of_notMem _ h hs, matching, cut_of_notMem hs, select, Nat.sub_self, Nat.add_zero,
        filter_nil, flatMap_nil, append_nil]
    · rwa [cut_of_notMem hs, Nat.sub_self, Nat.add_zero]
  | hline l s hl ih =>
    intro n buf p out h hn hb
    have hlen : (l ++ '\n' :: s).length = l.length + (s.length + 1) := by simp
    have hle := (cut_snd_suffix s).length_le
    rw [hlen] at hn hb
    obtain ⟨n, rfl⟩ : ∃ k, n = k + 1 := ⟨n - 1, by omega⟩
    have hpos : p + (l.length + (s.length + 1) - (cut s).2.length) =
        p + l.length + 1 + (s.length - (cut s).2.length) := by omega
    have hline : Chars (update buf (p + l.length) '\n') p (l ++ ['\n']) :=
      chars_append.mpr ⟨h.line.chars.congr fun i _ hi => by
        rw [update_of_ne (by omega), update_of_ne (by omega)], update_self .., trivial⟩
    have hwrite := slice_eq hline
    rw [length_append, length_singleton] at hwrite
    simp only [scan, strchr_line h hl (show l.length < bufSize by omega),
      text_eq h.line (show l.length ≤ bufSize by omega), hlen, cut_line hl, hpos, matching, select_cons,
      show p + l.length + 1 - p = l.length + 1 by omega, hwrite]
    split
    · obtain ⟨buf', hscan, hrest⟩ := ih (out ++ (l ++ ['\n'])) (h.rest '\n') (show s.length < n by omega) (by omega)
      exact ⟨buf', by rw [hscan, append_assoc]; rfl, hrest⟩
    · obtain ⟨buf', hscan, hrest⟩ := ih out (h.rest nul) (show s.length < n by omega) (by omega)
      exact ⟨buf', by rw [hscan]; rfl, hrest⟩

theorem memmove_of_lt : ∀ (n : ℕ) {buf : ℕ → Char} {dst src i : ℕ}, i < dst → memmove n buf dst src i = buf i
  | 0, _, _, _, _, _ => rfl
  | n + 1, buf, dst, src, i, h => by
    rw [memmove, memmove_of_lt n (by omega), update_of_ne h.ne]

/-- **A move towards the front** keeps what it moves, also where the two ranges overlap. -/
theorem chars_memmove : ∀ {s : List Char} {buf : ℕ → Char} {dst src : ℕ}, dst ≤ src → Chars buf src s →
    Chars (memmove s.length buf dst src) dst s
  | [], _, _, _, _, _ => trivial
  | c :: s, buf, dst, src, hle, h => by
    refine ⟨?_, chars_memmove (Nat.succ_le_succ hle) (h.2.congr fun i hi _ => ?_)⟩
    · rw [length_cons, memmove, memmove_of_lt _ (Nat.lt_succ_self dst), update_self]
      exact h.1
    · exact update_of_ne (by omega) ..

/-- What is kept of a buffer with the characters `s`. -/
def keep (s : List Char) : List Char := if '\n' ∈ s then (cut s).2 else []

theorem cut_snd_length_lt (h : '\n' ∈ s) : (cut s).2.length < s.length := by
  refine lt_of_le_of_ne (cut_snd_suffix s).length_le fun heq => notMem_cut_snd s ?_
  rwa [(cut_snd_suffix s).eq_of_length heq]

theorem matching_of_notMem (h : '\n' ∉ s) : matching pattern s = [] := by
  rw [matching, cut_of_notMem h]
  rfl

/-- The buffer after a read. -/
theorem str_read {s : State} {carry chunk : List Char} (hm : s.m = carry.length) (hc : Chars s.buf 0 carry)
    (hnul : ∀ c ∈ carry ++ chunk, c ≠ nul) :
    Str (update (copy s.buf s.m chunk) (s.m + chunk.length) nul) 0 (carry ++ chunk) := by
  refine ⟨chars_append.mpr ⟨hc.congr fun i _ hi => ?_, ?_⟩, hnul, ?_⟩
  · rw [update_of_ne (by omega), copy_of_lt _ (by omega)]
  · rw [Nat.zero_add, ← hm]
    exact (chars_copy chunk s.m).congr fun i _ hi => update_of_ne (by omega) ..
  · rw [length_append, Nat.zero_add, hm]
    exact update_self ..

/-- **A turn of the loop.** -/
theorem turn_spec (pattern : List Char) {s : State} {carry chunk : List Char} (hm : s.m = carry.length)
    (hc : Chars s.buf 0 carry) (hnul : ∀ c ∈ carry ++ chunk, c ≠ nul) (hne : chunk ≠ [])
    (hfit : chunk.length ≤ bufSize - s.m - 1) :
    (turn pattern s chunk).m = (keep (carry ++ chunk)).length ∧
      Chars (turn pattern s chunk).buf 0 (keep (carry ++ chunk)) ∧
      (turn pattern s chunk).out = s.out ++ matching pattern (carry ++ chunk) := by
  have hpos : 0 < chunk.length := length_pos_iff.mpr hne
  have hlen : (carry ++ chunk).length = s.m + chunk.length := by rw [length_append, hm]
  have hlt : (carry ++ chunk).length < bufSize := by omega
  obtain ⟨buf', hscan, hrest⟩ := scan_spec pattern s.out (str_read hm hc hnul) hlt hlt
  simp only [turn, hscan, Nat.zero_add] at hrest ⊢
  rw [hlen] at hrest ⊢
  by_cases hnl : '\n' ∈ carry ++ chunk
  · have hshort := cut_snd_length_lt hnl
    rw [keep, if_pos hnl, if_neg (show ¬s.m + chunk.length - (cut (carry ++ chunk)).2.length = 0 by omega),
      if_pos (show 0 < s.m + chunk.length by omega),
      show s.m + chunk.length - (s.m + chunk.length - (cut (carry ++ chunk)).2.length) =
        (cut (carry ++ chunk)).2.length by omega]
    exact ⟨rfl, chars_memmove (Nat.zero_le _) hrest.chars, rfl⟩
  · -- no line has ended: `p == buf`, and nothing is kept
    rw [keep, if_neg hnl, cut_of_notMem hnl, hlen, Nat.sub_self, if_pos rfl, if_neg (lt_irrefl 0)]
    exact ⟨rfl, trivial, rfl⟩

/-- What is written for the reads, `carry` being what is kept before them. -/
def written (pattern : List Char) : List Char → List (List Char) → List Char
  | _, [] => []
  | carry, c :: cs => matching pattern (carry ++ c) ++ written pattern (keep (carry ++ c)) cs

theorem mem_of_mem_keep (h : c ∈ keep s) : c ∈ s := by
  rw [keep] at h
  split at h
  · exact (cut_snd_suffix s).subset h
  · cases h

/-- **The whole loop.** -/
theorem foldl_turn : ∀ {chunks : List (List Char)} {s : State} (carry : List Char), s.m = carry.length →
    Chars s.buf 0 carry → (∀ c ∈ carry ++ chunks.flatten, c ≠ nul) → Reads pattern s chunks →
    (chunks.foldl (turn pattern) s).out = s.out ++ written pattern carry chunks
  | [], _, _, _, _, _, _ => (append_nil _).symm
  | c :: cs, s, carry, hm, hc, hnul, hfit => by
    rw [flatten_cons, ← append_assoc] at hnul
    obtain ⟨hm', hc', hout⟩ := turn_spec pattern hm hc
      (fun x hx => hnul x (mem_append_left _ hx)) hfit.1 hfit.2.1
    rw [foldl_cons, foldl_turn _ hm' hc' (fun x hx => hnul x ?_) hfit.2.2, hout, written, append_assoc]
    exact (mem_append.mp hx).elim (fun h => mem_append_left _ (mem_of_mem_keep h))
      (mem_append_right _)

/-! ## When nothing is lost -/

/-- No read without a newline comes before one with a newline. -/
def Whole (chunks : List (List Char)) : Prop := chunks.Pairwise fun c d => '\n' ∈ d → '\n' ∈ c

theorem matching_append (s t : List Char) :
    matching pattern (s ++ t) = matching pattern s ++ matching pattern ((cut s).2 ++ t) := by
  rw [matching, cut_append, select_append]
  rfl

theorem notMem_keep (s : List Char) : '\n' ∉ keep s := by
  rw [keep]
  split
  · exact notMem_cut_snd s
  · exact not_mem_nil

theorem written_of_notMem : ∀ {chunks : List (List Char)} {carry : List Char},
    '\n' ∉ carry → '\n' ∉ chunks.flatten → written pattern carry chunks = []
  | [], _, _, _ => rfl
  | c :: cs, carry, hcarry, h => by
    rw [flatten_cons, mem_append, not_or] at h
    have hc : '\n' ∉ carry ++ c := by simp [hcarry, h.1]
    rw [written, matching_of_notMem hc, written_of_notMem (notMem_keep _) h.2]
    rfl

/-- **Where no read loses a line, the output is right.** -/
theorem written_eq_matching : ∀ {chunks : List (List Char)} {carry : List Char}, Whole chunks → '\n' ∉ carry →
    written pattern carry chunks = matching pattern (carry ++ chunks.flatten)
  | [], carry, _, hcarry => by rw [flatten_nil, append_nil, matching_of_notMem hcarry]; rfl
  | c :: cs, carry, h, hcarry => by
    obtain ⟨hc, hcs⟩ := pairwise_cons.mp h
    rw [flatten_cons, ← append_assoc]
    by_cases hnl : '\n' ∈ c
    · rw [written, written_eq_matching hcs (notMem_keep _), keep, if_pos (mem_append_right _ hnl),
        ← matching_append]
    · -- without a newline here there is none behind, so that nothing is to be written
      have hrest : '\n' ∉ cs.flatten := fun hmem => by
        obtain ⟨d, hd, hmem⟩ := mem_flatten.mp hmem
        exact hnl (hc d hd hmem)
      have hall : '\n' ∉ (c :: cs).flatten := by simp [hnl, hrest]
      rw [written_of_notMem hcarry hall, matching_of_notMem (by simp [hcarry, hnl, hrest])]

/-- The empty pattern matches every line. -/
theorem matchText_nil (l : List Char) : matchText [] l = true := by
  cases l <;> simp [matchText, matchAny, matchhere]

/-- What stands before a line without a newline belongs to it. -/
theorem matching_nil_length (hs : '\n' ∉ s) (ht : '\n' ∈ t) :
    (matching [] (s ++ t)).length = s.length + (matching [] t).length := by
  obtain ⟨l, r, rfl, hl⟩ := eq_append_cons_of_mem ht
  have hsl : '\n' ∉ s ++ l := by simp [hs, hl]
  rw [← append_assoc, matching, matching, cut_line hsl, cut_line hl, select_cons, select_cons,
    if_pos (matchText_nil _), if_pos (matchText_nil _)]
  simp only [length_append]
  omega

/-- The empty pattern never writes too much. -/
theorem written_nil_length_le : ∀ (chunks : List (List Char)) {carry : List Char}, '\n' ∉ carry →
    (written [] carry chunks).length ≤ (matching [] (carry ++ chunks.flatten)).length
  | [], _, _ => Nat.zero_le _
  | c :: cs, carry, hcarry => by
    rw [flatten_cons, ← append_assoc]
    by_cases hnl : '\n' ∈ carry ++ c
    · rw [written, matching_append (carry ++ c), length_append, length_append, keep, if_pos hnl]
      exact Nat.add_le_add_left (written_nil_length_le cs (notMem_cut_snd _)) _
    · rw [written, matching_of_notMem hnl, keep, if_neg hnl]
      by_cases hrest : '\n' ∈ cs.flatten
      · rw [matching_nil_length hnl hrest]
        exact (written_nil_length_le cs not_mem_nil).trans (Nat.le_add_left ..)
      · rw [written_of_notMem not_mem_nil hrest]
        exact Nat.zero_le _

/-- **Where a read loses a part of a line, the empty pattern writes too little.** -/
theorem whole_of_written : ∀ {chunks : List (List Char)} (carry : List Char), '\n' ∉ carry →
    (∀ c ∈ chunks, c ≠ []) → written [] carry chunks = matching [] (carry ++ chunks.flatten) → Whole chunks
  | [], _, _, _, _ => List.Pairwise.nil
  | c :: cs, carry, hcarry, hne, h => by
    rw [flatten_cons, ← append_assoc] at h
    by_cases hnl : '\n' ∈ c
    · have hmem : '\n' ∈ carry ++ c := mem_append_right _ hnl
      rw [written, matching_append (carry ++ c), keep, if_pos hmem] at h
      exact pairwise_cons.mpr ⟨fun _ _ _ => hnl, whole_of_written _ (notMem_cut_snd _)
        (fun d hd => hne d (mem_cons_of_mem _ hd)) (append_cancel_left h)⟩
    · have hmem : '\n' ∉ carry ++ c := by simp [hcarry, hnl]
      have hrest : '\n' ∉ cs.flatten := fun hrest => by
        have hlen := congrArg List.length h
        have hle := written_nil_length_le cs not_mem_nil
        have hpos : 0 < c.length := length_pos_iff.mpr (hne c mem_cons_self)
        rw [written, matching_of_notMem hmem, keep, if_neg hmem, matching_nil_length hmem hrest] at hlen
        simp only [nil_append, length_append] at hlen hle
        omega
      have hnone : ∀ d ∈ cs, '\n' ∉ d := fun d hd hmem => hrest (mem_flatten.mpr ⟨d, hd, hmem⟩)
      exact pairwise_cons.mpr ⟨fun d hd hmem => absurd hmem (hnone d hd),
        pairwise_of_forall_mem_list fun _ _ d hd hmem => absurd hmem (hnone d hd)⟩

theorem Reads.ne_nil : ∀ {chunks : List (List Char)} {s : State}, Reads pattern s chunks → ∀ c ∈ chunks, c ≠ []
  | _ :: _, _, h => forall_mem_cons.mpr ⟨h.1, h.2.2.ne_nil⟩
  | [], _, _ => forall_mem_nil _

theorem grep_eq_written {chunks : List (List Char)} (hnul : ∀ c ∈ chunks.flatten, c ≠ nul)
    (hfit : Reads pattern ⟨buf, 0, []⟩ chunks) : grep buf pattern chunks = written pattern [] chunks :=
  foldl_turn [] rfl trivial hnul hfit

/-- **The output is right for all patterns exactly if no read without a newline comes before one with a
newline.**  Then it does not depend on where the stream is cut. -/
theorem grep_right_iff {buf : ℕ → Char} {chunks : List (List Char)} (hnul : ∀ c ∈ chunks.flatten, c ≠ nul)
    (hfit : ∀ pattern, Reads pattern ⟨buf, 0, []⟩ chunks) :
    (∀ pattern, grep buf pattern chunks = matching pattern chunks.flatten) ↔ Whole chunks := by
  refine ⟨fun h => ?_, fun h pattern => ?_⟩
  · refine whole_of_written [] List.not_mem_nil (hfit []).ne_nil ?_
    rw [← grep_eq_written hnul (hfit []), h []]
    rfl
  · rw [grep_eq_written hnul (hfit pattern), written_eq_matching h List.not_mem_nil]
    rfl

theorem keep_length_le (s : List Char) : (keep s).length ≤ s.length := by
  rw [keep]
  split
  · exact (cut_snd_suffix s).length_le
  · exact Nat.zero_le _

/-- A stream that fits into the buffer may be cut anywhere. -/
theorem reads_of_length : ∀ {chunks : List (List Char)} {s : State} (carry : List Char), s.m = carry.length →
    Chars s.buf 0 carry → (∀ c ∈ carry ++ chunks.flatten, c ≠ nul) → (∀ c ∈ chunks, c ≠ []) →
    carry.length + chunks.flatten.length < bufSize → Reads pattern s chunks
  | [], _, _, _, _, _, _, _ => trivial
  | c :: cs, s, carry, hm, hc, hnul, hne, hlen => by
    rw [flatten_cons, ← append_assoc] at hnul
    rw [flatten_cons, length_append] at hlen
    obtain ⟨hc0, hcs⟩ := forall_mem_cons.mp hne
    have hfit : c.length ≤ bufSize - s.m - 1 := by omega
    obtain ⟨hm', hc', -⟩ := turn_spec pattern hm hc
      (fun x hx => hnul x (mem_append_left _ hx)) hc0 hfit
    have hkeep := keep_length_le (carry ++ c)
    rw [length_append] at hkeep
    refine ⟨hc0, hfit, reads_of_length _ hm' hc' (fun x hx => hnul x ?_) hcs (by omega)⟩
    exact (mem_append.mp hx).elim (fun h => mem_append_left _ (mem_of_mem_keep h))
      (mem_append_right _)

/-- A line that two reads deliver, the first of them with a newline. -/
theorem grep_right_iff_two : (∀ pattern, grep (fun _ => nul) pattern [['a', '\n', 'b'], ['c', '\n']] =
    matching pattern ['a', '\n', 'b', 'c', '\n']) ↔ Whole [['a', '\n', 'b'], ['c', '\n']] :=
  grep_right_iff (by simp [nul]) fun _ => reads_of_length [] rfl trivial (by simp [nul]) (by decide) (by decide)

/-- **The line `ab` is found if one read delivers it, and not if two do.** -/
theorem grep_loses_line :
    (∀ chunks ∈ [[['a', 'b', '\n']], [['a'], ['b', '\n']]], Reads ['a'] ⟨fun _ => nul, 0, []⟩ chunks) ∧
      grep (fun _ => nul) ['a'] [['a', 'b', '\n']] = ['a', 'b', '\n'] ∧
      grep (fun _ => nul) ['a'] [['a'], ['b', '\n']] = [] := by
  have hone : Reads ['a'] ⟨fun _ => nul, 0, []⟩ [['a', 'b', '\n']] :=
    reads_of_length [] rfl trivial (by simp [nul]) (by decide) (by decide)
  have htwo : Reads ['a'] ⟨fun _ => nul, 0, []⟩ [['a'], ['b', '\n']] :=
    reads_of_length [] rfl trivial (by simp [nul]) (by decide) (by decide)
  refine ⟨List.forall_mem_cons.mpr ⟨hone, List.forall_mem_cons.mpr ⟨htwo, List.forall_mem_nil _⟩⟩, ?_, ?_⟩
  · rw [grep_eq_written (by simp [nul]) hone]
    simp [written, matching, cut, select, matchText, matchAny, matchhere]
  · rw [grep_eq_written (by simp [nul]) htwo]
    simp [written, matching, keep, cut, select, matchText, matchAny, matchhere]

end Grep

end Xv6
