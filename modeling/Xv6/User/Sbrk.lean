import Xv6.Proc.Sizes
import Xv6.User.Heap

/-!
# User/Sbrk — the sizes `malloc` can ask for

`User/Heap` takes `sbrk` for a function that gives memory or fails.  Here it is the system call: `growproc` with
an `int`, on the size of the process.  A request of `2 ^ 31` bytes or more is a negative `int`, for which
`growproc` takes memory away or does nothing, and reports success; a request of `2 ^ 32 - 7` bytes or more has
already wrapped when `malloc` counts its units.

So `malloc` honours a size exactly if it is at most `2 ^ 31 - 16` (`malloc_honours_iff`).
-/

namespace Xv6

open Outcome List

/-! ## The break -/

/-- The `int` that a word is. -/
def asInt (w : ℕ) : ℤ := if w < 2 ^ 31 then w else w - 2 ^ 32

/-- `growproc`, on the size of the process; `frames` says whether `allocuvm` gets what it needs.  `none` is the
result `-1`. -/
def growSize (sz : ℕ) (n : ℤ) (frames : Bool) : Option ℕ :=
  let newsz := Kernel.wrapAdd sz n
  let r :=
    if 0 < n then
      if kernBase ≤ newsz then 0 else if newsz < sz then sz else if frames then newsz else 0
    else if n < 0 then if sz ≤ newsz then sz else newsz
    else sz
  if n ≠ 0 ∧ r = 0 then none else some r

/-- A growth that a positive `int` asks for. -/
theorem growSize_of_pos {sz bytes : ℕ} (hsz : sz < kernBase) (hpos : 0 < bytes) (hlt : bytes < 2 ^ 31)
    (frames : Bool) : growSize sz (asInt bytes) frames =
      if frames ∧ sz + bytes < kernBase then some (sz + bytes) else none := by
  have hint : asInt bytes = bytes := if_pos hlt
  have hadd : Kernel.wrapAdd sz bytes = sz + bytes := by
    unfold Kernel.wrapAdd
    simp only [kernBase] at hsz
    omega
  simp only [growSize, hint, hadd, Nat.cast_pos, hpos, if_true, show ¬sz + bytes < sz by omega, if_false]
  have hne : bytes ≠ 0 := by omega
  by_cases hb : sz + bytes < kernBase
  · cases frames <;> simp [hb, hne]
  · simp [hb, Nat.le_of_not_lt hb, hne]

/-! ## `malloc` over the break -/

/-- A heap, and the size of the process. -/
structure Image where
  heap : Heap
  sz : ℕ

namespace Image

/-- `morecore`.  The store to the new header faults where the process has no page. -/
def morecore (n nu : ℕ) (frames : Bool) (x : Image) : Except String (Option Image) :=
  match growSize x.sz (asInt (moreUnits nu * 8 % 2 ^ 32)) frames with
  | none => .ok none
  | some sz =>
    if pgRoundUp sz < x.sz + 8 then .error "trap"
    else do
      let h ← Heap.free { x.heap with
        size := Function.update x.heap.size x.sz (moreUnits nu)
        top := sz
        obtained := x.heap.obtained ++ cells x.sz ((sz - x.sz) / 8) } n (x.sz + 8)
      .ok (some ⟨h, sz⟩)

def setHeap (x : Image) (h : Heap) : Image := { x with heap := h }

/-- `malloc`. -/
def malloc (base n nbytes : ℕ) (frames : Bool) (x : Image) : Except String (Image × ℕ) :=
  let h := x.heap.start base
  searchLoop Image.heap setHeap (morecore n (unitsFor nbytes) frames) (unitsFor nbytes) n (x.setHeap h) h.freep
    (h.ptr h.freep)

/-- **The allocator is in order**, and its memory lies below the break. -/
structure Owned (base : ℕ) (x : Image) : Prop where
  good : x.heap.Good base
  top : x.heap.top ≤ x.sz
  size : x.sz < kernBase

/-- **A size is honoured**: `malloc` returns 0, and the blocks of the program and the break are as before; or it
returns a block of that size in the memory of the process, apart from all others. -/
def Honoured (base nbytes : ℕ) (x x' : Image) (r : ℕ) : Prop :=
  (r = 0 ∧ x'.sz = x.sz ∧ x'.heap.live = x.heap.live ∧ ∀ l ∈ x.heap.live, x'.heap.size l.1 = x.heap.size l.1) ∨
    (r ≠ 0 ∧ x.sz ≤ x'.sz ∧ r + nbytes ≤ x'.sz ∧
      Heap.Sound base { x'.heap with live := (r - 8, nbytes) :: x'.heap.live })

/-- The units, and the bytes that `sbrk` is asked for, are those of the size. -/
def Plain (nbytes : ℕ) : Prop :=
  unitsFor nbytes = (nbytes + 7) / 8 + 1 ∧
    asInt (moreUnits (unitsFor nbytes) * 8 % 2 ^ 32) = (moreUnits (unitsFor nbytes) * 8 : ℕ)

theorem plain_iff {nbytes : ℕ} (h : nbytes < 2 ^ 32) : Plain nbytes ↔ nbytes + 16 ≤ 2 ^ 31 := by
  unfold Plain asInt unitsFor moreUnits
  constructor
  · rintro ⟨hu, hb⟩
    rw [hu] at hb
    by_contra hbig
    split at hb <;> split at hb <;> push_cast at hb <;> omega
  · intro hle
    rw [Nat.mod_eq_of_lt (show nbytes + 7 < 2 ^ 32 by omega)]
    refine ⟨rfl, ?_⟩
    split <;> split <;> omega

variable {base nbytes nu : ℕ} {frames : Bool} {x : Image}

/-- What `sbrk` gives for the units, seen from the heap. -/
def gap (x : Image) (nu : ℕ) (frames : Bool) : Option ℕ :=
  if frames ∧ x.sz + moreUnits nu * 8 < kernBase then some (x.sz - x.heap.top) else none

/-- **`morecore` is the one of the heap**, where the bytes are a positive `int`. -/
theorem morecore_eq (htop : x.heap.top ≤ x.sz) (hsz : x.sz < kernBase) (hnu : moreUnits nu * 8 < 2 ^ 31)
    (frames : Bool) (m : ℕ) : x.morecore m nu frames = x.heap.morecore m nu (x.gap nu frames) >>=
      fun o => .ok (o.map fun h => ⟨h, x.sz + moreUnits nu * 8⟩) := by
  have hpos : 8 ≤ moreUnits nu * 8 := by
    unfold moreUnits
    split <;> omega
  have hmod : moreUnits nu * 8 % 2 ^ 32 = moreUnits nu * 8 := Nat.mod_eq_of_lt (by omega)
  rw [morecore, Heap.morecore, hmod, growSize_of_pos hsz (by omega) hnu, gap]
  by_cases hc : frames ∧ x.sz + moreUnits nu * 8 < kernBase
  · have hle := le_pgRoundUp hc.2
    have hp : x.heap.top + (x.sz - x.heap.top) = x.sz := by omega
    rw [if_pos hc, if_pos hc]
    simp only [Heap.sbrk, Option.map_some, hp, Nat.add_sub_cancel_left]
    rw [if_neg (by omega)]
    cases Heap.free _ m (x.sz + 8) with
    | error e => rfl
    | ok h => rfl
  · rw [if_neg hc, if_neg hc]
    rfl

theorem start_live (h : Heap) (base : ℕ) : (h.start base).live = h.live ∧ (h.start base).top = h.top := by
  unfold Heap.start
  split <;> exact ⟨rfl, rfl⟩

theorem start_size {h : Heap} (hg : h.Good base) {l : ℕ × ℕ} (hl : l ∈ h.live) :
    (h.start base).size l.1 = h.size l.1 := by
  obtain ⟨bs, ha, -⟩ := hg
  unfold Heap.start
  split
  · have hb := (ha.bounds (b := ⟨l.1, h.size l.1⟩) (mem_append_right _ (mem_map.2 ⟨l, hl, rfl⟩))).1
    exact Function.update_of_ne (Nat.ne_of_gt hb) ..
  · rfl

/-- The memory of a block that `malloc` returns ends below the new break. -/
theorem top_eq {h h' : Heap} {bs bs' : List Chunk} {u a p k : ℕ}
    (hm : Malloced base u a (cells p k) h bs h' bs') (hk : 0 < k) : h'.top = p + 8 * k := by
  have hlen : ∀ p k, (cells p k).length = k := fun p k => by simp [cells]
  rcases hm.source with ⟨he, -⟩ | ⟨p', k', -, he, ht⟩
  · have := congrArg List.length he
    rw [hlen] at this
    exact absurd this (by simpa using Nat.ne_of_gt hk)
  · have hkk : k = k' := by rw [← hlen p k, he, hlen]
    subst hkk
    have hp : p ∈ cells p' k := by
      rw [← he]
      exact mem_cells.2 ⟨0, hk, rfl⟩
    have hp' : p' ∈ cells p k := by
      rw [he]
      exact mem_cells.2 ⟨0, hk, rfl⟩
    obtain ⟨i, -, hi⟩ := mem_cells.1 hp
    obtain ⟨j, -, hj⟩ := mem_cells.1 hp'
    omega

/-- A block that `malloc` returns. -/
theorem malloced_honoured {h h' : Heap} {bs bs' : List Chunk} {a : ℕ} {extra : List ℕ} {sz : ℕ}
    (ha : Account base h bs) (hm : Malloced base (unitsFor nbytes) a extra h bs h' bs')
    (hn : nbytes + 16 ≤ 2 ^ 32) (hle : x.sz ≤ sz) (htop : h'.top ≤ sz) (hsz : sz < kernBase) :
    Honoured base nbytes x ⟨h', sz⟩ (a + 8) ∧ Owned base ⟨{ h' with live := (a, nbytes) :: h'.live }, sz⟩ := by
  obtain ⟨hpos, -, henough⟩ := unitsFor_spec hn
  have hacc := ha.malloc hm hpos henough
  have hgood : Heap.Good base { h' with live := (a, nbytes) :: h'.live } :=
    ⟨bs', hacc, .inl ⟨hm.list.links, hm.list.freep, hm.list.sizes, hm.list.zero, hm.list.order⟩⟩
  have hblock : (⟨a, unitsFor nbytes⟩ : Chunk) ∈ Heap.blocks { h' with live := (a, nbytes) :: h'.live } := by
    rw [Heap.blocks, map_cons]
    exact mem_cons.2 (.inl (by rw [hm.taken]))
  have hend := (hacc.bounds (mem_append_right _ hblock)).2
  refine ⟨.inr ⟨by omega, hle, ?_, ?_⟩, hgood, htop, hsz⟩
  · dsimp only at hend ⊢
    omega
  · exact hgood.sound

/-- **`malloc` honours a size of at most `2 ^ 31 - 16`**, and leaves the allocator in order. -/
theorem Owned.malloc (hx : x.Owned base) (hbase : 0 < base) (hn : nbytes + 16 ≤ 2 ^ 31) (frames : Bool) :
    ∃ x' r N, Honoured base nbytes x x' r ∧
      Owned base (if r = 0 then x' else x'.setHeap { x'.heap with live := (r - 8, nbytes) :: x'.heap.live }) ∧
      ∀ n, N ≤ n → x.malloc base n nbytes frames = .ok (x', r) := by
  have hn' : nbytes + 16 ≤ 2 ^ 32 := by omega
  obtain ⟨hpos, hunits, -⟩ := unitsFor_spec hn'
  have hu : moreUnits (unitsFor nbytes) * 8 < 2 ^ 31 := by
    unfold moreUnits unitsFor
    split <;> omega
  obtain ⟨bs, ha, hf⟩ := hx.good.start hbase
  obtain ⟨hlive, htop⟩ := start_live x.heap base
  have htop' : (x.setHeap (x.heap.start base)).heap.top ≤ (x.setHeap (x.heap.start base)).sz :=
    htop.le.trans hx.top
  obtain ⟨x', r, hr, hret⟩ := FreeList.search Image.heap (s := x.setHeap (x.heap.start base)) setHeap
    (fun h => ⟨h, x.sz + moreUnits (unitsFor nbytes) * 8⟩) (fun _ => rfl) hf ha.top
    (fun b hb => (ha.bounds (mem_append_left _ hb)).2) hpos hunits _
    (fun m x => x.morecore m (unitsFor nbytes) frames) (morecore_eq htop' hx.size hu frames)
  rcases hr with ⟨rfl, rfl, -⟩ | ⟨h', a, extra, bs', rfl, hm, ⟨rfl, hend, rfl⟩ | ⟨g, h1, hgap, rfl, rfl⟩⟩
  · exact ⟨x.setHeap (x.heap.start base), 0, _, .inl ⟨rfl, rfl, hlive, fun l hl => start_size hx.good hl⟩,
      ⟨⟨bs, ha, .inl hf⟩, htop', hx.size⟩, hret⟩
  · obtain ⟨hh, ho⟩ := malloced_honoured (x := x) ha hm hn' le_rfl (hend.le.trans htop') hx.size
    exact ⟨_, _, _, hh, ho, hret⟩
  · rw [gap] at hgap
    split at hgap
    swap
    · cases hgap
    rename_i hc
    cases hgap
    have hk : 0 < moreUnits (unitsFor nbytes) := by
      unfold moreUnits
      split <;> omega
    have hend : h'.top = x.sz + moreUnits (unitsFor nbytes) * 8 := by
      rw [top_eq hm hk, Nat.add_sub_cancel' htop', Nat.mul_comm]
      rfl
    obtain ⟨hh, ho⟩ := malloced_honoured (x := x) ha hm hn' (Nat.le_add_right ..) hend.le hc.2
    exact ⟨_, _, _, hh, ho, hret⟩

end Image

/-! ## Runs of a program -/

/-- What a program does with its memory: besides `malloc`, `free` and stores to its blocks it may ask for more
memory itself. -/
inductive ImageEvent where
  | malloc (nbytes : ℕ) (frames : Bool)
  | free (ap : ℕ)
  | store (ap : ℕ) (ptr size : ℕ → ℕ)
  | grow (bytes : ℕ) (frames : Bool)

/-- **One step of the program.** -/
def ImageEvent.run (base n : ℕ) : ImageEvent → Image → Except String Image
  | .malloc nbytes frames, x => do
    let (x, r) ← x.malloc base n nbytes frames
    .ok (if r = 0 then x else x.setHeap { x.heap with live := (r - 8, nbytes) :: x.heap.live })
  | .free ap, x => do
    let h ← (HeapEvent.free ap).run base n x.heap
    .ok (x.setHeap h)
  | .store ap ptr size, x => do
    let h ← (HeapEvent.store ap ptr size).run base n x.heap
    .ok (x.setHeap h)
  | .grow bytes frames, x => .ok { x with sz := (growSize x.sz bytes frames).getD x.sz }

/-- The sizes that the program asks for. -/
def ImageEvent.Fits : ImageEvent → Prop
  | .malloc nbytes _ => nbytes + 16 ≤ 2 ^ 31
  | .grow bytes _ => bytes < 2 ^ 31
  | _ => True

namespace Image

variable {base : ℕ} {x : Image}

theorem free_top {h h' : Heap} {n ap : ℕ} (hh : h.free n ap = .ok h') : h'.top = h.top := by
  unfold Heap.free at hh
  split at hh
  · cases hh
  · cases hh
    unfold Heap.joinPrev Heap.joinNext
    split <;> split <;> rfl

theorem free_run_top {h h' : Heap} {n ap : ℕ} (hh : (HeapEvent.free ap).run base n h = .ok h') :
    h'.top = h.top := by
  rw [HeapEvent.run] at hh
  split at hh
  · obtain ⟨h1, hfree, hh⟩ := bind_eq_ok.mp hh
    cases hh
    exact (free_top hfree :)
  · cases hh
    rfl

/-- The break only moves up, below `KERNBASE`. -/
theorem Owned.grow (hx : x.Owned base) {bytes : ℕ} (hlt : bytes < 2 ^ 31) (frames : Bool) :
    Owned base { x with sz := (growSize x.sz bytes frames).getD x.sz } := by
  have hint : asInt bytes = bytes := if_pos hlt
  rcases Nat.eq_zero_or_pos bytes with rfl | hpos
  · exact ⟨hx.good, hx.top, hx.size⟩
  · have h := growSize_of_pos hx.size hpos hlt frames
    rw [hint] at h
    rw [h]
    split
    · rename_i hc
      exact ⟨hx.good, hx.top.trans (Nat.le_add_right ..), hc.2⟩
    · exact ⟨hx.good, hx.top, hx.size⟩

/-- **One step** returns, with enough fuel, and leaves the allocator in order. -/
theorem Owned.step (hx : x.Owned base) (hbase : 0 < base) {e : ImageEvent} (he : e.Fits) :
    ∃ x' N, Owned base x' ∧ ∀ n, N ≤ n → e.run base n x = .ok x' := by
  cases e with
  | malloc nbytes frames =>
    obtain ⟨x', r, N, -, ho, hret⟩ := hx.malloc hbase he frames
    refine ⟨_, N, ho, fun n hn => ?_⟩
    rw [ImageEvent.run, hret n hn]
    rfl
  | free ap =>
    obtain ⟨h', N, hg, hret⟩ := hx.good.free ap
    refine ⟨x.setHeap h', N, ⟨hg, (free_run_top (hret N le_rfl)).le.trans hx.top, hx.size⟩, fun n hn => ?_⟩
    rw [ImageEvent.run, hret n hn]
    rfl
  | store ap ptr size =>
    obtain ⟨h', N, hg, hret⟩ := hx.good.store ap ptr size
    have htop : h'.top = x.heap.top := by
      have := hret N le_rfl
      rw [HeapEvent.run] at this
      cases this
      split <;> rfl
    refine ⟨x.setHeap h', N, ⟨hg, htop.le.trans hx.top, hx.size⟩, fun n hn => ?_⟩
    rw [ImageEvent.run, hret n hn]
    rfl
  | grow bytes frames => exact ⟨_, 0, hx.grow he frames, fun _ _ => rfl⟩

/-- **Every run** does. -/
theorem Owned.run (hbase : 0 < base) : ∀ {es : List ImageEvent} {x : Image}, x.Owned base →
    (∀ e ∈ es, e.Fits) → ∃ x' N, Owned base x' ∧ ∀ n, N ≤ n → loop (ImageEvent.run base n) es x = .ok x'
  | [], x, hx, _ => ⟨x, 0, hx, fun _ _ => rfl⟩
  | e :: es, x, hx, he => by
    obtain ⟨x1, N1, hx1, h1⟩ := hx.step hbase (he e mem_cons_self)
    obtain ⟨x2, N2, hx2, h2⟩ := Owned.run hbase hx1 fun e h => he e (mem_cons_of_mem _ h)
    refine ⟨x2, max N1 N2, hx2, fun n hn => ?_⟩
    rw [loop_cons, h1 n (by omega), ok_bind]
    exact h2 n (by omega)

end Image

open Image

/-- **`malloc` honours exactly the sizes up to `2 ^ 31 - 16`**, in every state of the allocator that a program
comes to that has asked for such sizes only: the units and the `int` for `sbrk` are those of the size, and
`malloc` returns, with 0 and nothing changed or with a block of that size. -/
theorem malloc_honours_iff (base sz : ℕ) (hbase : 0 < base) (hsz : base + 8 ≤ sz) (hlt : sz < kernBase)
    (es : List ImageEvent) (hfit : ∀ e ∈ es, e.Fits) :
    ∃ x N, (∀ n, N ≤ n → loop (ImageEvent.run base n) es ⟨.init base, sz⟩ = .ok x) ∧
      ∀ nbytes, nbytes < 2 ^ 32 → ∀ frames,
        ((Plain nbytes ∧ ∃ x' r M, Honoured base nbytes x x' r ∧
          ∀ n, M ≤ n → x.malloc base n nbytes frames = .ok (x', r)) ↔ nbytes + 16 ≤ 2 ^ 31) := by
  obtain ⟨x, N, hx, hrun⟩ := Owned.run hbase (x := ⟨.init base, sz⟩) ⟨good_init base, hsz, hlt⟩ hfit
  refine ⟨x, N, hrun, fun nbytes hn frames => ⟨fun h => (plain_iff hn).mp h.1, fun h => ?_⟩⟩
  obtain ⟨x', r, M, hh, -, hret⟩ := hx.malloc hbase h frames
  exact ⟨(plain_iff hn).mpr h, x', r, M, hh, hret⟩

/-- A hundred bytes, behind a block that has been freed. -/
theorem malloc_honours_hundred : ∃ x N, (∀ n, N ≤ n →
    loop (ImageEvent.run 8 n) [.malloc 20 true, .free 32752, .grow 5000 true] ⟨.init 8, 4096⟩ = .ok x) ∧
      ∃ x' r M, Honoured 8 100 x x' r ∧ ∀ n, M ≤ n → x.malloc 8 n 100 true = .ok (x', r) := by
  obtain ⟨x, N, hrun, h⟩ := malloc_honours_iff 8 4096 (by decide) (by decide) (by decide)
    [.malloc 20 true, .free 32752, .grow 5000 true] (by simp [ImageEvent.Fits])
  exact ⟨x, N, hrun, ((h 100 (by decide) true).mpr (by decide)).2⟩

/-- **`malloc(2 ^ 32 - 1)` returns a header and nothing behind it**; `malloc(2 ^ 32 - 16)` makes the process
smaller and returns a block that is not there; in `malloc(2 ^ 31)` the program stops. -/
theorem malloc_wraps :
    Returns (Image.malloc 8 8 (2 ^ 32 - 1) true ⟨.init 8, 4096⟩) (fun x =>
      x.2 ≠ 0 ∧ x.1.heap.size (x.2 - 8) = 1) ∧
    Returns (Image.malloc 8 8 (2 ^ 32 - 16) true ⟨.init 8, 4108⟩) (fun x => x.2 ≠ 0 ∧ x.1.sz = 4100) ∧
    Fails (Image.malloc 8 8 (2 ^ 31) true ⟨.init 8, 4096⟩) (· = "trap") := by
  decide +kernel

end Xv6
