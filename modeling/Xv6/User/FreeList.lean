import Xv6.User.Malloc

/-!
# User/FreeList — the free list of `malloc` and `free`

`FreeList` says what the free list is: a ring through `base`, in address order, without two free blocks
side by side.  `free` puts a block into it (`Freed`), `malloc` takes one out (`Taken`), and `morecore` gives
it new memory (`Grown`); each of them says which units the list has afterwards.
-/

namespace Xv6

open Outcome Links Function List
open scoped List

/-! ## Units -/

theorem mem_cells {a n c : ℕ} : c ∈ cells a n ↔ ∃ i < n, a + 8 * i = c := by
  simp [cells]

@[simp] theorem length_cells (a n : ℕ) : (cells a n).length = n := by
  simp [cells]

/-- A block is its first units and the rest. -/
theorem cells_add (a m n : ℕ) : cells a (m + n) = cells a m ++ cells (a + 8 * m) n := by
  simp only [cells, range_add, map_append, map_map]
  congr 1
  refine map_congr_left fun i _ => ?_
  simp only [Function.comp_apply]
  omega

/-- Two units that do not overlap. -/
def Far (c c' : ℕ) : Prop := c + 8 ≤ c' ∨ c' + 8 ≤ c

/-- Blocks without a common unit do not overlap. -/
theorem apart_of_far {a b m n : ℕ} (hm : 0 < m) (hn : 0 < n)
    (h : ∀ c ∈ cells a m, ∀ c' ∈ cells b n, Far c c') : a + 8 * m ≤ b ∨ b + 8 * n ≤ a := by
  by_contra hno
  rcases Nat.le_total a b with hab | hab
  · have := h (a + 8 * ((b - a) / 8)) (mem_cells.2 ⟨_, by omega, rfl⟩) b (mem_cells.2 ⟨0, hn, by omega⟩)
    unfold Far at this
    omega
  · have := h a (mem_cells.2 ⟨0, hm, by omega⟩) (b + 8 * ((a - b) / 8)) (mem_cells.2 ⟨_, by omega, rfl⟩)
    unfold Far at this
    omega

/-! ## The free list -/

/-- A free block. -/
structure Chunk where
  addr : ℕ
  size : ℕ

/-- The units of a block. -/
def Chunk.cells (b : Chunk) : List ℕ := Xv6.cells b.addr b.size

/-- Blocks above `base` in address order, no two side by side. -/
structure Ordered (base : ℕ) (bs : List Chunk) : Prop where
  pos : ∀ b ∈ bs, 0 < b.size
  above : ∀ b ∈ bs, base < b.addr
  apart : bs.Pairwise fun b b' => b.addr + 8 * b.size < b'.addr

/-- A part of the blocks. -/
theorem Ordered.sublist {base : ℕ} {bs bs' : List Chunk} (h : Ordered base bs) (hs : bs'.Sublist bs) :
    Ordered base bs' :=
  ⟨fun b hb => h.pos b (hs.subset hb), fun b hb => h.above b (hs.subset hb), h.apart.sublist hs⟩

/-- A block between those below it and those above it. -/
theorem Ordered.insert {base : ℕ} {pre post : List Chunk} {b : Chunk} (h : Ordered base (pre ++ post))
    (hpos : 0 < b.size) (hbase : base < b.addr) (hpre : ∀ a ∈ pre, a.addr + 8 * a.size < b.addr)
    (hpost : ∀ a ∈ post, b.addr + 8 * b.size < a.addr) : Ordered base (pre ++ b :: post) where
  pos := by
    have := h.pos
    grind
  above := by
    have := h.above
    grind
  apart := by
    obtain ⟨h1, h2, h3⟩ := pairwise_append.1 h.apart
    refine pairwise_append.2 ⟨h1, pairwise_cons.2 ⟨hpost, h2⟩, fun a ha a' ha' => ?_⟩
    rcases mem_cons.1 ha' with rfl | ha'
    · exact hpre a ha
    · exact h3 a ha a' ha'

/-- **The free list**: a ring through `base` of blocks in this order, entered at `freep`. -/
structure FreeList (base : ℕ) (h : Heap) (bs : List Chunk) : Prop where
  links : Linked h.ptr (base :: bs.map Chunk.addr ++ [base])
  freep : h.freep ∈ base :: bs.map Chunk.addr
  sizes : ∀ b ∈ bs, h.size b.addr = b.size
  zero : h.size base = 0
  order : Ordered base bs

section Free

variable {base bp y : ℕ} {h : Heap} {bs pre post : List Chunk}

/-- In address order, a block that overlaps no free block has those below it and those above it. -/
theorem exists_split : ∀ {bs : List Chunk}, bs.Pairwise (fun b b' => b.addr + 8 * b.size < b'.addr) →
    (∀ b ∈ bs, b.addr ≠ bp) → ∃ pre post, bs = pre ++ post ∧ (∀ b ∈ pre, b.addr < bp) ∧
      ∀ b ∈ post, bp < b.addr
  | [], _, _ => ⟨[], [], rfl, nofun, nofun⟩
  | b :: bs, hp, hne => by
    obtain ⟨hb, hp⟩ := pairwise_cons.1 hp
    rcases Nat.lt_or_gt_of_ne (hne b mem_cons_self) with hlt | hgt
    · obtain ⟨pre, post, rfl, h1, h2⟩ := exists_split hp fun b hb => hne b (mem_cons_of_mem _ hb)
      exact ⟨b :: pre, post, rfl, forall_mem_cons.2 ⟨hlt, h1⟩, h2⟩
    · refine ⟨[], b :: bs, rfl, nofun, forall_mem_cons.2 ⟨hgt, fun c hc => ?_⟩⟩
      have := hb c hc
      omega

/-- The addresses of the list are in order. -/
theorem FreeList.sorted (hf : FreeList base h bs) : (base :: bs.map Chunk.addr).Pairwise (· < ·) := by
  refine pairwise_cons.2 ⟨fun a ha => ?_, ?_⟩
  · obtain ⟨b, hb, rfl⟩ := mem_map.1 ha
    exact hf.order.above b hb
  · rw [pairwise_map]
    exact hf.order.apart.imp fun {b b'} hlt => by omega

/-- **`free` looks in the right place**: it stops at the last element below the block. -/
theorem FreeList.seek (hf : FreeList base h bs) (hbase : base < bp) (hne : ∀ b ∈ bs, b.addr ≠ bp) :
    ∃ pre post l y, bs = pre ++ post ∧ (∀ b ∈ pre, b.addr < bp) ∧ (∀ b ∈ post, bp < b.addr) ∧
      base :: pre.map Chunk.addr = l ++ [y] ∧
      ∀ n, bs.length < n → Links.seek h.ptr (h.stops bp) n h.freep = some y := by
  obtain ⟨pre, post, rfl, hpre, hpost⟩ := exists_split hf.order.apart hne
  obtain ⟨l, y, hly⟩ : ∃ l y, base :: pre.map Chunk.addr = l ++ [y] :=
    ⟨_, _, (dropLast_append_getLast (cons_ne_nil _ _)).symm⟩
  refine ⟨pre, post, l, y, rfl, hpre, hpost, hly, ?_⟩
  have hring : base :: (pre ++ post).map Chunk.addr = l ++ y :: post.map Chunk.addr := by
    rw [map_append, ← cons_append, hly, append_assoc]
    rfl
  have hlinks := hf.links
  have hsorted := hf.sorted
  rw [hring] at hlinks hsorted
  rw [append_assoc, cons_append, linked_split] at hlinks
  have hy : base ≤ y ∧ y < bp := by
    have : y ∈ base :: pre.map Chunk.addr := by
      rw [hly]
      exact mem_append_right _ (mem_singleton_self y)
    rcases mem_cons.1 this with rfl | hy
    · exact ⟨Nat.le_refl _, hbase⟩
    · obtain ⟨b, hb, rfl⟩ := mem_map.1 hy
      exact ⟨Nat.le_of_lt (hf.order.above b (mem_append_left _ hb)), hpre b hb⟩
  have hstop : h.stops bp y := by
    cases post with
    | nil =>
      have := (linked_cons_cons.1 hlinks.2).1
      simp only [Heap.stops, this, Bool.or_eq_true, decide_eq_true_eq]
      omega
    | cons w post =>
      have := (linked_cons_cons.1 hlinks.2).1
      have hw := hpost w mem_cons_self
      simp only [Heap.stops, this, Bool.or_eq_true, decide_eq_true_eq]
      omega
  have honly : ∀ z ∈ l ++ y :: post.map Chunk.addr, h.stops bp z → z = y := by
    intro z hz hs
    obtain ⟨hsl, hsr, hcross⟩ := pairwise_append.1 hsorted
    simp only [Heap.stops, Bool.or_eq_true, decide_eq_true_eq] at hs
    rcases mem_append.1 hz with hz | hz
    · -- below `y`, the successor is below the block too
      have hzy := hcross z hz y mem_cons_self
      rcases hlinks.1.next_cases hsl hz with e | ⟨e, hmem⟩
      · omega
      · have := hcross _ hmem y mem_cons_self
        omega
    · rcases mem_cons.1 hz with rfl | hz
      · rfl
      · -- above the block, only the last has a smaller successor, which is `base`
        obtain ⟨b, hb, rfl⟩ := mem_map.1 hz
        have := hpost b hb
        rcases Linked.next_cases (l := y :: post.map Chunk.addr) hlinks.2 hsr (mem_cons_of_mem _ hz) with
          e | ⟨e, -⟩ <;> omega
  obtain ⟨l', hl', hperm⟩ := exists_rotation hf.links hf.freep
  have hmem : y ∈ h.freep :: l' := by
    rw [hperm.mem_iff, hring]
    simp
  obtain ⟨z, hz, hzs, hseek⟩ := seek_of_linked (Linked.left hl') ⟨y, hmem, hstop⟩
  rw [hperm.mem_iff, hring] at hz
  have hlen : l'.length = (pre ++ post).length := by
    have := hperm.length_eq
    simpa using this
  rw [← honly z hz hzs, ← hlen]
  exact hseek

/-- What `free` has done once the block is joined to the next free block, or linked to it. -/
structure JoinedNext (base bp : ℕ) (h : Heap) (post : List Chunk) (h' : Heap) (post' : List Chunk) : Prop where
  ptr : ∀ x, x ≠ bp → h'.ptr x = h.ptr x
  size : ∀ x, x ≠ bp → h'.size x = h.size x
  le : h.size bp ≤ h'.size bp
  links : Linked h'.ptr (bp :: post'.map Chunk.addr ++ [base])
  sublist : post'.Sublist post
  above : ∀ b ∈ post', bp + 8 * h'.size bp < b.addr
  cells : cells bp (h.size bp) ++ post.flatMap Chunk.cells =
    cells bp (h'.size bp) ++ post'.flatMap Chunk.cells
  rest : h'.freep = h.freep ∧ h'.top = h.top ∧ h'.obtained = h.obtained ∧ h'.live = h.live

theorem joinNext_spec (hlinks : Linked h.ptr (y :: post.map Chunk.addr ++ [base]))
    (hsizes : ∀ b ∈ post, h.size b.addr = b.size)
    (hapart : post.Pairwise fun b b' => b.addr + 8 * b.size < b'.addr) (hbase : base < bp)
    (hpost : ∀ b ∈ post, bp + 8 * h.size bp ≤ b.addr) (hpos : 0 < h.size bp) :
    ∃ post', JoinedNext base bp h post (h.joinNext bp y) post' := by
  have hne : ∀ x ∈ post.map Chunk.addr, x ≠ bp := by
    rintro x hx rfl
    obtain ⟨b, hb, e⟩ := mem_map.1 hx
    have := hpost b hb
    omega
  cases post with
  | nil =>
    have hy := (linked_cons_cons.1 hlinks).1
    have hno : ¬ bp + 8 * h.size bp = h.ptr y := by omega
    refine ⟨[], ?_⟩
    simp only [Heap.joinNext, if_neg hno]
    refine ⟨fun x hx => update_of_ne hx .., fun x hx => rfl, Nat.le_refl _, ?_, .refl _, nofun, rfl,
      rfl, rfl, rfl, rfl⟩
    exact linked_cons_cons.2 ⟨(update_self ..).trans hy, linked_singleton _⟩
  | cons w post =>
    obtain ⟨hy, hlinks⟩ := linked_cons_cons.1 hlinks
    obtain ⟨hw, hapart⟩ := pairwise_cons.1 hapart
    have hws := hsizes w mem_cons_self
    have hwp := hpost w mem_cons_self
    by_cases hj : bp + 8 * h.size bp = h.ptr y
    · refine ⟨post, ?_⟩
      have hsz : update h.size bp (h.size bp + h.size (h.ptr y)) bp = h.size bp + w.size := by
        rw [update_self, hy, hws]
      simp only [Heap.joinNext, if_pos hj]
      refine ⟨fun x hx => update_of_ne hx .., fun x hx => update_of_ne hx ..,
        by dsimp only; omega, ?_, sublist_cons_self .., fun b hb => ?_, ?_, rfl, rfl, rfl, rfl⟩
      · refine Linked.replace_head hlinks ?_ fun x hx => update_of_ne (hne x ?_) ..
        · exact (update_self ..).trans (congrArg h.ptr hy)
        · exact mem_cons_of_mem _ hx
      · have := hw b hb
        dsimp only
        omega
      · dsimp only
        rw [hsz, cells_add, flatMap_cons, append_assoc, hj, hy]
        rfl
    · refine ⟨w :: post, ?_⟩
      simp only [Heap.joinNext, if_neg hj]
      refine ⟨fun x hx => update_of_ne hx .., fun x hx => rfl, Nat.le_refl _, ?_, .refl _,
        fun b hb => ?_, rfl, rfl, rfl, rfl, rfl⟩
      · refine linked_cons_cons.2 ⟨(update_self ..).trans hy, ?_⟩
        exact Linked.congr (l := w.addr :: post.map Chunk.addr)
          (fun x hx => update_of_ne (hne x hx) ..) hlinks
      · rcases mem_cons.1 hb with rfl | hb
        · dsimp only
          omega
        · have := hw b hb
          dsimp only
          omega

/-- **`free`**: the list is as before, with the units of the block. -/
structure Freed (base bp : ℕ) (h : Heap) (bs : List Chunk) (h' : Heap) (bs' : List Chunk) : Prop where
  list : FreeList base h' bs'
  cells : (bs'.flatMap Chunk.cells).Perm (cells bp (h.size bp) ++ bs.flatMap Chunk.cells)
  large : ∃ b ∈ bs', h.size bp ≤ b.size
  size : ∀ x, x ≠ bp → x ∉ bs.map Chunk.addr → h'.size x = h.size x
  length : bs'.length ≤ bs.length + 1
  rest : h'.top = h.top ∧ h'.obtained = h.obtained ∧ h'.live = h.live

/-- The ring with other blocks behind the element that `free` has found. -/
theorem ring_split {l : List ℕ} (hl : base :: pre.map Chunk.addr = l ++ [y]) (post : List Chunk) :
    base :: (pre ++ post).map Chunk.addr = l ++ y :: post.map Chunk.addr := by
  rw [map_append, ← cons_append, hl, append_assoc]
  rfl

theorem mem_ring {l : List ℕ} (hl : base :: pre.map Chunk.addr = l ++ [y]) (post : List Chunk) :
    y ∈ base :: (pre ++ post).map Chunk.addr := by
  rw [ring_split hl]
  exact mem_append_right _ mem_cons_self

/-- Block `b` between the blocks `pre` and `post` of a list. -/
theorem FreeList.put {b : Chunk} {h' : Heap} (hf : FreeList base h bs) (hsub : (pre ++ post).Sublist bs)
    (hlinks : Linked h'.ptr (base :: (pre ++ b :: post).map Chunk.addr ++ [base]))
    (hfreep : h'.freep ∈ base :: (pre ++ b :: post).map Chunk.addr) (hb : h'.size b.addr = b.size)
    (hsize : ∀ x, x < b.addr ∨ b.addr + 8 * b.size < x → h'.size x = h.size x) (hpos : 0 < b.size)
    (hbase : base < b.addr) (hpre : ∀ c ∈ pre, c.addr + 8 * c.size < b.addr)
    (hpost : ∀ c ∈ post, b.addr + 8 * b.size < c.addr) : FreeList base h' (pre ++ b :: post) := by
  refine ⟨hlinks, hfreep, fun c hc => ?_, (hsize _ (.inl hbase)).trans hf.zero,
    (hf.order.sublist hsub).insert hpos hbase hpre hpost⟩
  rcases mem_append.1 hc with hc1 | hc1
  · have := hpre c hc1
    exact (hsize _ (.inl (by omega))).trans (hf.sizes c (hsub.subset (mem_append_left _ hc1)))
  · rcases mem_cons.1 hc1 with rfl | hc2
    · exact hb
    · exact (hsize _ (.inr (hpost c hc2))).trans (hf.sizes c (hsub.subset (mem_append_right _ hc2)))

/-- The ring, cut at the element that `free` has found. -/
theorem FreeList.cut {l : List ℕ} (hf : FreeList base h (pre ++ post))
    (hl : base :: pre.map Chunk.addr = l ++ [y]) :
    Linked h.ptr (l ++ [y]) ∧ Linked h.ptr (y :: post.map Chunk.addr ++ [base]) ∧ (∀ x ∈ l, x < y) ∧
      ∀ b ∈ post, y < b.addr := by
  have hlinks := hf.links
  have hsorted := hf.sorted
  rw [ring_split hl] at hlinks hsorted
  rw [append_assoc, cons_append, linked_split] at hlinks
  obtain ⟨-, hsr, hcross⟩ := pairwise_append.1 hsorted
  exact ⟨hlinks.1, hlinks.2, fun x hx => hcross x hx y mem_cons_self,
    fun b hb => (pairwise_cons.1 hsr).1 _ (mem_map_of_mem hb)⟩

section Joined

variable {h1 : Heap} {post1 : List Chunk} {l : List ℕ}

/-- The block is joined to the one before it. -/
theorem freed_join {q : Chunk} (hf : FreeList base h (pre ++ [q] ++ post))
    (hj : JoinedNext base bp h post h1 post1) (hlt : q.addr < bp) (hq : q.addr + 8 * h1.size q.addr = bp) :
    Freed base bp h (pre ++ [q] ++ post) { h1.joinPrev bp q.addr with freep := q.addr }
      (pre ++ ⟨q.addr, q.size + h1.size bp⟩ :: post1) := by
  have hqs : h.size q.addr = q.size := hf.sizes q (by simp)
  have hqp := hf.order.pos q (by simp)
  have hq1 : h1.size q.addr = q.size := by rw [hj.size _ (by omega), hqs]
  rw [hq1] at hq
  obtain ⟨hl1, -, hlt, -⟩ := hf.cut (l := base :: pre.map Chunk.addr) (y := q.addr) (by simp)
  have hsub : (pre ++ post1).Sublist (pre ++ [q] ++ post) := by
    rw [append_assoc]
    exact List.Sublist.append (.refl _) ((hj.sublist.trans (sublist_cons_self ..)))
  have hpre : ∀ b ∈ pre, b.addr + 8 * b.size < q.addr := fun b hb =>
    (pairwise_append.1 (pairwise_append.1 hf.order.apart).1).2.2 b hb q (mem_singleton_self q)
  have hsize : ∀ x, x ≠ q.addr → x ≠ bp →
      update h1.size q.addr (h1.size q.addr + h1.size bp) x = h.size x := fun x hx hx' => by
    rw [update_of_ne hx, hj.size x hx']
  simp only [Heap.joinPrev, hq1, if_pos hq]
  rw [hq1] at hsize
  refine ⟨hf.put hsub ?_ (by simp) (update_self ..) (fun x hx => ?_) (by dsimp only; omega)
    (hlt base mem_cons_self) hpre fun b hb => ?_, ?_, ?_, ?_, ?_, hj.rest.2⟩
  · have e : base :: (pre ++ ⟨q.addr, q.size + h1.size bp⟩ :: post1).map Chunk.addr ++ [base] =
        (base :: pre.map Chunk.addr) ++ q.addr :: (post1.map Chunk.addr ++ [base]) := by simp
    rw [e, linked_split]
    refine ⟨Linked.congr (fun x hx => ?_) hl1, Linked.replace_head hj.links (update_self ..) ?_⟩
    · have hxy := hlt x hx
      exact (update_of_ne (by omega) ..).trans (hj.ptr x (by omega))
    · intro x hx
      obtain ⟨b, hb, rfl⟩ := mem_map.1 hx
      have := hj.above b hb
      exact update_of_ne (by omega) ..
  · dsimp only at hx
    exact hsize x (by omega) (by omega)
  · have := hj.above b hb
    dsimp only
    omega
  · have e : (pre ++ ⟨q.addr, q.size + h1.size bp⟩ :: post1).flatMap Chunk.cells =
        (pre ++ [q]).flatMap Chunk.cells ++ (cells bp (h.size bp) ++ post.flatMap Chunk.cells) := by
      rw [hj.cells]
      simp only [flatMap_append, flatMap_cons, flatMap_nil, Chunk.cells, cells_add, hq,
        append_assoc, nil_append]
    have e' : (pre ++ [q] ++ post).flatMap Chunk.cells =
        (pre ++ [q]).flatMap Chunk.cells ++ post.flatMap Chunk.cells := flatMap_append
    rw [e, e']
    exact perm_append_comm_assoc _ _ _
  · exact ⟨⟨q.addr, q.size + h1.size bp⟩, by simp, by have := hj.le; dsimp only; omega⟩
  · intro x hx hx'
    exact hsize x (fun e => hx' (by simp [e])) hx
  · have := hsub.length_le
    simp only [length_append, length_cons] at this ⊢
    omega

/-- The block stays one of its own. -/
theorem freed_link (hf : FreeList base h (pre ++ post)) (hj : JoinedNext base bp h post h1 post1)
    (hbase : base < bp) (hpos : 0 < h.size bp) (hl : base :: pre.map Chunk.addr = l ++ [y])
    (hpre : ∀ b ∈ pre, b.addr + 8 * b.size < bp) (hno : ¬ y + 8 * h1.size y = bp) (hy : y < bp) :
    Freed base bp h (pre ++ post) { h1.joinPrev bp y with freep := y } (pre ++ ⟨bp, h1.size bp⟩ :: post1) := by
  obtain ⟨hl1, -, hlt, hgt⟩ := hf.cut hl
  have hsub : (pre ++ post1).Sublist (pre ++ post) := List.Sublist.append (.refl _) hj.sublist
  simp only [Heap.joinPrev, if_neg hno]
  refine ⟨hf.put hsub ?_ (mem_ring hl _) rfl (fun x hx => hj.size x (by dsimp only at hx; omega))
    (Nat.lt_of_lt_of_le hpos hj.le) hbase hpre hj.above, ?_, ?_, ?_, ?_, hj.rest.2⟩
  · rw [ring_split hl, append_assoc, cons_append, linked_split]
    refine ⟨Linked.congr (fun x hx => ?_) hl1, linked_cons_cons.2 ⟨update_self .., ?_⟩⟩
    · have hxy := hlt x hx
      exact (update_of_ne (by omega) ..).trans (hj.ptr x (by omega))
    · refine Linked.congr (l := bp :: post1.map Chunk.addr) (fun x hx => update_of_ne ?_ ..) hj.links
      rcases mem_cons.1 hx with rfl | hx
      · omega
      · obtain ⟨b, hb, rfl⟩ := mem_map.1 hx
        have := hgt b (hj.sublist.subset hb)
        omega
  · rw [flatMap_append, flatMap_cons, Chunk.cells, ← hj.cells, flatMap_append]
    exact perm_append_comm_assoc _ _ _
  · exact ⟨⟨bp, h1.size bp⟩, by simp, hj.le⟩
  · exact fun x hx _ => hj.size x hx
  · have := hsub.length_le
    simp only [length_append, length_cons] at this ⊢
    omega

end Joined

/-- **`free` returns**, with fuel for one round of the list, and frees the block. -/
theorem FreeList.free (hf : FreeList base h bs) (bp : ℕ) (hbase : base < bp) (hpos : 0 < h.size bp)
    (hfar : ∀ b ∈ bs, b.addr + 8 * b.size ≤ bp ∨ bp + 8 * h.size bp ≤ b.addr) :
    ∃ h' bs', Freed base bp h bs h' bs' ∧ ∀ n, bs.length < n → h.free n (bp + 8) = .ok h' := by
  have hne : ∀ b ∈ bs, b.addr ≠ bp := fun b hb e => by
    have := hf.order.pos b hb
    rcases hfar b hb with h | h <;> omega
  obtain ⟨pre, post, l, y, rfl, hpre, hpost, hl, hseek⟩ := hf.seek hbase hne
  have hpre' : ∀ b ∈ pre, b.addr + 8 * b.size ≤ bp := fun b hb => by
    have := hpre b hb
    have := hfar b (mem_append_left _ hb)
    omega
  obtain ⟨-, hlinks, -, -⟩ := hf.cut hl
  obtain ⟨post1, hj⟩ := joinNext_spec (y := y) hlinks (fun b hb => hf.sizes b (mem_append_right _ hb))
    (pairwise_append.1 hf.order.apart).2.1 hbase (fun b hb => by
      have := hpost b hb
      have := hfar b (mem_append_right _ hb)
      omega) hpos
  have hret : ∀ n, (pre ++ post).length < n →
      h.free n (bp + 8) = .ok { (h.joinNext bp y).joinPrev bp y with freep := y } := fun n hn => by
    rw [Heap.free, Nat.add_sub_cancel, hseek n hn]
  -- the last element below the block is `base`, or a free block
  rcases eq_nil_or_concat pre with rfl | ⟨pre', q, rfl⟩
  · obtain ⟨rfl, rfl⟩ : l = [] ∧ base = y := by
      cases l <;> simp_all
    refine ⟨_, _, freed_link hf hj hbase hpos (l := []) rfl nofun ?_ hbase, hret⟩
    rw [hj.size _ (by omega), hf.zero]
    omega
  · rw [concat_eq_append] at *
    obtain ⟨rfl, rfl⟩ : l = base :: pre'.map Chunk.addr ∧ y = q.addr := by
      have e : (base :: pre'.map Chunk.addr) ++ [q.addr] = l ++ [y] := by simpa using hl
      have := append_inj' e rfl
      simp_all
    have hq := hpre q (by simp)
    by_cases hjoin : q.addr + 8 * (h.joinNext bp q.addr).size q.addr = bp
    · exact ⟨_, _, freed_join hf hj hq hjoin, hret⟩
    · refine ⟨_, _, freed_link hf hj hbase hpos hl (fun b hb => ?_) hjoin hq, hret⟩
      rcases mem_append.1 hb with hb' | hb'
      · have := (pairwise_append.1 (pairwise_append.1 hf.order.apart).1).2.2 b hb' q
          (mem_singleton_self q)
        omega
      · rw [mem_singleton.1 hb'] at *
        rw [hj.size _ (by omega), hf.sizes q (by simp)] at hjoin
        have := hpre' q (by simp)
        omega

end Free

/-! ## `malloc` -/

section Malloc

variable {base nunits prevp p m n nu : ℕ} {gap : Option ℕ} {h : Heap} {bs : List Chunk}

theorem Chunk.addr_mem_cells {b : Chunk} (hb : 0 < b.size) : b.addr ∈ b.cells :=
  mem_cells.2 ⟨0, hb, by omega⟩

/-- **`malloc` takes a block** of `n` units at `a` out of the free list. -/
structure Taken (base n a : ℕ) (h : Heap) (bs : List Chunk) (h' : Heap) (bs' : List Chunk) : Prop where
  list : FreeList base h' bs'
  cells : (cells a n ++ bs'.flatMap Chunk.cells).Perm (bs.flatMap Chunk.cells)
  taken : h'.size a = n
  size : ∀ x, x ∉ bs.flatMap Chunk.cells → h'.size x = h.size x
  rest : h'.top = h.top ∧ h'.obtained = h.obtained ∧ h'.live = h.live

/-- The block that `malloc` has found, with what is before and after it in the list. -/
theorem FreeList.found (hf : FreeList base h bs) (hprev : prevp ∈ base :: bs.map Chunk.addr)
    (hp : 0 < h.size (h.ptr prevp)) : ∃ pre b post l, bs = pre ++ b :: post ∧ b.addr = h.ptr prevp ∧
      base :: pre.map Chunk.addr = l ++ [prevp] := by
  rcases hf.links.exists_next hprev with e | ⟨l, l', e⟩
  · rw [e, hf.zero] at hp
    cases hp
  · obtain ⟨t, ht⟩ : ∃ t, l ++ [prevp] = base :: t := by
      cases l with
      | nil => exact ⟨[], by simpa using (List.cons.inj e).1.symm⟩
      | cons x l => exact ⟨l ++ [prevp], by rw [cons_append, (List.cons.inj e).1]⟩
    have e' : bs.map Chunk.addr = t ++ h.ptr prevp :: l' := by
      have : base :: bs.map Chunk.addr = (l ++ [prevp]) ++ h.ptr prevp :: l' := by simpa using e
      rw [ht] at this
      exact (List.cons.inj this).2
    obtain ⟨pre, rest, rfl, rfl, hrest⟩ := map_eq_append_iff.1 e'
    obtain ⟨b, post, rfl, hb, -⟩ := map_eq_cons_iff.1 hrest
    exact ⟨pre, b, post, l, rfl, hb, ht.symm⟩

/-- The block is used whole. -/
theorem taken_whole {pre post : List Chunk} {b : Chunk} {l : List ℕ} (hf : FreeList base h (pre ++ b :: post))
    (hl : base :: pre.map Chunk.addr = l ++ [prevp]) :
    Taken base b.size b.addr h (pre ++ b :: post)
      { h with ptr := update h.ptr prevp (h.ptr b.addr), freep := prevp } (pre ++ post) := by
  obtain ⟨hl1, hl2, hlt, hgt⟩ := hf.cut hl
  have hsub : (pre ++ post).Sublist (pre ++ b :: post) :=
    List.Sublist.append (.refl _) (sublist_cons_self ..)
  refine ⟨⟨?_, mem_ring hl _, ?_, hf.zero, hf.order.sublist hsub⟩, ?_, hf.sizes b (by simp), fun _ _ => rfl, rfl, rfl, rfl⟩
  · rw [ring_split hl, append_assoc, cons_append, linked_split]
    refine ⟨Linked.congr (fun x hx => ?_) hl1,
      Linked.replace_head (linked_cons_cons.1 hl2).2 (update_self ..) fun x hx => ?_⟩
    · have := hlt x hx
      exact update_of_ne (by omega) ..
    · obtain ⟨c, hc, rfl⟩ := mem_map.1 hx
      have := hgt c (mem_cons_of_mem _ hc)
      exact update_of_ne (by omega) ..
  · exact fun c hc => hf.sizes c (hsub.subset hc)
  · rw [flatMap_append, flatMap_append, flatMap_cons]
    exact perm_append_comm_assoc _ _ _

/-- The tail of the block is used. -/
theorem taken_tail {pre post : List Chunk} {b : Chunk} {l : List ℕ} (hf : FreeList base h (pre ++ b :: post))
    (hl : base :: pre.map Chunk.addr = l ++ [prevp]) (hn : 0 < nunits)
    (hlt : nunits < b.size) :
    Taken base nunits (b.addr + 8 * (b.size - nunits)) h (pre ++ b :: post)
      { h with
        size := update (update h.size b.addr (b.size - nunits))
          (b.addr + 8 * (b.size - nunits)) nunits
        freep := prevp }
      (pre ++ ⟨b.addr, b.size - nunits⟩ :: post) := by
  have hord := hf.order.apart
  have hpre : ∀ c ∈ pre, c.addr + 8 * c.size < b.addr := fun c hc =>
    (pairwise_append.1 hord).2.2 c hc b mem_cons_self
  have hpost : ∀ c ∈ post, b.addr + 8 * b.size < c.addr := fun c hc =>
    (pairwise_cons.1 (pairwise_append.1 hord).2.1).1 c hc
  have habove := hf.order.above b (by simp)
  have hsize : ∀ x, x < b.addr ∨ b.addr + 8 * (b.size - nunits) < x →
      update (update h.size b.addr (b.size - nunits))
        (b.addr + 8 * (b.size - nunits)) nunits x = h.size x := fun x hx => by
    rw [update_of_ne (by omega), update_of_ne (by omega)]
  refine ⟨hf.put (List.Sublist.append (.refl _) (sublist_cons_self ..)) ?_ (mem_ring hl _)
    ((update_of_ne (by dsimp only; omega) ..).trans (update_self ..))
    (fun x hx => hsize x (by dsimp only at hx; omega)) (by dsimp only; omega) habove hpre fun c hc => ?_,
    ?_, update_self .., ?_, rfl, rfl, rfl⟩
  · have := hf.links
    simp only [map_append, map_cons] at this ⊢
    exact this
  · have := hpost c hc
    dsimp only
    omega
  · have e : b.cells = cells b.addr (b.size - nunits) ++ cells (b.addr + 8 * (b.size - nunits)) nunits := by
      rw [← cells_add, Nat.sub_add_cancel (Nat.le_of_lt hlt)]
      rfl
    rw [flatMap_append, flatMap_append, flatMap_cons, flatMap_cons, e]
    refine (perm_append_comm_assoc _ _ _).trans (.append_left _ ?_)
    rw [append_assoc]
    exact perm_append_comm_assoc _ _ _
  · intro x hx
    have hin : ∀ i < b.size, x ≠ b.addr + 8 * i := fun i hi e =>
      hx (mem_flatMap.2 ⟨b, by simp, mem_cells.2 ⟨i, hi, e.symm⟩⟩)
    have h0 := hin 0 (by omega)
    have h1 := hin (b.size - nunits) (by omega)
    exact (update_of_ne h1 ..).trans (update_of_ne h0 ..)

/-- **The found block is cut**, or used whole. -/
theorem FreeList.carve (hf : FreeList base h bs) (hprev : prevp ∈ base :: bs.map Chunk.addr) (hn : 0 < nunits)
    (hp : nunits ≤ h.size (h.ptr prevp)) :
    ∃ a bs', (h.carve nunits prevp (h.ptr prevp)).2 = a + 8 ∧
      Taken base nunits a h bs (h.carve nunits prevp (h.ptr prevp)).1 bs' := by
  obtain ⟨pre, b, post, l, rfl, hb, hl⟩ := hf.found hprev (Nat.lt_of_lt_of_le hn hp)
  have hs : h.size (h.ptr prevp) = b.size := by rw [← hb, hf.sizes b (by simp)]
  rw [← hb]
  rw [hs] at hp
  by_cases he : b.size = nunits
  · subst he
    refine ⟨b.addr, pre ++ post, ?_, ?_⟩
    · rw [Heap.carve, hb, if_pos hs]
    · rw [Heap.carve, hb, if_pos hs, ← hb]
      exact taken_whole hf hl
  · refine ⟨b.addr + 8 * (b.size - nunits), pre ++ ⟨b.addr, b.size - nunits⟩ :: post, ?_, ?_⟩
    · rw [Heap.carve, hb, hs, if_neg he]
    · rw [Heap.carve, hb, hs, if_neg he, ← hb]
      exact taken_tail hf hl hn (by omega)

section Search

variable {σ : Type} {heap : σ → Heap} (put : σ → Heap → σ) {s : σ}

/-- The search of `malloc` finds a block that is large enough, if the list has one. -/
theorem searchLoop_found {f : ℕ} (hfp : (heap s).freep = f) : ∀ {l : List ℕ} {prevp : ℕ},
    Linked (heap s).ptr (prevp :: l ++ [f]) → (∀ x ∈ l, x ≠ f) → (∃ x ∈ l ++ [f], nunits ≤ (heap s).size x) →
    ∃ q ∈ prevp :: l, nunits ≤ (heap s).size ((heap s).ptr q) ∧ ∀ more n, l.length < n →
      searchLoop heap put more nunits n s prevp ((heap s).ptr prevp) =
        .ok (put s ((heap s).carve nunits q ((heap s).ptr q)).1,
          ((heap s).carve nunits q ((heap s).ptr q)).2) := by
  intro l
  induction l with
  | nil =>
    rintro prevp hl - ⟨x, hx, hs⟩
    have hp : (heap s).ptr prevp = f := (linked_cons_cons.1 hl).1
    rw [nil_append, mem_singleton] at hx
    subst hx
    refine ⟨prevp, mem_cons_self, by rw [hp]; exact hs, fun more n hn => ?_⟩
    obtain ⟨n, rfl⟩ := Nat.exists_eq_succ_of_ne_zero (Nat.ne_of_gt hn)
    rw [searchLoop, hp, if_pos hs]
  | cons w l ih =>
    rintro prevp hl hne ⟨x, hx, hs⟩
    obtain ⟨hp, hl⟩ := linked_cons_cons.1 hl
    by_cases hw : nunits ≤ (heap s).size w
    · refine ⟨prevp, mem_cons_self, by rw [hp]; exact hw, fun more n hn => ?_⟩
      obtain ⟨n, rfl⟩ := Nat.exists_eq_succ_of_ne_zero (Nat.ne_of_gt (Nat.zero_lt_of_lt hn))
      rw [searchLoop, hp, if_pos hw]
    · have hx' : x ∈ l ++ [f] := by
        rcases mem_cons.1 hx with rfl | hx
        · exact absurd hs hw
        · exact hx
      obtain ⟨q, hq, hqs, hret⟩ := ih hl (fun y hy => hne y (mem_cons_of_mem _ hy)) ⟨x, hx', hs⟩
      refine ⟨q, mem_cons_of_mem _ hq, hqs, fun more n hn => ?_⟩
      obtain ⟨n, rfl⟩ := Nat.exists_eq_succ_of_ne_zero (Nat.ne_of_gt (Nat.zero_lt_of_lt hn))
      rw [searchLoop, hp, if_neg hw, if_neg (by rw [hfp]; exact hne w mem_cons_self)]
      exact hret more n (by simpa using hn)

/-- … and comes to `morecore`, if the list has none. -/
theorem searchLoop_none (more : σ → Except String (Option σ)) {f : ℕ} (hfp : (heap s).freep = f) :
    ∀ {l : List ℕ} {prevp : ℕ}, Linked (heap s).ptr (prevp :: l ++ [f]) → (∀ x ∈ l, x ≠ f) →
    (∀ x ∈ l ++ [f], (heap s).size x < nunits) → ∀ n,
      searchLoop heap put more nunits (l.length + 1 + n) s prevp ((heap s).ptr prevp) = (do
        match ← more s with
        | none => .ok (s, 0)
        | some s => searchLoop heap put more nunits n s (heap s).freep ((heap s).ptr (heap s).freep)) := by
  intro l
  induction l with
  | nil =>
    intro prevp hl _ hs n
    have hp : (heap s).ptr prevp = f := (linked_cons_cons.1 hl).1
    have hf := hs f (by simp)
    rw [length_nil, Nat.zero_add, Nat.add_comm, searchLoop, hp, if_neg (by omega)]
    exact if_pos hfp.symm
  | cons w l ih =>
    intro prevp hl hne hs n
    obtain ⟨hp, hl⟩ := linked_cons_cons.1 hl
    have hw := hs w (by simp)
    have e : (w :: l).length + 1 + n = (l.length + 1 + n) + 1 := by
      rw [length_cons]
      omega
    rw [e, searchLoop, hp, if_neg (by omega), if_neg (by rw [hfp]; exact hne w mem_cons_self)]
    exact ih hl (fun y hy => hne y (mem_cons_of_mem _ hy))
      (fun y hy => hs y (mem_cons_of_mem _ hy)) n

end Search

/-- The ring, as `malloc` walks it. -/
theorem FreeList.walk (hf : FreeList base h bs) : ∃ l, Linked h.ptr (h.freep :: l ++ [h.freep]) ∧
    (h.freep :: l).Perm (base :: bs.map Chunk.addr) ∧ (∀ x ∈ l, x ≠ h.freep) ∧ l.length = bs.length := by
  obtain ⟨l, hl, hperm⟩ := exists_rotation hf.links hf.freep
  have hnd : (h.freep :: l).Nodup := hperm.nodup_iff.2 (hf.sorted.imp fun hlt => Nat.ne_of_lt hlt)
  refine ⟨l, hl, hperm, fun x hx e => (nodup_cons.1 hnd).1 (e ▸ hx), ?_⟩
  simpa using hperm.length_eq

/-- **`malloc` from a list that has a block that is large enough.** -/
theorem FreeList.take {σ : Type} {heap : σ → Heap} (put : σ → Heap → σ) {s : σ} (hf : FreeList base (heap s) bs)
    (hn : 0 < nunits) (hlarge : ∃ b ∈ bs, nunits ≤ b.size) :
    ∃ h' a bs', Taken base nunits a (heap s) bs h' bs' ∧ ∀ more n, bs.length < n →
      searchLoop heap put more nunits n s (heap s).freep
        ((heap s).ptr (heap s).freep) = .ok (put s h', a + 8) := by
  obtain ⟨l, hl, hperm, hne, hlen⟩ := hf.walk
  obtain ⟨b, hb, hbs⟩ := hlarge
  have hx : ∃ x ∈ l ++ [(heap s).freep], nunits ≤ (heap s).size x := by
    refine ⟨b.addr, ?_, by rw [hf.sizes b hb]; exact hbs⟩
    have : b.addr ∈ (heap s).freep :: l := hperm.mem_iff.2 (mem_cons_of_mem _ (mem_map_of_mem hb))
    simp only [mem_cons, mem_append, not_mem_nil, or_false] at this ⊢
    exact this.symm
  obtain ⟨q, hq, hqs, hret⟩ := searchLoop_found put rfl hl hne hx
  obtain ⟨a, bs', ha, htaken⟩ := hf.carve (hperm.mem_iff.1 hq) hn hqs
  refine ⟨_, a, bs', htaken, fun more n hn => ?_⟩
  rw [hret more n (by omega), ← ha]

/-- The free list gets `k` new units at `p`. -/
structure Grown (base p k : ℕ) (h : Heap) (bs : List Chunk) (h' : Heap) (bs' : List Chunk) : Prop where
  list : FreeList base h' bs'
  cells : (bs'.flatMap Chunk.cells).Perm (cells p k ++ bs.flatMap Chunk.cells)
  large : ∃ b ∈ bs', k ≤ b.size
  size : ∀ x, x ≠ p → x ∉ bs.map Chunk.addr → h'.size x = h.size x
  length : bs'.length ≤ bs.length + 1
  rest : h'.top = p + 8 * k ∧ h'.obtained = h.obtained ++ Xv6.cells p k ∧ h'.live = h.live

/-- **`morecore`**, where the bytes that it asks for fit a word. -/
theorem FreeList.morecore (hf : FreeList base h bs) (hbase : base < h.top)
    (hbs : ∀ b ∈ bs, b.addr + 8 * b.size ≤ h.top) (hnu : nu * 8 < 2 ^ 32) (g : ℕ) :
    ∃ h' bs', Grown base (h.top + g) (moreUnits nu) h bs h' bs' ∧
      ∀ m, bs.length < m → h.morecore m nu (some g) = .ok (some h') := by
  have hk : moreUnits nu * 8 < 2 ^ 32 ∧ 0 < moreUnits nu := by
    unfold moreUnits
    split <;> omega
  have haddr : ∀ b ∈ bs, b.addr < h.top := fun b hb => by
    have := hbs b hb
    have := hf.order.pos b hb
    omega
  let h1 : Heap := { h with
    size := update h.size (h.top + g) (moreUnits nu)
    top := h.top + g + moreUnits nu * 8
    obtained := h.obtained ++ cells (h.top + g) (moreUnits nu) }
  have hs1 : h1.size (h.top + g) = moreUnits nu := update_self ..
  have hf1 : FreeList base h1 bs := by
    refine ⟨hf.links, hf.freep, fun b hb => ?_, ?_, hf.order⟩
    · have := haddr b hb
      exact (update_of_ne (by omega) ..).trans (hf.sizes b hb)
    · exact (update_of_ne (by omega) ..).trans hf.zero
  obtain ⟨h', bs', hfreed, hret⟩ := hf1.free (h.top + g) (by omega) (by omega) fun b hb => by
    have := hbs b hb
    omega
  refine ⟨h', bs', ⟨hfreed.list, ?_, ?_, fun x hx hx' => ?_, hfreed.length, ?_⟩, fun m hm => ?_⟩
  · have := hfreed.cells
    rwa [hs1] at this
  · have := hfreed.large
    rwa [hs1] at this
  · exact (hfreed.size x hx hx').trans (update_of_ne hx ..)
  · obtain ⟨ht, ho, hl⟩ := hfreed.rest
    exact ⟨by rw [ht, Nat.mul_comm 8], ho, hl⟩
  · have e : moreUnits nu * 8 % 2 ^ 32 = moreUnits nu * 8 := Nat.mod_eq_of_lt hk.1
    have e' : moreUnits nu * 8 / 8 = moreUnits nu := Nat.mul_div_cancel _ (by decide)
    simp only [Heap.morecore, Heap.sbrk, Option.map_some, e, e']
    exact congrArg (· >>= fun h => .ok (some h)) (hret m hm)

/-- **`malloc` returns a block** of `n` units at `a`; `extra` are the units that `sbrk` gave for it. -/
structure Malloced (base n a : ℕ) (extra : List ℕ) (h : Heap) (bs : List Chunk) (h' : Heap)
    (bs' : List Chunk) : Prop where
  list : FreeList base h' bs'
  cells : (cells a n ++ bs'.flatMap Chunk.cells).Perm (extra ++ bs.flatMap Chunk.cells)
  taken : h'.size a = n
  size : ∀ x, x ∉ extra ++ bs.flatMap Chunk.cells → h'.size x = h.size x
  source : extra = [] ∧ h'.top = h.top ∨ ∃ p k, h.top ≤ p ∧ extra = Xv6.cells p k ∧ h'.top = p + 8 * k
  rest : h'.obtained = h.obtained ++ extra ∧ h'.live = h.live

/-- **The loop of `malloc`, once the list is there**: it returns a block, from the list or from the memory that
`more` gets as `morecore` does, or fails and changes nothing. -/
theorem FreeList.search {σ : Type} (heap : σ → Heap) (put : σ → Heap → σ) (got : Heap → σ) {s : σ}
    (hgot : ∀ h, heap (got h) = h) (hf : FreeList base (heap s) bs) (hbase : base < (heap s).top)
    (hbs : ∀ b ∈ bs, b.addr + 8 * b.size ≤ (heap s).top) (hn : 0 < nunits) (hnu : nunits * 8 < 2 ^ 32)
    (gap : Option ℕ) (more : ℕ → σ → Except String (Option σ))
    (hmore : ∀ m, more m s = (heap s).morecore m nunits gap >>= fun o => .ok (o.map got)) :
    ∃ s' r, (r = 0 ∧ s' = s ∧ gap = none ∨ ∃ h' a extra bs', r = a + 8 ∧
        Malloced base nunits a extra (heap s) bs h' bs' ∧
        (extra = [] ∧ h'.top = (heap s).top ∧ s' = put s h' ∨ ∃ g h1, gap = some g ∧
          extra = cells ((heap s).top + g) (moreUnits nunits) ∧ s' = put (got h1) h')) ∧
      ∀ n, 2 * bs.length + 3 ≤ n →
        searchLoop heap put (more n) nunits n s (heap s).freep ((heap s).ptr (heap s).freep) = .ok (s', r) := by
  by_cases hlarge : ∃ b ∈ bs, nunits ≤ b.size
  · obtain ⟨h', a, bs', ht, hret⟩ := hf.take put hn hlarge
    have hm : Malloced base nunits a [] (heap s) bs h' bs' :=
      ⟨ht.list, ht.cells, ht.taken, ht.size, .inl ⟨rfl, ht.rest.1⟩, by rw [ht.rest.2.1, append_nil],
        ht.rest.2.2⟩
    exact ⟨_, a + 8, .inr ⟨h', a, [], bs', rfl, hm, .inl ⟨rfl, ht.rest.1, rfl⟩⟩, fun n hn => hret _ n (by omega)⟩
  · obtain ⟨l, hl, hperm, hne, hlen⟩ := hf.walk
    have hsmall : ∀ x ∈ l ++ [(heap s).freep], (heap s).size x < nunits := by
      intro x hx
      have hx' : x ∈ base :: bs.map Chunk.addr := hperm.mem_iff.1 (by simpa [or_comm] using hx)
      rcases mem_cons.1 hx' with rfl | hx'
      · rw [hf.zero]
        exact hn
      · obtain ⟨b, hb, rfl⟩ := mem_map.1 hx'
        rw [hf.sizes b hb]
        exact Nat.lt_of_not_le fun hle => hlarge ⟨b, hb, hle⟩
    have hloop := fun n m => searchLoop_none put (more m) rfl hl hne hsmall n
    cases gap with
    | none =>
      refine ⟨s, 0, .inl ⟨rfl, rfl, rfl⟩, fun n hn => ?_⟩
      obtain ⟨k, rfl⟩ : ∃ k, n = l.length + 1 + k := ⟨n - (l.length + 1), by omega⟩
      rw [hloop, hmore]
      rfl
    | some g =>
      obtain ⟨h1, bs1, hg, hcore⟩ := hf.morecore hbase hbs hnu g
      have hk : nunits ≤ moreUnits nunits := by
        unfold moreUnits
        split <;> omega
      obtain ⟨b, hb, hbk⟩ := hg.large
      have hlist : FreeList base (heap (got h1)) bs1 := by
        rw [hgot]
        exact hg.list
      obtain ⟨h', a, bs', ht, hret⟩ := hlist.take put hn ⟨b, hb, Nat.le_trans hk hbk⟩
      rw [hgot] at ht
      refine ⟨_, a + 8, .inr ⟨h', a, _, bs', rfl, ⟨ht.list, ht.cells.trans hg.cells, ht.taken, ?_,
        .inr ⟨(heap s).top + g, moreUnits nunits, by omega, rfl, ?_⟩, ?_⟩, .inr ⟨g, h1, rfl, rfl, rfl⟩⟩,
        fun n hn => ?_⟩
      · intro x hx
        have hx1 : x ∉ bs1.flatMap Chunk.cells := fun h => hx (hg.cells.mem_iff.1 h)
        rw [ht.size x hx1]
        refine hg.size x (fun e => hx ?_) fun hmem => hx ?_
        · exact mem_append_left _ (mem_cells.2 ⟨0, by omega, e.symm⟩)
        · obtain ⟨b, hb, rfl⟩ := mem_map.1 hmem
          exact mem_append_right _
            (mem_flatMap.2 ⟨b, hb, Chunk.addr_mem_cells (hf.order.pos b hb)⟩)
      · rw [ht.rest.1, hg.rest.1]
      · exact ⟨by rw [ht.rest.2.1, hg.rest.2.1], by rw [ht.rest.2.2, hg.rest.2.2]⟩
      · obtain ⟨k, rfl⟩ : ∃ k, n = l.length + 1 + k := ⟨n - (l.length + 1), by omega⟩
        have := hg.length
        rw [hloop, hmore, hcore _ (by omega)]
        exact hret _ k (by omega)

/-- **`malloc`, once the list is there**: it returns a block, or fails and changes nothing. -/
theorem FreeList.malloc (hf : FreeList base h bs) (hbase : base < h.top)
    (hbs : ∀ b ∈ bs, b.addr + 8 * b.size ≤ h.top) (hn : 0 < nunits) (hnu : nunits * 8 < 2 ^ 32)
    (gap : Option ℕ) : ∃ h' r, (r = 0 ∧ h' = h ∨ ∃ a extra bs', r = a + 8 ∧
        Malloced base nunits a extra h bs h' bs') ∧
      ∀ n, 2 * bs.length + 3 ≤ n →
        Xv6.mallocLoop n nunits gap n h h.freep (h.ptr h.freep) = .ok (h', r) := by
  obtain ⟨h', r, hr, hret⟩ := FreeList.search id (s := h) (fun _ h => h) id (fun _ => rfl) hf hbase hbs hn
    hnu gap (fun m h => h.morecore m nunits gap) fun m => by
      rw [id_eq]
      cases h.morecore m nunits gap with
      | error e => rfl
      | ok o => cases o <;> rfl
  refine ⟨h', r, hr.imp (fun hr => ⟨hr.1, hr.2.1⟩) ?_, fun n hn => ?_⟩
  · rintro ⟨h2, a, extra, bs', hr, hm, ⟨-, -, rfl⟩ | ⟨g, h1, -, -, rfl⟩⟩
    · exact ⟨a, extra, bs', hr, hm⟩
    · exact ⟨a, extra, bs', hr, hm⟩
  · rw [mallocLoop_eq_searchLoop]
    exact hret n hn

end Malloc

end Xv6
