import Xv6.User.FreeList

/-!
# User/Heap — every unit is accounted for

The units of the free blocks and of the blocks of the program are, in some order, the units that `sbrk` has
given.  Blocks that share no units do not overlap, and no unit is lost; both are read off from the account.
-/

namespace Xv6

open Outcome Links List

/-! ## The account -/

/-- The blocks of the program. -/
def Heap.blocks (h : Heap) : List Chunk := h.live.map fun l => ⟨l.1, h.size l.1⟩

/-- **The account**: free blocks and blocks of the program together have the units that `sbrk` gave. -/
structure Account (base : ℕ) (h : Heap) (bs : List Chunk) : Prop where
  perm : ((bs ++ h.blocks).flatMap Chunk.cells).Perm h.obtained
  far : h.obtained.Pairwise Far
  bound : ∀ c ∈ h.obtained, base < c ∧ c + 8 ≤ h.top
  top : base < h.top
  pos : ∀ b ∈ bs ++ h.blocks, 0 < b.size
  enough : ∀ l ∈ h.live, l.2 + 8 ≤ 8 * h.size l.1

section Account

variable {base : ℕ} {h h' : Heap} {bs bs' : List Chunk}

theorem Far.symm {c c' : ℕ} (h : Far c c') : Far c' c := Or.symm h

section

variable (ha : Account base h bs)

include ha

/-- **No two blocks overlap.** -/
theorem Account.apart :
    (bs ++ h.blocks).Pairwise fun b b' => b.addr + 8 * b.size ≤ b'.addr ∨ b'.addr + 8 * b'.size ≤ b.addr := by
  have hfar : ((bs ++ h.blocks).flatMap Chunk.cells).Pairwise Far :=
    (ha.perm.pairwise_iff fun {_ _} => Far.symm).2 ha.far
  refine (pairwise_flatMap.1 hfar).2.imp_of_mem fun {b b'} hb hb' hc => ?_
  exact apart_of_far (ha.pos b hb) (ha.pos b' hb') hc

/-- All blocks lie in the memory that `sbrk` gave. -/
theorem Account.inside {b : Chunk} (hb : b ∈ bs ++ h.blocks) {x : ℕ}
    (h1 : b.addr ≤ x) (h2 : x < b.addr + 8 * b.size) : ∃ c ∈ h.obtained, c ≤ x ∧ x < c + 8 := by
  refine ⟨b.addr + 8 * ((x - b.addr) / 8), ha.perm.mem_iff.1 ?_, by omega, by omega⟩
  exact mem_flatMap.2 ⟨b, hb, mem_cells.2 ⟨_, by omega, rfl⟩⟩

theorem Account.bounds {b : Chunk} (hb : b ∈ bs ++ h.blocks) :
    base < b.addr ∧ b.addr + 8 * b.size ≤ h.top := by
  have hp := ha.pos b hb
  have hmem : ∀ i < b.size, b.addr + 8 * i ∈ h.obtained := fun i hi =>
    ha.perm.mem_iff.1 (mem_flatMap.2 ⟨b, hb, mem_cells.2 ⟨i, hi, rfl⟩⟩)
  have h0 := ha.bound _ (hmem 0 hp)
  have h1 := ha.bound _ (hmem (b.size - 1) (by omega))
  omega

/-- Every unit is counted once. -/
theorem Account.units :
    (bs.map Chunk.size).sum + (h.live.map fun l => h.size l.1).sum = h.obtained.length := by
  rw [← ha.perm.length_eq, length_flatMap, map_append, sum_append]
  simp [Heap.blocks, Chunk.cells, Function.comp_def]

/-- A block of the program is none of the free blocks. -/
theorem Account.notMem_free {l : ℕ × ℕ} (hl : l ∈ h.live) :
    l.1 ∉ bs.flatMap Chunk.cells := by
  intro hmem
  have hfar : ((bs ++ h.blocks).flatMap Chunk.cells).Pairwise Far :=
    (ha.perm.pairwise_iff fun {_ _} => Far.symm).2 ha.far
  rw [flatMap_append] at hfar
  have hb : (⟨l.1, h.size l.1⟩ : Chunk) ∈ h.blocks := mem_map.2 ⟨l, hl, rfl⟩
  have := (pairwise_append.1 hfar).2.2 l.1 hmem l.1
    (mem_flatMap.2 ⟨_, hb, Chunk.addr_mem_cells (ha.pos _ (mem_append_right _ hb))⟩)
  unfold Far at this
  omega

/-- The account depends on the sizes of the blocks only. -/
theorem Account.congr (hl : h'.live = h.live) (ho : h'.obtained = h.obtained)
    (ht : h'.top = h.top) (hs : ∀ l ∈ h.live, h'.size l.1 = h.size l.1) : Account base h' bs := by
  have hb : h'.blocks = h.blocks := by
    rw [Heap.blocks, hl]
    exact map_congr_left fun l hl => by rw [hs l hl]
  refine ⟨?_, ?_, ?_, ?_, ?_, fun l hl' => ?_⟩
  · rw [hb, ho]
    exact ha.perm
  · rw [ho]
    exact ha.far
  · rw [ho, ht]
    exact ha.bound
  · rw [ht]
    exact ha.top
  · rw [hb]
    exact ha.pos
  · rw [hl] at hl'
    rw [hs l hl']
    exact ha.enough l hl'

end

/-! ## Every step -/

/-- What every state satisfies: the account, and the free list once there is one. -/
def Heap.Good (base : ℕ) (h : Heap) : Prop :=
  ∃ bs, Account base h bs ∧ (FreeList base h bs ∨ h.freep = 0 ∧ bs = [] ∧ h.live = [])

theorem unitsFor_spec {nbytes : ℕ} (h : nbytes + 16 ≤ 2 ^ 32) :
    0 < unitsFor nbytes ∧ unitsFor nbytes * 8 < 2 ^ 32 ∧ nbytes + 8 ≤ 8 * unitsFor nbytes := by
  unfold unitsFor
  rw [Nat.mod_eq_of_lt (by omega)]
  omega

/-- The first call makes an empty list. -/
theorem Heap.Good.start (hg : h.Good base) (hbase : 0 < base) :
    ∃ bs, Account base (h.start base) bs ∧ FreeList base (h.start base) bs := by
  obtain ⟨bs, ha, hf | ⟨hf, rfl, hl⟩⟩ := hg
  · have hne : h.freep ≠ 0 := by
      rcases mem_cons.1 hf.freep with e | hmem
      · omega
      · obtain ⟨b, hb, e⟩ := mem_map.1 hmem
        have := hf.order.above b hb
        omega
    rw [Heap.start, if_neg hne]
    exact ⟨bs, ha, hf⟩
  · rw [Heap.start, if_pos hf]
    refine ⟨[], ha.congr rfl rfl rfl (by rw [hl]; nofun), ⟨?_, mem_cons_self, nofun, ?_, nofun, nofun, .nil⟩⟩
    · exact linked_cons_cons.2 ⟨Function.update_self .., linked_singleton _⟩
    · exact Function.update_self ..

/-- The units of a block are far from each other. -/
theorem pairwise_cells (a n : ℕ) : (cells a n).Pairwise Far := by
  rw [cells, pairwise_map]
  refine pairwise_lt_range.imp fun {i j} hij => .inl ?_
  omega

/-- The account after `malloc`. -/
theorem Account.malloc {n a nbytes : ℕ} {extra : List ℕ} (ha : Account base h bs)
    (hm : Malloced base n a extra h bs h' bs') (hn : 0 < n) (henough : nbytes + 8 ≤ 8 * n) :
    Account base { h' with live := (a, nbytes) :: h'.live } bs' := by
  have hextra : ∀ c ∈ extra, h.top ≤ c ∧ c + 8 ≤ h'.top := by
    rcases hm.source with ⟨rfl, -⟩ | ⟨p, k, hp, rfl, ht⟩
    · nofun
    · intro c hc
      obtain ⟨i, hi, rfl⟩ := mem_cells.1 hc
      omega
  have htop : h.top ≤ h'.top := by
    rcases hm.source with ⟨-, ht⟩ | ⟨p, k, hp, -, ht⟩ <;> omega
  have hfar : extra.Pairwise Far := by
    rcases hm.source with ⟨rfl, -⟩ | ⟨p, k, -, rfl, -⟩
    · exact .nil
    · exact pairwise_cells p k
  have hsize : ∀ l ∈ h.live, h'.size l.1 = h.size l.1 := fun l hl => by
    refine hm.size _ fun hmem => ?_
    rcases mem_append.1 hmem with hmem | hmem
    · have hb := ha.bounds (b := ⟨l.1, h.size l.1⟩) (mem_append_right _ (mem_map.2 ⟨l, hl, rfl⟩))
      have hp := ha.pos ⟨l.1, h.size l.1⟩ (mem_append_right _ (mem_map.2 ⟨l, hl, rfl⟩))
      have := hextra _ hmem
      dsimp only at hb hp
      omega
    · exact ha.notMem_free hl hmem
  have hblocks : Heap.blocks { h' with live := (a, nbytes) :: h'.live } = ⟨a, n⟩ :: h.blocks := by
    simp only [Heap.blocks, map_cons, hm.taken, hm.rest.2]
    congr 1
    exact map_congr_left fun l hl => by rw [hsize l hl]
  refine ⟨?_, ?_, ?_, Nat.lt_of_lt_of_le ha.top htop, ?_, ?_⟩
  · rw [hblocks, hm.rest.1]
    calc ((bs' ++ ⟨a, n⟩ :: h.blocks).flatMap Chunk.cells)
      _ = bs'.flatMap Chunk.cells ++ (cells a n ++ h.blocks.flatMap Chunk.cells) := by
        rw [flatMap_append, flatMap_cons]
        rfl
      _ ~ cells a n ++ (bs'.flatMap Chunk.cells ++ h.blocks.flatMap Chunk.cells) :=
        perm_append_comm_assoc _ _ _
      _ = (cells a n ++ bs'.flatMap Chunk.cells) ++ h.blocks.flatMap Chunk.cells :=
        (append_assoc ..).symm
      _ ~ (extra ++ bs.flatMap Chunk.cells) ++ h.blocks.flatMap Chunk.cells := hm.cells.append_right _
      _ = extra ++ (bs ++ h.blocks).flatMap Chunk.cells := by
        rw [append_assoc, flatMap_append]
      _ ~ extra ++ h.obtained := ha.perm.append_left _
      _ ~ h.obtained ++ extra := perm_append_comm
  · rw [hm.rest.1]
    refine pairwise_append.2 ⟨ha.far, hfar, fun c hc c' hc' => .inl ?_⟩
    have := (ha.bound c hc).2
    have := (hextra c' hc').1
    omega
  · intro c hc
    rw [hm.rest.1] at hc
    rcases mem_append.1 hc with hc | hc
    · have := ha.bound c hc
      dsimp only
      omega
    · have := hextra c hc
      have := ha.top
      dsimp only
      omega
  · intro b hb
    rw [hblocks] at hb
    rcases mem_append.1 hb with hb | hb
    · exact hm.list.order.pos b hb
    · rcases mem_cons.1 hb with rfl | hb
      · exact hn
      · exact ha.pos b (mem_append_right _ hb)
  · intro l hl
    rcases mem_cons.1 hl with rfl | hl
    · dsimp only
      rw [hm.taken]
      exact henough
    · rw [hm.rest.2] at hl
      exact (congrArg (fun s => l.2 + 8 ≤ 8 * s) (hsize l hl)).mpr (ha.enough l hl)

/-- The account after `free`. -/
theorem Account.free {l : ℕ × ℕ} {l1 l2 : List (ℕ × ℕ)} (ha : Account base h bs)
    (hlive : h.live = l1 ++ l :: l2) (hm : Freed base l.1 h bs h' bs') :
    Account base { h' with live := l1 ++ l2 } bs' := by
  have hblocks : h.blocks = l1.map (fun l => ⟨l.1, h.size l.1⟩) ++
      ⟨l.1, h.size l.1⟩ :: l2.map fun l => ⟨l.1, h.size l.1⟩ := by
    rw [Heap.blocks, hlive, map_append, map_cons]
  have hmem : ∀ x ∈ l1 ++ l2, x ∈ h.live := fun x hx => by
    rw [hlive]
    exact mem_append.2 ((mem_append.1 hx).imp_right (mem_cons_of_mem _))
  have hpos : ∀ x ∈ h.live, 0 < h.size x.1 := fun x hx =>
    ha.pos ⟨x.1, h.size x.1⟩ (mem_append_right _ (mem_map.2 ⟨x, hx, rfl⟩))
  have hne : ∀ x ∈ l1 ++ l2, x.1 ≠ l.1 := by
    intro x hx e
    have hap := (pairwise_append.1 ha.apart).2.1
    rw [Heap.blocks, pairwise_map, hlive] at hap
    obtain ⟨-, hap2, hap1⟩ := pairwise_append.1 hap
    have hx0 := hpos x (hmem x hx)
    have : x.1 + 8 * h.size x.1 ≤ l.1 ∨ l.1 + 8 * h.size l.1 ≤ x.1 := by
      rcases mem_append.1 hx with hx | hx
      · exact hap1 x hx l mem_cons_self
      · exact ((pairwise_cons.1 hap2).1 x hx).symm
    rw [← e] at this
    omega
  have hsize : ∀ x ∈ l1 ++ l2, h'.size x.1 = h.size x.1 := fun x hx => by
    refine hm.size _ (hne x hx) fun hin => ha.notMem_free (hmem x hx) ?_
    obtain ⟨b, hb, e⟩ := mem_map.1 hin
    exact mem_flatMap.2 ⟨b, hb, e ▸ Chunk.addr_mem_cells (ha.pos b (mem_append_left _ hb))⟩
  have hblocks' : Heap.blocks { h' with live := l1 ++ l2 } = (l1 ++ l2).map fun l => ⟨l.1, h.size l.1⟩ :=
    map_congr_left fun x hx => by
      dsimp only
      rw [hsize x hx]
  refine ⟨?_, ?_, ?_, ?_, ?_, ?_⟩
  · rw [hblocks', hm.rest.2.1]
    refine List.Perm.trans ?_ ha.perm
    rw [hblocks, map_append]
    simp only [flatMap_append, flatMap_cons]
    refine (hm.cells.append_right _).trans ?_
    rw [append_assoc]
    refine (perm_append_comm_assoc _ _ _).trans (.append_left _ ?_)
    exact perm_append_comm_assoc _ _ _
  · rw [hm.rest.2.1]
    exact ha.far
  · rw [hm.rest.1, hm.rest.2.1]
    exact ha.bound
  · rw [hm.rest.1]
    exact ha.top
  · intro b hb
    rw [hblocks'] at hb
    rcases mem_append.1 hb with hb | hb
    · exact hm.list.order.pos b hb
    · obtain ⟨x, hx, rfl⟩ := mem_map.1 hb
      exact ha.pos _ (mem_append_right _ (mem_map.2 ⟨x, hmem x hx, rfl⟩))
  · intro x hx
    exact (congrArg (fun s => x.2 + 8 ≤ 8 * s) (hsize x hx)).mpr (ha.enough x (hmem x hx))

theorem Heap.Good.malloc {nbytes : ℕ} (hg : h.Good base) (hbase : 0 < base) (hn : nbytes + 16 ≤ 2 ^ 32)
    (gap : Option ℕ) : ∃ h' N, h'.Good base ∧
      ∀ n, N ≤ n → (HeapEvent.malloc nbytes gap).run base n h = .ok h' := by
  obtain ⟨hpos, hunits, henough⟩ := unitsFor_spec hn
  obtain ⟨bs, ha, hf⟩ := hg.start hbase
  obtain ⟨h', r, hr, hret⟩ := hf.malloc ha.top
    (fun b hb => (ha.bounds (mem_append_left _ hb)).2) hpos hunits gap
  have hrun : ∀ n, 2 * bs.length + 3 ≤ n → (HeapEvent.malloc nbytes gap).run base n h =
      .ok (if r = 0 then h' else { h' with live := (r - 8, nbytes) :: h'.live }) := fun n hn => by
    simp only [HeapEvent.run, Heap.malloc, hret n hn, ok_bind]
  rcases hr with ⟨rfl, rfl⟩ | ⟨a, extra, bs', rfl, hm⟩
  · exact ⟨_, _, ⟨bs, ha, .inl hf⟩, hrun⟩
  · refine ⟨_, _, ⟨bs', ha.malloc hm hpos henough, .inl ?_⟩, hrun⟩
    exact ⟨hm.list.links, hm.list.freep, hm.list.sizes, hm.list.zero, hm.list.order⟩

theorem Heap.Good.free (hg : h.Good base) (ap : ℕ) : ∃ h' N, h'.Good base ∧
    ∀ n, N ≤ n → (HeapEvent.free ap).run base n h = .ok h' := by
  by_cases hl : h.live.any fun l => l.1 + 8 = ap
  · obtain ⟨bs, ha, hf | ⟨-, -, hl'⟩⟩ := hg
    swap
    · rw [hl'] at hl
      cases hl
    obtain ⟨l, hmem, hap⟩ := any_eq_true.1 hl
    obtain ⟨l, l1, l2, -, hap, hlive, herase⟩ := exists_of_eraseP (p := fun l => decide (l.1 + 8 = ap)) hmem hap
    have hap : l.1 + 8 = ap := of_decide_eq_true hap
    have hb : (⟨l.1, h.size l.1⟩ : Chunk) ∈ h.blocks :=
      mem_map.2 ⟨l, by rw [hlive]; simp, rfl⟩
    obtain ⟨h', bs', hm, hret⟩ := hf.free l.1 (ha.bounds (mem_append_right _ hb)).1
      (ha.pos _ (mem_append_right _ hb)) fun b hb' =>
        (pairwise_append.1 ha.apart).2.2 b hb' _ hb
    refine ⟨_, bs.length + 1, ⟨bs', ha.free hlive hm, .inl ?_⟩, fun n hn => ?_⟩
    · exact ⟨hm.list.links, hm.list.freep, hm.list.sizes, hm.list.zero, hm.list.order⟩
    · subst hap
      rw [HeapEvent.run, if_pos hl, hret n hn, ok_bind, hm.rest.2.2, herase]
  · refine ⟨h, 0, hg, fun n _ => ?_⟩
    rw [HeapEvent.run, if_neg hl]

theorem Heap.Good.store (hg : h.Good base) (ap : ℕ) (ptr size : ℕ → ℕ) : ∃ h' N, h'.Good base ∧
    ∀ n, N ≤ n → (HeapEvent.store ap ptr size).run base n h = .ok h' := by
  refine ⟨_, 0, ?_, fun n _ => rfl⟩
  split
  swap
  · exact hg
  rename_i hl
  obtain ⟨bs, ha, hf⟩ := hg
  obtain ⟨l, hmem, hap⟩ := any_eq_true.1 hl
  have hap : l.1 = ap - 8 := by
    have := of_decide_eq_true hap
    omega
  have hb : (⟨l.1, h.size l.1⟩ : Chunk) ∈ h.blocks := mem_map.2 ⟨l, hmem, rfl⟩
  obtain ⟨-, hlive, hcross⟩ := pairwise_append.1 ha.apart
  have hfree : ∀ b ∈ bs, ¬ h.inBlock ap b.addr := fun b hb' => by
    have := hcross b hb' _ hb
    have := ha.pos b (mem_append_left _ hb')
    unfold Heap.inBlock
    rw [← hap]
    dsimp only at *
    omega
  have hsize : ∀ x ∈ h.live, ¬ h.inBlock ap x.1 := by
    -- no header lies in a block, after that block's own header
    have hpos : ∀ x ∈ h.live, 0 < h.size x.1 := fun x hx =>
      ha.pos ⟨x.1, h.size x.1⟩ (mem_append_right _ (mem_map.2 ⟨x, hx, rfl⟩))
    rw [Heap.blocks, pairwise_map] at hlive
    obtain ⟨l1, l2, hsplit⟩ := append_of_mem hmem
    rw [hsplit] at hlive
    obtain ⟨-, h2, h1⟩ := pairwise_append.1 hlive
    intro x hx
    have hx0 := hpos x hx
    unfold Heap.inBlock
    rw [← hap]
    rw [hsplit] at hx
    rcases mem_append.1 hx with hx | hx
    · have := h1 x hx l mem_cons_self
      dsimp only at this
      omega
    · rcases mem_cons.1 hx with rfl | hx
      · omega
      · have := (pairwise_cons.1 h2).1 x hx
        dsimp only at this
        omega
  have hbase : ¬ h.inBlock ap base := by
    have := (ha.bounds (mem_append_right _ hb)).1
    unfold Heap.inBlock
    dsimp only at this
    omega
  refine ⟨bs, ha.congr rfl rfl rfl fun x hx => if_neg (hsize x hx), hf.imp_left fun hf => ?_⟩
  refine ⟨?_, hf.freep, fun b hb => (if_neg (hfree b hb)).trans (hf.sizes b hb), (if_neg hbase).trans hf.zero,
    hf.order⟩
  refine Linked.congr (fun x hx => if_neg ?_) hf.links
  rcases mem_cons.1 hx with rfl | hx
  · exact hbase
  · obtain ⟨b, hb, rfl⟩ := mem_map.1 hx
    exact hfree b hb

/-- The sizes that the program asks for keep the bytes of their units in a word. -/
def HeapEvent.Fits : HeapEvent → Prop
  | .malloc nbytes _ => nbytes + 16 ≤ 2 ^ 32
  | _ => True

/-- **One step** returns, with enough fuel, and keeps the account and the list. -/
theorem Heap.Good.step (hg : h.Good base) (hbase : 0 < base) {e : HeapEvent} (he : e.Fits) :
    ∃ h' N, h'.Good base ∧ ∀ n, N ≤ n → e.run base n h = .ok h' := by
  cases e with
  | malloc nbytes gap => exact hg.malloc hbase he gap
  | free ap => exact hg.free ap
  | store ap ptr size => exact hg.store ap ptr size

/-- **Every run** does. -/
theorem Heap.Good.run (hbase : 0 < base) : ∀ {es : List HeapEvent} {h : Heap}, h.Good base →
    (∀ e ∈ es, e.Fits) → ∃ h' N, h'.Good base ∧ ∀ n, N ≤ n → loop (HeapEvent.run base n) es h = .ok h'
  | [], h, hg, _ => ⟨h, 0, hg, fun _ _ => rfl⟩
  | e :: es, h, hg, he => by
    obtain ⟨h1, N1, hg1, h₁run⟩ := hg.step hbase (he e mem_cons_self)
    obtain ⟨h2, N2, hg2, h₂run⟩ := Heap.Good.run hbase hg1 fun e h => he e (mem_cons_of_mem _ h)
    refine ⟨h2, max N1 N2, hg2, fun n hn => ?_⟩
    rw [loop_cons, h₁run n (by omega), ok_bind]
    exact h₂run n (by omega)

theorem good_init (base : ℕ) : (Heap.init base).Good base := by
  refine ⟨[], ⟨.refl _, .nil, nofun, ?_, nofun, nofun⟩, .inr ⟨rfl, rfl, rfl⟩⟩
  simp only [Heap.init]
  omega

end Account

/-- **A sound heap.**  Blocks of the program do not overlap, lie in the memory from `sbrk` and are large
enough; the free list, once there is one, is one ring through `base` in address order, without two free
blocks side by side; and free units and units of the program add up to the units from `sbrk`. -/
structure Heap.Sound (base : ℕ) (h : Heap) : Prop where
  disjoint : h.live.Pairwise fun l l' => ∀ x, ¬ ((l.1 ≤ x ∧ x < l.1 + 8 * h.size l.1) ∧
    l'.1 ≤ x ∧ x < l'.1 + 8 * h.size l'.1)
  inside : ∀ l ∈ h.live, ∀ x, l.1 ≤ x → x < l.1 + 8 * h.size l.1 → ∃ c ∈ h.obtained, c ≤ x ∧ x < c + 8
  enough : ∀ l ∈ h.live, l.1 + 8 + l.2 ≤ l.1 + 8 * h.size l.1
  list : ∃ fs : List ℕ,
    (h.freep ≠ 0 → Linked h.ptr (base :: fs ++ [base]) ∧ h.freep ∈ base :: fs) ∧
    (∀ a ∈ fs, base < a) ∧ fs.Pairwise (fun a b => a + 8 * h.size a < b) ∧
    (∀ a ∈ fs, ∀ l ∈ h.live, a + 8 * h.size a ≤ l.1 ∨ l.1 + 8 * h.size l.1 ≤ a) ∧
    (fs.map h.size).sum + (h.live.map fun l => h.size l.1).sum = h.obtained.length

theorem Heap.Good.sound {base : ℕ} {h : Heap} (hg : h.Good base) : h.Sound base := by
  obtain ⟨bs, ha, hf⟩ := hg
  obtain ⟨-, hlive, hcross⟩ := pairwise_append.1 ha.apart
  refine ⟨?_, fun l hl x h1 h2 => ?_, fun l hl => ?_, ?_⟩
  · rw [Heap.blocks, pairwise_map] at hlive
    refine hlive.imp fun {l l'} h x hx => ?_
    dsimp only at h
    omega
  · exact ha.inside (mem_append_right _ (mem_map.2 ⟨l, hl, rfl⟩)) h1 h2
  · have := ha.enough l hl
    omega
  · rcases hf with hf | ⟨hf, rfl, hl⟩
    · have hsizes : (bs.map Chunk.addr).map h.size = bs.map Chunk.size := by
        rw [map_map]
        exact map_congr_left fun b hb => hf.sizes b hb
      refine ⟨bs.map Chunk.addr, fun _ => ⟨hf.links, hf.freep⟩, ?_, ?_, ?_, ?_⟩
      · intro a ha'
        obtain ⟨b, hb, rfl⟩ := mem_map.1 ha'
        exact hf.order.above b hb
      · rw [pairwise_map]
        refine hf.order.apart.imp_of_mem fun {b b'} hb _ hlt => ?_
        rw [hf.sizes b hb]
        exact hlt
      · intro a ha' l hl
        obtain ⟨b, hb, rfl⟩ := mem_map.1 ha'
        rw [hf.sizes b hb]
        exact hcross b hb _ (mem_map.2 ⟨l, hl, rfl⟩)
      · rw [hsizes]
        exact ha.units
    · refine ⟨[], fun h => absurd hf h, nofun, .nil, nofun, ?_⟩
      have := ha.units
      simpa using this

/-- **`malloc` and `free` are sound**: with enough fuel every call of every run returns, and the heap is
sound after it, where every request leaves the bytes of its units in a word. -/
theorem heap_sound (base : ℕ) (hbase : 0 < base) (es : List HeapEvent) (hfit : ∀ e ∈ es, e.Fits) :
    ∃ h N, h.Sound base ∧ ∀ n, N ≤ n → loop (HeapEvent.run base n) es (.init base) = .ok h := by
  obtain ⟨h, N, hg, hrun⟩ := Heap.Good.run hbase (good_init base) hfit
  exact ⟨h, N, hg.sound, hrun⟩

/-- Two blocks from one `sbrk`, and the first is freed. -/
theorem heap_sound_two : ∃ h N, h.Sound 8 ∧ ∀ n, N ≤ n →
    loop (HeapEvent.run 8 n) [.malloc 100 (some 0), .malloc 20 none, .free 32680] (.init 8) = .ok h :=
  heap_sound 8 (by decide) _ (by simp [HeapEvent.Fits])

/-- **`malloc(2^32 - 8)` needs `2^29` units, whose bytes are `0` in a word**: `sbrk(0)` succeeds, and `malloc`
returns a block without memory. -/
theorem malloc_without_memory : unitsFor (2 ^ 32 - 8) = 2 ^ 29 ∧
    Returns (loop (HeapEvent.run 8 8) [.malloc (2 ^ 32 - 8) (some 0)] (.init 8)) fun h =>
      h.live = [(16, 2 ^ 32 - 8)] ∧ h.size 16 = 2 ^ 29 ∧ h.obtained = [] := by
  decide +kernel

end Xv6
