import Xv6.Lib.Outcome
import Xv6.Lib.Links

/-!
# User/Malloc — the heap allocator of `umalloc.c`

Addresses are bytes, and a header takes eight: `ptr` and `size` are the two words of the header at an
address.  `sbrk` gives memory above all that it gave before, or fails.  The loops run on fuel.

`obtained` lists the units that `sbrk` has given, and `live` the blocks that the program has, by the address
of the header, with the bytes it asked for; the code reads neither.
-/

namespace Xv6

open Outcome

/-- The addresses of `n` units from `a` on. -/
def cells (a n : ℕ) : List ℕ := (List.range n).map fun i => a + 8 * i

/-- The units that `morecore` asks for. -/
def moreUnits (nu : ℕ) : ℕ := if nu < 4096 then 4096 else nu

/-- The headers, `freep` and the end of the memory. -/
structure Heap where
  ptr : ℕ → ℕ
  size : ℕ → ℕ
  freep : ℕ
  top : ℕ
  obtained : List ℕ
  live : List (ℕ × ℕ)

namespace Heap

/-- No call yet; `base` lies below the heap. -/
def init (base : ℕ) : Heap := ⟨fun _ => 0, fun _ => 0, 0, base + 8, [], []⟩

variable (h : Heap)

/-- The loop of `free` stops at `p`: the block goes between `p` and its successor, or `p` is the last. -/
def stops (bp p : ℕ) : Bool :=
  decide (p < bp ∧ bp < h.ptr p) || decide (h.ptr p ≤ p ∧ (p < bp ∨ bp < h.ptr p))

/-- `free` joins the block to the successor of `p`, or links it there. -/
def joinNext (bp p : ℕ) : Heap :=
  if bp + 8 * h.size bp = h.ptr p then
    { h with
      size := Function.update h.size bp (h.size bp + h.size (h.ptr p))
      ptr := Function.update h.ptr bp (h.ptr (h.ptr p)) }
  else { h with ptr := Function.update h.ptr bp (h.ptr p) }

/-- … and to `p` itself. -/
def joinPrev (bp p : ℕ) : Heap :=
  if p + 8 * h.size p = bp then
    { h with
      size := Function.update h.size p (h.size p + h.size bp)
      ptr := Function.update h.ptr p (h.ptr bp) }
  else { h with ptr := Function.update h.ptr p bp }

/-- `free`. -/
def free (n ap : ℕ) : Except String Heap :=
  match Links.seek h.ptr (h.stops (ap - 8)) n h.freep with
  | none => .error "out of fuel"
  | some p => .ok { (h.joinNext (ap - 8) p).joinPrev (ap - 8) p with freep := p }

/-- `sbrk`: it fails, or gives memory that starts `gap` bytes above the memory given before. -/
def sbrk (gap : Option ℕ) (bytes : ℕ) : Option (ℕ × Heap) :=
  gap.map fun g => (h.top + g,
    { h with
      top := h.top + g + bytes
      obtained := h.obtained ++ cells (h.top + g) (bytes / 8) })

/-- `morecore`. -/
def morecore (n nu : ℕ) (gap : Option ℕ) : Except String (Option Heap) :=
  match h.sbrk gap (moreUnits nu * 8 % 2 ^ 32) with
  | none => .ok none
  | some (p, h) => do
    let h ← free { h with size := Function.update h.size p (moreUnits nu) } n (p + 8)
    .ok (some h)

/-- `malloc` has found a block that is large enough: unlink it, or cut off its tail. -/
def carve (nunits prevp p : ℕ) : Heap × ℕ :=
  if h.size p = nunits then
    ({ h with ptr := Function.update h.ptr prevp (h.ptr p), freep := prevp }, p + 8)
  else
    let q := p + 8 * (h.size p - nunits)
    ({ h with
        size := Function.update (Function.update h.size p (h.size p - nunits)) q nunits
        freep := prevp }, q + 8)

end Heap

/-- The loop of `malloc`; the loops of `free` that it starts may take `m` steps. -/
def mallocLoop (m nunits : ℕ) (gap : Option ℕ) : ℕ → Heap → ℕ → ℕ → Except String (Heap × ℕ)
  | 0, _, _, _ => .error "out of fuel"
  | n + 1, h, prevp, p =>
    if nunits ≤ h.size p then .ok (h.carve nunits prevp p)
    else if p = h.freep then do
      match ← h.morecore m nunits gap with
      | none => .ok (h, 0)
      | some h => mallocLoop m nunits gap n h h.freep (h.ptr h.freep)
    else mallocLoop m nunits gap n h p (h.ptr p)

/-- The same loop over any state that has a heap, with `more` in place of `morecore`. -/
def searchLoop {σ : Type} (heap : σ → Heap) (put : σ → Heap → σ) (more : σ → Except String (Option σ))
    (nunits : ℕ) : ℕ → σ → ℕ → ℕ → Except String (σ × ℕ)
  | 0, _, _, _ => .error "out of fuel"
  | n + 1, s, prevp, p =>
    if nunits ≤ (heap s).size p then
      .ok (put s ((heap s).carve nunits prevp p).1, ((heap s).carve nunits prevp p).2)
    else if p = (heap s).freep then do
      match ← more s with
      | none => .ok (s, 0)
      | some s => searchLoop heap put more nunits n s (heap s).freep ((heap s).ptr (heap s).freep)
    else searchLoop heap put more nunits n s p ((heap s).ptr p)

theorem mallocLoop_eq_searchLoop (m nunits : ℕ) (gap : Option ℕ) : ∀ (n : ℕ) (h : Heap) (prevp p : ℕ),
    mallocLoop m nunits gap n h prevp p =
      searchLoop id (fun _ h => h) (fun h => h.morecore m nunits gap) nunits n h prevp p
  | 0, _, _, _ => rfl
  | n + 1, h, prevp, p => by
    rw [mallocLoop, searchLoop]
    simp only [id_eq, mallocLoop_eq_searchLoop m nunits gap n]
    congr 2
    refine congrArg _ (funext fun o => ?_)
    cases o <;> rfl

/-- The units that `malloc` needs. -/
def unitsFor (nbytes : ℕ) : ℕ := (nbytes + 7) % 2 ^ 32 / 8 + 1

namespace Heap

variable (h : Heap)

/-- The first call of `malloc` makes the list. -/
def start (base : ℕ) : Heap :=
  if h.freep = 0 then
    { h with ptr := Function.update h.ptr base base, size := Function.update h.size base 0, freep := base }
  else h

/-- `malloc`. -/
def malloc (base n nbytes : ℕ) (gap : Option ℕ) : Except String (Heap × ℕ) :=
  mallocLoop n (unitsFor nbytes) gap n (h.start base) (h.start base).freep
    ((h.start base).ptr (h.start base).freep)

end Heap

/-- What a program does with the heap.  It frees what it has, and writes to it: any header there may look
like anything afterwards. -/
inductive HeapEvent where
  | malloc (nbytes : ℕ) (gap : Option ℕ)
  | free (ap : ℕ)
  | store (ap : ℕ) (ptr size : ℕ → ℕ)

/-- The address lies in the block of the program, after its header. -/
def Heap.inBlock (h : Heap) (ap x : ℕ) : Prop := ap - 8 < x ∧ x < ap - 8 + 8 * h.size (ap - 8)

instance (h : Heap) (ap x : ℕ) : Decidable (h.inBlock ap x) := inferInstanceAs (Decidable (_ ∧ _))

/-- **One step of the program.** -/
def HeapEvent.run (base n : ℕ) : HeapEvent → Heap → Except String Heap
  | .malloc nbytes gap, h => do
    let (h, r) ← h.malloc base n nbytes gap
    .ok (if r = 0 then h else { h with live := (r - 8, nbytes) :: h.live })
  | .free ap, h =>
    if h.live.any fun l => l.1 + 8 = ap then do
      let h ← h.free n ap
      .ok { h with live := h.live.eraseP fun l => l.1 + 8 = ap }
    else .ok h
  | .store ap ptr size, h =>
    .ok (if h.live.any fun l => l.1 + 8 = ap then
        { h with
          ptr := fun x => if h.inBlock ap x then ptr x else h.ptr x
          size := fun x => if h.inBlock ap x then size x else h.size x }
      else h)

end Xv6
