import Xv6.Fs.File
import Xv6.Ipc.Locked

/-!
# Fs/Nested — a write that faults

`filewrite` on an inode writes chunks of at most three blocks, each in a transaction.  `writei` copies from
user memory inside the transaction, and a page fault there that evicts a victim writes eight blocks of the
swap file in three transactions of its own.  While the outer operation is outstanding, `begin_op` admits
an inner one only with ten blocks in the log at most; blocks that are in the log already are absorbed.

No other process runs file-system operations here, so an inner operation that waits waits for the outer
one, for ever.  What the outer call does is a list of events, which the file system alone determines.
-/

namespace Xv6

open Outcome

/-- Where a call stops: it waits for log space, or it panics. -/
inductive Stop where
  | waits
  | panic (e : String)
  deriving DecidableEq

/-- The call waits for log space. -/
def Stop.Waits (s : Stop) : Prop := s = .waits

instance : DecidablePred Stop.Waits := fun s => inferInstanceAs (Decidable (s = .waits))

/-! ## Logging blocks -/

namespace Log

/-- `log_write` of a list of blocks. -/
def logAll (l : Log) (bs : List ℕ) : Log := bs.foldl logWrite l

theorem logAll_append (l : Log) (bs cs : List ℕ) : l.logAll (bs ++ cs) = (l.logAll bs).logAll cs :=
  List.foldl_append ..

/-- **The log grows by the blocks it does not have.** -/
theorem length_logAll : ∀ (bs : List ℕ) (l : Log),
    (l.logAll bs).lh.length = l.lh.length + (bs.toFinset \ l.lh.toFinset).card
  | [], l => by simp [logAll]
  | b :: bs, l => by
    have ih := length_logAll bs (l.logWrite b)
    change ((l.logWrite b).logAll bs).lh.length = _
    rw [ih, List.toFinset_cons]
    by_cases hb : b ∈ l.lh
    · rw [logWrite, if_pos hb, Finset.insert_sdiff_of_mem _ (List.mem_toFinset.mpr hb)]
    · have hset : (l.lh ++ [b]).toFinset = insert b l.lh.toFinset := by
        ext x
        simp
      have hsplit : insert b bs.toFinset \ l.lh.toFinset
          = insert b (bs.toFinset \ insert b l.lh.toFinset) := by
        ext x
        by_cases hx : x = b
        · simp [hx, hb]
        · simp [hx]
      rw [logWrite, if_neg hb, hset, hsplit, Finset.card_insert_of_notMem (by simp),
        List.length_append, List.length_singleton]
      omega

theorem logAll_eq : ∀ (bs : List ℕ) (l : Log), l.logAll bs = { l with lh := (l.logAll bs).lh }
  | [], _ => rfl
  | b :: bs, l => by
    change (l.logWrite b).logAll bs = { l with lh := ((l.logWrite b).logAll bs).lh }
    rw [logAll_eq bs, logWrite_eq]

/-- The blocks of a log depend on the blocks it had. -/
theorem logAll_lh : ∀ (bs : List ℕ) (l l' : Log), l.lh = l'.lh → (l.logAll bs).lh = (l'.logAll bs).lh
  | [], _, _, h => h
  | b :: bs, l, l', h => by
    refine logAll_lh bs (l.logWrite b) (l'.logWrite b) ?_
    unfold logWrite
    rw [h]
    split
    · exact h
    · rfl

theorem le_length_logAll (l : Log) (bs : List ℕ) : l.lh.length ≤ (l.logAll bs).lh.length := by
  rw [length_logAll]
  omega

end Log

/-! ## An eviction inside a transaction -/

namespace Log

/-- `log_write`. -/
def logged (b : ℕ) (l : Log) : Except Stop Log := do
  l.logWriteCheck.mapError Stop.panic
  return l.logWrite b

/-- `end_op`; a commit empties the log. -/
def finish (l : Log) : Except Stop Log := do
  let (l, doCommit) ← l.endOp.mapError Stop.panic
  if doCommit then return { l with lh := [], committing := false } else return l

/-- A transaction of the inner `filewrite`. -/
def innerChunk (ip : SwapInode) (bns : List ℕ) (l : Log) : Except Stop Log :=
  match l.beginOp with
  | none => .error .waits
  | some l => do
    let l ← loop logged (bns.map ip.addr) l
    l.finish

/-- **`writeToSwapFile` of a victim**, as the log sees it. -/
def evict (ip : SwapInode) (j : Fin maxPsycPages) (l : Log) : Except Stop Log :=
  loop (innerChunk ip) (Bio.chunks j) l

/-- One operation is outstanding, on the log of `mkfs`. -/
structure Inside (l : Log) : Prop where
  outstanding : l.outstanding = 1
  committing : l.committing = false
  size : l.size = logSize

/-- No operation is outstanding, and the log is empty. -/
structure Clean (l : Log) : Prop where
  outstanding : l.outstanding = 0
  committing : l.committing = false
  size : l.size = logSize
  lh : l.lh = []

/-- The blocks of a slot that the first two inner transactions write. -/
def early (ip : SwapInode) (j : Fin maxPsycPages) : List ℕ :=
  [8 * (j : ℕ), 8 * j + 1, 8 * j + 2, 8 * j + 3, 8 * j + 4, 8 * j + 5].map ip.addr

/-- **There is room for an eviction**: the log, with the blocks that the first two inner transactions add
to it, leaves the reservations of two operations. -/
def Room (ip : SwapInode) (j : Fin maxPsycPages) (l : Log) : Prop :=
  l.lh.length + ((early ip j).toFinset \ l.lh.toFinset).card + 2 * maxOpBlocks ≤ logSize

instance (ip : SwapInode) (j : Fin maxPsycPages) (l : Log) : Decidable (l.Room ip j) :=
  inferInstanceAs (Decidable (_ ≤ _))

variable {l : Log} {ip : SwapInode} {j : Fin maxPsycPages} {b : ℕ}

theorem Inside.logWrite (h : l.Inside) : (l.logWrite b).Inside := by
  rw [logWrite_eq]
  exact ⟨h.outstanding, h.committing, h.size⟩

theorem Inside.logAll (h : l.Inside) (bs : List ℕ) : (l.logAll bs).Inside := by
  rw [logAll_eq]
  exact ⟨h.outstanding, h.committing, h.size⟩

/-- `log_write` in an operation logs the block, or the log is full. -/
theorem logged_eq (ho : 1 ≤ l.outstanding) (hs : l.size = logSize) (b : ℕ) : logged b l
    = if l.lh.length + 1 < logSize then .ok (l.logWrite b)
      else .error (.panic "too big a transaction") := by
  have hsz : logSize = 30 := rfl
  by_cases hroom : l.lh.length + 1 < logSize
  · have hcheck : l.logWriteCheck = .ok () := by
      rw [logWriteCheck, hs, if_neg (by omega), if_neg (by omega)]
    rw [logged, hcheck, if_pos hroom]
    rfl
  · have hcheck : l.logWriteCheck = .error "too big a transaction" := by
      rw [logWriteCheck, hs, if_pos (by omega)]
    rw [logged, hcheck, if_neg hroom]
    rfl

/-- Few blocks are logged without a panic. -/
theorem loop_logged : ∀ (bs : List ℕ) {l : Log}, 1 ≤ l.outstanding → l.size = logSize →
    l.lh.length + bs.length < logSize → loop logged bs l = .ok (l.logAll bs)
  | [], _, _, _, _ => rfl
  | b :: bs, l, ho, hs, hn => by
    rw [List.length_cons] at hn
    have hlen : (l.logWrite b).lh.length ≤ l.lh.length + 1 := length_logWrite_le
    rw [loop, logged_eq ho hs, if_pos (by omega)]
    refine loop_logged bs ?_ ?_ (by omega)
    · rw [logWrite_eq]
      exact ho
    · rw [logWrite_eq]
      exact hs

/-- **An inner transaction waits exactly when the log has more than ten blocks.** -/
theorem innerChunk_eq (h : l.Inside) (bns : List ℕ) (hn : bns.length ≤ 3) : innerChunk ip bns l
    = if l.lh.length + 2 * maxOpBlocks ≤ logSize then .ok (l.logAll (bns.map ip.addr))
      else .error .waits := by
  have hbegin : l.beginOp = if l.lh.length + 2 * maxOpBlocks ≤ logSize
      then some { l with outstanding := 2 } else none := by
    rw [beginOp, h.committing, h.outstanding, if_neg Bool.false_ne_true]
    by_cases hroom : l.lh.length + 2 * maxOpBlocks ≤ logSize
    · rw [if_neg (by omega), if_pos hroom]
    · rw [if_pos (by omega), if_neg hroom]
  rw [innerChunk, hbegin]
  by_cases hroom : l.lh.length + 2 * maxOpBlocks ≤ logSize
  · have hlen : l.lh.length + (bns.map ip.addr).length < logSize := by
      rw [List.length_map]
      simp only [maxOpBlocks, logSize] at *
      omega
    have hlh : (({ l with outstanding := 2 } : Log).logAll (bns.map ip.addr)).lh
        = (l.logAll (bns.map ip.addr)).lh := logAll_lh _ _ _ rfl
    rw [if_pos hroom, if_pos hroom]
    simp only
    rw [loop_logged (l := { l with outstanding := 2 }) _ one_le_two h.size hlen, ok_bind,
      logAll_eq, hlh, finish, endOp]
    simp only [h.committing, Nat.reduceSub, Bool.false_eq_true, if_false, one_ne_zero]
    rw [logAll_eq _ l, h.outstanding, h.committing]
    rfl
  · rw [if_neg hroom, if_neg hroom]

/-- **An eviction waits exactly when there is no room for it.** -/
theorem evict_exact (h : l.Inside) : Exact (l.evict ip j) (l.Room ip j) Inside Stop.Waits := by
  have hsz : logSize = 30 := rfl
  have hop : maxOpBlocks = 10 := rfl
  set l1 := l.logAll ([8 * (j : ℕ), 8 * j + 1, 8 * j + 2].map ip.addr) with hl1
  set l2 := l1.logAll ([8 * (j : ℕ) + 3, 8 * j + 4, 8 * j + 5].map ip.addr) with hl2
  set l3 := l2.logAll ([8 * (j : ℕ) + 6, 8 * j + 7].map ip.addr) with hl3
  have hearly : l.logAll (early ip j) = l2 := by
    rw [hl2, hl1, ← logAll_append]
    rfl
  have hlen : l2.lh.length = l.lh.length + ((early ip j).toFinset \ l.lh.toFinset).card := by
    rw [← hearly, length_logAll]
  have h01 : l.lh.length ≤ l1.lh.length := le_length_logAll ..
  have h12 : l1.lh.length ≤ l2.lh.length := le_length_logAll ..
  have hi1 : l1.Inside := h.logAll _
  have hi2 : l2.Inside := hi1.logAll _
  have hroom : l.Room ip j ↔ l2.lh.length + 2 * maxOpBlocks ≤ logSize := by
    rw [hlen]
    rfl
  -- the log only grows, so the last of the three transactions decides
  have hwaits : ∀ {x : ℕ}, x ≤ l2.lh.length → ¬ x + 2 * maxOpBlocks ≤ logSize → ¬ l.Room ip j :=
    fun hx hn hr => hn ((Nat.add_le_add_right hx _).trans (hroom.mp hr))
  rw [evict, Bio.chunks, loop, innerChunk_eq h _ le_rfl]
  split
  · rw [ok_bind, loop, innerChunk_eq hi1 _ le_rfl]
    split
    · rw [ok_bind, loop, innerChunk_eq hi2 [8 * (j : ℕ) + 6, 8 * j + 7] (Nat.le_succ 2)]
      split
      · rename_i hr
        exact exact_ok (hroom.mpr hr) (hi2.logAll _)
      · rename_i hr
        exact exact_bad (hwaits le_rfl hr) rfl
    · rename_i hr
      exact exact_bad (hwaits h12 hr) rfl
  · rename_i hr
    exact exact_bad (hwaits (h01.trans h12) hr) rfl

/-- The outer operation begins. -/
theorem Clean.beginOp (h : l.Clean) : l.beginOp = some { l with outstanding := 1 } := by
  rw [Log.beginOp, h.committing, h.lh, h.outstanding, if_neg Bool.false_ne_true, if_neg (by decide)]

theorem Clean.inside (h : l.Clean) : ({ l with outstanding := 1 } : Log).Inside :=
  ⟨rfl, h.committing, h.size⟩

/-- The outer operation ends, and commits. -/
theorem Inside.finish (h : l.Inside) : Returns l.finish Clean := by
  refine ⟨{ l with outstanding := 0, lh := [], committing := false }, ?_, rfl, rfl, h.size, rfl⟩
  rw [Log.finish, endOp]
  simp only [h.outstanding, h.committing, Nat.sub_self, Bool.false_eq_true, if_false, if_true]
  rfl

end Log

/-! ## What a write does in a transaction -/

/-- The slot that `handle_pf` writes a victim to when it serves a fault: it has read the slot by then. -/
def Kernel.evictsTo (k : Kernel) (pid va : ℕ) : Option (Fin maxPsycPages) :=
  (k.procs pid).bind fun p => (k.swapNeed pid va).bind fun x =>
    if x.2 && (x.1 + 1) * pgSize ≤ p.swapFile.size then some x.1 else none

/-- What `writei` does in the transaction of its caller: log a block, or touch a byte of the user's
buffer. -/
inductive WriteEvent where
  | logWrite (blockno : ℕ)
  | touch (va : ℕ)

namespace WriteEvent

/-- The log effect of a fault, if it has one. -/
def nested (ip : SwapInode) (l : Log) : Option (Fin maxPsycPages) → Except Stop Log
  | none => .ok l
  | some j => l.evict ip j

/-- **One event.** -/
def run (c : Caller) : WriteEvent → Log × Kernel → Except Stop (Log × Kernel)
  | logWrite b, (l, k) => do
    let l ← l.logged b
    return (l, k)
  | touch va, (l, k) =>
    if k.permits false false c.pid va then .ok (l, k)
    else do
      let l ← nested c.ip l (k.evictsTo c.pid va)
      let k ← (Kernel.access c.pol c.nesting false k c.pid va).mapError Stop.panic
      return (l, k)

/-- The byte is at hand, or the fault evicts nothing, or there is room for the victim. -/
def Fits (c : Caller) : WriteEvent → Log × Kernel → Prop
  | logWrite _, _ => True
  | touch va, (l, k) =>
    k.permits false false c.pid va = true ∨ ∀ j, k.evictsTo c.pid va = some j → l.Room c.ip j

instance (c : Caller) : ∀ (e : WriteEvent) (s : Log × Kernel), Decidable (e.Fits c s)
  | logWrite _, _ => .isTrue trivial
  | touch va, (l, k) => inferInstanceAs (Decidable (k.permits false false c.pid va = true ∨
      ∀ j, k.evictsTo c.pid va = some j → l.Room c.ip j))

variable {c : Caller} {l : Log} {k : Kernel} {ip : SwapInode}

theorem nested_exact (h : l.Inside) (o : Option (Fin maxPsycPages)) :
    Exact (nested ip l o) (∀ j, o = some j → l.Room ip j) Log.Inside Stop.Waits := by
  cases o with
  | none => exact exact_ok nofun h
  | some j =>
    refine (Log.evict_exact h).congr ⟨fun hr i hi => ?_, fun hr => hr j rfl⟩
    cases hi
    exact hr

/-- **An event waits exactly when it does not fit.** -/
theorem run_exact (e : WriteEvent) (h : l.Inside) :
    Exact (e.run c (l, k)) (e.Fits c (l, k)) (fun s => s.1.Inside) Stop.Waits := by
  cases e with
  | logWrite b =>
    rw [run, Log.logged_eq h.outstanding.ge h.size]
    split
    · exact exact_ok trivial h.logWrite
    · exact exact_error trivial nofun
  | touch va =>
    rw [run]
    split
    · rename_i hp
      exact exact_ok (.inl hp) h
    · rename_i hp
      have hfits : (∀ j, k.evictsTo c.pid va = some j → l.Room c.ip j) ↔ (touch va).Fits c (l, k) := by
        simp [Fits, hp]
      refine ((nested_exact h (k.evictsTo c.pid va)).congr hfits).bind fun l' hl' => ?_
      cases Kernel.access c.pol c.nesting false k c.pid va with
      | error e => exact exact_error trivial nofun
      | ok k' => exact exact_ok trivial hl'

end WriteEvent

/-- **A turn of `filewrite`**: the events of a chunk in a transaction. -/
def writeTransaction (c : Caller) (evs : List WriteEvent) (s : Log × Kernel) :
    Except Stop (Log × Kernel) :=
  match s.1.beginOp with
  | none => .error .waits
  | some l => do
    let (l, k) ← loop (WriteEvent.run c) evs (l, s.2)
    let l ← l.finish
    return (l, k)

/-- All the events of a chunk fit. -/
def ChunkFits (c : Caller) (evs : List WriteEvent) (s : Log × Kernel) : Prop :=
  Along (WriteEvent.run c) (WriteEvent.Fits c) evs ({ s.1 with outstanding := 1 }, s.2)

instance (c : Caller) (evs : List WriteEvent) (s : Log × Kernel) : Decidable (ChunkFits c evs s) :=
  inferInstanceAs (Decidable (Along _ _ _ _))

/-- **A turn of `filewrite` waits exactly when an event does not fit.** -/
theorem writeTransaction_exact {c : Caller} (evs : List WriteEvent) {s : Log × Kernel}
    (h : s.1.Clean) : Exact (writeTransaction c evs s) (ChunkFits c evs s) (fun s => s.1.Clean)
      Stop.Waits := by
  rw [writeTransaction, h.beginOp]
  refine Exact.bind (J := fun s => s.1.Inside) ?_ fun (l', k') hl' => ?_
  · exact Exact.loop evs (fun e _ s hs => e.run_exact hs) _ h.inside
  · obtain ⟨l, hl, hclean⟩ := hl'.finish
    simp only [hl]
    exact exact_ok trivial hclean

/-! ## The events of a write -/

namespace Fs

/-- `BBLOCK`. -/
def bblock (sb : Superblock) (b : ℕ) : ℕ := b / (bsize * 8) + sb.bmapstart

/-- `IBLOCK`. -/
def iblock (sb : Superblock) (inum : ℕ) : ℕ := inum / ipb + sb.inodestart

/-- The blocks that `balloc` logs: the block of the bit, and the block it zeroes. -/
def ballocLogs (fs : Fs) : List ℕ :=
  match fs.balloc with
  | .error _ => []
  | .ok (b, _) => [bblock fs.sb b, b]

/-- The blocks that `bmap` logs.  A new indirect block has no entry, so `balloc` is called again. -/
def bmapLogs (ip : Dinode) (bn : ℕ) (fs : Fs) : List ℕ :=
  if bn < ndirect then if ip.addrs (Fin.ofNat 13 bn) = 0 then fs.ballocLogs else []
  else if ip.addrs 12 = 0 then
    match fs.balloc with
    | .error _ => []
    | .ok (ind, fs') => fs.ballocLogs ++ fs'.ballocLogs ++ [ind]
  else if (fs.block (ip.addrs 12)).word (indexOf bn) = 0 then fs.ballocLogs ++ [ip.addrs 12]
  else []

/-- The bytes of a buffer that a copy touches. -/
def touches (va m : ℕ) : List WriteEvent := (List.range m).map fun i => .touch (va + i)

/-- The events of the loop of `writei` on the buffer at `va`, with contents `src`. -/
def writeLoopEvents : ℕ → Dinode → (ℕ → UInt8) → ℕ → ℕ → ℕ → Fs → List WriteEvent
  | 0, _, _, _, _, _, _ => []
  | turns + 1, ip, src, va, off, n, fs =>
    if n = 0 then []
    else (bmapLogs ip (off / bsize) fs).map .logWrite ++
      match bmap ip (off / bsize) fs with
      | .error _ => []
      | .ok (addr, ip, fs) =>
        let m := min n (bsize - off % bsize)
        let fs := fs.setBlock addr ((fs.block addr).move (off % bsize) m src)
        touches va m ++ .logWrite addr ::
          writeLoopEvents turns ip (fun k => src (m + k)) (va + m) (off + m) (n - m) fs

/-- The events of `writei`.  A driver reads the whole buffer. -/
def writeiEvents (inum : ℕ) (ip : Dinode) (src : ℕ → UInt8) (va off n : ℕ) (fs : Fs) :
    List WriteEvent :=
  if ip.type = .dev then
    match fs.devsw ip.major with
    | none => []
    | some _ => if ip.major < 0 ∨ ip.major ≥ nDev then [] else touches va n
  else if off > ip.size ∨ (off + n) % 2 ^ 32 < off then []
  else if off + n > maxFile * bsize then []
  else writeLoopEvents n ip src va off n fs ++
    if n > 0 ∧ off + n > ip.size then [.logWrite (iblock fs.sb inum)] else []

end Fs

namespace FileState

/-- The transactions of the loop of `filewrite` from `i` on. -/
def filewriteEvents : ℕ → (ℕ → UInt8) → ℕ → ℕ → ℕ → FileState → List (List WriteEvent)
  | 0, _, _, _, _, _ => []
  | turns + 1, src, va, i, n, s =>
    if i < n then
      let n1 := min (n - i) chunk
      Fs.writeiEvents s.inum s.ip (fun k => src (i + k)) (va + i) s.off n1 s.fs ::
        match s.writei (fun k => src (i + k)) s.off n1 with
        | .error _ => []
        | .ok (r, s) => if r = n1 then filewriteEvents turns src va (i + n1) n (s.advance r) else []
    else []

/-- The transactions of a `write` of `n` bytes at `va`. -/
def writeEvents (src : ℕ → UInt8) (va n : ℕ) (s : FileState) : List (List WriteEvent) :=
  if s.writable then filewriteEvents n src va 0 n s else []

end FileState

/-- **A write and its own page faults.**  With no other process in a file-system operation, a `write` waits
for log space inside its own transaction exactly when it takes a fault that evicts a page and for whose
victim the log has no room. -/
theorem write_waits_for_itself (c : Caller) (f : FileState) (src : ℕ → UInt8) (va n : ℕ)
    (s : Log × Kernel) (hclean : s.1.Clean) :
    Along (writeTransaction c) (ChunkFits c) (f.writeEvents src va n) s ↔
      ¬ Fails (loop (writeTransaction c) (f.writeEvents src va n) s) Stop.Waits := by
  have hloop := Exact.loop (f.writeEvents src va n)
    (fun evs _ _ hs => writeTransaction_exact (c := c) evs hs) s hclean
  exact hloop.iff_not_fails

/-! ## Two bytes in two pages -/

/-- Process 3 with pages 0 to 15 in memory, and pages 16 and 17 in slots 0 and 1 of its swap file. -/
def sixteenResident : Kernel where
  kmem := ⟨0x115000, List.range' 1030 10, fun f => if 1000 ≤ f ∧ f < 1030 then 1 else 0, 10⟩
  mem := fun _ _ => 0
  dirs := Function.update (fun _ => none) 1000 (some ⟨Function.update (fun _ => none) 0
    (some ⟨1001, fun i => if i.val < 16 then { addr := 1010 + i, p := true, w := true, u := true }
      else if i.val < 18 then { pg := true, w := true, u := true } else {}⟩)⟩)
  procs := Function.update (fun _ => none) 3 (some {
    sz := 18 * pgSize
    pgdir := 1000
    kstack := 1003
    swapFile := ⟨2 * pgSize, fun _ => 0⟩
    filePages := fun i => ⟨1000, (16 + i) * pgSize, i < 2, 0, 0⟩
    memoryPages := fun i => ⟨1000, i * pgSize, true, i, 0⟩
    pageFaults := 0
    pagedOut := 2
    timestamp := 16
    rRobin := 0 })
  buffer := fun _ => 0
  forkBuffer := fun _ => 0
  nextpid := 4
  kdata := 0x109000

/-- A file of 511 bytes, open at its end. -/
def shortFile : FileState where
  fs := { Fs.blank (fun _ => .zero) with used := Function.update (Fs.blank fun _ => .zero).used 100 true }
  inum := 1
  ip := { Dinode.zero with type := .file, nlink := 1, size := 511, addrs := fun i => if i = 0 then 100 else 0 }
  readable := true
  writable := true
  off := 511

/-- A `write` of one byte of page 16 evicts a page, for which there is room. -/
theorem write_waits_for_itself_one : (Log.init mkfsSuperblock).Clean ∧
    ¬ Fails (loop (writeTransaction swapCaller) (shortFile.writeEvents (fun _ => 7) (17 * pgSize - 1) 1)
      (.init mkfsSuperblock, sixteenResident)) Stop.Waits := by
  have hclean : (Log.init mkfsSuperblock).Clean := ⟨rfl, rfl, rfl, rfl⟩
  refine ⟨hclean, (write_waits_for_itself swapCaller shortFile (fun _ => 7) (17 * pgSize - 1) 1
    (.init mkfsSuperblock, sixteenResident) hclean).mp ?_⟩
  decide +kernel

/-- **A `write` of two bytes waits for itself**: the last byte of page 16 and the first of page 17 go to the
ends of two blocks of the file, so the log has eleven blocks at the second fault. -/
theorem write_deadlocks : (Log.init mkfsSuperblock).Clean ∧
    Fails (loop (writeTransaction swapCaller) (shortFile.writeEvents (fun _ => 7) (17 * pgSize - 1) 2)
      (.init mkfsSuperblock, sixteenResident)) Stop.Waits :=
  ⟨⟨rfl, rfl, rfl, rfl⟩, by decide +kernel⟩

end Xv6
