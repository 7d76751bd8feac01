import Xv6.Fs.Inode
import Xv6.Fs.Log
import Xv6.Mem.Layout

/-!
# Fs/Bio — the buffer cache, and who may sleep in it

The path of a swap-file transfer through `file.c`, `fs.c`, `log.c`, `bio.c` and `ide.c`, as far as it
decides whether the process sleeps: the depth of `pushcli`, the buffers and their locks, the lock of the
swap file's inode, and the log.  What the blocks hold is left out.

`sched` panics unless the process holds `ptable.lock` and nothing else.  A process that waits for the
disk goes on when the disk has served its buffer, and one that waits for a sleep lock when the holder has
let go; a process that waits for log space stops here.

Under a spinlock every sleep is the panic, so a transfer gets through exactly when all its blocks are in
the cache, valid and unlocked (`Quick`).
-/

namespace Xv6

open Outcome Option

/-- `struct buf`, without its data. -/
structure Buf where
  blockno : ℕ
  valid : Bool
  dirty : Bool
  refcnt : ℕ
  locked : Bool

/-- The inode of a swap file: its disk block, the blocks of the file and the indirect block.  Every block
of a slot that has been written is allocated. -/
structure SwapInode where
  iblock : ℕ
  addr : ℕ → ℕ
  indirect : ℕ

/-- The processor, the buffer cache from `bcache.head.next` on, the inode of the swap file and the log. -/
structure Bio where
  ncli : ℕ
  bcache : List Buf
  ilocked : Bool
  ivalid : Bool
  log : Log

/-! ## Lists of buffers -/

namespace Buf

/-- The first buffer of a block. -/
def lookup (b : ℕ) : List Buf → Option Buf := List.find? fun x => x.blockno == b

/-- Change the first buffer of a block. -/
def modify (b : ℕ) (f : Buf → Buf) : List Buf → List Buf
  | [] => []
  | x :: xs => if x.blockno = b then f x :: xs else x :: modify b f xs

/-- The last buffer that nobody uses and that is not dirty becomes the buffer of a block. -/
def recycle (b : ℕ) : List Buf → Option (List Buf)
  | [] => none
  | x :: xs =>
    match recycle b xs with
    | some ys => some (x :: ys)
    | none =>
      if x.refcnt = 0 ∧ x.dirty = false then
        some ({ x with blockno := b, valid := false, dirty := false, refcnt := 1 } :: xs)
      else none

/-- Take the first buffer of a block out of the list. -/
def erase (b : ℕ) : List Buf → List Buf
  | [] => []
  | x :: xs => if x.blockno = b then xs else x :: erase b xs

/-- The first buffer of a block moves to the front. -/
def moveFront (b : ℕ) (xs : List Buf) : List Buf :=
  match lookup b xs with
  | none => xs
  | some x => x :: erase b xs

variable {b b' : ℕ} {x : Buf} {xs ys : List Buf} {f : Buf → Buf}

theorem lookup_cons (x : Buf) (xs : List Buf) (b : ℕ) :
    lookup b (x :: xs) = if x.blockno = b then some x else lookup b xs := by
  unfold lookup
  rw [List.find?_cons]
  by_cases hx : x.blockno = b
  · rw [beq_iff_eq.mpr hx, if_pos hx]
  · rw [beq_eq_false_iff_ne.mpr hx, if_neg hx]

theorem blockno_of_lookup (h : lookup b xs = some x) : x.blockno = b := by
  simpa using List.find?_some h

theorem lookup_modify (hf : ∀ x, (f x).blockno = x.blockno) (b b' : ℕ) : ∀ xs : List Buf,
    lookup b' (modify b f xs) = if b' = b then (lookup b xs).map f else lookup b' xs
  | [] => by simp [modify, lookup]
  | x :: xs => by
    have ih := lookup_modify hf b b' xs
    by_cases hx : x.blockno = b
    · rw [modify, if_pos hx, lookup_cons, lookup_cons, lookup_cons, hf, hx, if_pos rfl]
      by_cases hb : b' = b
      · rw [if_pos hb.symm, if_pos hb, map_some]
      · rw [if_neg (Ne.symm hb), if_neg hb, if_neg (Ne.symm hb)]
    · rw [modify, if_neg hx, lookup_cons, ih, lookup_cons, lookup_cons, if_neg hx]
      by_cases hb : b' = b
      · rw [if_pos hb, if_pos hb, if_neg (hb ▸ hx)]
      · rw [if_neg hb, if_neg hb]

theorem lookup_erase (hb : b' ≠ b) : ∀ xs : List Buf, lookup b' (erase b xs) = lookup b' xs
  | [] => rfl
  | x :: xs => by
    by_cases hx : x.blockno = b
    · rw [erase, if_pos hx, lookup_cons, hx, if_neg (Ne.symm hb)]
    · rw [erase, if_neg hx, lookup_cons, lookup_cons, lookup_erase hb xs]

theorem lookup_moveFront (b b' : ℕ) (xs : List Buf) : lookup b' (moveFront b xs) = lookup b' xs := by
  unfold moveFront
  split
  · rfl
  · rename_i x hx
    rw [lookup_cons, blockno_of_lookup hx]
    by_cases hb : b' = b
    · rw [hb, if_pos rfl, hx]
    · rw [if_neg (Ne.symm hb), lookup_erase hb]

theorem modify_modify {g : Buf → Buf} (hf : ∀ x, (f x).blockno = x.blockno) (b : ℕ) :
    ∀ xs : List Buf, modify b g (modify b f xs) = modify b (fun x => g (f x)) xs
  | [] => rfl
  | x :: xs => by
    by_cases hx : x.blockno = b
    · rw [modify, if_pos hx, modify, if_pos ((hf x).trans hx), modify, if_pos hx]
    · rw [modify, if_neg hx, modify, if_neg hx, modify, if_neg hx, modify_modify hf b xs]

/-- A recycled buffer is found under its new block, not valid. -/
theorem lookup_recycle (hnone : lookup b xs = none) (h : recycle b xs = some ys) :
    ∃ x, lookup b ys = some x ∧ x.valid = false := by
  induction xs generalizing ys with
  | nil => cases h
  | cons x xs ih =>
    rw [lookup_cons] at hnone
    have hx : ¬ x.blockno = b := fun hx => by simp [hx] at hnone
    rw [if_neg hx] at hnone
    rw [recycle] at h
    split at h
    · rename_i zs hzs
      cases h
      rw [lookup_cons, if_neg hx]
      exact ih hnone hzs
    · split at h
      · cases h
        rw [lookup_cons, if_pos rfl]
        exact ⟨_, rfl, rfl⟩
      · cases h

end Buf

/-! ## Spinlocks and sleeping -/

namespace Bio

/-- `acquire` and `release` of a spinlock: `pushcli` and `popcli`. -/
def acquire (s : Bio) : Bio := { s with ncli := s.ncli + 1 }

@[inherit_doc acquire]
def release (s : Bio) : Bio := { s with ncli := s.ncli - 1 }

/-- `sched`. -/
def sched (s : Bio) : Except String Bio := if s.ncli ≠ 1 then .error "sched locks" else .ok s

/-- `sleep(chan, lk)`: `ptable.lock` is taken and `lk` released, and the other way round afterwards. -/
def sleep (s : Bio) : Except String Bio := do
  let s ← s.acquire.release.sched
  return s.release.acquire

def lookup (s : Bio) (b : ℕ) : Option Buf := Buf.lookup b s.bcache

def modify (s : Bio) (b : ℕ) (f : Buf → Buf) : Bio := { s with bcache := Buf.modify b f s.bcache }

/-! ## `bio.c` and `ide.c` -/

/-- `acquiresleep` of the lock of a buffer. -/
def acquiresleepBuf (b : ℕ) (s : Bio) : Except String Bio := do
  let s := s.acquire
  let s ← (if ((s.lookup b).map Buf.locked).getD false then s.sleep else .ok s)
  return (s.modify b fun x => { x with locked := true }).release

/-- `bget`. -/
def bget (b : ℕ) (s : Bio) : Except String Bio :=
  let s := s.acquire
  match s.lookup b with
  | some _ => acquiresleepBuf b (s.modify b fun x => { x with refcnt := x.refcnt + 1 }).release
  | none =>
    match Buf.recycle b s.bcache with
    | some bufs => acquiresleepBuf b { s with bcache := bufs }.release
    | none => .error "bget: no buffers"

/-- `iderw`: wait until the buffer is valid and clean, which the disk makes it. -/
def iderw (b : ℕ) (s : Bio) : Except String Bio := do
  let s := s.acquire
  let s ← (if ((s.lookup b).map fun x => x.valid && !x.dirty).getD false then .ok s else s.sleep)
  return (s.modify b fun x => { x with valid := true, dirty := false }).release

/-- `bread`. -/
def bread (b : ℕ) (s : Bio) : Except String Bio := do
  let s ← bget b s
  if ((s.lookup b).map Buf.valid).getD false then return s else iderw b s

/-- `bwrite`. -/
def bwrite (b : ℕ) (s : Bio) : Except String Bio := iderw b (s.modify b fun x => { x with dirty := true })

/-- `brelse`: a buffer that nobody uses any more moves to the head of the list. -/
def brelse (b : ℕ) (s : Bio) : Bio :=
  let s := s.modify b fun x => { x with locked := false, refcnt := x.refcnt - 1 }
  if ((s.lookup b).map Buf.refcnt).getD 0 = 0 then { s with bcache := Buf.moveFront b s.bcache } else s

/-! ## `log.c` -/

/-- `begin_op`.  A process that waits for log space stops here. -/
def beginOp (s : Bio) : Except String Bio := do
  let s := s.acquire
  match s.log.beginOp with
  | none => do
    let _ ← s.sleep
    throw "begin_op: waits"
  | some l => return { s with log := l }.release

/-- `log_write`. -/
def logWrite (b : ℕ) (s : Bio) : Except String Bio := do
  s.log.logWriteCheck
  return { s with log := s.log.logWrite b }.modify b fun x => { x with dirty := true }

/-- One turn of `write_log`. -/
def writeLog (to' from' : ℕ) (s : Bio) : Except String Bio := do
  let s ← bread to' s
  let s ← bread from' s
  let s ← bwrite to' s
  return brelse to' (brelse from' s)

/-- `write_head`. -/
def writeHead (s : Bio) : Except String Bio := do
  let s ← bread s.log.start s
  let s ← bwrite s.log.start s
  return brelse s.log.start s

/-- One turn of `install_trans`. -/
def installTrans (lbuf dbuf : ℕ) (s : Bio) : Except String Bio := do
  let s ← bread lbuf s
  let s ← bread dbuf s
  let s ← bwrite dbuf s
  return brelse dbuf (brelse lbuf s)

/-- The blocks of the log area with the blocks they are for. -/
def logPairs (l : Log) : List (ℕ × ℕ) := l.lh.zipIdx.map fun x => (l.start + x.2 + 1, x.1)

/-- `commit`. -/
def commit (s : Bio) : Except String Bio :=
  if s.log.lh = [] then .ok s
  else do
    let pairs := logPairs s.log
    let s ← loop (fun x => writeLog x.1 x.2) pairs s
    let s ← writeHead s
    let s ← loop (fun x => installTrans x.1 x.2) pairs s
    writeHead { s with log := { s.log with lh := [] } }

/-- `end_op`. -/
def endOp (s : Bio) : Except String Bio := do
  let (l, doCommit) ← s.log.endOp
  let s := { s with log := l }
  if doCommit then do
    let s ← commit s
    return { s with log := { s.log with committing := false } }
  else return s

/-! ## The swap file -/

/-- `ilock` of the swap file's inode. -/
def ilock (ip : SwapInode) (s : Bio) : Except String Bio := do
  let s := s.acquire
  let s ← (if s.ilocked then s.sleep else .ok s)
  let s := { s with ilocked := true }.release
  if s.ivalid then return s
  else do
    let s ← bread ip.iblock s
    return { brelse ip.iblock s with ivalid := true }

/-- `iunlock`. -/
def iunlock (s : Bio) : Bio := { s with ilocked := false }

/-- `bmap` of an allocated block: the indirect block is read beyond the direct ones. -/
def bmap (ip : SwapInode) (bn : ℕ) (s : Bio) : Except String Bio :=
  if bn < ndirect then .ok s
  else do
    let s ← bread ip.indirect s
    return brelse ip.indirect s

/-- One turn of `readi`. -/
def readBlock (ip : SwapInode) (bn : ℕ) (s : Bio) : Except String Bio := do
  let s ← bmap ip bn s
  let s ← bread (ip.addr bn) s
  return brelse (ip.addr bn) s

/-- One turn of `writei`; the bytes come from a page that is present. -/
def writeBlock (ip : SwapInode) (bn : ℕ) (s : Bio) : Except String Bio := do
  let s ← bmap ip bn s
  let s ← bread (ip.addr bn) s
  let s ← logWrite (ip.addr bn) s
  return brelse (ip.addr bn) s

/-- The blocks of a slot of the swap file. -/
def slotBlocks (j : Fin maxPsycPages) : List ℕ := (List.range 8).map fun m => 8 * j + m

/-- `readFromSwapFile` of a slot: `fileread` and `readi`. -/
def readFromSwapFile (ip : SwapInode) (j : Fin maxPsycPages) (s : Bio) : Except String Bio := do
  let s ← ilock ip s
  let s ← loop (readBlock ip) (slotBlocks j) s
  return iunlock s

/-- One turn of the loop of `filewrite`: a transaction for at most three blocks. -/
def writeChunk (ip : SwapInode) (bns : List ℕ) (s : Bio) : Except String Bio := do
  let s ← beginOp s
  let s ← ilock ip s
  let s ← loop (writeBlock ip) bns s
  endOp (iunlock s)

/-- The chunks `filewrite` cuts a page into: `max` is three blocks. -/
def chunks (j : Fin maxPsycPages) : List (List ℕ) :=
  [[8 * j, 8 * j + 1, 8 * j + 2], [8 * j + 3, 8 * j + 4, 8 * j + 5], [8 * j + 6, 8 * j + 7]]

/-- `writeToSwapFile` of a page to a slot. -/
def writeToSwapFile (ip : SwapInode) (j : Fin maxPsycPages) (s : Bio) : Except String Bio :=
  loop (writeChunk ip) (chunks j) s

/-- What a page fault does with the swap file: nothing, or read a slot and then, if a victim goes out, write
to it. -/
def serve (ip : SwapInode) : Option (Fin maxPsycPages × Bool) → Bio → Except String Bio
  | none, s => .ok s
  | some (j, evict), s => do
    let s ← readFromSwapFile ip j s
    if evict then writeToSwapFile ip j s else return s

/-! ## Under a spinlock -/

/-- The block is in the cache, valid and unlocked. -/
def Quick (s : Bio) (b : ℕ) : Prop := ∃ x, s.lookup b = some x ∧ x.valid = true ∧ x.locked = false

/-- The panics of a process that has to wait with a spinlock held. -/
def Stuck (e : String) : Prop := e = "sched locks" ∨ e = "bget: no buffers"

/-- What a transfer without a wait leaves as it was. -/
structure Same (s s' : Bio) : Prop where
  ncli : s'.ncli = s.ncli
  log : s'.log = s.log
  quick : ∀ b, s'.Quick b ↔ s.Quick b

/-- **The transfer gets through if `C` holds, and panics otherwise.** -/
def Gated (x : Except String Bio) (s : Bio) (C : Prop) : Prop :=
  (C ∧ ∃ s', x = .ok s' ∧ s.Same s') ∨ ¬ C ∧ ∃ e, Stuck e ∧ x = .error e

section

variable {s s' s'' : Bio} {b b' bn : ℕ} {ip : SwapInode} {j : Fin maxPsycPages} {C C' : Prop}
  {x : Except String Bio} {f : Bio → Except String Bio} {g : Buf → Buf}

theorem Same.refl (s : Bio) : s.Same s := ⟨rfl, rfl, fun _ => Iff.rfl⟩

theorem Same.trans (h : s.Same s') (h' : s'.Same s'') : s.Same s'' :=
  ⟨h'.ncli.trans h.ncli, h'.log.trans h.log, fun b => (h'.quick b).trans (h.quick b)⟩

theorem gated_ok (h : s.Same s') : Gated (.ok s') s True := .inl ⟨trivial, s', rfl, h⟩

/-- **The rule of sequential composition.** -/
theorem Gated.bind (h : Gated x s C) (hf : ∀ s', s.Same s' → Gated (f s') s' C') :
    Gated (x >>= f) s (C ∧ C') := by
  rcases h with ⟨hC, s', rfl, hs⟩ | ⟨hC, e, he, rfl⟩
  · rcases hf s' hs with ⟨hC', s'', hx, hs'⟩ | ⟨hC', e, he, hx⟩
    · exact .inl ⟨⟨hC, hC'⟩, s'', hx, hs.trans hs'⟩
    · exact .inr ⟨fun h => hC' h.2, e, he, hx⟩
  · exact .inr ⟨fun h => hC h.1, e, he, rfl⟩

theorem Gated.congr (h : Gated x s C) (hC : C ↔ C') : Gated x s C' := by rwa [propext hC] at h

/-- **The rule for loops**: every turn has its own condition, and a transfer leaves it as it was. -/
theorem Gated.loop {ι : Type} {body : ι → Bio → Except String Bio} {D : ι → Bio → Prop}
    (hD : ∀ i s s', s.Same s' → (D i s' ↔ D i s))
    (hbody : ∀ i s, 1 ≤ s.ncli → Gated (body i s) s (D i s)) :
    ∀ (is : List ι) (s : Bio), 1 ≤ s.ncli → Gated (Outcome.loop body is s) s (∀ i ∈ is, D i s)
  | [], s, _ => (gated_ok (.refl s)).congr (by simp)
  | i :: is, s, hs => by
    have h : Gated (body i s >>= Outcome.loop body is) s (D i s ∧ ∀ i ∈ is, D i s) := by
      refine (hbody i s hs).bind fun s' hss => ?_
      refine (Gated.loop hD hbody is s' (hss.ncli ▸ hs)).congr ?_
      exact forall₂_congr fun i _ => hD i s s' hss
    exact h.congr (List.forall_mem_cons (p := fun i => D i s)).symm

theorem sleep_stuck (h : 2 ≤ s.ncli) : s.sleep = .error "sched locks" := by
  have hn : s.acquire.release.ncli ≠ 1 := by
    change s.ncli + 1 - 1 ≠ 1
    omega
  rw [sleep, sched, if_pos hn]
  rfl

theorem lookup_modify (hg : ∀ x, (g x).blockno = x.blockno) (s : Bio) (b b' : ℕ) :
    (s.modify b g).lookup b' = if b' = b then (s.lookup b).map g else s.lookup b' :=
  Buf.lookup_modify hg b b' s.bcache

/-- `bread` takes a reference and the lock. -/
def taken (b : ℕ) (s : Bio) : Bio :=
  s.modify b fun x => { x with refcnt := x.refcnt + 1, locked := true }

/-- `acquiresleep` and the read of a buffer that is not valid. -/
theorem read_stuck {y : Buf} (h : 1 ≤ s.ncli) (hl : s.lookup b = some y) (hv : y.valid = false) :
    (acquiresleepBuf b s >>= fun s =>
      if ((s.lookup b).map Buf.valid).getD false then .ok s else iderw b s)
      = .error "sched locks" := by
  have hl' : s.acquire.lookup b = some y := hl
  have hn : 2 ≤ s.acquire.ncli := Nat.succ_le_succ h
  rw [acquiresleepBuf]
  simp only [hl', map_some, getD_some]
  cases hlock : y.locked with
  | true =>
    simp only [if_true, sleep_stuck hn]
    rfl
  | false =>
    simp only [Bool.false_eq_true, if_false]
    set t := (s.acquire.modify b fun x => { x with locked := true }).release with ht
    have hlt : t.lookup b = some { y with locked := true } := by
      have := lookup_modify (g := fun x => { x with locked := true }) (fun _ => rfl) s.acquire b b
      rw [if_pos rfl, hl', map_some] at this
      exact this
    have hnt : 2 ≤ t.acquire.ncli := Nat.succ_le_succ h
    have hla : t.acquire.lookup b = some { y with locked := true } := hlt
    change (if ((t.lookup b).map Buf.valid).getD false then .ok t else iderw b t) = _
    rw [hlt, map_some, getD_some, if_neg (by simp [hv]), iderw]
    simp only [hla, map_some, getD_some, hv, Bool.false_and, Bool.false_eq_true, if_false,
      sleep_stuck hnt]
    rfl

/-- **`bread` under a spinlock.** -/
theorem bread_cases (h : 1 ≤ s.ncli) (b : ℕ) :
    s.Quick b ∧ bread b s = .ok (taken b s) ∨ ¬ s.Quick b ∧ ∃ e, Stuck e ∧ bread b s = .error e := by
  have hquick : ∀ {y : Buf}, s.lookup b = some y →
      (s.Quick b ↔ y.valid = true ∧ y.locked = false) := fun hy =>
    ⟨fun ⟨z, hz, hq⟩ => mem_unique hy hz ▸ hq, fun hq => ⟨_, hy, hq⟩⟩
  cases hl : s.lookup b with
  | some y =>
    set t := s.modify b fun x => { x with refcnt := x.refcnt + 1 } with ht
    have hbread : bread b s = acquiresleepBuf b t >>= fun s =>
        if ((s.lookup b).map Buf.valid).getD false then .ok s else iderw b s := by
      have hb : bget b s = acquiresleepBuf b t := by
        rw [bget]
        simp only [show s.acquire.lookup b = some y from hl]
        rfl
      rw [bread, hb]
      rfl
    have hlt : t.lookup b = some { y with refcnt := y.refcnt + 1 } := by
      rw [ht, lookup_modify, if_pos rfl, hl, map_some]
      exact fun _ => rfl
    rw [hbread, hquick hl]
    cases hv : y.valid with
    | false => exact .inr ⟨by simp, _, .inl rfl, read_stuck h hlt hv⟩
    | true =>
      have hla : t.acquire.lookup b = some { y with refcnt := y.refcnt + 1 } := hlt
      rw [acquiresleepBuf]
      simp only [hla, map_some, getD_some]
      cases hlock : y.locked with
      | true =>
        refine .inr ⟨by simp, _, .inl rfl, ?_⟩
        rw [if_pos rfl, sleep_stuck (s := t.acquire) (Nat.succ_le_succ h)]
        rfl
      | false =>
        refine .inl ⟨by simp, ?_⟩
        have htaken : ((t.acquire.modify b fun x => { x with locked := true }).release) = taken b s := by
          simp only [ht, taken, modify, acquire, release, Nat.add_sub_cancel]
          rw [Buf.modify_modify]
          exact fun _ => rfl
        have hlk : (taken b s).lookup b = some { y with refcnt := y.refcnt + 1, locked := true } := by
          rw [taken, lookup_modify, if_pos rfl, hl, map_some]
          exact fun _ => rfl
        simp only [Bool.false_eq_true, if_false, ok_bind]
        change (if (((t.acquire.modify b _).release.lookup b).map Buf.valid).getD false then _ else _) = _
        rw [htaken, hlk, map_some, getD_some, if_pos hv]
  | none =>
    have hnq : ¬ s.Quick b := fun ⟨z, hz, _⟩ => by
      rw [hl] at hz
      cases hz
    refine .inr ⟨hnq, ?_⟩
    cases hr : Buf.recycle b s.bcache with
    | none =>
      refine ⟨_, .inr rfl, ?_⟩
      have hb : bget b s = .error "bget: no buffers" := by
        rw [bget]
        simp only [show s.acquire.lookup b = none from hl, show s.acquire.bcache = s.bcache from rfl, hr]
      rw [bread, hb]
      rfl
    | some bufs =>
      obtain ⟨y, hy, hv⟩ := Buf.lookup_recycle hl hr
      have hb : bget b s = acquiresleepBuf b { s with bcache := bufs } := by
        rw [bget]
        simp only [show s.acquire.lookup b = none from hl, show s.acquire.bcache = s.bcache from rfl, hr]
        rfl
      refine ⟨_, .inl rfl, ?_⟩
      rw [bread, hb]
      exact read_stuck (s := { s with bcache := bufs }) h hy hv

theorem lookup_brelse (s : Bio) (b b' : ℕ) : (brelse b s).lookup b'
    = if b' = b then (s.lookup b).map fun x => { x with locked := false, refcnt := x.refcnt - 1 }
      else s.lookup b' := by
  have h := lookup_modify (g := fun x => { x with locked := false, refcnt := x.refcnt - 1 })
    (fun _ => rfl) s b b'
  unfold brelse
  simp only
  split
  · rw [← h]
    exact Buf.lookup_moveFront ..
  · exact h

theorem brelse_eq (b : ℕ) (s : Bio) : ∃ bufs, brelse b s = { s with bcache := bufs } := by
  unfold brelse
  simp only
  split
  · exact ⟨_, rfl⟩
  · exact ⟨_, rfl⟩

/-- A block that has been read and released is as before. -/
theorem same_taken (hq : s.Quick b) : s.Same (brelse b (taken b s)) := by
  obtain ⟨y, hl, hv, hlock⟩ := hq
  have hlk : ∀ b', (brelse b (taken b s)).lookup b'
      = if b' = b then some { y with locked := false } else s.lookup b' := fun b' => by
    have htaken : ∀ c, (taken b s).lookup c
        = if c = b then some { y with refcnt := y.refcnt + 1, locked := true } else s.lookup c := fun c => by
      rw [taken, lookup_modify, hl, map_some]
      exact fun _ => rfl
    rw [lookup_brelse, htaken, htaken]
    by_cases hb : b' = b
    · simp [hb]
    · simp [hb]
  obtain ⟨bufs, heq⟩ := brelse_eq b (taken b s)
  refine ⟨by rw [heq]; rfl, by rw [heq]; rfl, fun b' => ?_⟩
  unfold Quick
  rw [hlk]
  by_cases hb : b' = b
  · simp [hb, hl, hv, hlock]
  · simp [hb]

/-- **Reading a block and releasing it** under a spinlock. -/
theorem gated_bread (h : 1 ≤ s.ncli) (b : ℕ) :
    Gated (bread b s >>= fun s => .ok (brelse b s)) s (s.Quick b) := by
  rcases bread_cases h b with ⟨hq, hb⟩ | ⟨hq, e, he, hb⟩
  · exact .inl ⟨hq, _, by rw [hb]; rfl, same_taken hq⟩
  · exact .inr ⟨hq, e, he, by rw [hb]; rfl⟩

/-- The disk blocks that a transfer of a file block touches. -/
def blocksOf (ip : SwapInode) (bn : ℕ) : List ℕ :=
  if bn < ndirect then [ip.addr bn] else [ip.indirect, ip.addr bn]

theorem gated_bmap (h : 1 ≤ s.ncli) (ip : SwapInode) (bn : ℕ) :
    Gated (bmap ip bn s) s (¬ bn < ndirect → s.Quick ip.indirect) := by
  unfold bmap
  split
  · rename_i hbn
    exact (gated_ok (.refl s)).congr (by simp [hbn])
  · rename_i hbn
    exact (gated_bread h ip.indirect).congr (by simp [hbn])

theorem gated_readBlock (ip : SwapInode) (bn : ℕ) (s : Bio) (h : 1 ≤ s.ncli) :
    Gated (readBlock ip bn s) s (∀ b ∈ blocksOf ip bn, s.Quick b) := by
  have hread : Gated (readBlock ip bn s) s
      ((¬ bn < ndirect → s.Quick ip.indirect) ∧ s.Quick (ip.addr bn)) := by
    refine (gated_bmap h ip bn).bind fun s' hs => ?_
    exact (gated_bread (hs.ncli ▸ h) (ip.addr bn)).congr (hs.quick _)
  refine hread.congr ?_
  unfold blocksOf
  split <;> simp_all

/-- `ilock` under a spinlock. -/
theorem gated_ilock (h : 1 ≤ s.ncli) (ip : SwapInode) :
    Gated (ilock ip s) s (s.ilocked = false ∧ (s.ivalid = false → s.Quick ip.iblock)) := by
  unfold ilock
  cases hl : s.ilocked with
  | true =>
    refine .inr ⟨by simp, _, .inl rfl, ?_⟩
    simp only [show s.acquire.ilocked = true from hl, if_true,
      sleep_stuck (s := s.acquire) (Nat.succ_le_succ h)]
    rfl
  | false =>
    simp only [show s.acquire.ilocked = false from hl, Bool.false_eq_true, if_false, ok_bind]
    set t : Bio := { s with ilocked := true }
    have hst : s.Same t := ⟨rfl, rfl, fun _ => Iff.rfl⟩
    change Gated (if t.ivalid = true then .ok t else bread ip.iblock t >>= fun s =>
      .ok { brelse ip.iblock s with ivalid := true }) s _
    cases hv : s.ivalid with
    | true =>
      rw [if_pos rfl]
      exact (gated_ok hst).congr (by simp)
    | false =>
      rw [if_neg (by simp)]
      rcases bread_cases (s := t) h ip.iblock with ⟨hq, hb⟩ | ⟨hq, e, he, hb⟩
      · have hsame := same_taken hq
        have hsame' : t.Same { brelse ip.iblock (taken ip.iblock t) with ivalid := true } :=
          ⟨hsame.ncli, hsame.log, hsame.quick⟩
        exact .inl ⟨⟨trivial, fun _ => hq⟩, _, by rw [hb]; rfl, hst.trans hsame'⟩
      · exact .inr ⟨fun hc => hq (hc.2 rfl), e, he, by rw [hb]; rfl⟩

/-- **What a read of a slot needs**: the inode unlocked and in memory, or its block in the cache, and the
blocks of the slot in the cache. -/
def Reads (ip : SwapInode) (j : Fin maxPsycPages) (s : Bio) : Prop :=
  (s.ilocked = false ∧ (s.ivalid = false → s.Quick ip.iblock)) ∧
    ∀ bn ∈ slotBlocks j, ∀ b ∈ blocksOf ip bn, s.Quick b

/-- **`readFromSwapFile` under a spinlock.** -/
theorem gated_readFromSwapFile (h : 1 ≤ s.ncli) (ip : SwapInode) (j : Fin maxPsycPages) :
    Gated (readFromSwapFile ip j s) s (s.Reads ip j) := by
  refine (gated_ilock h ip).bind fun s1 hs1 => ?_
  have hloop : Gated (loop (readBlock ip) (slotBlocks j) s1) s1
      (∀ bn ∈ slotBlocks j, ∀ b ∈ blocksOf ip bn, s1.Quick b) :=
    Gated.loop (D := fun bn s => ∀ b ∈ blocksOf ip bn, s.Quick b)
      (fun bn s s' hs => forall₂_congr fun b _ => hs.quick b) (gated_readBlock ip) (slotBlocks j) s1
      (hs1.ncli ▸ h)
  have hback : (∀ bn ∈ slotBlocks j, ∀ b ∈ blocksOf ip bn, s1.Quick b)
      ↔ ∀ bn ∈ slotBlocks j, ∀ b ∈ blocksOf ip bn, s.Quick b :=
    forall₂_congr fun _ _ => forall₂_congr fun b _ => hs1.quick b
  rcases hloop.congr hback with ⟨hC, s2, hk, hs2⟩ | ⟨hC, e, he, hk⟩
  · have hs3 : s2.Same (iunlock s2) := ⟨rfl, rfl, fun _ => Iff.rfl⟩
    exact .inl ⟨hC, _, by rw [hk]; rfl, hs2.trans hs3⟩
  · exact .inr ⟨hC, e, he, by rw [hk]; rfl⟩

/-! ## A victim cannot go out -/

/-- No other operation is outstanding, on the log of `mkfs`. -/
def Idle (s : Bio) : Prop := s.log.outstanding = 0 ∧ s.log.size = logSize

/-- `bread` under a spinlock leaves the log alone, if it returns. -/
theorem runs_bread (h : 1 ≤ s.ncli) (b : ℕ) :
    Runs (bread b s) Stuck fun s' => s'.ncli = s.ncli ∧ s'.log = s.log := by
  rcases bread_cases h b with ⟨-, hb⟩ | ⟨-, e, he, hb⟩
  · rw [hb]
    exact runs_ok.mpr ⟨rfl, rfl⟩
  · rw [hb]
    exact runs_error.mpr he

theorem runs_of_gated (h : Gated x s C) : Runs x Stuck fun s' => s'.ncli = s.ncli ∧ s'.log = s.log := by
  rcases h with ⟨-, s', rfl, hs⟩ | ⟨-, e, he, rfl⟩
  · exact runs_ok.mpr ⟨hs.ncli, hs.log⟩
  · exact runs_error.mpr he

/-- **A write to the disk always sleeps.** -/
theorem bwrite_stuck (h : 1 ≤ s.ncli) (b : ℕ) : bwrite b s = .error "sched locks" := by
  set t := s.modify b fun x => { x with dirty := true } with ht
  have hl : ((t.acquire.lookup b).map fun x => x.valid && !x.dirty).getD false = false := by
    have hlk : t.acquire.lookup b = (s.lookup b).map fun x => { x with dirty := true } := by
      change (s.modify b fun x => { x with dirty := true }).lookup b = _
      rw [lookup_modify, if_pos rfl]
      exact fun _ => rfl
    rw [hlk]
    cases s.lookup b <;> simp
  rw [bwrite, iderw]
  simp only [← ht, hl, Bool.false_eq_true, if_false, sleep_stuck (s := t.acquire) (Nat.succ_le_succ h)]
  rfl

/-- **A commit with blocks in the log panics.** -/
theorem commit_stuck (h : 1 ≤ s.ncli) (hlh : s.log.lh ≠ []) : Runs (commit s) Stuck fun _ => False := by
  rw [commit, if_neg hlh]
  obtain ⟨b, bs, hbs⟩ := List.exists_cons_of_ne_nil hlh
  have hpairs : logPairs s.log = (s.log.start + 1, b) ::
      (bs.zipIdx 1).map fun x => (s.log.start + x.2 + 1, x.1) := by
    simp [logPairs, hbs]
  have hturn : Runs (writeLog (s.log.start + 1) b s) Stuck fun _ => False := by
    refine (runs_bread h _).bind fun s1 hs1 => ?_
    refine (runs_bread (hs1.1 ▸ h) b).bind fun s2 hs2 => ?_
    rw [bwrite_stuck (by rw [hs2.1, hs1.1]; exact h)]
    exact runs_error.mpr (.inl rfl)
  simp only [hpairs, Outcome.loop]
  exact (hturn.bind (Q := fun _ => False) fun _ hf => hf.elim).bind fun _ hf => hf.elim

/-- The log of an operation that has written `n` blocks at most. -/
structure Open (s : Bio) (n : ℕ) : Prop where
  ncli : 1 ≤ s.ncli
  outstanding : s.log.outstanding = 1
  committing : s.log.committing = false
  size : s.log.size = logSize
  room : s.log.lh.length ≤ 20 + n

theorem Open.of_log {n : ℕ} (h : s.Open n) (hn : s'.ncli = s.ncli) (hl : s'.log = s.log) : s'.Open n :=
  ⟨hn ▸ h.ncli, hl ▸ h.outstanding, hl ▸ h.committing, hl ▸ h.size, hl ▸ h.room⟩

/-- A block is logged. -/
theorem runs_writeBlock {n : ℕ} (h : s.Open n) (hn : n < 3) (ip : SwapInode) (bn : ℕ) :
    Runs (writeBlock ip bn s) Stuck fun s' => s'.Open (n + 1) ∧ s'.log.lh ≠ [] := by
  refine (runs_of_gated (gated_bmap h.ncli ip bn)).bind fun s1 hs1 => ?_
  have h1 := h.of_log hs1.1 hs1.2
  refine (runs_bread h1.ncli (ip.addr bn)).bind fun s2 hs2 => ?_
  have h2 := h1.of_log hs2.1 hs2.2
  have hcheck : s2.log.logWriteCheck = .ok () := by
    have := h2.room
    have := h2.size
    simp only [Log.logWriteCheck, logSize, maxOpBlocks, h2.outstanding] at *
    rw [if_neg (by omega), if_neg (by omega)]
  rw [logWrite, hcheck]
  simp only [ok_bind]
  set s3 := { s2 with log := s2.log.logWrite (ip.addr bn) }.modify (ip.addr bn) fun x =>
    { x with dirty := true } with hs3
  obtain ⟨bufs, hbufs⟩ := brelse_eq (ip.addr bn) s3
  change Runs (.ok (brelse (ip.addr bn) s3)) Stuck _
  have hlog : (brelse (ip.addr bn) s3).log = s2.log.logWrite (ip.addr bn) := by rw [hbufs]; rfl
  have hlen : (s2.log.logWrite (ip.addr bn)).lh.length ≤ _ := Log.length_logWrite_le
  refine runs_ok.mpr ⟨⟨?_, ?_, ?_, ?_, ?_⟩, ?_⟩
  · rw [hbufs]
    exact h2.ncli
  · rw [hlog, Log.logWrite_eq]
    exact h2.outstanding
  · rw [hlog, Log.logWrite_eq]
    exact h2.committing
  · rw [hlog, Log.logWrite_eq]
    exact h2.size
  · have := h2.room
    rw [hlog]
    omega
  · rw [hlog]
    exact List.ne_nil_of_mem (Log.mem_logWrite.mpr (.inr rfl))

/-- **The first chunk of an eviction panics**: at its end it is the last operation, and commits. -/
theorem writeChunk_stuck (h : 1 ≤ s.ncli) (hidle : s.Idle) (ip : SwapInode) (a b c : ℕ) :
    Runs (writeChunk ip [a, b, c] s) Stuck fun _ => False := by
  have hbegin : Runs (beginOp s) Stuck fun s' => s'.Open 0 := by
    rw [beginOp]
    simp only [Log.beginOp]
    have hlog : s.acquire.log = s.log := rfl
    rw [hlog]
    cases hc : s.log.committing with
    | true =>
      simp only [if_true, sleep_stuck (s := s.acquire) (Nat.succ_le_succ h)]
      exact runs_error.mpr (.inl rfl)
    | false =>
      simp only [Bool.false_eq_true, if_false]
      by_cases hroom : s.log.lh.length + (s.log.outstanding + 1) * maxOpBlocks > logSize
      · simp only [hroom, if_true, sleep_stuck (s := s.acquire) (Nat.succ_le_succ h)]
        exact runs_error.mpr (.inl rfl)
      · simp only [hroom, if_false]
        refine runs_ok.mpr ⟨h, ?_, rfl, hidle.2, ?_⟩
        · change s.log.outstanding + 1 = 1
          rw [hidle.1]
        · change s.log.lh.length ≤ 20 + 0
          rw [hidle.1] at hroom
          simp only [maxOpBlocks, logSize] at hroom
          omega
  refine hbegin.bind fun s1 h1 => ?_
  refine (runs_of_gated (gated_ilock h1.ncli ip)).bind fun s2 hs2 => ?_
  have h2 := h1.of_log hs2.1 hs2.2
  have hloop : Runs (Outcome.loop (writeBlock ip) [a, b, c] s2) Stuck
      fun s' => s'.Open 3 ∧ s'.log.lh ≠ [] := by
    refine (runs_writeBlock h2 (by decide) ip a).bind fun s3 h3 => ?_
    refine (runs_writeBlock h3.1 (by decide) ip b).bind fun s4 h4 => ?_
    exact (runs_writeBlock h4.1 (by decide) ip c).bind fun s5 h5 => runs_ok.mpr h5
  refine hloop.bind fun s3 hopen => ?_
  obtain ⟨h3, hlh⟩ := hopen
  have hend : (iunlock s3).log.endOp
      = .ok ({ s3.log with outstanding := 0, committing := true }, true) := by
    change s3.log.endOp = _
    simp [Log.endOp, h3.outstanding, h3.committing]
  rw [endOp, hend]
  simp only [ok_bind, if_true]
  refine (commit_stuck (s := { iunlock s3 with
    log := { s3.log with outstanding := 0, committing := true } }) h3.ncli hlh).bind fun _ hf => hf.elim

/-- **An eviction under a spinlock panics** when no other operation is outstanding. -/
theorem writeToSwapFile_stuck (h : 1 ≤ s.ncli) (hidle : s.Idle) (ip : SwapInode)
    (j : Fin maxPsycPages) : Runs (writeToSwapFile ip j s) Stuck fun _ => False :=
  (writeChunk_stuck h hidle ip _ _ _).bind fun _ hf => hf.elim

/-- **A fault that can be served under a spinlock**: it does not come to the swap file, or it has a free
memory slot and what it reads is in memory. -/
def Calm (ip : SwapInode) : Option (Fin maxPsycPages × Bool) → Bio → Prop
  | none, _ => True
  | some (j, evict), s => evict = false ∧ s.Reads ip j

/-- **Serving a fault under a spinlock.** -/
theorem gated_serve (h : 1 ≤ s.ncli) (hidle : s.Idle) (ip : SwapInode)
    (need : Option (Fin maxPsycPages × Bool)) : Gated (serve ip need s) s (Calm ip need s) := by
  match need with
  | none => exact gated_ok (.refl s)
  | some (j, false) =>
    refine Gated.congr ((gated_readFromSwapFile h ip j).bind fun s' hs => ?_) (C := _ ∧ True) ?_
    · exact gated_ok (.refl s')
    · simp [Calm]
  | some (j, true) =>
    refine .inr ⟨fun hc => Bool.noConfusion hc.1, ?_⟩
    have hruns : Runs (serve ip (some (j, true)) s) Stuck fun _ => False := by
      refine (runs_of_gated (gated_readFromSwapFile h ip j)).bind fun s' hs => ?_
      exact writeToSwapFile_stuck (hs.1 ▸ h) ⟨hs.2 ▸ hidle.1, hs.2 ▸ hidle.2⟩ ip j
    cases hx : serve ip (some (j, true)) s with
    | error e => exact ⟨e, hruns.1 e hx, rfl⟩
    | ok s' => exact (hruns.2 s' hx).elim

end

end Bio

end Xv6
