import Xv6.Fs.Layout
import Xv6.Lib.Dlist
import Xv6.Lib.Ledger
import Xv6.Lib.Outcome

/-!
# Fs/Bcache — the buffer cache under concurrent callers

`bio.c` with the disk queue of `ide.c`, as many callers use it at once.  A caller is one use of a buffer, from
`bread` to `brelse`; a process that holds two buffers is two callers.  What runs under `bcache.lock` is one step,
and so is a disk transfer; between the steps of one caller all others may move.

A caller that has changed the data of its buffer calls `bwrite` or `log_write` before `brelse`.  Of `log_write`
only the flag matters here: the header it fills is not read by the cache.
-/

namespace Xv6

open Outcome List

/-- `NBUF`. -/
def nbuf : ℕ := maxOpBlocks * 3

/-- `ROOTDEV`. -/
def rootDev : ℕ := 1

/-- `struct buf`; the sleep lock names the caller that has it. -/
structure Bcache.Buf (U : Type) where
  valid : Bool
  dirty : Bool
  dev : ℕ
  blockno : ℕ
  lock : Option U
  refcnt : ℕ
  data : Block

/-- `bcache` with the links of its list, where `none` is `bcache.head`; `idequeue`, and the blocks of the
disks. -/
structure Bcache (U : Type) where
  buf : Fin nbuf → Bcache.Buf U
  links : Dlist (Option (Fin nbuf))
  idequeue : List (Fin nbuf)
  disk : ℕ → ℕ → Block

namespace Bcache

section Code

variable {U : Type} [DecidableEq U] (c : Bcache U)

def setBuf (b : Fin nbuf) (x : Buf U) : Bcache U := { c with buf := Function.update c.buf b x }

def setDisk (dev blockno : ℕ) (data : Block) : Bcache U :=
  { c with disk := Function.update c.disk dev (Function.update (c.disk dev) blockno data) }

/-- `binit`, on memory that is all zero. -/
def binit (U : Type) (disk : ℕ → ℕ → Block) : Bcache U where
  buf _ := ⟨false, false, 0, 0, none, 0, fun _ => 0⟩
  links := (List.finRange nbuf).foldl (fun r b => r.pushFront none (some b)) ⟨fun _ => none, fun _ => none⟩
  idequeue := []
  disk := disk

/-- The loops of `bget`: along one of the links from the head, until a buffer to stop at or the head again. -/
def scan (link : Option (Fin nbuf) → Option (Fin nbuf)) (stop : Buf U → Bool) : Option (Option (Fin nbuf)) :=
  Links.seek link (fun x => x.all fun b => stop (c.buf b)) (nbuf + 1) (link none)

/-- `bget` up to the release of `bcache.lock`. -/
def bget (dev blockno : ℕ) : Except String (Fin nbuf × Bcache U) :=
  match c.scan c.links.next fun x => x.dev == dev && x.blockno == blockno with
  | none => .error "bget: no end"
  | some (some b) => .ok (b, c.setBuf b { c.buf b with refcnt := (c.buf b).refcnt + 1 })
  | some none =>
    match c.scan c.links.prev fun x => x.refcnt == 0 && !x.dirty with
    | none => .error "bget: no end"
    | some (some b) => .ok (b, c.setBuf b { c.buf b with
        dev := dev, blockno := blockno, valid := false, dirty := false, refcnt := 1 })
    | some none => .error "bget: no buffers"

/-- `acquiresleep`; `none` sleeps. -/
def acquiresleep (u : U) (b : Fin nbuf) : Option (Bcache U) :=
  if (c.buf b).lock.isSome then none else some (c.setBuf b { c.buf b with lock := some u })

def holdingsleep (u : U) (b : Fin nbuf) : Bool := (c.buf b).lock == some u

/-- The first test of `idestart`. -/
def idestart (b : Fin nbuf) : Except String Unit :=
  if fsSize ≤ (c.buf b).blockno then .error "incorrect blockno" else .ok ()

/-- What `iderw` waits for. -/
def Buf.synced (x : Buf U) : Bool := x.valid && !x.dirty

/-- `iderw` up to its wait. -/
def iderw (u : U) (b : Fin nbuf) : Except String (Bcache U) :=
  if !c.holdingsleep u b then .error "iderw: buf not locked"
  else if (c.buf b).synced then .error "iderw: nothing to do"
  else do
    let _ ← (if c.idequeue.isEmpty then c.idestart b else .ok ())
    return { c with idequeue := c.idequeue ++ [b] }

/-- `ideintr`, with the transfer it ends. -/
def ideintr : Except String (Bcache U) :=
  match c.idequeue with
  | [] => .ok c
  | b :: q => do
    let x := c.buf b
    let c := if x.dirty then c.setDisk x.dev x.blockno x.data
      else c.setBuf b { x with data := c.disk x.dev x.blockno }
    let c := { c.setBuf b { c.buf b with valid := true, dirty := false } with idequeue := q }
    match q with
    | [] => return c
    | b' :: _ => do
      c.idestart b'
      return c

/-- `bwrite` up to the wait of `iderw`. -/
def bwrite (u : U) (b : Fin nbuf) : Except String (Bcache U) :=
  if !c.holdingsleep u b then .error "bwrite" else (c.setBuf b { c.buf b with dirty := true }).iderw u b

/-- What `log_write` does to the buffer. -/
def logWrite (b : Fin nbuf) : Bcache U := c.setBuf b { c.buf b with dirty := true }

/-- `brelse` up to `releasesleep`. -/
def brelse (u : U) (b : Fin nbuf) : Except String (Bcache U) :=
  if !c.holdingsleep u b then .error "brelse" else .ok (c.setBuf b { c.buf b with lock := none })

/-- `brelse` under `bcache.lock`. -/
def unref (b : Fin nbuf) : Bcache U :=
  let c := c.setBuf b { c.buf b with refcnt := (c.buf b).refcnt - 1 }
  if (c.buf b).refcnt = 0 then { c with links := (c.links.unlink (some b)).pushFront none (some b) } else c

end Code

/-! ## What the functions do -/

section Spec

variable {U : Type} {c c' : Bcache U} {u : U} {n dev : ℕ} {b b' : Fin nbuf}

@[simp] theorem setBuf_self (c : Bcache U) (b : Fin nbuf) (x : Buf U) : (c.setBuf b x).buf b = x :=
  Function.update_self ..

theorem setBuf_of_ne {x : Buf U} (h : b' ≠ b) : (c.setBuf b x).buf b' = c.buf b' := Function.update_of_ne h ..

/-- The list runs once through all buffers. -/
def Ring (c : Bcache U) : Prop :=
  ∃ l : List (Fin nbuf), l.Nodup ∧ (∀ b, b ∈ l) ∧ c.links.Threads none (l.map some)

/-- A scan stops at a buffer to stop at, or finds none. -/
theorem scan_spec {l : List (Fin nbuf)} {link : Option (Fin nbuf) → Option (Fin nbuf)} (stop : Buf U → Bool)
    (hnd : l.Nodup) (hl : Links.Linked link (none :: l.map some ++ [none])) :
    (∃ b, stop (c.buf b) ∧ c.scan link stop = some (some b)) ∨
      (∀ b ∈ l, stop (c.buf b) = false) ∧ c.scan link stop = some none := by
  have hlen : l.length < nbuf + 1 := by
    have := hnd.length_le_card
    rw [Fintype.card_fin] at this
    omega
  rcases Dlist.seek_ring (fun x => x.all fun b => stop (c.buf b)) hl rfl with ⟨x, hx, hs, hseek⟩ | ⟨hno, hseek⟩
  · obtain ⟨b, -, rfl⟩ := mem_map.mp hx
    exact .inl ⟨b, by simpa using hs, hseek _ (by simpa using hlen)⟩
  · refine .inr ⟨fun b hb => ?_, hseek _ (by simpa using hlen)⟩
    simpa using hno (some b) (mem_map_of_mem hb)

/-- Both directions of the ring pass every buffer. -/
theorem Ring.scan_cases {link : Option (Fin nbuf) → Option (Fin nbuf)} (hr : c.Ring)
    (hlink : link = c.links.next ∨ link = c.links.prev) (stop : Buf U → Bool) :
    (∃ b, stop (c.buf b) ∧ c.scan link stop = some (some b)) ∨
      (∀ b, stop (c.buf b) = false) ∧ c.scan link stop = some none := by
  obtain ⟨l, hnd, hall, ht⟩ := hr
  rcases hlink with rfl | rfl
  · exact (scan_spec stop hnd ht.next).imp_right fun h => ⟨fun b => h.1 b (hall b), h.2⟩
  · have hp : Links.Linked c.links.prev (none :: l.reverse.map some ++ [none]) := by
      rw [map_reverse]
      exact ht.prev
    refine (scan_spec stop (nodup_reverse.mpr hnd) hp).imp_right fun h => ⟨fun b => ?_, h.2⟩
    exact h.1 b (mem_reverse.mpr (hall b))

/-- **What `bget` does**: the buffer of the block gets a reference, or one that nobody uses and that is not dirty
becomes its buffer. -/
theorem Ring.bget_eq_ok (hr : c.Ring) (h : c.bget dev n = .ok (b, c')) :
    (c.buf b).dev = dev ∧ (c.buf b).blockno = n ∧
        c' = c.setBuf b { c.buf b with refcnt := (c.buf b).refcnt + 1 } ∨
      (∀ b', ¬ ((c.buf b').dev = dev ∧ (c.buf b').blockno = n)) ∧ (c.buf b).refcnt = 0 ∧
        (c.buf b).dirty = false ∧ c' = c.setBuf b { c.buf b with
          dev := dev, blockno := n, valid := false, dirty := false, refcnt := 1 } := by
  unfold bget at h
  rcases hr.scan_cases (.inl rfl) (fun x => x.dev == dev && x.blockno == n) with ⟨b1, hs, heq⟩ | ⟨hno, heq⟩
  · rw [heq] at h
    cases h
    simp only [Bool.and_eq_true, beq_iff_eq] at hs
    exact .inl ⟨hs.1, hs.2, rfl⟩
  · rw [heq] at h
    simp only at h
    rcases hr.scan_cases (.inr rfl) (fun x => x.refcnt == 0 && !x.dirty) with ⟨b1, hs, heq'⟩ | ⟨-, heq'⟩
    · rw [heq'] at h
      cases h
      simp only [Bool.and_eq_true, beq_iff_eq, Bool.not_eq_true'] at hs
      refine .inr ⟨fun b' hb' => ?_, hs.1, hs.2, rfl⟩
      simpa [hb'] using hno b'
    · rw [heq'] at h
      cases h

theorem acquiresleep_eq_some (h : c.acquiresleep u b = some c') :
    (c.buf b).lock = none ∧ c' = c.setBuf b { c.buf b with lock := some u } := by
  unfold acquiresleep at h
  split at h
  · cases h
  · rename_i hl
    exact ⟨by simpa using hl, (Option.some.inj h).symm⟩

/-- **What the end of a transfer does**: a dirty buffer has gone to the disk, another has come from there. -/
theorem ideintr_eq_ok (h : c.ideintr = .ok c') : c' = c ∨ ∃ b q, c.idequeue = b :: q ∧
    ((c.buf b).dirty = false ∧ c' = { c.setBuf b { c.buf b with
        data := c.disk (c.buf b).dev (c.buf b).blockno, valid := true, dirty := false } with idequeue := q } ∨
      (c.buf b).dirty = true ∧ c' = { (c.setDisk (c.buf b).dev (c.buf b).blockno (c.buf b).data).setBuf b
        { c.buf b with valid := true, dirty := false } with idequeue := q }) := by
  unfold ideintr at h
  split at h
  · cases h
    exact .inl rfl
  · rename_i b q hq
    refine .inr ⟨b, q, hq, ?_⟩
    by_cases hd : (c.buf b).dirty = true
    · refine .inr ⟨hd, ?_⟩
      simp only [hd, if_true] at h
      cases q with
      | nil => exact (Except.ok.inj h).symm
      | cons b' q =>
        obtain ⟨-, -, h⟩ := bind_eq_ok.mp h
        exact (Except.ok.inj h).symm
    · rw [Bool.not_eq_true] at hd
      refine .inl ⟨hd, ?_⟩
      simp only [hd, Bool.false_eq_true, if_false, setBuf_self] at h
      have hset : ∀ x y : Buf U, (c.setBuf b x).setBuf b y = c.setBuf b y := fun x y => by
        simp [setBuf]
      rw [hset] at h
      cases q with
      | nil => exact (Except.ok.inj h).symm
      | cons b' q =>
        obtain ⟨-, -, h⟩ := bind_eq_ok.mp h
        exact (Except.ok.inj h).symm

theorem iderw_eq_ok [DecidableEq U] (h : c.iderw u b = .ok c') :
    (c.buf b).lock = some u ∧ c' = { c with idequeue := c.idequeue ++ [b] } := by
  unfold iderw at h
  split at h
  · cases h
  · rename_i hl
    split at h
    · cases h
    · obtain ⟨-, -, h⟩ := bind_eq_ok.mp h
      exact ⟨by simpa [holdingsleep] using hl, (Except.ok.inj h).symm⟩

theorem synced_iff {x : Buf U} : x.synced = true ↔ x.valid = true ∧ x.dirty = false := by
  simp [Buf.synced]

theorem bwrite_eq_ok [DecidableEq U] (h : c.bwrite u b = .ok c') : (c.buf b).lock = some u ∧
    c' = { c.setBuf b { c.buf b with dirty := true } with idequeue := c.idequeue ++ [b] } := by
  unfold bwrite at h
  split at h
  · cases h
  · rename_i hl
    exact ⟨by simpa [holdingsleep] using hl, (iderw_eq_ok h).2⟩

theorem brelse_eq_ok [DecidableEq U] (h : c.brelse u b = .ok c') : (c.buf b).lock = some u ∧
    c' = c.setBuf b { c.buf b with lock := none } := by
  unfold brelse at h
  split at h
  · cases h
  · rename_i hl
    exact ⟨by simpa [holdingsleep] using hl, (Except.ok.inj h).symm⟩

/-- What `unref` does to the list. -/
theorem Ring.unref (hr : c.Ring) (b : Fin nbuf) : (c.unref b).Ring := by
  unfold Bcache.unref
  simp only
  split
  · obtain ⟨l, hnd, hall, ht⟩ := hr
    obtain ⟨l1, l2, rfl⟩ := append_of_mem (hall b)
    have hnd' : (none :: ((l1 ++ b :: l2).map some)).Nodup := by
      rw [nodup_cons, nodup_map_iff (Option.some_injective _)]
      exact ⟨by simp, hnd⟩
    have hperm : (l1 ++ b :: l2).Perm (b :: (l1 ++ l2)) := perm_middle
    have hb := hperm.nodup_iff.mp hnd
    rw [map_append, map_cons] at ht hnd'
    have hu := ht.unlink hnd'
    rw [← map_append] at hu
    refine ⟨b :: (l1 ++ l2), hb, fun b' => hperm.mem_iff.mp (hall b'), hu.pushFront ?_ ?_⟩
    · rw [nodup_cons, nodup_map_iff (Option.some_injective _)]
      exact ⟨by simp, (nodup_cons.mp hb).2⟩
    · simpa using (nodup_cons.mp hb).1
  · exact hr

theorem unref_buf (c : Bcache U) (b b' : Fin nbuf) : (c.unref b).buf b' =
    (c.setBuf b { c.buf b with refcnt := (c.buf b).refcnt - 1 }).buf b' := by
  unfold unref
  simp only
  split <;> rfl

theorem unref_rest (c : Bcache U) (b : Fin nbuf) :
    (c.unref b).idequeue = c.idequeue ∧ (c.unref b).disk = c.disk := by
  unfold unref
  simp only
  split <;> exact ⟨rfl, rfl⟩

/-- **`binit` threads all buffers.** -/
theorem ring_binit (U : Type) (disk : ℕ → ℕ → Block) : (binit U disk).Ring := by
  have hfold : ∀ (bs l : List (Fin nbuf)) (r : Dlist (Option (Fin nbuf))), (bs.reverse ++ l).Nodup →
      r.Threads none (l.map some) →
      (bs.foldl (fun r b => r.pushFront none (some b)) r).Threads none ((bs.reverse ++ l).map some) := by
    intro bs
    induction bs with
    | nil => exact fun l r _ ht => ht
    | cons b bs ih =>
      intro l r hnd ht
      rw [reverse_cons, append_assoc, singleton_append] at hnd ⊢
      have hbl := (nodup_append.mp hnd).2.1
      refine ih (b :: l) _ hnd (ht.pushFront ?_ ?_)
      · rw [nodup_cons, nodup_map_iff (Option.some_injective _)]
        exact ⟨by simp, (nodup_cons.mp hbl).2⟩
      · simpa using (nodup_cons.mp hbl).1
  have hnd : ((List.finRange nbuf).reverse ++ []).Nodup := by simpa using nodup_finRange nbuf
  exact ⟨_, hnd, fun b => by simp, hfold _ [] _ hnd (Dlist.threads_nil rfl rfl)⟩

end Spec

/-! ## Callers -/

/-- Where a caller that wants block `n` is: in `acquiresleep`, with the lock of buffer `b`, in `iderw` for
`bread`, behind `bread`, in `iderw` for `bwrite`, or between the two halves of `brelse`.  Behind `bread` the
flag says whether all changes have been handed to `bwrite` or `log_write`. -/
inductive Phase where
  | idle
  | asleep (n : ℕ) (b : Fin nbuf)
  | locked (n : ℕ) (b : Fin nbuf)
  | reading (n : ℕ) (b : Fin nbuf)
  | inUse (n : ℕ) (b : Fin nbuf) (saved : Bool)
  | writing (n : ℕ) (b : Fin nbuf)
  | released (n : ℕ) (b : Fin nbuf)

namespace Phase

/-- The block a caller wants, and its buffer. -/
def target : Phase → Option (ℕ × Fin nbuf)
  | idle => none
  | asleep n b | locked n b | reading n b | inUse n b _ | writing n b | released n b => some (n, b)

/-- The buffer a caller has a reference to. -/
def buf (p : Phase) : Option (Fin nbuf) := p.target.map Prod.snd

/-- The buffer whose lock a caller has. -/
def holds : Phase → Option (Fin nbuf)
  | idle | asleep .. | released .. => none
  | locked _ b | reading _ b | inUse _ b _ | writing _ b => some b

end Phase

/-- The cache and its callers; `written` is the last data of each block of `ROOTDEV` that was written through
the cache, and what the disk had before. -/
structure System (U : Type) where
  cache : Bcache U
  pc : U → Phase
  written : ℕ → Block

namespace System

variable {U : Type} [DecidableEq U]

def goto (s : System U) (u : U) (p : Phase) : System U := { s with pc := Function.update s.pc u p }

/-- Buffer `b` is written: by `bwrite` or by `log_write`. -/
def record (s : System U) (b : Fin nbuf) : System U :=
  { s with written := Function.update s.written (s.cache.buf b).blockno (s.cache.buf b).data }

/-- **One step of a caller or of the disk.** -/
inductive Step (s : System U) : System U → Prop where
  | bget {u : U} {n : ℕ} {b : Fin nbuf} {c : Bcache U} (hu : s.pc u = .idle)
      (h : s.cache.bget rootDev n = .ok (b, c)) : Step s ({ s with cache := c }.goto u (.asleep n b))
  | acquire {u : U} {n : ℕ} {b : Fin nbuf} {c : Bcache U} (hu : s.pc u = .asleep n b)
      (h : s.cache.acquiresleep u b = some c) : Step s ({ s with cache := c }.goto u (.locked n b))
  | hit {u : U} {n : ℕ} {b : Fin nbuf} (hu : s.pc u = .locked n b) (hv : (s.cache.buf b).valid = true) :
      Step s (s.goto u (.inUse n b true))
  | miss {u : U} {n : ℕ} {b : Fin nbuf} {c : Bcache U} (hu : s.pc u = .locked n b)
      (hv : (s.cache.buf b).valid = false) (h : s.cache.iderw u b = .ok c) :
      Step s ({ s with cache := c }.goto u (.reading n b))
  | wake {u : U} {n : ℕ} {b : Fin nbuf} (hu : s.pc u = .reading n b)
      (hd : (s.cache.buf b).synced = true) : Step s (s.goto u (.inUse n b true))
  | change {u : U} {n : ℕ} {b : Fin nbuf} {sv : Bool} (hu : s.pc u = .inUse n b sv) (data : Block) :
      Step s ({ s with cache := s.cache.setBuf b { s.cache.buf b with data := data } }.goto u
        (.inUse n b false))
  | bwrite {u : U} {n : ℕ} {b : Fin nbuf} {sv : Bool} {c : Bcache U} (hu : s.pc u = .inUse n b sv)
      (h : s.cache.bwrite u b = .ok c) : Step s ({ s.record b with cache := c }.goto u (.writing n b))
  | done {u : U} {n : ℕ} {b : Fin nbuf} (hu : s.pc u = .writing n b)
      (hd : (s.cache.buf b).synced = true) : Step s (s.goto u (.inUse n b true))
  | logWrite {u : U} {n : ℕ} {b : Fin nbuf} {sv : Bool} (hu : s.pc u = .inUse n b sv) :
      Step s ({ s.record b with cache := s.cache.logWrite b }.goto u (.inUse n b true))
  | brelse {u : U} {n : ℕ} {b : Fin nbuf} {c : Bcache U} (hu : s.pc u = .inUse n b true)
      (h : s.cache.brelse u b = .ok c) : Step s ({ s with cache := c }.goto u (.released n b))
  | unref {u : U} {n : ℕ} {b : Fin nbuf} (hu : s.pc u = .released n b) :
      Step s ({ s with cache := s.cache.unref b }.goto u .idle)
  | intr {c : Bcache U} (h : s.cache.ideintr = .ok c) : Step s { s with cache := c }

/-- The system after `binit`. -/
def init (U : Type) (disk : ℕ → ℕ → Block) : System U := ⟨binit U disk, fun _ => .idle, disk rootDev⟩

def Reachable (disk : ℕ → ℕ → Block) : System U → Prop := Relation.ReflTransGen Step (init U disk)

end System

end Bcache

end Xv6
