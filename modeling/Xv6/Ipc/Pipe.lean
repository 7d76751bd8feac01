import Xv6.Lib.Ring
import Xv6.Lib.Simulation
import Xv6.Mem.Layout

/-!
# Ipc/Pipe — `pipe.c`

`pipewrite` and `piperead` hold the lock of the pipe from one sleep to the next, so what a process does
between two sleep points is one step.  A step of a writer stores bytes until the ring is full, the call
is over or it fails; a step of a reader waits for a byte or for the last writer, and then takes all it
can.  A sleeping process may be woken at any time: that allows more runs than `wakeup` does.

The counters are 32-bit words that only grow, so every statement here is about them modulo `2 ^ 32`.
-/

namespace Xv6

open Simulation List

/-- `PIPESIZE`. -/
def pipeSize : ℕ := 512

/-- `struct pipe`, without its lock. -/
structure Pipe where
  data : ℕ → UInt8
  nread : ℕ
  nwrite : ℕ
  readopen : Bool
  writeopen : Bool

namespace Pipe

/-- The pipe `pipealloc` makes in a page with contents `data`. -/
def alloc (data : ℕ → UInt8) : Pipe := ⟨data, 0, 0, true, true⟩

/-- `p->nwrite == p->nread + PIPESIZE`. -/
def Full (p : Pipe) : Prop := p.nwrite = (p.nread + pipeSize) % 2 ^ 32

/-- `p->nread == p->nwrite`. -/
def Empty (p : Pipe) : Prop := p.nread = p.nwrite

instance (p : Pipe) : Decidable p.Full := inferInstanceAs (Decidable (_ = _))

instance (p : Pipe) : Decidable p.Empty := inferInstanceAs (Decidable (_ = _))

/-- `p->data[p->nwrite++ % PIPESIZE] = b`. -/
def put (p : Pipe) (b : UInt8) : Pipe :=
  { p with data := Function.update p.data (p.nwrite % pipeSize) b, nwrite := incUint p.nwrite }

/-- `p->data[p->nread++ % PIPESIZE]`. -/
def take (p : Pipe) : UInt8 × Pipe :=
  (p.data (p.nread % pipeSize), { p with nread := incUint p.nread })

/-- How a step of `pipewrite` ends: the call returns `n`, it returns `-1`, or it sleeps with bytes
left. -/
inductive WriteEnd where
  | done
  | fail
  | sleep (rest : List UInt8)

/-- The loop of `pipewrite` up to its next sleep: the bytes it stores, how it ends and the pipe. -/
def pipewrite (killed : Bool) : List UInt8 → Pipe → List UInt8 × WriteEnd × Pipe
  | [], p => ([], .done, p)
  | b :: bs, p =>
    if p.Full then
      if !p.readopen || killed then ([], .fail, p) else ([], .sleep (b :: bs), p)
    else
      let r := pipewrite killed bs (p.put b)
      (b :: r.1, r.2)

/-- The copy loop of `piperead`. -/
def readCopy : ℕ → Pipe → List UInt8 × Pipe
  | 0, p => ([], p)
  | n + 1, p =>
    if p.Empty then ([], p)
    else
      let r := readCopy n p.take.2
      (p.take.1 :: r.1, r.2)

/-- How a step of `piperead` ends: the bytes it returns, `-1`, or a sleep. -/
inductive ReadEnd where
  | done (bs : List UInt8)
  | fail
  | sleep

/-- `piperead` up to its next sleep. -/
def piperead (killed : Bool) (n : ℕ) (p : Pipe) : ReadEnd × Pipe :=
  if p.Empty ∧ p.writeopen then if killed then (.fail, p) else (.sleep, p)
  else (.done (readCopy n p).1, (readCopy n p).2)

/-- `pipeclose`; `none` is the freed pipe. -/
def pipeclose (p : Pipe) (writable : Bool) : Option Pipe :=
  let p := if writable then { p with writeopen := false } else { p with readopen := false }
  if p.readopen || p.writeopen then some p else none

/-- The bytes that are in the pipe. -/
def contents (p : Pipe) : List UInt8 :=
  Ring.window pipeSize p.data p.nread ((p.nwrite + 2 ^ 32 - p.nread) % 2 ^ 32)

end Pipe

/-! ## Runs -/

/-- Where a process is: outside the pipe, or asleep in a call. -/
inductive PipePc where
  | idle
  | writing (rest : List UInt8)
  | reading (n : ℕ)

/-- A pipe and the processes that use it. -/
structure PipeSystem where
  pipe : Option Pipe
  pc : ℕ → PipePc

/-- What a step shows: the bytes a writer stored, or the bytes a read of `n` returned. -/
inductive PipeEvent where
  | stored (bs : List UInt8)
  | returned (n : ℕ) (bs : List UInt8)
  | silent

namespace PipeSystem

/-- The processes outside their calls. -/
def init (data : ℕ → UInt8) : PipeSystem := ⟨some (.alloc data), fun _ => .idle⟩

/-- Process `pid` starts to write `bs`, or wakes up with `bs` left. -/
def Writes (s : PipeSystem) (pid : ℕ) (bs : List UInt8) : Prop :=
  s.pc pid = .idle ∨ s.pc pid = .writing bs

/-- Process `pid` starts to read `n` bytes, or wakes up in such a call. -/
def Reads (s : PipeSystem) (pid n : ℕ) : Prop := s.pc pid = .idle ∨ s.pc pid = .reading n

/-- The point at which a writer goes on. -/
def afterWrite : Pipe.WriteEnd → PipePc
  | .done => .idle
  | .fail => .idle
  | .sleep rest => .writing rest

/-- **One step**, from one sleep point to the next. -/
inductive Step : PipeEvent → PipeSystem → PipeSystem → Prop where
  | write {s : PipeSystem} {p p' : Pipe} {pid : ℕ} {bs st : List UInt8} {r : Pipe.WriteEnd}
      (killed : Bool) (hs : s.pipe = some p) (hpc : s.Writes pid bs)
      (hw : p.pipewrite killed bs = (st, r, p')) :
      Step (.stored st) s ⟨some p', Function.update s.pc pid (afterWrite r)⟩
  | readDone {s : PipeSystem} {p p' : Pipe} {pid n : ℕ} {bs : List UInt8} (killed : Bool)
      (hs : s.pipe = some p) (hpc : s.Reads pid n) (hr : p.piperead killed n = (.done bs, p')) :
      Step (.returned n bs) s ⟨some p', Function.update s.pc pid .idle⟩
  | readFail {s : PipeSystem} {p p' : Pipe} {pid n : ℕ} (killed : Bool) (hs : s.pipe = some p)
      (hpc : s.Reads pid n) (hr : p.piperead killed n = (.fail, p')) :
      Step .silent s ⟨some p', Function.update s.pc pid .idle⟩
  | readSleep {s : PipeSystem} {p p' : Pipe} {pid n : ℕ} (killed : Bool) (hs : s.pipe = some p)
      (hpc : s.Reads pid n) (hr : p.piperead killed n = (.sleep, p')) :
      Step .silent s ⟨some p', Function.update s.pc pid (.reading n)⟩
  | close {s : PipeSystem} {p : Pipe} (writable : Bool) (hs : s.pipe = some p) :
      Step .silent s ⟨p.pipeclose writable, s.pc⟩

/-- The bytes stored in a run, in store order. -/
def stored : List PipeEvent → List UInt8
  | [] => []
  | .stored bs :: es => bs ++ stored es
  | .returned _ _ :: es => stored es
  | .silent :: es => stored es

/-- The bytes returned by the reads of a run. -/
def delivered : List PipeEvent → List UInt8
  | [] => []
  | .stored _ :: es => delivered es
  | .returned _ bs :: es => bs ++ delivered es
  | .silent :: es => delivered es

end PipeSystem

/-! ## One step -/

namespace Pipe

variable {p p' : Pipe} {q bs st : List UInt8} {b : UInt8} {r : WriteEnd} {n : ℕ}

/-- **The pipe buffers the bytes `q`.** -/
structure Buffers (p : Pipe) (q : List UInt8) : Prop where
  nread_lt : p.nread < 2 ^ 32
  nwrite_eq : p.nwrite = (p.nread + q.length) % 2 ^ 32
  length_le : q.length ≤ pipeSize
  holds : Ring.Holds pipeSize p.data p.nread q

theorem pipeSize_dvd : pipeSize ∣ 2 ^ 32 := ⟨2 ^ 23, rfl⟩

theorem buffers_alloc (data : ℕ → UInt8) : (alloc data).Buffers [] :=
  ⟨by simp [alloc], rfl, Nat.zero_le _, Ring.holds_nil _ _ _⟩

section

variable (h : p.Buffers q)

include h

/-- The difference of the counters is the number of bytes, wherever they have wrapped. -/
theorem Buffers.sub_eq : (p.nwrite + 2 ^ 32 - p.nread) % 2 ^ 32 = q.length := by
  have h1 := h.nread_lt
  have h2 := h.nwrite_eq
  have h3 := h.length_le
  simp only [pipeSize] at *
  omega

theorem Buffers.empty_iff : p.Empty ↔ q = [] := by
  have h1 := h.nread_lt
  have h2 := h.nwrite_eq
  have h3 := h.length_le
  rw [Empty, ← length_eq_zero_iff]
  simp only [pipeSize] at *
  omega

theorem Buffers.full_iff : p.Full ↔ q.length = pipeSize := by
  have h1 := h.nread_lt
  have h2 := h.nwrite_eq
  have h3 := h.length_le
  rw [Full]
  simp only [pipeSize] at *
  omega

theorem Buffers.contents_eq : p.contents = q := by
  rw [contents, h.sub_eq]
  exact h.holds.eq_window.symm

/-- **A byte is stored** behind the others, and over none of them. -/
theorem Buffers.put (hfull : ¬ p.Full) (b : UInt8) :
    (p.put b).Buffers (q ++ [b]) := by
  have hlt : q.length < pipeSize :=
    Nat.lt_of_le_of_ne h.length_le fun heq => hfull (h.full_iff.mpr heq)
  refine ⟨h.nread_lt, ?_, by rw [length_append]; exact hlt, ?_⟩
  · change incUint p.nwrite = (p.nread + (q ++ [b]).length) % 2 ^ 32
    rw [incUint, h.nwrite_eq, length_append, length_singleton, Nat.mod_add_mod, Nat.add_assoc]
  · have hcell : p.nwrite % pipeSize = (p.nread + q.length) % pipeSize := by
      rw [h.nwrite_eq, Nat.mod_mod_of_dvd _ pipeSize_dvd]
    change Ring.Holds pipeSize (Function.update p.data (p.nwrite % pipeSize) b) p.nread (q ++ [b])
    rw [hcell]
    exact h.holds.push hlt b

end

/-- **The oldest byte is taken.** -/
theorem Buffers.take (h : p.Buffers (b :: q)) : p.take.1 = b ∧ p.take.2.Buffers q := by
  have hlen := h.length_le
  rw [length_cons] at hlen
  refine ⟨h.holds.head, ⟨Nat.mod_lt _ (by norm_num), ?_, by omega, ?_⟩⟩
  · change p.nwrite = (incUint p.nread + q.length) % 2 ^ 32
    rw [h.nwrite_eq, incUint, Nat.mod_add_mod, length_cons, Nat.add_assoc, Nat.add_comm 1]
  · exact (Ring.holds_mod pipeSize_dvd).mpr h.holds.tail

/-- **A step of `pipewrite`** appends what it stores. -/
theorem Buffers.pipewrite (killed : Bool) : ∀ (bs : List UInt8) {p : Pipe} {q : List UInt8},
    p.Buffers q →
      (Pipe.pipewrite killed bs p).2.2.Buffers (q ++ (Pipe.pipewrite killed bs p).1)
  | [], p, q, h => by
    rw [Pipe.pipewrite, append_nil]
    exact h
  | b :: bs, p, q, h => by
    rw [Pipe.pipewrite]
    split
    · -- the ring is full: nothing is stored, whether the call fails or sleeps
      split <;> rwa [append_nil]
    · rename_i hfull
      have hrest := Buffers.pipewrite killed bs (h.put hfull b)
      rwa [append_assoc, singleton_append] at hrest

/-- **The copy of `piperead`** takes the oldest bytes, and at least one if there is one. -/
theorem Buffers.readCopy : ∀ (n : ℕ) {p : Pipe} {q : List UInt8}, p.Buffers q →
    ∃ q', q = (Pipe.readCopy n p).1 ++ q' ∧ (Pipe.readCopy n p).2.Buffers q'
  | 0, p, q, h => ⟨q, rfl, h⟩
  | n + 1, p, q, h => by
    rw [Pipe.readCopy]
    split
    · exact ⟨q, rfl, h⟩
    · rename_i hempty
      obtain ⟨b, q, rfl⟩ := exists_cons_of_ne_nil fun hq => hempty (h.empty_iff.mpr hq)
      obtain ⟨hb, htake⟩ := h.take
      obtain ⟨q', hq', hrest⟩ := Buffers.readCopy n htake
      exact ⟨q', by rw [hb, cons_append, ← hq'], hrest⟩

theorem readCopy_ne_nil (hn : 0 < n) (h : ¬ p.Empty) : (readCopy n p).1 ≠ [] := by
  cases n with
  | zero => cases hn
  | succ n =>
    rw [readCopy, if_neg h]
    exact cons_ne_nil _ _

/-- **What a step of `piperead` can do.** -/
theorem piperead_cases {killed : Bool} {e : ReadEnd} (h : p.piperead killed n = (e, p')) :
    (p.Empty ∧ p.writeopen = true ∧ p' = p ∧ (e = .fail ∨ e = .sleep)) ∨
      ¬ (p.Empty ∧ p.writeopen = true) ∧ e = .done (readCopy n p).1 ∧ p' = (readCopy n p).2 := by
  rw [piperead] at h
  split at h
  · rename_i hc
    refine .inl ⟨hc.1, hc.2, ?_⟩
    split at h
    · cases h
      exact ⟨rfl, .inl rfl⟩
    · cases h
      exact ⟨rfl, .inr rfl⟩
  · rename_i hc
    cases h
    exact .inr ⟨hc, rfl, rfl⟩

/-- Closing an end keeps the bytes. -/
theorem Buffers.pipeclose {writable : Bool} (h : p.Buffers q) (hc : p.pipeclose writable = some p') :
    p'.Buffers q := by
  unfold Pipe.pipeclose at hc
  cases writable <;>
  · simp only [Bool.false_eq_true, if_false, if_true] at hc
    split at hc
    · cases hc
      exact ⟨h.nread_lt, h.nwrite_eq, h.length_le, h.holds⟩
    · cases hc

end Pipe

/-! ## Whole runs -/

namespace PipeSystem

variable {s t : PipeSystem} {e : PipeEvent} {es : List PipeEvent} {q : List UInt8} {data : ℕ → UInt8}

/-- The pipe, unless it has been freed, buffers `q`. -/
def Carries (s : PipeSystem) (q : List UInt8) : Prop := ∀ p, s.pipe = some p → p.Buffers q

/-- **One step loses no byte and makes none up.** -/
theorem Step.carries (h : Step e s t) (hs : s.Carries q) :
    ∃ q', q ++ stored [e] = delivered [e] ++ q' ∧ t.Carries q' := by
  cases h with
  | @write _ _ _ _ bs _ _ killed hp _ hw =>
    refine ⟨q ++ stored [.stored _], rfl, fun p' hp' => ?_⟩
    cases hp'
    have hb := (hs _ hp).pipewrite killed bs
    rw [hw] at hb
    simpa [stored] using hb
  | readDone killed hp _ hr =>
    rcases Pipe.piperead_cases hr with ⟨-, -, -, he⟩ | ⟨-, he, rfl⟩
    · rcases he with he | he <;> cases he
    · cases he
      obtain ⟨q', hq', hb⟩ := (hs _ hp).readCopy _
      refine ⟨q', by simpa [stored, delivered] using hq', fun p' hp' => ?_⟩
      cases hp'
      exact hb
  | readFail killed hp _ hr =>
    rcases Pipe.piperead_cases hr with ⟨-, -, rfl, -⟩ | ⟨-, he, -⟩
    · exact ⟨q, by simp [stored, delivered], fun p' hp' => hs p' (hp.trans hp')⟩
    · cases he
  | readSleep killed hp _ hr =>
    rcases Pipe.piperead_cases hr with ⟨-, -, rfl, -⟩ | ⟨-, he, -⟩
    · exact ⟨q, by simp [stored, delivered], fun p' hp' => hs p' (hp.trans hp')⟩
    · cases he
  | close writable hp =>
    exact ⟨q, by simp [stored, delivered], fun p' hp' => (hs _ hp).pipeclose hp'⟩

theorem stored_cons (e : PipeEvent) (es : List PipeEvent) : stored (e :: es) = stored [e] ++ stored es := by
  cases e <;> simp [stored]

theorem delivered_cons (e : PipeEvent) (es : List PipeEvent) :
    delivered (e :: es) = delivered [e] ++ delivered es := by
  cases e <;> simp [delivered]

/-- **A run loses no byte and makes none up.** -/
theorem carries_of_trace (h : Trace Step es s t) (hs : s.Carries q) :
    ∃ q', q ++ stored es = delivered es ++ q' ∧ t.Carries q' := by
  induction h generalizing q with
  | nil s => exact ⟨q, by simp [stored, delivered], hs⟩
  | cons hstep _ ih =>
    obtain ⟨q1, hq1, hs1⟩ := hstep.carries hs
    obtain ⟨q2, hq2, hs2⟩ := ih hs1
    refine ⟨q2, ?_, hs2⟩
    rw [stored_cons, delivered_cons, ← append_assoc, hq1, append_assoc, hq2, append_assoc]

/-- A read that returns nothing has seen an empty pipe without writers. -/
theorem Step.eof {n : ℕ} (h : Step (.returned n []) s t) (hn : 0 < n) :
    ∃ p, s.pipe = some p ∧ p.Empty ∧ p.writeopen = false := by
  cases h with
  | @readDone _ p _ _ _ _ killed hp _ hr =>
    rcases Pipe.piperead_cases hr with ⟨-, -, -, he⟩ | ⟨hc, he, -⟩
    · rcases he with he | he <;> cases he
    · injection he with he
      have hempty : p.Empty := by
        by_contra hne
        exact Pipe.readCopy_ne_nil hn hne he.symm
      refine ⟨p, hp, hempty, ?_⟩
      cases hw : p.writeopen with
      | false => rfl
      | true => exact absurd ⟨hempty, hw⟩ hc

/-- **Pipes are first-in first-out and lossless**: in every run the bytes returned are a prefix of the
bytes stored, and the rest is what the pipe holds, at most `PIPESIZE` bytes.  A read returns nothing only
from an empty pipe whose write end is closed. -/
theorem pipe_fifo (h : Trace Step es (init data) s) :
    delivered es <+: stored es ∧
    (∀ p, s.pipe = some p → stored es = delivered es ++ p.contents ∧
      (p.nwrite + 2 ^ 32 - p.nread) % 2 ^ 32 ≤ pipeSize) ∧
    ∀ n t, Step (.returned n []) s t → 0 < n →
      ∃ p, s.pipe = some p ∧ p.nread = p.nwrite ∧ p.writeopen = false := by
  have hinit : (init data).Carries [] := fun p hp => by
    cases hp
    exact Pipe.buffers_alloc data
  obtain ⟨q, hq, hs⟩ := carries_of_trace h hinit
  rw [List.nil_append] at hq
  refine ⟨⟨q, hq.symm⟩, fun p hp => ?_, fun n t ht hn => ht.eof hn⟩
  have hb := hs p hp
  rw [hb.contents_eq, hb.sub_eq]
  exact ⟨hq, hb.length_le⟩

/-- Two bytes are written by process `1`, one of them is read by process `2`. -/
theorem pipe_fifo_two_bytes :
    ∃ s p, Trace Step [.stored [7, 9], .returned 1 [7]] (init fun _ => 0) s ∧ s.pipe = some p ∧
      stored [.stored [7, 9], .returned 1 [7]] =
        delivered [.stored [7, 9], .returned 1 [7]] ++ p.contents := by
  have hw := @Step.write (init fun _ => 0) _ _ 1 [7, 9] _ _ false rfl (.inl rfl) rfl
  have hr := @Step.readDone
    ⟨some (((Pipe.alloc fun _ => 0).put 7).put 9), Function.update (fun _ => .idle) 1 .idle⟩
    _ _ 2 1 [7] false rfl (.inl rfl) rfl
  have hrun := Trace.cons hw (.cons hr (.nil _))
  exact ⟨_, _, hrun, rfl, ((pipe_fifo hrun).2.1 _ rfl).1⟩

end PipeSystem

end Xv6
