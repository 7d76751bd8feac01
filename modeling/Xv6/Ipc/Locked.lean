import Xv6.Fs.Bio
import Xv6.Ipc.Console
import Xv6.Ipc.Pipe
import Xv6.Vm.Faults

/-!
# Ipc/Locked — user memory under a spinlock

`piperead`, `pipewrite`, `consoleread` and `consolewrite` copy between user memory and their own buffers
with a spinlock held, and each byte they touch may be in a page that is paged out.  A call is the list of
its turns: it touches an address, or it sleeps on its own lock and wakes up in another world.  Where it
sleeps is up to the pipe or the console alone.

A fault is served by `handle_pf`, which reads a slot of the swap file and may write to it
(`Kernel.swapNeed`); a copy-on-write fault does neither.  So a touch panics exactly when its page is paged
out and it needs a victim, or a block that is not at hand (`Bio.Calm`).
-/

namespace Xv6

open Outcome List

/-! ## Turns -/

/-- What a call sees of the machine: the processor with the files, and the memory. -/
structure Os where
  io : Bio
  k : Kernel

/-- Where a call stops: a transfer panics, or the fault handlers themselves do. -/
inductive Halt where
  | transfer (e : String)
  | handler (e : String)

/-- **The call waits with its lock held**: it panics in `sched`, or finds no buffer to wait with. -/
def Halt.Blocked (h : Halt) : Prop := ∃ e, Bio.Stuck e ∧ h = .transfer e

/-- The process, its swap file and the policy. -/
structure Caller where
  pid : ℕ
  ip : SwapInode
  pol : Policy
  nesting : ℕ

/-- A turn of a call that holds a spinlock: touch a byte of user memory, or sleep on the lock. -/
inductive Turn where
  | touch (write : Bool) (va : ℕ)
  | sleep (os : Os)

namespace Turn

/-- **One turn.**  Who wakes up holds the lock again. -/
def run (c : Caller) : Turn → Os → Except Halt Os
  | touch w va, s =>
    if s.k.permits false w c.pid va then .ok s
    else do
      let io ← (s.io.serve c.ip (s.k.swapNeed c.pid va)).mapError Halt.transfer
      let k ← (Kernel.access c.pol c.nesting w s.k c.pid va).mapError Halt.handler
      return ⟨io, k⟩
  | sleep os, s => do
    let _ ← s.io.sleep.mapError Halt.transfer
    return { os with io := { os.io with ncli := 1 } }

/-- The byte is at hand, or the fault can be served under the lock. -/
def Calm (c : Caller) : Turn → Os → Prop
  | touch w va, s => s.k.permits false w c.pid va = true ∨ s.io.Calm c.ip (s.k.swapNeed c.pid va)
  | sleep _, _ => True

/-- The lock is held and no other one, and no other process is in a file-system operation. -/
def Held (s : Os) : Prop := s.io.ncli = 1 ∧ s.io.Idle

/-- Whoever wakes the call up is not in a file-system operation. -/
def Settled : Turn → Prop
  | touch _ _ => True
  | sleep os => os.io.Idle

variable {c : Caller} {t : Turn} {s : Os}

/-- **A turn waits under the lock exactly when it is not calm**; otherwise the lock is still held. -/
theorem run_exact (h : Held s) (ht : t.Settled) : Exact (t.run c s) (t.Calm c s) Held Halt.Blocked := by
  have hhandler : ∀ e, ¬ (Halt.handler e).Blocked := fun e ⟨_, _, he⟩ => nomatch he
  cases t with
  | sleep os =>
    have hsleep : s.io.sleep = .ok s.io.acquire.release.release.acquire := by
      rw [Bio.sleep, Bio.sched, if_neg]
      · rfl
      · exact not_not.mpr h.1
    rw [run, hsleep]
    exact exact_ok trivial ⟨rfl, ht⟩
  | touch w va =>
    rw [run]
    split
    · rename_i hp
      exact exact_ok (.inl hp) h
    · rename_i hp
      have hcalm : (touch w va).Calm c s ↔ s.io.Calm c.ip (s.k.swapNeed c.pid va) := by
        simp [Calm, hp]
      rcases Bio.gated_serve h.1.ge h.2 c.ip (s.k.swapNeed c.pid va) with
        ⟨hC, io, hio, hsame⟩ | ⟨hC, e, he, hio⟩
      · rw [hio]
        cases Kernel.access c.pol c.nesting w s.k c.pid va with
        | error e => exact exact_error (hcalm.mpr hC) (hhandler e)
        | ok k =>
          exact exact_ok (hcalm.mpr hC) ⟨hsame.ncli.trans h.1, hsame.log ▸ h.2.1, hsame.log ▸ h.2.2⟩
      · rw [hio]
        exact exact_bad (fun hc => hC (hcalm.mp hc)) ⟨e, he, rfl⟩

end Turn

/-! ## The calls -/

/-- The characters the console has for `consoleread`. -/
structure Input where
  buf : ℕ → UInt8
  r : ℕ
  w : ℕ

/-- How `consoleread` ends before its next sleep: it returns, it is killed, or it sleeps with a number of
characters left. -/
inductive ConsoleEnd where
  | done
  | fail
  | sleep (rest : ℕ)

/-- The loop of `consoleread` up to its next sleep: the number of characters it stores, how it ends and what
is left of the input.  Control-D ends a line, and stays for the next call unless it is the first. -/
def consoleread (killed : Bool) (target : ℕ) : ℕ → Input → ℕ × ConsoleEnd × Input
  | 0, i => (0, .done, i)
  | n + 1, i =>
    if i.r = i.w then if killed then (0, .fail, i) else (0, .sleep (n + 1), i)
    else
      let c := i.buf (i.r % inputBuf)
      let i' := { i with r := incUint i.r }
      if c = 4 then (0, .done, if n + 1 < target then i else i')
      else if c = 10 then (1, .done, i')
      else
        let x := consoleread killed target n i'
        (x.1 + 1, x.2)

/-- What a reader uses of `input`. -/
def InputBuf.forReader (s : InputBuf) : Input := ⟨s.buf, s.r, s.w⟩

/-- How a read ends, without what is left to read when it returns. -/
def InputBuf.ReadEnd.forReader : InputBuf.ReadEnd → ConsoleEnd
  | .done _ => .done
  | .eof _ => .done
  | .fail => .fail
  | .sleep n => .sleep n

/-- **Counting the characters of `consoleread` forgets which they are.** -/
theorem consoleread_forReader (killed : Bool) (target : ℕ) : ∀ (n : ℕ) (s : InputBuf), s.r < 2 ^ 32 →
    consoleread killed target n s.forReader =
      ((s.consoleread killed target n).1.length, (s.consoleread killed target n).2.1.forReader,
        (s.consoleread killed target n).2.2.forReader)
  | 0, s, _ => rfl
  | n + 1, s, hr => by
    have hback : subUint (incUint s.r) 1 = s.r := by
      simp only [subUint, incUint]
      omega
    have hrest := consoleread_forReader killed target n { s with r := incUint s.r }
      (Nat.mod_lt _ (by norm_num))
    rw [consoleread, InputBuf.consoleread]
    by_cases hempty : s.r = s.w
    · rw [if_pos hempty, if_pos (show s.forReader.r = s.forReader.w from hempty)]
      cases killed <;> rfl
    rw [if_neg hempty, if_neg (show ¬ s.forReader.r = s.forReader.w from hempty)]
    by_cases hd : s.buf (s.r % inputBuf) = ctrlD
    · by_cases ht : n + 1 < target
      · simp [InputBuf.forReader, InputBuf.ReadEnd.forReader, hd, ctrlD, ht, hback]
      · simp [InputBuf.forReader, InputBuf.ReadEnd.forReader, hd, ctrlD, ht]
    by_cases hn : s.buf (s.r % inputBuf) = newline
    · simp [InputBuf.forReader, InputBuf.ReadEnd.forReader, hn, ctrlD, newline]
    · simp only [InputBuf.forReader] at hrest ⊢
      simp only [show ¬ s.buf (s.r % inputBuf) = 4 from hd, show ¬ s.buf (s.r % inputBuf) = 10 from hn, hd, hn,
        if_false, hrest, length_cons]

/-- What a call finds when it starts or wakes up. -/
structure World where
  os : Os
  pipe : Pipe
  input : Input
  killed : Bool

/-- A call on a user buffer. -/
inductive LockedCall where
  | pipewrite (bs : List UInt8)
  | piperead (n : ℕ)
  | consoleread (n : ℕ)
  | consolewrite (n : ℕ)

namespace LockedCall

/-- Touch `n` bytes from an address on. -/
def touches (w : Bool) (addr n : ℕ) : List Turn := (List.range n).map fun i => .touch w (addr + i)

/-- The turns of `pipewrite`: the bytes are read as they are stored, and the call sleeps while the ring is
full. -/
def pipewriteTurns (addr : ℕ) (bs : List UInt8) (w : World) : List World → List Turn
  | [] => touches false addr (Pipe.pipewrite w.killed bs w.pipe).1.length
  | v :: vs =>
    let r := Pipe.pipewrite w.killed bs w.pipe
    touches false addr r.1.length ++
      match r.2.1 with
      | .sleep rest => .sleep v.os :: pipewriteTurns (addr + r.1.length) rest v vs
      | _ => []

/-- The turns of `piperead`: it sleeps while the ring is empty, and then stores what it takes. -/
def pipereadTurns (addr n : ℕ) (w : World) : List World → List Turn
  | [] =>
    match (Pipe.piperead w.killed n w.pipe).1 with
    | .done bs => touches true addr bs.length
    | _ => []
  | v :: vs =>
    match (Pipe.piperead w.killed n w.pipe).1 with
    | .done bs => touches true addr bs.length
    | .fail => []
    | .sleep => .sleep v.os :: pipereadTurns addr n v vs

/-- The turns of `consoleread`. -/
def consolereadTurns (target addr n : ℕ) (w : World) : List World → List Turn
  | [] => touches true addr (Xv6.consoleread w.killed target n w.input).1
  | v :: vs =>
    let r := Xv6.consoleread w.killed target n w.input
    touches true addr r.1 ++
      match r.2.1 with
      | .sleep rest => .sleep v.os :: consolereadTurns target (addr + r.1) rest v vs
      | _ => []

/-- The turns of a call on the buffer at `addr`, in the worlds it starts and wakes up in. -/
def turns (addr : ℕ) (w : World) (ws : List World) : LockedCall → List Turn
  | pipewrite bs => pipewriteTurns addr bs w ws
  | piperead n => pipereadTurns addr n w ws
  | consoleread n => consolereadTurns n addr n w ws
  | consolewrite n => touches false addr n

/-- **The call**, from `acquire` to `release`. -/
def run (c : Caller) (addr : ℕ) (w : World) (ws : List World) (call : LockedCall) : Except Halt Os := do
  let s ← loop (Turn.run c) (call.turns addr w ws) { w.os with io := w.os.io.acquire }
  return { s with io := s.io.release }

variable {c : Caller} {addr : ℕ} {w : World} {ws : List World} {call : LockedCall}

end LockedCall

/-- Its swap file. -/
def swapCaller : Caller := ⟨3, ⟨32, fun bn => 500 + bn, 600⟩, .rrobin, 2⟩

end Xv6
