import Xv6.Lib.Outcome

/-!
# Proc/Table — the process table of `proc.c`

Every section of the code that holds `ptable.lock` is one step, and so are the stores that `fork` makes to
its new entry without it.  A process in `fork` may be switched out between the steps; `building` says which
entry it works on, and whether the entry has its parent yet.

Three fields are history, and no code reads them: `born` numbers the processes in the order `allocproc`
made them, `exited` and `waited` list the processes that have exited and those that `wait` has returned.
-/

namespace Xv6

open Outcome

/-- `NPROC`. -/
def nProc : ℕ := 64

instance : NeZero nProc := ⟨by decide⟩

/-- `enum procstate`. -/
inductive ProcState where
  | unused
  | embryo
  | sleeping
  | runnable
  | running
  | zombie
  deriving DecidableEq

/-- A sleep channel: an entry of the table, or anything else. -/
inductive Chan where
  | proc (i : Fin nProc)
  | other (n : ℕ)
  deriving DecidableEq

/-- `struct proc`, as far as the life of a process goes. -/
structure ProcEntry where
  state : ProcState
  pid : ℤ
  parent : Option (Fin nProc)
  chan : Option Chan
  killed : Bool
  born : ℕ

/-- `ptable`, `nextpid` and `initproc`; the entries that `fork` is building; and the history. -/
structure PTable where
  proc : Fin nProc → ProcEntry
  nextpid : ℕ
  initproc : Fin nProc
  building : Fin nProc → Option (Fin nProc × Bool)
  exited : List ℕ
  waited : List ℕ
  blamed : List ℕ

/-- The pid that an `int` counter gives out. -/
def pidOf (n : ℕ) : ℤ := (n : ℤ).bmod (2 ^ 32)

namespace PTable

variable (t : PTable)

/-- A new entry. -/
def set (i : Fin nProc) (e : ProcEntry) : PTable := { t with proc := Function.update t.proc i e }

/-- What `fork` of a process is building. -/
def build (c : Fin nProc) (b : Option (Fin nProc × Bool)) : PTable :=
  { t with building := Function.update t.building c b }

/-- The process runs, and is not in `fork`. -/
def Runs (c : Fin nProc) : Prop := (t.proc c).state = .running ∧ t.building c = none

instance (c : Fin nProc) : Decidable (t.Runs c) := inferInstanceAs (Decidable (_ ∧ _))

/-- `wakeup1`. -/
def wakeup1 (ch : Option Chan) : PTable :=
  { t with proc := fun i =>
    if (t.proc i).state = .sleeping ∧ (t.proc i).chan = ch then { t.proc i with state := .runnable }
    else t.proc i }

/-- The table before the scheduler starts: `userinit` has made the first process. -/
def boot : PTable where
  proc i := if i = 0 then ⟨.runnable, 1, none, none, false, 1⟩
    else ⟨.unused, 0, none, none, false, 0⟩
  nextpid := 2
  initproc := 0
  building _ := none
  exited := []
  waited := []
  blamed := []

/-! ## The calls -/

/-- `allocproc` up to the release of the lock, called by `fork` of process `c`. -/
def allocproc (c : Fin nProc) : PTable :=
  match (List.finRange nProc).find? fun i => (t.proc i).state = .unused with
  | none => t
  | some i =>
    { (t.set i { t.proc i with state := .embryo, pid := pidOf t.nextpid, born := t.nextpid }).build c
        (some (i, false)) with nextpid := t.nextpid + 1 }

/-- `fork` fails: there is no kernel stack, or no copy of the memory. -/
def forkFail (c : Fin nProc) : PTable :=
  match t.building c with
  | some (i, false) => (t.set i { t.proc i with state := .unused }).build c none
  | _ => t

/-- `np->parent = curproc`. -/
def forkParent (c : Fin nProc) : PTable :=
  match t.building c with
  | some (i, false) => (t.set i { t.proc i with parent := some c }).build c (some (i, true))
  | _ => t

/-- The last section of `fork`. -/
def forkEnd (c : Fin nProc) : PTable :=
  match t.building c with
  | some (i, true) => (t.set i { t.proc i with state := .runnable }).build c none
  | _ => t

/-- The loop of `exit` that passes children to init. -/
def abandon (c : Fin nProc) : PTable :=
  let t' := { t with proc := fun i =>
    if (t.proc i).parent = some c then { t.proc i with parent := some t.initproc } else t.proc i }
  if (List.finRange nProc).any fun i => (t.proc i).parent = some c ∧ (t.proc i).state = .zombie then
    t'.wakeup1 (some (.proc t.initproc))
  else t'

/-- The locked section of `exit`. -/
def exit (c : Fin nProc) : Except String PTable :=
  if c = t.initproc then .error "init exiting"
  else
    let t' := (t.wakeup1 ((t.proc c).parent.map .proc)).abandon c
    .ok { t'.set c { t'.proc c with state := .zombie } with exited := (t.proc c).born :: t.exited }

/-- The first zombie child of a process. -/
def zombieChild (c : Fin nProc) : Option (Fin nProc) :=
  (List.finRange nProc).find? fun i => (t.proc i).parent = some c ∧ (t.proc i).state = .zombie

/-- A turn of the loop of `wait`: reap a zombie, give up, or sleep. -/
def wait (c : Fin nProc) : PTable :=
  match t.zombieChild c with
  | some i =>
    { t.set i { t.proc i with pid := 0, parent := none, killed := false, state := .unused } with
      waited := (t.proc i).born :: t.waited }
  | none =>
    if (∀ i, (t.proc i).parent ≠ some c) ∨ (t.proc c).killed then t
    else t.set c { t.proc c with state := .sleeping, chan := some (.proc c) }

/-- What that turn of `wait` returns, if it does. -/
def waitReply (c : Fin nProc) : Option ℤ :=
  match t.zombieChild c with
  | some i => some (t.proc i).pid
  | none => if (∀ i, (t.proc i).parent ≠ some c) ∨ (t.proc c).killed then some (-1) else none

/-- The entry that `kill` finds. -/
def killTarget (n : ℤ) : Option (Fin nProc) := (List.finRange nProc).find? fun i => (t.proc i).pid = n

/-- `kill`; the history notes the live processes of that pid. -/
def kill (n : ℤ) : PTable :=
  match t.killTarget n with
  | none => t
  | some i =>
    { t.set i { t.proc i with
        killed := true
        state := if (t.proc i).state = .sleeping then .runnable else (t.proc i).state } with
      blamed := ((List.finRange nProc).filter fun i => (t.proc i).state ≠ .unused ∧ (t.proc i).pid = n).map
        (fun i => (t.proc i).born) ++ t.blamed }

/-- What `kill` returns. -/
def killReply (n : ℤ) : ℤ := if (t.killTarget n).isSome then 0 else -1

/-- A fatal trap of a process in user mode. -/
def trap (c : Fin nProc) : PTable :=
  { t.set c { t.proc c with killed := true } with blamed := (t.proc c).born :: t.blamed }

end PTable

/-- The steps. -/
inductive ProcEvent where
  | allocproc (c : Fin nProc)
  | forkFail (c : Fin nProc)
  | forkParent (c : Fin nProc)
  | forkEnd (c : Fin nProc)
  | exit (c : Fin nProc)
  | wait (c : Fin nProc)
  | kill (n : ℤ)
  | trap (c : Fin nProc)
  | schedule (i : Fin nProc)
  | yield (i : Fin nProc)
  | sleep (i : Fin nProc) (n : ℕ)
  | wakeup (n : ℕ)

/-- **One step.**  A step that is not the process's next one changes nothing. -/
def ProcEvent.run : ProcEvent → PTable → Except String PTable
  | .allocproc c, t => .ok (if t.Runs c then t.allocproc c else t)
  | .forkFail c, t => .ok (if (t.proc c).state = .running then t.forkFail c else t)
  | .forkParent c, t => .ok (if (t.proc c).state = .running then t.forkParent c else t)
  | .forkEnd c, t => .ok (if (t.proc c).state = .running then t.forkEnd c else t)
  | .exit c, t => if t.Runs c then t.exit c else .ok t
  | .wait c, t => .ok (if t.Runs c then t.wait c else t)
  | .kill n, t => .ok (t.kill n)
  | .trap c, t => .ok (if t.Runs c then t.trap c else t)
  | .schedule i, t =>
    .ok (if (t.proc i).state = .runnable then t.set i { t.proc i with state := .running, chan := none }
      else t)
  | .yield i, t =>
    .ok (if (t.proc i).state = .running then t.set i { t.proc i with state := .runnable } else t)
  | .sleep i n, t =>
    .ok (if (t.proc i).state = .running then
        t.set i { t.proc i with state := .sleeping, chan := some (.other n) }
      else t)
  | .wakeup n, t => .ok (t.wakeup1 (some (.other n)))

end Xv6
