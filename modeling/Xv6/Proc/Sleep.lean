import Xv6.Proc.Table

/-!
# Proc/Sleep — `sleep`, `wakeup` and the scheduler

Spinlocks belong to CPUs (`lk->cpu`), not to processes: a process that calls `sched` leaves `ptable.lock`
to the scheduler of its CPU, and the scheduler leaves it to the process it switches to.  Every acquire,
release, store under a lock and switch is a step of its own, and CPUs take steps in any order.

One channel `ch` is watched, with the condition its sleepers wait for and the lock `lk` that protects the
condition; `lk` may be `ptable.lock`.  Processes use other locks and channels as they like.
-/

namespace Xv6

open Outcome
open Function (update update_self update_of_ne update_apply update_eq_self)

/-- Where a process is in its calls.  A timer interrupt puts a `yield` on top of what it does. -/
inductive Pc (L Ch : Type) where
  | free
  | forkret
  | sleepAcquire (ch : Ch) (l : L)
  | sleepRelease (ch : Ch) (l : L)
  | sleepMark (ch : Ch) (l : L)
  | sleepSched (l : L)
  | sleepBack (l : L)
  | sleepUnlock (l : L)
  | sleepRelock (l : L)
  | wakeAcquire (ch : Ch)
  | wakeScan (ch : Ch)
  | wakeRelease
  | yieldAcquire (k : Pc L Ch)
  | yieldMark (k : Pc L Ch)
  | yieldSched (k : Pc L Ch)
  | yieldBack (k : Pc L Ch)
  deriving DecidableEq

/-- Locks, CPUs and processes; `cond` is the condition that is waited for. -/
structure Smp (P C L Ch : Type) where
  lock : L → Option C
  ncli : C → ℕ
  cur : C → Option P
  scan : C → Bool
  state : P → ProcState
  chan : P → Option Ch
  pc : P → Pc L Ch
  cond : Bool

/-- What a CPU does next: a call of its process, the next step of a call or of the scheduler, or a
switch to a process. -/
inductive CpuOp (P L Ch : Type) where
  | acquire (l : L)
  | release (l : L)
  | set (b : Bool)
  | test
  | sleep (ch : Ch) (l : L)
  | wakeup (ch : Ch)
  | wakeup1 (ch : Ch)
  | kill (q : P)
  | interrupt
  | step
  | schedule (q : P)

namespace Smp

variable {P C L Ch : Type} [DecidableEq P] [DecidableEq C] [DecidableEq L] [DecidableEq Ch]

section Code

variable (s : Smp P C L Ch) (c : C) (p : P)

/-- The process goes on at `k`. -/
def goto (k : Pc L Ch) : Smp P C L Ch := { s with pc := Function.update s.pc p k }

/-- The CPU has the lock now. -/
def take (l : L) : Smp P C L Ch :=
  { s with
    lock := Function.update s.lock l (some c)
    ncli := Function.update s.ncli c (s.ncli c + 1) }

/-- The CPU has the lock no longer. -/
def drop (l : L) : Smp P C L Ch :=
  { s with
    lock := Function.update s.lock l none
    ncli := Function.update s.ncli c (s.ncli c - 1) }

/-- `acquire`, and what follows once the lock is free. -/
def acquire (l : L) (next : Smp P C L Ch → Smp P C L Ch) : Except String (Smp P C L Ch) :=
  if s.lock l = some c then .error "acquire"
  else if s.lock l = none then .ok (next (s.take c l))
  else .ok s

/-- `release`, and what follows. -/
def release (l : L) (next : Smp P C L Ch → Smp P C L Ch) : Except String (Smp P C L Ch) :=
  if s.lock l = some c then .ok (next (s.drop c l)) else .error "release"

/-- `wakeup1`. -/
def wakeup1 (ch : Ch) : Smp P C L Ch :=
  { s with state := fun q => if s.state q = .sleeping ∧ s.chan q = some ch then .runnable else s.state q }

/-- `sched`; the process will go on at `k`. -/
def sched (pt : L) (k : Pc L Ch) : Except String (Smp P C L Ch) :=
  if s.lock pt ≠ some c then .error "sched ptable.lock"
  else if s.ncli c ≠ 1 then .error "sched locks"
  else if s.state p = .running then .error "sched running"
  else .ok { s.goto p k with cur := Function.update s.cur c none }

/-- The next step of the call that the process is in. -/
def stepProc (pt : L) : Except String (Smp P C L Ch) :=
  match s.pc p with
  | .free => .ok s
  | .forkret => s.release c pt (goto · p .free)
  | .sleepAcquire ch l => s.acquire c pt (goto · p (.sleepRelease ch l))
  | .sleepRelease ch l => s.release c l (goto · p (.sleepMark ch l))
  | .sleepMark ch l =>
    .ok { s.goto p (.sleepSched l) with
      state := Function.update s.state p .sleeping
      chan := Function.update s.chan p (some ch) }
  | .sleepSched l => s.sched c p pt (.sleepBack l)
  | .sleepBack l =>
    .ok { s.goto p (if l = pt then .free else .sleepUnlock l) with chan := Function.update s.chan p none }
  | .sleepUnlock l => s.release c pt (goto · p (.sleepRelock l))
  | .sleepRelock l => s.acquire c l (goto · p .free)
  | .wakeAcquire ch => s.acquire c pt (goto · p (.wakeScan ch))
  | .wakeScan ch => .ok ((s.wakeup1 ch).goto p .wakeRelease)
  | .wakeRelease => s.release c pt (goto · p .free)
  | .yieldAcquire k => s.acquire c pt (goto · p (.yieldMark k))
  | .yieldMark k => .ok { s.goto p (.yieldSched k) with state := Function.update s.state p .runnable }
  | .yieldSched k => s.sched c p pt (.yieldBack k)
  | .yieldBack k => s.release c pt (goto · p k)

/-- The next step of the scheduler: it takes `ptable.lock` for a scan of the table, or gives it back. -/
def stepScheduler (pt : L) : Except String (Smp P C L Ch) :=
  if s.scan c then s.release c pt fun s => { s with scan := Function.update s.scan c false }
  else s.acquire c pt fun s => { s with scan := Function.update s.scan c true }

/-- The first step of `sleep`: with `ptable.lock` as its lock it need not take it. -/
def enterSleep (pt : L) (ch : Ch) (l : L) : Smp P C L Ch :=
  s.goto p (if l = pt then .sleepMark ch l else .sleepAcquire ch l)

/-- What a process does of its own accord.  It calls `sleep` with a lock that its CPU holds; it changes and
tests the condition only while its CPU holds `lk`, and sleeps on `ch` only when the condition is false. -/
def call (pt lk : L) (ch : Ch) : CpuOp P L Ch → Except String (Smp P C L Ch)
  | .acquire l => s.acquire c l (goto · p .free)
  | .release l => s.release c l (goto · p .free)
  | .set b => .ok (if s.lock lk = some c then { s with cond := b } else s)
  | .test => .ok (if s.lock lk = some c ∧ s.cond = false then s.enterSleep p pt ch lk else s)
  | .sleep ch' l => .ok (if s.lock l = some c ∧ ch' ≠ ch then s.enterSleep p pt ch' l else s)
  | .wakeup ch' => .ok (s.goto p (.wakeAcquire ch'))
  | .wakeup1 ch' => .ok (if s.lock pt = some c then s.wakeup1 ch' else s)
  | .kill q =>
    .ok (if s.lock pt = none ∧ s.state q = .sleeping then
        { s with state := Function.update s.state q .runnable }
      else s)
  | _ => .ok s

end Code

/-- **One step of a CPU.**  What it cannot do now changes nothing. -/
def run (pt lk : L) (ch : Ch) (e : C × CpuOp P L Ch) (s : Smp P C L Ch) :
    Except String (Smp P C L Ch) :=
  match s.cur e.1, e.2 with
  | none, .step => s.stepScheduler e.1 pt
  | none, .schedule q =>
    .ok (if s.scan e.1 ∧ s.state q = .runnable then
        { s with
          state := Function.update s.state q .running
          cur := Function.update s.cur e.1 (some q) }
      else s)
  | none, _ => .ok s
  | some p, .step => s.stepProc e.1 p pt
  | some p, .interrupt => .ok (if s.ncli e.1 = 0 then s.goto p (.yieldAcquire (s.pc p)) else s)
  | some p, op =>
    match s.pc p with
    | .free => s.call e.1 p pt lk ch op
    | _ => .ok s

/-- Every CPU enters its scheduler, and the processes have not run yet. -/
structure Initial (s : Smp P C L Ch) : Prop where
  lock : ∀ l, s.lock l = none
  ncli : ∀ c, s.ncli c = 0
  cur : ∀ c, s.cur c = none
  scan : ∀ c, s.scan c = false
  pc : ∀ p, s.pc p = .forkret

/-- The step is the scan of a `wakeup` of `ch`. -/
def Wakes (pt : L) (ch : Ch) (e : C × CpuOp P L Ch) (s : Smp P C L Ch) : Prop :=
  ∃ p, s.cur e.1 = some p ∧
    (e.2 = .step ∧ s.pc p = .wakeScan ch ∨ e.2 = .wakeup1 ch ∧ s.pc p = .free ∧ s.lock pt = some e.1)

end Smp

/-! ## The invariant -/

/-- The process is in `sleep` on `ch`, and not marked yet. -/
def Pc.Sleeps {L Ch : Type} (ch : Ch) : Pc L Ch → Prop
  | .sleepAcquire ch' _ | .sleepRelease ch' _ | .sleepMark ch' _ => ch' = ch
  | .yieldAcquire k | .yieldMark k | .yieldSched k | .yieldBack k => k.Sleeps ch
  | _ => False

/-- The process is about to call `sched`. -/
def Pc.InSched {L Ch : Type} : Pc L Ch → Prop
  | .sleepSched _ | .yieldSched _ => True
  | _ => False

/-- The process needs no lock here; it can be interrupted. -/
def Pc.Quiet {L Ch : Type} : Pc L Ch → Prop
  | .sleepAcquire _ _ | .sleepRelease _ _ | .sleepMark _ _ | .wakeScan _ | .yieldMark _ => False
  | .yieldAcquire k | .yieldSched k | .yieldBack k => k.Quiet
  | _ => True

theorem Pc.Quiet.not_sleeps {L Ch : Type} {ch : Ch} : ∀ {k : Pc L Ch}, k.Quiet → ¬ k.Sleeps ch
  | .yieldAcquire k, h | .yieldSched k, h | .yieldBack k, h => not_sleeps (k := k) h
  | .free, _ | .forkret, _ | .sleepSched _, _ | .sleepBack _, _ | .sleepUnlock _, _ | .sleepRelock _, _
  | .wakeAcquire _, _ | .wakeRelease, _ => id

namespace Smp

section Invariant

set_option linter.unusedSectionVars false

variable {P C L Ch : Type} [DecidableEq P] [DecidableEq C] [DecidableEq L] [DecidableEq Ch]
  {pt lk : L} {ch : Ch} {s s' : Smp P C L Ch} {c : C} {p : P}

/-- The CPU of the process holds the lock. -/
def Has (s : Smp P C L Ch) (p : P) (l : L) : Prop := ∃ c, s.cur c = some p ∧ s.lock l = some c

/-- What a process relies on: from the test to the release of `lk` its CPU holds `lk`, so the condition is
false; and from the acquire of `ptable.lock` to `sched` its CPU holds that. -/
def Ok (pt lk : L) (ch : Ch) (s : Smp P C L Ch) (p : P) : Pc L Ch → Prop
  | .sleepAcquire ch' l => l ≠ pt ∧ s.Has p l ∧ (ch' = ch → l = lk ∧ s.cond = false)
  | .sleepRelease ch' l => l ≠ pt ∧ s.Has p l ∧ s.Has p pt ∧ (ch' = ch → l = lk ∧ s.cond = false)
  | .sleepMark ch' _ => s.Has p pt ∧ (ch' = ch → lk = pt → s.cond = false)
  | .wakeScan _ => s.Has p pt
  | .yieldMark k => s.Has p pt ∧ k.Quiet
  | .yieldAcquire k | .yieldSched k | .yieldBack k => k.Quiet
  | _ => True

theorem ok_of_quiet : ∀ {k : Pc L Ch}, k.Quiet → s.Ok pt lk ch p k
  | .yieldAcquire _, h | .yieldSched _, h | .yieldBack _, h => h
  | .free, _ | .forkret, _ | .sleepSched _, _ | .sleepBack _, _ | .sleepUnlock _, _ | .sleepRelock _, _
  | .wakeAcquire _, _ | .wakeRelease, _ => trivial

/-- What a process relies on stays, where its CPU keeps its locks and the condition is safe. -/
theorem Ok.mono {k : Pc L Ch} (h : s.Ok pt lk ch p k) (hhas : ∀ l, s.Has p l → s'.Has p l)
    (hkeep : s.Has p lk → s'.cond = s.cond) : s'.Ok pt lk ch p k := by
  cases k <;> try exact h
  case sleepAcquire ch' l =>
    obtain ⟨hpt, hl, hc⟩ := h
    refine ⟨hpt, hhas l hl, fun e => ⟨(hc e).1, ?_⟩⟩
    rw [hkeep ((hc e).1 ▸ hl)]
    exact (hc e).2
  case sleepRelease ch' l =>
    obtain ⟨hpt, hl, hhp, hc⟩ := h
    refine ⟨hpt, hhas l hl, hhas pt hhp, fun e => ⟨(hc e).1, ?_⟩⟩
    rw [hkeep ((hc e).1 ▸ hl)]
    exact (hc e).2
  case sleepMark ch' l =>
    refine ⟨hhas pt h.1, fun e e' => ?_⟩
    rw [hkeep (e' ▸ h.1)]
    exact h.2 e e'
  case wakeScan ch' => exact hhas pt h
  case yieldMark k => exact ⟨hhas pt h.1, h.2⟩

/-- `ncli` counts the locks of the CPU. -/
def Counted (s : Smp P C L Ch) (c : C) : Prop :=
  ∃ ls : Finset L, (∀ l, l ∈ ls ↔ s.lock l = some c) ∧ ls.card = s.ncli c

/-- The invariant.  A process runs on one CPU, and is RUNNING there unless it is about to call `sched`,
with `ptable.lock` held. -/
structure Inv (pt lk : L) (ch : Ch) (s : Smp P C L Ch) : Prop where
  cli : ∀ c, s.Counted c
  one : ∀ c c' p, s.cur c = some p → s.cur c' = some p → c = c'
  on : ∀ c p, s.cur c = some p → s.state p = .running ∨ s.lock pt = some c ∧ (s.pc p).InSched
  scan : ∀ c, s.cur c = none → s.scan c → s.lock pt = some c
  pcs : ∀ p, s.Ok pt lk ch p (s.pc p)

/-- What a step of the process `p` on CPU `c` leaves alone. -/
structure Move (pt lk : L) (s : Smp P C L Ch) (c : C) (p : P) (s' : Smp P C L Ch) : Prop where
  lock : ∀ l c', c' ≠ c → (s'.lock l = some c' ↔ s.lock l = some c')
  ncli : ∀ c', c' ≠ c → s'.ncli c' = s.ncli c'
  cur : ∀ c', c' ≠ c → s'.cur c' = s.cur c'
  scan : s'.scan = s.scan
  state : ∀ q, q ≠ p → s'.state q = s.state q ∨
    s.state q = .sleeping ∧ (s.lock pt = some c ∨ s.lock pt = none)
  pc : ∀ q, q ≠ p → s'.pc q = s.pc q
  cond : s'.cond = s.cond ∨ s.lock lk = some c

/-- **The step of one CPU keeps the invariant for all**, if it keeps it for its own process. -/
theorem Move.inv (m : Move pt lk s c p s') (h : s.Inv pt lk ch) (hp : s.cur c = some p)
    (hcli : s'.Counted c)
    (hcur : s'.cur c = some p ∧ (s'.state p = .running ∨ s'.lock pt = some c ∧ (s'.pc p).InSched) ∨
      s'.cur c = none ∧ s'.lock pt = some c)
    (hok : s'.Ok pt lk ch p (s'.pc p)) : s'.Inv pt lk ch where
  cli c' := by
    by_cases hc : c' = c
    · exact hc ▸ hcli
    · obtain ⟨ls, hls, hcard⟩ := h.cli c'
      exact ⟨ls, fun l => (hls l).trans (m.lock l c' hc).symm, by rw [m.ncli c' hc, hcard]⟩
  one c1 c2 q h1 h2 := by
    have hsub : ∀ c', s'.cur c' = some q → s.cur c' = some q := by
      intro c' hc'
      by_cases hc : c' = c
      · subst hc
        rcases hcur with ⟨e, -⟩ | ⟨e, -⟩ <;> rw [e] at hc' <;> cases hc'
        exact hp
      · rw [← m.cur c' hc]
        exact hc'
    exact h.one c1 c2 q (hsub c1 h1) (hsub c2 h2)
  on c' q hq := by
    by_cases hc : c' = c
    · subst hc
      rcases hcur with ⟨hc, hs⟩ | ⟨hc, -⟩ <;> rw [hc] at hq <;> cases hq
      exact hs
    · rw [m.cur c' hc] at hq
      have hqp : q ≠ p := fun e => hc (h.one c' c p (e ▸ hq) hp)
      rw [m.pc q hqp, m.lock pt c' hc]
      have hon := h.on c' q hq
      rcases m.state q hqp with e | ⟨e, hl⟩
      · rw [e]
        exact hon
      · rw [e] at hon
        rcases hon with hon | hon
        · cases hon
        · rcases hl with hl | hl <;> rw [hl] at hon <;> cases hon.1
          exact absurd rfl hc
  scan c' hc' hs := by
    rw [m.scan] at hs
    by_cases hc : c' = c
    · subst hc
      rcases hcur with ⟨hc, -⟩ | ⟨-, hl⟩
      · rw [hc] at hc'
        cases hc'
      · exact hl
    · rw [m.lock pt c' hc]
      exact h.scan c' (by rw [← m.cur c' hc]; exact hc') hs
  pcs q := by
    by_cases hqp : q = p
    · exact hqp ▸ hok
    rw [m.pc q hqp]
    have hold := h.pcs q
    have hne : ∀ c', s.cur c' = some q → c' ≠ c := by
      rintro c' hc' rfl
      rw [hp] at hc'
      exact hqp (Option.some.inj hc').symm
    have hhas : ∀ l, s.Has q l → s'.Has q l := fun l ⟨c', hc', hl⟩ =>
      ⟨c', (m.cur c' (hne c' hc')).trans hc', (m.lock l c' (hne c' hc')).2 hl⟩
    -- where another process relies on the condition, this CPU does not hold the lock
    have hkeep : s.Has q lk → s'.cond = s.cond := fun ⟨c', hc', hl⟩ => by
      rcases m.cond with e | e
      · exact e
      · rw [hl] at e
        exact absurd (Option.some.inj e) (hne c' hc')
    exact hold.mono hhas hkeep

/-! ## The parts of a step -/

theorem Counted.take (h : s.Counted c) {l : L} (hl : s.lock l = none) : (s.take c l).Counted c := by
  obtain ⟨ls, hls, hcard⟩ := h
  have hn : l ∉ ls := by
    rw [hls, hl]
    nofun
  refine ⟨insert l ls, fun l' => ?_, ?_⟩
  · simp only [Smp.take, Finset.mem_insert, hls, update_apply]
    split <;> simp_all
  · simp only [Smp.take, update_self, Finset.card_insert_of_notMem hn, hcard]

theorem Counted.drop (h : s.Counted c) {l : L} (hl : s.lock l = some c) : (s.drop c l).Counted c := by
  obtain ⟨ls, hls, hcard⟩ := h
  refine ⟨ls.erase l, fun l' => ?_, ?_⟩
  · simp only [Smp.drop, Finset.mem_erase, hls, update_apply]
    split <;> simp_all
  · simp only [Smp.drop, update_self, Finset.card_erase_of_mem ((hls l).2 hl), hcard]

/-- With a lock held, interrupts are off. -/
theorem Counted.ncli_ne_zero (h : s.Counted c) {l : L} (hl : s.lock l = some c) : s.ncli c ≠ 0 := by
  obtain ⟨ls, hls, hcard⟩ := h
  rw [← hcard]
  exact Finset.card_ne_zero_of_mem ((hls l).2 hl)

theorem Move.goto (s : Smp P C L Ch) (c : C) (p : P) (k : Pc L Ch) : Move pt lk s c p (s.goto p k) where
  lock _ _ _ := Iff.rfl
  ncli _ _ := rfl
  cur _ _ := rfl
  scan := rfl
  state _ _ := .inl rfl
  pc _ hq := update_of_ne hq ..
  cond := .inl rfl

theorem take_lock_iff {l : L} (hl : s.lock l = none) (l' : L) (c' : C) (hc : c' ≠ c) :
    (s.take c l).lock l' = some c' ↔ s.lock l' = some c' := by
  simp only [Smp.take, update_apply]
  split
  · simp_all [Ne.symm hc]
  · rfl

theorem drop_lock_iff {l : L} (hl : s.lock l = some c) (l' : L) (c' : C) (hc : c' ≠ c) :
    (s.drop c l).lock l' = some c' ↔ s.lock l' = some c' := by
  simp only [Smp.drop, update_apply]
  split
  · simp_all [Ne.symm hc]
  · rfl

theorem Move.take {l : L} (hl : s.lock l = none) (p : P) (k : Pc L Ch) :
    Move pt lk s c p ((s.take c l).goto p k) where
  lock := take_lock_iff hl
  ncli _ hc := update_of_ne hc ..
  cur _ _ := rfl
  scan := rfl
  state _ _ := .inl rfl
  pc _ hq := update_of_ne hq ..
  cond := .inl rfl

theorem Move.drop {l : L} (hl : s.lock l = some c) (p : P) (k : Pc L Ch) :
    Move pt lk s c p ((s.drop c l).goto p k) where
  lock := drop_lock_iff hl
  ncli _ hc := update_of_ne hc ..
  cur _ _ := rfl
  scan := rfl
  state _ _ := .inl rfl
  pc _ hq := update_of_ne hq ..
  cond := .inl rfl

section

variable (h : s.Inv pt lk ch) (hp : s.cur c = some p)

include h hp

section

variable (hrun : s.state p = .running)

include hrun

/-- The process goes on at another place. -/
theorem Inv.goto {k : Pc L Ch}
    (hok : s.Ok pt lk ch p k) : (s.goto p k).Inv pt lk ch := by
  refine (Move.goto s c p k).inv h hp (h.cli c) (.inl ⟨hp, .inl hrun⟩) ?_
  simp only [Smp.goto, update_self]
  cases k <;> exact hok

/-- … once it has a lock. -/
theorem Inv.take {l : L}
    (hl : s.lock l = none) {k : Pc L Ch} (hok : (s.take c l).Ok pt lk ch p k) :
    ((s.take c l).goto p k).Inv pt lk ch := by
  refine (Move.take hl p k).inv h hp ((h.cli c).take hl) (.inl ⟨hp, .inl hrun⟩) ?_
  simp only [Smp.goto, update_self]
  cases k <;> exact hok

/-- … once it has given a lock back. -/
theorem Inv.drop {l : L}
    (hl : s.lock l = some c) {k : Pc L Ch} (hok : (s.drop c l).Ok pt lk ch p k) :
    ((s.drop c l).goto p k).Inv pt lk ch := by
  refine (Move.drop hl p k).inv h hp ((h.cli c).drop hl) (.inl ⟨hp, .inl hrun⟩) ?_
  simp only [Smp.goto, update_self]
  cases k <;> exact hok

theorem Inv.acquire {l : L}
    {k : Pc L Ch} (hok : s.lock l = none → (s.take c l).Ok pt lk ch p k)
    (hs : s.acquire c l (Smp.goto · p k) = .ok s') : s'.Inv pt lk ch := by
  unfold Smp.acquire at hs
  split at hs
  · cases hs
  · split at hs <;> cases hs
    · exact h.take hp hrun ‹_› (hok ‹_›)
    · exact h

theorem Inv.release {l : L}
    {k : Pc L Ch} (hok : s.lock l = some c → (s.drop c l).Ok pt lk ch p k)
    (hs : s.release c l (Smp.goto · p k) = .ok s') : s'.Inv pt lk ch := by
  unfold Smp.release at hs
  split at hs <;> cases hs
  exact h.drop hp hrun ‹_› (hok ‹_›)

end

/-- **`sched`**: the scheduler of the CPU has `ptable.lock` now. -/
theorem Inv.sched {k : Pc L Ch}
    (hok : ∀ s' : Smp P C L Ch, s'.Ok pt lk ch p k)
    (hs : s.sched c p pt k = .ok s') : s'.Inv pt lk ch := by
  unfold Smp.sched at hs
  split at hs
  · cases hs
  split at hs
  · cases hs
  split at hs <;> cases hs
  rename_i hl _ _
  have hm : Move pt lk s c p { s.goto p k with cur := update s.cur c none } :=
    ⟨fun _ _ _ => Iff.rfl, fun _ _ => rfl, fun c' hc => update_of_ne hc .., rfl,
      fun _ _ => .inl rfl, fun q hq => update_of_ne hq .., .inl rfl⟩
  refine hm.inv h hp (h.cli c) (.inr ⟨update_self .., not_not.1 hl⟩) ?_
  simp only [Smp.goto, update_self]
  exact hok _

/-- The states change, and the process goes on at `k`. -/
theorem Inv.goto_state {f : P → ProcState}
    {cn : P → Option Ch} {k : Pc L Ch}
    (hst : ∀ q, q ≠ p → f q = s.state q ∨ s.state q = .sleeping ∧ (s.lock pt = some c ∨ s.lock pt = none))
    (hrun : f p = .running ∨ s.lock pt = some c ∧ k.InSched) (hk : k.Quiet) :
    ({ s.goto p k with state := f, chan := cn } : Smp P C L Ch).Inv pt lk ch := by
  have hm : Move pt lk s c p { s.goto p k with state := f, chan := cn } :=
    ⟨fun _ _ _ => Iff.rfl, fun _ _ => rfl, fun _ _ => rfl, rfl, hst,
      fun q hq => update_of_ne hq .., .inl rfl⟩
  refine hm.inv h hp (h.cli c) (.inl ⟨hp, ?_⟩) ?_
  · simp only [Smp.goto, update_self]
    exact hrun
  · simp only [Smp.goto, update_self]
    exact ok_of_quiet hk

theorem Has.lock {l : L} (hl : s.Has p l) :
    s.lock l = some c := by
  obtain ⟨c', hc', hl⟩ := hl
  rwa [h.one c c' p hp hc']

end

theorem Has.take {l l' : L} (hl : s.lock l = none) (h : s.Has p l') : (s.take c l).Has p l' := by
  obtain ⟨c', hc', hl'⟩ := h
  have hne : l' ≠ l := by
    rintro rfl
    rw [hl] at hl'
    cases hl'
  exact ⟨c', hc', (update_of_ne hne ..).trans hl'⟩

theorem has_take (hp : s.cur c = some p) (l : L) : (s.take c l).Has p l :=
  ⟨c, hp, update_self ..⟩

theorem Has.drop {l l' : L} (hl : l' ≠ l) (h : s.Has p l') : (s.drop c l).Has p l' := by
  obtain ⟨c', hc', hl'⟩ := h
  exact ⟨c', hc', (update_of_ne hl ..).trans hl'⟩

/-- `wakeup1`, with `ptable.lock` held. -/
theorem Inv.wakeup1 (h : s.Inv pt lk ch) (hp : s.cur c = some p) (hrun : s.state p = .running)
    (hl : s.lock pt = some c) {ch' : Ch} {k : Pc L Ch} (hk : k.Quiet) :
    ((s.wakeup1 ch').goto p k).Inv pt lk ch := by
  refine h.goto_state (f := (s.wakeup1 ch').state) hp (fun q _ => ?_) (.inl ?_) hk
  · simp only [Smp.wakeup1]
    split
    · rename_i hq
      exact .inr ⟨hq.1, .inl hl⟩
    · exact .inl rfl
  · simp [Smp.wakeup1, hrun]

/-- **A step of a call keeps the invariant.** -/
theorem Inv.stepProc (h : s.Inv pt lk ch) (hp : s.cur c = some p) (hs : s.stepProc c p pt = .ok s') :
    s'.Inv pt lk ch := by
  have hrun : ¬ (s.pc p).InSched → s.state p = .running := fun hn =>
    (h.on c p hp).resolve_right fun hr => hn hr.2
  have hok := h.pcs p
  unfold Smp.stepProc at hs
  split at hs <;> rename_i hk <;> rw [hk] at hok hrun
  · cases hs
    exact h
  case h_2 => exact h.release hp (hrun id) (k := .free) (fun _ => trivial) hs
  case h_3 ch' l =>
    refine h.acquire hp (hrun id) (k := .sleepRelease ch' l) (fun hn => ?_) hs
    exact ⟨hok.1, hok.2.1.take hn, has_take hp pt, hok.2.2⟩
  case h_4 ch' l =>
    refine h.release hp (hrun id) (k := .sleepMark ch' l) (fun _ => ?_) hs
    exact ⟨hok.2.2.1.drop hok.1.symm, fun e e' => (hok.2.2.2 e).2⟩
  case h_5 ch' l =>
    cases hs
    refine h.goto_state hp (fun q hq => .inl (update_of_ne hq ..)) (.inr ?_) trivial
    exact ⟨hok.1.lock h hp, trivial⟩
  case h_6 l => exact h.sched hp (k := .sleepBack l) (fun _ => trivial) hs
  case h_7 l =>
    cases hs
    refine h.goto_state hp (fun q _ => .inl rfl) (.inl (hrun id)) ?_
    split <;> trivial
  case h_8 l => exact h.release hp (hrun id) (k := .sleepRelock l) (fun _ => trivial) hs
  case h_9 l => exact h.acquire hp (hrun id) (k := .free) (fun _ => trivial) hs
  case h_10 ch' => exact h.acquire hp (hrun id) (k := .wakeScan ch') (fun _ => has_take hp pt) hs
  case h_11 ch' =>
    cases hs
    exact h.wakeup1 hp (hrun id) (hok.lock h hp) trivial
  case h_12 => exact h.release hp (hrun id) (k := .free) (fun _ => trivial) hs
  case h_13 k => exact h.acquire hp (hrun id) (k := .yieldMark k) (fun _ => ⟨has_take hp pt, hok⟩) hs
  case h_14 k =>
    cases hs
    refine h.goto_state hp (fun q hq => .inl (update_of_ne hq ..)) (.inr ?_) hok.2
    exact ⟨hok.1.lock h hp, trivial⟩
  case h_15 k => exact h.sched hp (k := .yieldBack k) (fun _ => hok) hs
  case h_16 k => exact h.release hp (hrun id) (k := k) (fun _ => ok_of_quiet hok) hs

theorem goto_self {k : Pc L Ch} (hk : s.pc p = k) : s.goto p k = s := by
  subst hk
  simp only [Smp.goto, update_eq_self]

section

variable (h : s.Inv pt lk ch)

include h

/-- `sleep` is called with a lock held; on `ch`, after the test. -/
theorem Inv.enterSleep (hp : s.cur c = some p) (hrun : s.state p = .running) {ch' : Ch}
    {l : L} (hl : s.lock l = some c) (hc : ch' = ch → l = lk ∧ s.cond = false) :
    (s.enterSleep p pt ch' l).Inv pt lk ch := by
  unfold Smp.enterSleep
  split
  · rename_i e
    exact h.goto hp hrun ⟨⟨c, hp, e ▸ hl⟩, fun e _ => (hc e).2⟩
  · rename_i e
    exact h.goto hp hrun ⟨e, ⟨c, hp, hl⟩, hc⟩

/-- **What a process does of its own accord keeps the invariant.** -/
theorem Inv.call (hp : s.cur c = some p) (hk : s.pc p = .free) {op : CpuOp P L Ch}
    (hs : s.call c p pt lk ch op = .ok s') : s'.Inv pt lk ch := by
  have hrun : s.state p = .running := (h.on c p hp).resolve_right fun hr => by
    rw [hk] at hr
    exact hr.2
  cases op <;> simp only [Smp.call, Except.ok.injEq] at hs
  case acquire l => exact h.acquire hp hrun (k := .free) (fun _ => trivial) hs
  case release l => exact h.release hp hrun (k := .free) (fun _ => trivial) hs
  all_goals subst hs
  case wakeup ch' => exact h.goto hp hrun trivial
  all_goals try split
  case set.isTrue b hl =>
    have hm : Move pt lk s c p { s with cond := b } :=
      ⟨fun _ _ _ => Iff.rfl, fun _ _ => rfl, fun _ _ => rfl, rfl, fun _ _ => .inl rfl, fun _ _ => rfl,
        .inr hl⟩
    refine hm.inv h hp (h.cli c) (.inl ⟨hp, .inl hrun⟩) ?_
    dsimp only
    rw [hk]
    trivial
  case test.isTrue hl => exact h.enterSleep hp hrun hl.1 fun _ => ⟨rfl, hl.2⟩
  case sleep.isTrue ch' l hl => exact h.enterSleep hp hrun hl.1 fun e => absurd e hl.2
  case wakeup1.isTrue ch' hl =>
    rw [← goto_self (s := s.wakeup1 ch') (p := p) hk]
    exact h.wakeup1 hp hrun hl trivial
  case kill.isTrue q hq =>
    rw [← goto_self hk]
    refine h.goto_state hp (fun r _ => ?_) (.inl ?_) trivial
    · by_cases e : r = q
      · exact .inr ⟨e ▸ hq.2, .inr hq.1⟩
      · exact .inl (update_of_ne e ..)
    · have e : p ≠ q := by
        rintro rfl
        rw [hrun] at hq
        cases hq.2
      exact (update_of_ne e ..).trans hrun
  all_goals exact h

/-- The scheduler of a CPU changes its own lock, and nothing of the processes. -/
theorem Inv.idle (hc : s.cur c = none) (hcur : s'.cur = s.cur)
    (hstate : s'.state = s.state) (hpc : s'.pc = s.pc) (hcond : s'.cond = s.cond)
    (hlock : ∀ l c', c' ≠ c → (s'.lock l = some c' ↔ s.lock l = some c'))
    (hncli : ∀ c', c' ≠ c → s'.ncli c' = s.ncli c') (hcli : s'.Counted c)
    (hscan : ∀ c', c' ≠ c → s'.scan c' = s.scan c') (hsc : s'.scan c → s'.lock pt = some c) :
    s'.Inv pt lk ch where
  cli c' := by
    by_cases e : c' = c
    · exact e ▸ hcli
    · obtain ⟨ls, hls, hcard⟩ := h.cli c'
      exact ⟨ls, fun l => (hls l).trans (hlock l c' e).symm, by rw [hncli c' e, hcard]⟩
  one := by
    rw [hcur]
    exact h.one
  on c' q hq := by
    rw [hcur] at hq
    rw [hstate, hpc, hlock pt c' (fun e => by rw [e, hc] at hq; cases hq)]
    exact h.on c' q hq
  scan c' hc' hs := by
    by_cases e : c' = c
    · subst e
      exact hsc hs
    · rw [hlock pt c' e]
      exact h.scan c' (hcur ▸ hc') (by rw [← hscan c' e]; exact hs)
  pcs q := by
    rw [hpc]
    refine (h.pcs q).mono (fun l ⟨c', hc', hl⟩ => ⟨c', hcur ▸ hc', ?_⟩) fun _ => hcond
    exact (hlock l c' (fun e => by rw [e, hc] at hc'; cases hc')).2 hl

/-- The scheduler takes `ptable.lock`, or gives it back. -/
theorem Inv.stepScheduler (hc : s.cur c = none) (hs : s.stepScheduler c pt = .ok s') :
    s'.Inv pt lk ch := by
  unfold Smp.stepScheduler Smp.release Smp.acquire at hs
  split at hs
  · split at hs <;> cases hs
    rename_i hl
    refine h.idle hc rfl rfl rfl rfl (drop_lock_iff hl) (fun c' e => update_of_ne e ..)
      ((h.cli c).drop hl) (fun c' e => update_of_ne e ..) fun hs => ?_
    simp only [update_self, Bool.false_eq_true] at hs
  · split at hs
    · cases hs
    · split at hs <;> cases hs
      · rename_i hl
        exact h.idle hc rfl rfl rfl rfl (take_lock_iff hl) (fun c' e => update_of_ne e ..)
          ((h.cli c).take hl) (fun c' e => update_of_ne e ..) fun _ => update_self ..
      · exact h

/-- **The handover of `ptable.lock`**: a runnable process runs nowhere, and goes on with the lock. -/
theorem Inv.schedule (hc : s.cur c = none) (hsc : s.scan c) {q : P}
    (hq : s.state q = .runnable) : ({ s with
      state := update s.state q .running
      cur := update s.cur c (some q) } : Smp P C L Ch).Inv pt lk ch := by
  have hl := h.scan c hc hsc
  have hoff : ∀ c', s.cur c' ≠ some q := by
    intro c' hc'
    rcases h.on c' q hc' with e | ⟨e, -⟩
    · rw [hq] at e
      cases e
    · rw [hl] at e
      cases e
      rw [hc] at hc'
      cases hc'
  have hcur : ∀ c' r, update s.cur c (some q) c' = some r → c' = c ∧ r = q ∨ s.cur c' = some r := by
    intro c' r hr
    by_cases e : c' = c
    · subst e
      rw [update_self] at hr
      exact .inl ⟨rfl, (Option.some.inj hr).symm⟩
    · rw [update_of_ne e] at hr
      exact .inr hr
  refine ⟨h.cli, ?_, ?_, ?_, ?_⟩
  · intro c1 c2 r h1 h2
    rcases hcur c1 r h1 with ⟨e1, rfl⟩ | k1 <;> rcases hcur c2 r h2 with ⟨e2, e⟩ | k2
    · rw [e1, e2]
    · exact absurd k2 (hoff c2)
    · exact absurd (e ▸ k1) (hoff c1)
    · exact h.one c1 c2 r k1 k2
  · intro c' r hr
    rcases hcur c' r hr with ⟨rfl, rfl⟩ | hr
    · exact .inl (update_self ..)
    · have hne : r ≠ q := fun e => hoff c' (e ▸ hr)
      dsimp only
      rw [update_of_ne hne]
      exact h.on c' r hr
  · intro c' hc' hs
    refine h.scan c' ?_ hs
    by_cases e : c' = c
    · rw [e]
      exact hc
    · dsimp only at hc'
      rwa [update_of_ne e] at hc'
  · intro r
    refine (h.pcs r).mono (fun l ⟨c', hc', hl'⟩ => ⟨c', ?_, hl'⟩) fun _ => rfl
    exact (update_of_ne (fun e => by rw [e, hc] at hc'; cases hc') ..).trans hc'

/-- Where interrupts are on, the process needs no lock. -/
theorem Inv.quiet (hp : s.cur c = some p) (hn : s.ncli c = 0) : (s.pc p).Quiet := by
  have hno : ∀ l, ¬ s.Has p l := fun l hl => (h.cli c).ncli_ne_zero (hl.lock h hp) hn
  have hok := h.pcs p
  cases hk : s.pc p <;> rw [hk] at hok <;> try trivial
  case sleepAcquire => exact hno _ hok.2.1
  case sleepRelease => exact hno _ hok.2.1
  case sleepMark => exact hno _ hok.1
  case wakeScan => exact hno _ hok
  case yieldMark => exact hno _ hok.1

/-- **One step of a CPU keeps the invariant.** -/
theorem Inv.run {e : C × CpuOp P L Ch} (hs : Smp.run pt lk ch e s = .ok s') :
    s'.Inv pt lk ch := by
  unfold Smp.run at hs
  split at hs
  case h_1 hc _ => exact h.stepScheduler hc hs
  case h_2 q hc _ =>
    cases hs
    split
    · rename_i hq
      exact h.schedule hc hq.1 hq.2
    · exact h
  case h_3 =>
    cases hs
    exact h
  case h_4 p hp _ => exact h.stepProc hp hs
  case h_5 p hp _ =>
    cases hs
    split
    · rename_i hn
      have hq := h.quiet hp hn
      refine h.goto hp ((h.on _ p hp).resolve_right fun hr => ?_) hq
      exact (h.cli _).ncli_ne_zero hr.1 hn
    · exact h
  case h_6 p hp _ _ =>
    split at hs
    · exact h.call hp ‹_› hs
    · cases hs
      exact h

end

theorem inv_initial (h : s.Initial) : s.Inv pt lk ch where
  cli c := ⟨∅, fun l => by rw [h.lock]; simp, by rw [h.ncli]; rfl⟩
  one c _ p hc := by
    rw [h.cur] at hc
    cases hc
  on c p hc := by
    rw [h.cur] at hc
    cases hc
  scan c _ hs := by
    rw [h.scan] at hs
    cases hs
  pcs p := by
    rw [h.pc]
    trivial

/-! ## After a wakeup -/

/-- Nobody sleeps on `ch`, or is about to. -/
def Awake (ch : Ch) (s : Smp P C L Ch) : Prop :=
  ∀ p, ¬ (s.pc p).Sleeps ch ∧ ¬ (s.state p = .sleeping ∧ s.chan p = some ch)

/-- With the condition true, whoever goes to sleep has `ptable.lock`. -/
theorem Inv.not_sleeps (h : s.Inv pt lk ch) (hc : s.cond = true) (hp : ¬ s.Has p pt) :
    ¬ (s.pc p).Sleeps ch := by
  have hok := h.pcs p
  intro hs
  cases hk : s.pc p <;> rw [hk] at hok hs <;> try exact hs
  case sleepAcquire =>
    have := (hok.2.2 hs).2
    rw [hc] at this
    cases this
  case sleepRelease => exact hp hok.2.2.1
  case sleepMark => exact hp hok.1
  case yieldMark => exact hp hok.1
  case yieldAcquire k => exact Pc.Quiet.not_sleeps (k := k) hok hs
  case yieldSched k => exact Pc.Quiet.not_sleeps (k := k) hok hs
  case yieldBack k => exact Pc.Quiet.not_sleeps (k := k) hok hs

theorem awake_wakeup1 (h : s.Inv pt lk ch) (hp : s.cur c = some p) (hl : s.lock pt = some c)
    (hc : s.cond = true) {k : Pc L Ch} (hk : ¬ k.Sleeps ch) : ((s.wakeup1 ch).goto p k).Awake ch := by
  intro q
  constructor
  · by_cases hq : q = p
    · subst hq
      simp only [Smp.goto, update_self]
      exact hk
    · simp only [Smp.goto, update_of_ne hq]
      refine h.not_sleeps hc fun ⟨c', hc', hl'⟩ => hq ?_
      rw [hl] at hl'
      cases hl'
      rw [hp] at hc'
      exact (Option.some.inj hc').symm
  · simp only [Smp.goto, Smp.wakeup1]
    rintro ⟨hs, hch⟩
    split at hs
    · cases hs
    · rename_i hn
      exact hn ⟨hs, hch⟩

/-- **`wakeup` wakes all**: with the condition true, whoever was on its way to sleep is asleep by now. -/
theorem Wakes.awake (h : s.Inv pt lk ch) {e : C × CpuOp P L Ch} (hw : Wakes pt ch e s) (hc : s.cond = true)
    (hs : Smp.run pt lk ch e s = .ok s') : s'.Awake ch := by
  obtain ⟨c, op⟩ := e
  obtain ⟨p, hp, ⟨rfl, hk⟩ | ⟨rfl, hk, hl⟩⟩ := hw <;> dsimp only at hp
  · have hok := h.pcs p
    rw [hk] at hok
    simp only [Smp.run, hp, Smp.stepProc, hk, Except.ok.injEq] at hs
    subst hs
    exact awake_wakeup1 h hp (hok.lock h hp) hc id
  · dsimp only at hl
    simp only [Smp.run, hp, hk, Smp.call, if_pos hl, Except.ok.injEq] at hs
    subst hs
    rw [← goto_self (s := s.wakeup1 ch) (p := p) hk]
    exact awake_wakeup1 h hp hl hc id

section

variable (h : s.Awake ch)

include h

/-- The process goes on at a place that is not in `sleep` on `ch`, and nobody falls asleep on `ch`. -/
theorem Awake.goto {k : Pc L Ch} (hk : ¬ k.Sleeps ch)
    (hpc : s'.pc = update s.pc p k)
    (hst : ∀ q, s'.state q = .sleeping → s'.chan q = some ch → s.state q = .sleeping ∧ s.chan q = some ch) :
    s'.Awake ch := by
  refine fun q => ⟨?_, fun hq => (h q).2 (hst q hq.1 hq.2)⟩
  rw [hpc, update_apply]
  split
  · exact hk
  · exact (h q).1

theorem Awake.acquire {l : L} {k : Pc L Ch} (hk : ¬ k.Sleeps ch)
    (hs : s.acquire c l (Smp.goto · p k) = .ok s') : s'.Awake ch := by
  unfold Smp.acquire at hs
  split at hs
  · cases hs
  · split at hs <;> cases hs
    · exact h.goto hk rfl fun _ h1 h2 => ⟨h1, h2⟩
    · exact h

theorem Awake.release {l : L} {k : Pc L Ch} (hk : ¬ k.Sleeps ch)
    (hs : s.release c l (Smp.goto · p k) = .ok s') : s'.Awake ch := by
  unfold Smp.release at hs
  split at hs <;> cases hs
  exact h.goto hk rfl fun _ h1 h2 => ⟨h1, h2⟩

theorem Awake.sched {k : Pc L Ch} (hk : ¬ k.Sleeps ch)
    (hs : s.sched c p pt k = .ok s') : s'.Awake ch := by
  unfold Smp.sched at hs
  split at hs
  · cases hs
  split at hs
  · cases hs
  split at hs <;> cases hs
  exact h.goto hk rfl fun _ h1 h2 => ⟨h1, h2⟩

theorem Awake.stepProc (hs : s.stepProc c p pt = .ok s') : s'.Awake ch := by
  have hk := (h p).1
  unfold Smp.stepProc at hs
  split at hs <;> rename_i e <;> rw [e] at hk
  case h_1 =>
    cases hs
    exact h
  case h_2 => exact h.release (k := .free) id hs
  case h_3 => exact h.acquire (k := .sleepRelease _ _) hk hs
  case h_4 => exact h.release (k := .sleepMark _ _) hk hs
  case h_5 ch' l =>
    cases hs
    refine h.goto (p := p) id rfl fun q h1 h2 => ?_
    by_cases e : q = p
    · simp only [e, update_self] at h2
      exact absurd (Option.some.inj h2) hk
    · exact ⟨(update_of_ne e ..).symm.trans h1, (update_of_ne e ..).symm.trans h2⟩
  case h_6 => exact h.sched (k := .sleepBack _) id hs
  case h_7 l =>
    cases hs
    refine h.goto (p := p) ?_ rfl fun q h1 h2 => ?_
    · split <;> exact id
    · by_cases e : q = p
      · simp only [e, update_self, reduceCtorEq] at h2
      · exact ⟨h1, (update_of_ne e ..).symm.trans h2⟩
  case h_8 => exact h.release (k := .sleepRelock _) id hs
  case h_9 => exact h.acquire (k := .free) id hs
  case h_10 => exact h.acquire (k := .wakeScan _) id hs
  case h_11 ch' =>
    cases hs
    refine h.goto (p := p) id rfl fun q h1 h2 => ⟨?_, h2⟩
    simp only [Smp.wakeup1, Smp.goto] at h1
    split at h1
    · cases h1
    · exact h1
  case h_12 => exact h.release (k := .free) id hs
  case h_13 k => exact h.acquire (k := .yieldMark k) hk hs
  case h_14 k =>
    cases hs
    refine h.goto (p := p) (k := .yieldSched k) hk rfl fun q h1 h2 => ⟨?_, h2⟩
    by_cases e : q = p
    · simp only [e, update_self, reduceCtorEq] at h1
    · exact (update_of_ne e ..).symm.trans h1
  case h_15 k => exact h.sched (k := .yieldBack k) hk hs
  case h_16 k => exact h.release (k := k) hk hs

/-- Only states change, and nobody falls asleep. -/
theorem Awake.mono (hpc : s'.pc = s.pc)
    (hst : ∀ q, s'.state q = .sleeping → s.state q = .sleeping) (hch : s'.chan = s.chan) : s'.Awake ch := by
  intro q
  rw [hpc, hch]
  exact ⟨(h q).1, fun hq => (h q).2 ⟨hst q hq.1, hq.2⟩⟩

theorem Awake.call (hc : s.cond = true) {op : CpuOp P L Ch}
    (hs : s.call c p pt lk ch op = .ok s') : s'.Awake ch := by
  cases op <;> simp only [Smp.call, Except.ok.injEq] at hs
  case acquire l => exact h.acquire (k := .free) id hs
  case release l => exact h.release (k := .free) id hs
  all_goals subst hs
  case wakeup ch' => exact h.goto (p := p) (k := .wakeAcquire ch') id rfl fun _ h1 h2 => ⟨h1, h2⟩
  all_goals try split
  case set.isTrue b hl => exact h.mono rfl (fun _ => id) rfl
  case test.isTrue hl =>
    rw [hc] at hl
    cases hl.2
  case sleep.isTrue ch' l hl =>
    refine h.goto (p := p) ?_ rfl fun _ h1 h2 => ⟨h1, h2⟩
    split <;> exact hl.2
  case wakeup1.isTrue ch' hl =>
    refine h.mono rfl (fun q hq => ?_) rfl
    simp only [Smp.wakeup1] at hq
    split at hq
    · cases hq
    · exact hq
  case kill.isTrue q hq =>
    refine h.mono rfl (fun r hr => ?_) rfl
    by_cases e : r = q
    · rw [e]
      exact hq.2
    · exact (update_of_ne e ..).symm.trans hr
  all_goals exact h

/-- While the condition is true, nobody goes to sleep on `ch`. -/
theorem Awake.run {e : C × CpuOp P L Ch} (hc : s.cond = true)
    (hs : Smp.run pt lk ch e s = .ok s') : s'.Awake ch := by
  unfold Smp.run at hs
  split at hs
  case h_1 =>
    unfold Smp.stepScheduler Smp.release Smp.acquire at hs
    split at hs <;> split at hs
    · cases hs
      exact h.mono rfl (fun _ => id) rfl
    · cases hs
    · cases hs
    · split at hs <;> cases hs
      · exact h.mono rfl (fun _ => id) rfl
      · exact h
  case h_2 q _ _ =>
    cases hs
    split
    · refine h.mono rfl (fun r hr => ?_) rfl
      by_cases e : r = q
      · simp only [e, update_self, reduceCtorEq] at hr
      · exact (update_of_ne e ..).symm.trans hr
    · exact h
  case h_3 =>
    cases hs
    exact h
  case h_4 => exact h.stepProc hs
  case h_5 p _ _ =>
    cases hs
    split
    · exact h.goto (p := p) (k := .yieldAcquire (s.pc p)) (h p).1 rfl fun _ h1 h2 => ⟨h1, h2⟩
    · exact h
  case h_6 =>
    split at hs
    · exact h.call hc hs
    · cases hs
      exact h

end

end Invariant

end Smp

/-- **No lost wakeup.**  After a `wakeup` of `ch` with the condition true, and as long as the condition stays
true, nobody sleeps on `ch`; `lk` may be `ptable.lock`. -/
theorem no_lost_wakeup {P C L Ch : Type} [DecidableEq P] [DecidableEq C] [DecidableEq L] [DecidableEq Ch]
    (pt lk : L) (ch : Ch) (s₀ s₁ s₂ : Smp P C L Ch) (h₀ : s₀.Initial) (es₁ es₂ : List (C × CpuOp P L Ch))
    (h₁ : loop (Smp.run pt lk ch) es₁ s₀ = .ok s₁) (e : C × CpuOp P L Ch) (hw : Smp.Wakes pt ch e s₁)
    (hc : Along (Smp.run pt lk ch) (fun _ s => s.cond = true) (e :: es₂) s₁)
    (h₂ : loop (Smp.run pt lk ch) (e :: es₂) s₁ = .ok s₂) :
    ∀ p, ¬ (s₂.state p = .sleeping ∧ s₂.chan p = some ch) := by
  have hinv : s₁.Inv pt lk ch :=
    loop_inv (P := Smp.Inv pt lk ch) (fun _ _ _ _ h hs => h.run hs) (Smp.inv_initial h₀) h₁
  obtain ⟨s, hs, h₂⟩ := bind_eq_ok.1 h₂
  have hawake : s₂.Awake ch := Along.inv (Smp.Awake ch) (fun _ _ _ h hc hs => h.run hc hs) es₂ s s₂
    (hw.awake hinv hc.1 hs) (hc.2 s hs) h₂
  exact fun p => (hawake p).2

/-- Two CPUs, two processes and two locks. -/
def twoCpus : Smp (Fin 2) (Fin 2) Bool Unit where
  lock _ := none
  ncli _ := 0
  cur _ := none
  scan _ := false
  state _ := .runnable
  chan _ := none
  pc _ := .forkret
  cond := false

/-- One process tests the condition and sleeps; the other sets it and calls `wakeup`, up to its scan. -/
def sleepThenWake : List (Fin 2 × CpuOp (Fin 2) Bool Unit) :=
  [(0, .step), (0, .schedule 0), (0, .step), (0, .acquire false), (0, .test), (0, .step), (0, .step), (0, .step),
    (0, .step), (0, .step), (1, .step), (1, .schedule 1), (1, .step), (1, .acquire false), (1, .set true),
    (1, .wakeup ()), (1, .step)]

/-- The sleeper is awake once the waker is done. -/
theorem no_lost_wakeup_two : ∃ s₁ s₂, loop (Smp.run true false ()) sleepThenWake twoCpus = .ok s₁ ∧
    s₁.state 0 = .sleeping ∧ s₁.chan 0 = some () ∧
    loop (Smp.run true false ()) [(1, .step), (1, .step), (1, .release false)] s₁ = .ok s₂ ∧
    ∀ p, ¬ (s₂.state p = .sleeping ∧ s₂.chan p = some ()) := by
  have h : Returns (loop (Smp.run true false ()) sleepThenWake twoCpus) fun s =>
      s.state 0 = .sleeping ∧ s.chan 0 = some () ∧ (s.cur 1 = some 1 ∧ s.pc 1 = .wakeScan ()) ∧
      Along (Smp.run true false ()) (fun _ s => s.cond = true)
        [(1, .step), (1, .step), (1, .release false)] s ∧
      Returns (loop (Smp.run true false ()) [(1, .step), (1, .step), (1, .release false)] s)
        fun _ => True := by decide +kernel
  obtain ⟨s₁, h₁, hs, hch, ⟨hcur, hpc⟩, hc, s₂, h₂, -⟩ := h
  refine ⟨s₁, s₂, h₁, hs, hch, h₂, ?_⟩
  exact no_lost_wakeup true false () twoCpus s₁ s₂
    ⟨fun _ => rfl, fun _ => rfl, fun _ => rfl, fun _ => rfl, fun _ => rfl⟩ sleepThenWake _ h₁ _
    ⟨1, hcur, .inl ⟨rfl, hpc⟩⟩ hc h₂

end Xv6
