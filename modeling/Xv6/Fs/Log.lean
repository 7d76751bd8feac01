import Xv6.Fs.Layout
import Xv6.Lib.Outcome

/-!
# Fs/Log — the reservations of `log.c`

`begin_op` admits an operation when the blocks already logged and `MAXOPBLOCKS` for each outstanding
operation fit `LOGSIZE`; `log_write` refuses a block when `log.size - 1` are logged, and `mkfs` makes
`log.size` equal to `LOGSIZE`.  The header block takes one of them, so the reservation promises one
block more than there is.

Operations of several processes interleave at the log lock.  The test at the head of `log_write` is made
before the lock is taken, so it is a step of its own.  What an operation has logged so far is kept beside
its place in the code.
-/

namespace Xv6

open Outcome Function Finset

/-- `struct log`; `lh` lists `lh.block[0]` to `lh.block[n-1]`. -/
structure Log where
  start : ℕ
  size : ℕ
  outstanding : ℕ
  committing : Bool
  lh : List ℕ

namespace Log

/-- The log after `initlog`. -/
def init (sb : Superblock) : Log := ⟨sb.logstart, sb.nlog, 0, false, []⟩

/-- One turn of the loop of `begin_op`; `none` sleeps. -/
def beginOp (l : Log) : Option Log :=
  if l.committing then none
  else if l.lh.length + (l.outstanding + 1) * maxOpBlocks > logSize then none
  else some { l with outstanding := l.outstanding + 1 }

/-- `end_op` up to the release of the lock: the log, and `do_commit`. -/
def endOp (l : Log) : Except String (Log × Bool) :=
  let l := { l with outstanding := l.outstanding - 1 }
  if l.committing then .error "log.committing"
  else if l.outstanding = 0 then .ok ({ l with committing := true }, true)
  else .ok (l, false)

/-- The tests of `log_write`, made before it takes the lock. -/
def logWriteCheck (l : Log) : Except String Unit :=
  if l.lh.length ≥ logSize ∨ l.lh.length ≥ l.size - 1 then .error "too big a transaction"
  else if l.outstanding < 1 then .error "log_write outside of trans"
  else .ok ()

/-- `log_write` under the lock: a block that is in the log already is absorbed. -/
def logWrite (l : Log) (blockno : ℕ) : Log :=
  if blockno ∈ l.lh then l else { l with lh := l.lh ++ [blockno] }

/-- The header lists each block once, and fits both `lh.block` and the log area of the disk. -/
structure Fits (l : Log) : Prop where
  nodup : l.lh.Nodup
  header : l.lh.length ≤ logSize
  area : l.lh.length ≤ l.size - 1

section

variable {l : Log} {b blockno : ℕ}

theorem mem_logWrite : b ∈ (l.logWrite blockno).lh ↔ b ∈ l.lh ∨ b = blockno := by
  rw [logWrite]
  split
  · rename_i hmem
    exact ⟨.inl, fun hb => hb.elim id fun he => he ▸ hmem⟩
  · simp

theorem nodup_logWrite (h : l.lh.Nodup) : (l.logWrite blockno).lh.Nodup := by
  rw [logWrite]
  split
  · exact h
  · rename_i hnew
    exact List.Nodup.append h (List.nodup_singleton _) (by simpa using hnew)

theorem length_logWrite_le : (l.logWrite blockno).lh.length ≤ l.lh.length + 1 := by
  rw [logWrite]
  split <;> simp

/-- `log_write` changes the header only. -/
theorem logWrite_eq : l.logWrite blockno = { l with lh := (l.logWrite blockno).lh } := by
  rw [logWrite]
  split <;> rfl

end

end Log

/-! ## Interleaved operations -/

/-- Where a process is.  An operation carries the blocks it has logged. -/
inductive OpPc where
  | idle
  | running (used : Finset ℕ)
  | logging (used : Finset ℕ) (blockno : ℕ)
  | committing
  | committed

/-- The blocks the operation of a process has logged. -/
def OpPc.used : OpPc → Finset ℕ
  | .running used => used
  | .logging used _ => used
  | _ => ∅

/-- The log and the processes that use it. -/
structure LogSystem where
  log : Log
  pc : ℕ → OpPc

/-- The steps of process `pid`.  `clear` is the end of `commit`, `finish` the end of `end_op`. -/
inductive LogEvent where
  | beginOp (pid : ℕ)
  | logWriteCheck (pid blockno : ℕ)
  | logWrite (pid : ℕ)
  | endOp (pid : ℕ)
  | clear (pid : ℕ)
  | finish (pid : ℕ)

namespace LogEvent

/-- **One step.**  A process that sleeps, or is elsewhere in the code, changes nothing. -/
def run : LogEvent → LogSystem → Except String LogSystem
  | .beginOp pid, s =>
    match s.pc pid, s.log.beginOp with
    | .idle, some l => .ok ⟨l, Function.update s.pc pid (.running ∅)⟩
    | _, _ => .ok s
  | .logWriteCheck pid blockno, s =>
    match s.pc pid with
    | .running used => do
      s.log.logWriteCheck
      .ok ⟨s.log, Function.update s.pc pid (.logging used blockno)⟩
    | _ => .ok s
  | .logWrite pid, s =>
    match s.pc pid with
    | .logging used blockno =>
      .ok ⟨s.log.logWrite blockno, Function.update s.pc pid (.running (insert blockno used))⟩
    | _ => .ok s
  | .endOp pid, s =>
    match s.pc pid with
    | .running _ => do
      let (l, doCommit) ← s.log.endOp
      .ok ⟨l, Function.update s.pc pid (if doCommit then .committing else .idle)⟩
    | _ => .ok s
  | .clear pid, s =>
    match s.pc pid with
    | .committing => .ok ⟨{ s.log with lh := [] }, Function.update s.pc pid .committed⟩
    | _ => .ok s
  | .finish pid, s =>
    match s.pc pid with
    | .committed => .ok ⟨{ s.log with committing := false }, Function.update s.pc pid .idle⟩
    | _ => .ok s

/-- With the block it is about to log, an operation has logged at most `n` different ones. -/
def Within (n : ℕ) : LogEvent → LogSystem → Prop
  | .logWriteCheck pid blockno, s => (insert blockno (s.pc pid).used).card ≤ n
  | _, _ => True

instance (n : ℕ) : ∀ (e : LogEvent) (s : LogSystem), Decidable (e.Within n s)
  | .logWriteCheck pid blockno, s =>
    inferInstanceAs (Decidable ((insert blockno (s.pc pid).used).card ≤ n))
  | .beginOp _, _ | .logWrite _, _ | .endOp _, _ | .clear _, _ | .finish _, _ => .isTrue trivial

end LogEvent

namespace LogSystem

/-- The log `initlog` sets up on the disk of `mkfs`, and no operation. -/
def init : LogSystem := ⟨.init mkfsSuperblock, fun _ => .idle⟩

end LogSystem

/-! ## What the reservations are worth -/

namespace OpPc

/-- The process is in an operation. -/
def isOpen : OpPc → Bool
  | .running _ | .logging _ _ => true
  | _ => false

/-- The process is in `commit`, or returns from it. -/
def isCommit : OpPc → Bool
  | .committing | .committed => true
  | _ => false

/-- The blocks an operation of at most nine may still log. -/
def left (pc : OpPc) : ℕ := maxOpBlocks - 1 - pc.used.card

theorem left_running (u : Finset ℕ) : (running u).left = maxOpBlocks - 1 - u.card := rfl

theorem left_logging (u : Finset ℕ) (b : ℕ) : (logging u b).left = maxOpBlocks - 1 - u.card := rfl

end OpPc

/-- The place of a process, the log, whether the process counts as in an operation and whether it counts
as the one that commits. -/
structure OpPc.Agrees (pc : OpPc) (l : Log) (inOp commits : Prop) : Prop where
  isOpen : inOp ↔ pc.isOpen
  isCommit : commits ↔ pc.isCommit
  used_mem : ∀ b ∈ pc.used, b ∈ l.lh
  logging : ∀ u b, pc = .logging u b → (insert b u).card ≤ maxOpBlocks - 1
  committed : pc = .committed → l.lh = []

namespace OpPc

variable {l : Log} {o c : Prop} {u : Finset ℕ}

theorem agrees_idle (ho : ¬ o) (hc : ¬ c) : idle.Agrees l o c :=
  ⟨by simp [ho, isOpen], by simp [hc, isCommit], by simp [used], nofun, nofun⟩

theorem agrees_running (ho : o) (hc : ¬ c) (hu : ∀ b ∈ u, b ∈ l.lh) : (running u).Agrees l o c :=
  ⟨by simp [ho, isOpen], by simp [hc, isCommit], hu, nofun, nofun⟩

theorem agrees_committing (ho : ¬ o) (hc : c) : committing.Agrees l o c :=
  ⟨by simp [ho, isOpen], by simp [hc, isCommit], by simp [used], nofun, nofun⟩

end OpPc

/-- **What holds between the steps**, when the processes `ops` are in an operation and `cm` is the one
that commits: the blocks logged and those the operations may still log leave two blocks of the log
free. -/
structure LogSystem.Reserved (s : LogSystem) (ops : Finset ℕ) (cm : Option ℕ) : Prop where
  agrees : ∀ i, (s.pc i).Agrees s.log (i ∈ ops) (cm = some i)
  outstanding : s.log.outstanding = ops.card
  size : s.log.size = logSize
  nodup : s.log.lh.Nodup
  room : s.log.lh.length + ∑ i ∈ ops, (s.pc i).left ≤ logSize - 2
  committing : s.log.committing = cm.isSome
  quiet : cm.isSome → ops = ∅
  idle : ops = ∅ → cm = none → s.log.lh = []

namespace LogSystem

open OpPc

variable {s : LogSystem} {ops used : Finset ℕ} {cm : Option ℕ} {pid blockno : ℕ}

theorem reserved_init : init.Reserved ∅ none where
  agrees i := agrees_idle (notMem_empty _) nofun
  outstanding := rfl
  size := rfl
  nodup := List.nodup_nil
  room := by simp [init, Log.init, logSize, maxOpBlocks]
  committing := rfl
  quiet := nofun
  idle _ _ := rfl

namespace Reserved

section

variable (h : s.Reserved ops cm)

include h

theorem length_le : s.log.lh.length ≤ logSize - 2 :=
  (Nat.le_add_right _ _).trans h.room

theorem fits : s.log.Fits := by
  have hlen := h.length_le
  refine ⟨h.nodup, hlen.trans (Nat.sub_le _ _), ?_⟩
  rw [h.size]
  simp only [logSize, maxOpBlocks] at *
  omega

theorem eq_none (hpid : pid ∈ ops) : cm = none := by
  cases cm with
  | none => rfl
  | some i =>
    rw [h.quiet rfl] at hpid
    exact absurd hpid (notMem_empty _)

theorem committing_eq (hpid : pid ∈ ops) : s.log.committing = false := by
  rw [h.committing, h.eq_none hpid]
  rfl

end

/-- The rooms of the operations after one of them has moved. -/
theorem sum_left_update (pc : ℕ → OpPc) (hpid : pid ∈ ops) (c : OpPc) :
    ∑ i ∈ ops, (update pc pid c i).left + (pc pid).left
      = ∑ i ∈ ops, (pc i).left + c.left := by
  rw [← add_sum_erase _ _ hpid, ← add_sum_erase ops (fun i => (pc i).left) hpid,
    update_self]
  have hrest : ∑ i ∈ ops.erase pid, (update pc pid c i).left
      = ∑ i ∈ ops.erase pid, (pc i).left :=
    sum_congr rfl fun i hi => by rw [update_of_ne (ne_of_mem_erase hi)]
  rw [hrest]
  omega

/-- **The test of `log_write` passes** in every operation. -/
theorem logWriteCheck_eq (h : s.Reserved ops cm) (hpid : pid ∈ ops) :
    s.log.logWriteCheck = .ok () := by
  have hlen := h.length_le
  have hpos : 0 < s.log.outstanding := by
    rw [h.outstanding]
    exact card_pos.mpr ⟨pid, hpid⟩
  rw [Log.logWriteCheck, if_neg, if_neg (by omega)]
  rw [h.size]
  simp only [logSize, maxOpBlocks] at *
  omega

/-- **An operation is admitted.**  If it is alone the log is empty; otherwise each of the operations gives
back one block of its reservation. -/
theorem room_beginOp (h : s.Reserved ops none) (hpid : pid ∉ ops)
    (hfit : s.log.lh.length + (s.log.outstanding + 1) * maxOpBlocks ≤ logSize) :
    s.log.lh.length + ∑ i ∈ insert pid ops, (update s.pc pid (.running ∅) i).left
      ≤ logSize - 2 := by
  have hle : ∑ i ∈ insert pid ops, (update s.pc pid (.running ∅) i).left
      ≤ (insert pid ops).card • (maxOpBlocks - 1) :=
    sum_le_card_nsmul _ _ _ fun i _ => Nat.sub_le _ _
  rw [card_insert_of_notMem hpid, nsmul_eq_mul, Nat.cast_id] at hle
  rw [h.outstanding] at hfit
  rcases ops.eq_empty_or_nonempty with rfl | hne
  · rw [h.idle rfl rfl]
    simp only [card_empty, logSize, maxOpBlocks, List.length_nil] at *
    omega
  · have hpos := hne.card_pos
    simp only [logSize, maxOpBlocks] at *
    omega

/-- `begin_op` admits process `pid`. -/
theorem beginOp (h : s.Reserved ops none) (hpc : s.pc pid = .idle)
    (hfit : s.log.lh.length + (s.log.outstanding + 1) * maxOpBlocks ≤ logSize) :
    Reserved ⟨{ s.log with outstanding := s.log.outstanding + 1 },
      update s.pc pid (.running ∅)⟩ (insert pid ops) none := by
  have hpid : pid ∉ ops := fun hmem => by simpa [hpc, isOpen] using (h.agrees pid).isOpen.mp hmem
  refine ⟨?_, ?_, h.size, h.nodup, h.room_beginOp hpid hfit, h.committing, nofun,
    fun he => absurd he (insert_ne_empty _ _)⟩
  · refine (Function.forall_update_iff s.pc fun i c => c.Agrees _ (i ∈ insert pid ops) _).mpr
      ⟨agrees_running (mem_insert_self _ _) nofun (by simp), fun i hi => ?_⟩
    have ha := h.agrees i
    exact ⟨by simpa [hi] using ha.isOpen, ha.isCommit, ha.used_mem, ha.logging, ha.committed⟩
  · rw [card_insert_of_notMem hpid, ← h.outstanding]

section

variable (h : s.Reserved ops cm)

include h

/-- An operation is about to log a block. -/
theorem logWriteCheck (hpc : s.pc pid = .running used)
    (hw : (insert blockno used).card ≤ maxOpBlocks - 1) :
    Reserved ⟨s.log, update s.pc pid (.logging used blockno)⟩ ops cm := by
  have hp := h.agrees pid
  rw [hpc] at hp
  have hpid : pid ∈ ops := hp.isOpen.mpr rfl
  refine ⟨?_, h.outstanding, h.size, h.nodup, ?_, h.committing, h.quiet, h.idle⟩
  · refine (Function.forall_update_iff s.pc fun i c => c.Agrees _ (i ∈ ops) _).mpr
      ⟨⟨hp.isOpen, hp.isCommit, hp.used_mem, fun u b hu => ?_, nofun⟩, fun i _ => h.agrees i⟩
    cases hu
    exact hw
  · have hsum := sum_left_update s.pc hpid (.logging used blockno)
    have hroom := h.room
    rw [hpc, left_running, left_logging] at hsum
    change s.log.lh.length + ∑ i ∈ ops, (update s.pc pid _ i).left ≤ _
    omega

/-- **A block is logged.**  A new one takes a place in the log and one of the places the operation may
still use. -/
theorem room_logWrite (hpid : pid ∈ ops)
    (hpc : s.pc pid = .logging used blockno) :
    (s.log.logWrite blockno).lh.length
      + ∑ i ∈ ops, (update s.pc pid (.running (insert blockno used)) i).left
      ≤ logSize - 2 := by
  have hp := h.agrees pid
  rw [hpc] at hp
  have hsum := sum_left_update s.pc hpid (.running (insert blockno used))
  have hcard := hp.logging _ _ rfl
  have hroom := h.room
  rw [hpc] at hsum
  rw [left_logging, left_running] at hsum
  rw [Log.logWrite]
  split
  · have hle := card_le_card (subset_insert blockno used)
    omega
  · rename_i hnew
    have hcard' : (insert blockno used).card = used.card + 1 :=
      card_insert_of_notMem fun hmem => hnew (hp.used_mem _ hmem)
    rw [List.length_append, List.length_singleton]
    omega

/-- `log_write` under the lock. -/
theorem logWrite (hpc : s.pc pid = .logging used blockno) :
    Reserved ⟨s.log.logWrite blockno, update s.pc pid (.running (insert blockno used))⟩
      ops cm := by
  have hp := h.agrees pid
  rw [hpc] at hp
  have hpid : pid ∈ ops := hp.isOpen.mpr rfl
  have hlog := @Log.logWrite_eq s.log blockno
  refine ⟨?_, (congrArg Log.outstanding hlog).trans h.outstanding, (congrArg Log.size hlog).trans h.size,
    Log.nodup_logWrite h.nodup, h.room_logWrite hpid hpc,
    (congrArg Log.committing hlog).trans h.committing, h.quiet,
    fun he => absurd hpid (he ▸ notMem_empty _)⟩
  refine (Function.forall_update_iff s.pc fun i c => c.Agrees _ (i ∈ ops) _).mpr
    ⟨⟨hp.isOpen, hp.isCommit, fun b hb => ?_, nofun, nofun⟩, fun i _ => ?_⟩
  · rcases mem_insert.mp hb with rfl | hb
    · exact Log.mem_logWrite.mpr (.inr rfl)
    · exact Log.mem_logWrite.mpr (.inl (hp.used_mem b hb))
  · have ha := h.agrees i
    refine ⟨ha.isOpen, ha.isCommit, fun b hb => Log.mem_logWrite.mpr (.inl (ha.used_mem b hb)), ha.logging,
      fun hi => ?_⟩
    have hcm := ha.isCommit.mpr (by rw [hi]; rfl)
    rw [h.eq_none hpid] at hcm
    cases hcm

/-- **An operation ends**; the last one commits. -/
theorem endOp (hpc : s.pc pid = .running used) :
    Returns s.log.endOp fun r => ∃ cm',
      Reserved ⟨r.1, update s.pc pid (if r.2 then .committing else .idle)⟩
        (ops.erase pid) cm' := by
  have hp := h.agrees pid
  rw [hpc] at hp
  have hpid : pid ∈ ops := hp.isOpen.mpr rfl
  have hcard : s.log.outstanding - 1 = (ops.erase pid).card := by
    rw [card_erase_of_mem hpid, h.outstanding]
  have hroom (c : OpPc) :
      s.log.lh.length + ∑ i ∈ ops.erase pid, (update s.pc pid c i).left ≤ logSize - 2 := by
    have hrest : ∑ i ∈ ops.erase pid, (update s.pc pid c i).left
        = ∑ i ∈ ops.erase pid, (s.pc i).left :=
      sum_congr rfl fun i hi => by rw [update_of_ne (ne_of_mem_erase hi)]
    have hall := add_sum_erase ops (fun i => (s.pc i).left) hpid
    have := h.room
    rw [hrest]
    omega
  have hnone := h.eq_none hpid
  simp only [Log.endOp, h.committing_eq hpid, hcard, Bool.false_eq_true, if_false]
  split
  · rename_i hlast
    have hempty : ops.erase pid = ∅ := card_eq_zero.mp hlast
    refine returns_ok.mpr ⟨some pid, ?_, rfl, h.size, h.nodup, hroom _, rfl, fun _ => hempty,
      nofun⟩
    refine (Function.forall_update_iff s.pc fun i c => c.Agrees _ (i ∈ ops.erase pid) _).mpr
      ⟨agrees_committing (notMem_erase _ _) rfl, fun i hi => ?_⟩
    have ha := h.agrees i
    rw [hnone] at ha
    refine ⟨by simpa [hi] using ha.isOpen, ?_, ha.used_mem, ha.logging, ha.committed⟩
    rw [← ha.isCommit]
    simp [Ne.symm hi]
  · rename_i hmore
    refine returns_ok.mpr ⟨none, ?_, rfl, h.size, h.nodup, hroom _, rfl, nofun,
      fun he => absurd (card_eq_zero.mpr he) hmore⟩
    refine (Function.forall_update_iff s.pc fun i c => c.Agrees _ (i ∈ ops.erase pid) _).mpr
      ⟨agrees_idle (notMem_erase _ _) nofun, fun i hi => ?_⟩
    have ha := h.agrees i
    rw [hnone] at ha
    exact ⟨by simpa [hi] using ha.isOpen, ha.isCommit, ha.used_mem, ha.logging, ha.committed⟩

/-- The process that commits empties the log; nobody is in an operation. -/
theorem clear (hpc : s.pc pid = .committing) :
    Reserved ⟨{ s.log with lh := [] }, update s.pc pid .committed⟩ ops cm := by
  have hp := h.agrees pid
  rw [hpc] at hp
  have hcm : cm = some pid := hp.isCommit.mpr rfl
  have hempty : ops = ∅ := h.quiet (hcm ▸ rfl)
  refine ⟨?_, h.outstanding, h.size, List.nodup_nil, by simp [hempty], h.committing, h.quiet,
    fun _ _ => rfl⟩
  refine (Function.forall_update_iff s.pc fun i c => c.Agrees _ (i ∈ ops) _).mpr
    ⟨⟨hp.isOpen, hp.isCommit, by simp [OpPc.used], nofun, fun _ => rfl⟩, fun i hi => ?_⟩
  have ha := h.agrees i
  refine ⟨ha.isOpen, ha.isCommit, fun b hb => ?_, ha.logging, fun _ => rfl⟩
  have hnot : ¬ (s.pc i).isOpen := by rw [← ha.isOpen, hempty]; exact notMem_empty _
  cases hc : s.pc i with
  | running u => simp [hc, isOpen] at hnot
  | logging u b => simp [hc, isOpen] at hnot
  | idle => simp [hc, OpPc.used] at hb
  | committing => simp [hc, OpPc.used] at hb
  | committed => simp [hc, OpPc.used] at hb

/-- `end_op` returns after a commit. -/
theorem finish (hpc : s.pc pid = .committed) :
    Reserved ⟨{ s.log with committing := false }, update s.pc pid .idle⟩ ops none := by
  have hp := h.agrees pid
  rw [hpc] at hp
  have hcm : cm = some pid := hp.isCommit.mpr rfl
  have hempty : ops = ∅ := h.quiet (hcm ▸ rfl)
  have hlh := hp.committed rfl
  refine ⟨?_, h.outstanding, h.size, h.nodup, by simp [hempty, hlh], rfl, nofun, fun _ _ => hlh⟩
  refine (Function.forall_update_iff s.pc fun i c => c.Agrees _ (i ∈ ops) _).mpr
    ⟨agrees_idle (hempty ▸ notMem_empty _) nofun, fun i hi => ?_⟩
  have ha := h.agrees i
  refine ⟨ha.isOpen, ?_, ha.used_mem, ha.logging, ha.committed⟩
  rw [← ha.isCommit, hcm]
  simp [Ne.symm hi]

end

end Reserved

end LogSystem

open LogSystem

/-- **One step** of operations that log at most nine blocks does not panic, and keeps the reservations. -/
theorem LogEvent.returns_run {s : LogSystem} (e : LogEvent) (h : ∃ ops cm, s.Reserved ops cm)
    (hw : e.Within (maxOpBlocks - 1) s) :
    Returns (e.run s) fun s' => s'.log.Fits ∧ ∃ ops cm, s'.Reserved ops cm := by
  obtain ⟨ops, cm, h⟩ := h
  have hsame : Returns (.ok s : Except String LogSystem) fun s' =>
      s'.log.Fits ∧ ∃ ops cm, s'.Reserved ops cm := returns_ok.mpr ⟨h.fits, ops, cm, h⟩
  have hmoved {s' : LogSystem} {ops' cm'} (h' : s'.Reserved ops' cm') :
      Returns (.ok s' : Except String LogSystem) fun s' =>
        s'.log.Fits ∧ ∃ ops cm, s'.Reserved ops cm := returns_ok.mpr ⟨h'.fits, ops', cm', h'⟩
  cases e with
  | beginOp pid =>
    rw [LogEvent.run]
    split
    · rename_i l hpc hl
      rw [Log.beginOp] at hl
      split at hl
      · cases hl
      · rename_i hc
        split at hl
        · cases hl
        · rename_i hfit
          cases hl
          have hcm : cm = none := by
            rw [h.committing] at hc
            simpa using hc
          subst hcm
          exact hmoved (h.beginOp hpc (by omega))
    · exact hsame
  | logWriteCheck pid blockno =>
    rw [LogEvent.run]
    split
    · rename_i used hpc
      have hpid : pid ∈ ops := (h.agrees pid).isOpen.mpr (by rw [hpc]; rfl)
      rw [LogEvent.Within, hpc] at hw
      rw [h.logWriteCheck_eq hpid, ok_bind]
      exact hmoved (h.logWriteCheck hpc hw)
    · exact hsame
  | logWrite pid =>
    rw [LogEvent.run]
    split
    · rename_i hpc
      exact hmoved (h.logWrite hpc)
    · exact hsame
  | endOp pid =>
    rw [LogEvent.run]
    split
    · rename_i hpc
      refine (h.endOp hpc).bind fun r hr => ?_
      obtain ⟨cm', hr⟩ := hr
      exact hmoved hr
    · exact hsame
  | clear pid =>
    rw [LogEvent.run]
    split
    · rename_i hpc
      exact hmoved (h.clear hpc)
    · exact hsame
  | finish pid =>
    rw [LogEvent.run]
    split
    · rename_i hpc
      exact hmoved (h.finish hpc)
    · exact hsame

/-- **The reservations suffice for operations of at most `MAXOPBLOCKS - 1` blocks**: no interleaving of
such operations panics, and the log always fits. -/
theorem log_reservations_suffice {es : List LogEvent}
    (h : Along LogEvent.run (fun e s => e.Within (maxOpBlocks - 1) s) es .init) :
    Steps LogEvent.run (fun _ _ s => s.log.Fits) es .init :=
  Along.steps (fun s => ∃ ops cm, s.Reserved ops cm) (fun e _ hs hw => e.returns_run hs hw) es _
    ⟨∅, none, reserved_init⟩ h

/-- Three operations that are admitted together, log `n` blocks each and end. -/
def threeOps (n : ℕ) : List LogEvent :=
  [.beginOp 0, .beginOp 1, .beginOp 2] ++
    (List.range (3 * n)).flatMap (fun i => [.logWriteCheck (i / n) (100 + i), .logWrite (i / n)]) ++
    [.endOp 0, .endOp 1, .endOp 2, .clear 2, .finish 2]

/-- Three operations of nine blocks. -/
theorem log_reservations_suffice_nine :
    Along LogEvent.run (fun e s => e.Within (maxOpBlocks - 1) s) (threeOps 9) .init ∧
      Steps LogEvent.run (fun _ _ s => s.log.Fits) (threeOps 9) .init := by
  have h : Along LogEvent.run (fun e s => e.Within (maxOpBlocks - 1) s) (threeOps 9) .init := by
    decide +kernel
  exact ⟨h, log_reservations_suffice h⟩

/-- **The last block of a full reservation does not fit**: three operations are admitted together, each
logs ten blocks, and the thirtieth panics. -/
theorem log_too_big : Along LogEvent.run (fun e s => e.Within maxOpBlocks s) (threeOps 10) .init ∧
    loop LogEvent.run (threeOps 10) .init = .error "too big a transaction" :=
  ⟨by decide +kernel, rfl⟩

end Xv6
