import Xv6.Fs.Log
import Xv6.Lib.Writes

/-!
# Fs/Crash — `commit` and `recover_from_log`

The disk takes one block at a time, in program order, so a crash leaves a prefix of the history of block
writes applied.  Memory is lost: the buffers, the header `log.lh`, the counts.  A clean buffer holds what
its block holds, so of the buffer cache only the pinned buffers (`B_DIRTY`) are state of their own.
`log.start` and `log.size` come from the superblock, which is not written.

A disk stands for the home blocks that recovery would leave on it (`Stands`).  Writing the log area
behind an empty header does not change what it stands for; writing the header does, at once; installing
a block and clearing the header after the last one do not.  So every crash falls before or after the one
write of the header.
-/

namespace Xv6

open Outcome Writes Function List

/-! ## The header block -/

namespace Block

/-- Word `i` of a header block. -/
def headWord (i : ℕ) : Fin 128 := Fin.ofNat 128 i

/-- `hb->block[i] = log.lh.block[i]`, for the entries from `i` on. -/
def setHeadFrom (hb : Block) (i : ℕ) : List ℕ → Block
  | [] => hb
  | b :: bs => (hb.setWord (headWord (i + 1)) b).setHeadFrom (i + 1) bs

/-- The header block for `log.lh`, over its old contents. -/
def setHead (hb : Block) (bs : List ℕ) : Block := (hb.setWord 0 bs.length).setHeadFrom 0 bs

/-- The loop of `read_head`; `lh->n` is an `int`. -/
def head (hb : Block) : List ℕ :=
  (List.range (if hb.word 0 < 2 ^ 31 then hb.word 0 else 0)).map fun i => hb.word (headWord (i + 1))

end Block

/-! ## The code -/

/-- The disk, the pinned buffers, the log, and the block writes so far. -/
structure LogDisk where
  log : Log
  disk : ℕ → Block
  pinned : ℕ → Option Block
  written : List (ℕ × Block)

namespace LogDisk

/-- `bread`. -/
def bread (s : LogDisk) (a : ℕ) : Block := (s.pinned a).getD (s.disk a)

/-- `bwrite` of a buffer with contents `v`; the buffer is clean afterwards. -/
def bwrite (s : LogDisk) (a : ℕ) (v : Block) : LogDisk :=
  { s with
    disk := Function.update s.disk a v
    pinned := Function.update s.pinned a none
    written := s.written ++ [(a, v)] }

/-- A buffer gets new contents, and `log_write` records and pins it. -/
def logWrite (w : ℕ × Block) (s : LogDisk) : Except String LogDisk := do
  s.log.logWriteCheck
  .ok { s with log := s.log.logWrite w.1, pinned := Function.update s.pinned w.1 (some w.2) }

/-- The loop of `write_log` from `tail` on. -/
def writeLogFrom (s : LogDisk) (tail : ℕ) : List ℕ → LogDisk
  | [] => s
  | b :: bs => (s.bwrite (s.log.start + tail + 1) (s.bread b)).writeLogFrom (tail + 1) bs

/-- `write_log`. -/
def writeLog (s : LogDisk) : LogDisk := s.writeLogFrom 0 s.log.lh

/-- `write_head`. -/
def writeHead (s : LogDisk) : LogDisk :=
  s.bwrite s.log.start ((s.bread s.log.start).setHead s.log.lh)

/-- The loop of `install_trans` from `tail` on. -/
def installTransFrom (s : LogDisk) (tail : ℕ) : List ℕ → LogDisk
  | [] => s
  | b :: bs => (s.bwrite b (s.bread (s.log.start + tail + 1))).installTransFrom (tail + 1) bs

/-- `install_trans`. -/
def installTrans (s : LogDisk) : LogDisk := s.installTransFrom 0 s.log.lh

/-- `log.lh.n = 0`. -/
def clearHead (s : LogDisk) : LogDisk := { s with log := { s.log with lh := [] } }

/-- `read_head`. -/
def readHead (s : LogDisk) : LogDisk :=
  { s with log := { s.log with lh := (s.bread s.log.start).head } }

/-- `recover_from_log`. -/
def recoverFromLog (s : LogDisk) : LogDisk := s.readHead.installTrans.clearHead.writeHead

/-- `commit`. -/
def commit (s : LogDisk) : LogDisk :=
  if 0 < s.log.lh.length then s.writeLog.writeHead.installTrans.clearHead.writeHead else s

/-- A transaction: `begin_op`, its log writes, and `end_op` with the commit.  There is no other operation,
so nothing would wake a `begin_op` that sleeps. -/
def transact (ws : List (ℕ × Block)) (s : LogDisk) : Except String LogDisk :=
  match s.log.beginOp with
  | none => .error "begin_op sleeps"
  | some l => do
    let s ← loop logWrite ws { s with log := l }
    let (l, doCommit) ← s.log.endOp
    let s := { s with log := l }
    if doCommit then
      let s := s.commit
      .ok { s with log := { s.log with committing := false } }
    else .ok s

/-- The machine after a reboot on the disk `d`. -/
def reboot (l : Log) (d : ℕ → Block) : LogDisk :=
  ⟨{ l with outstanding := 0, committing := false, lh := [] }, d, fun _ => none, []⟩

/-- The disk if `recover_from_log` crashes after `n` block writes. -/
def crashedRecovery (l : Log) (d : ℕ → Block) (n : ℕ) : ℕ → Block :=
  apply d ((reboot l d).recoverFromLog.written.take n)

end LogDisk

/-! ## Reading and writing the header -/

namespace Block

variable {hb : Block} {bs : List ℕ} {i j : ℕ}

theorem headWord_ne (hi : i < 128) (hj : j < 128) (h : i ≠ j) : headWord i ≠ headWord j := by
  intro he
  have hv := congrArg Fin.val he
  simp only [headWord, Fin.val_ofNat, Nat.mod_eq_of_lt hi, Nat.mod_eq_of_lt hj] at hv
  exact h hv

/-- Entries from `i` on are written behind the ones before. -/
theorem word_setHeadFrom_of_le : ∀ (bs : List ℕ) (hb : Block) {i j : ℕ}, j ≤ i →
    i + bs.length < 128 → (hb.setHeadFrom i bs).word (headWord j) = hb.word (headWord j)
  | [], _, _, _, _, _ => rfl
  | b :: bs, hb, i, j, hj, hlen => by
    rw [length_cons] at hlen
    rw [setHeadFrom, word_setHeadFrom_of_le bs _ (by omega) (by omega)]
    exact word_setWord_of_ne _ (headWord_ne (by omega) (by omega) (by omega)) _

/-- **Every entry is read back.** -/
theorem word_setHeadFrom : ∀ (bs : List ℕ) (hb : Block) {i : ℕ}, i + bs.length < 128 →
    (∀ b ∈ bs, b < 2 ^ 32) → ∀ (j : ℕ) (hj : j < bs.length),
      (hb.setHeadFrom i bs).word (headWord (i + j + 1)) = bs[j]
  | b :: bs, hb, i, hlen, hlt, 0, _ => by
    rw [length_cons] at hlen
    rw [setHeadFrom, word_setHeadFrom_of_le bs _ le_rfl (by omega)]
    exact word_setWord_self _ _ (hlt b mem_cons_self)
  | b :: bs, hb, i, hlen, hlt, j + 1, hj => by
    rw [length_cons] at hlen hj
    have hrest := word_setHeadFrom bs (hb.setWord (headWord (i + 1)) b) (i := i + 1) (by omega)
      (fun c hc => hlt c (mem_cons_of_mem _ hc)) j (by omega)
    rw [setHeadFrom, getElem_cons_succ, ← hrest]
    congr 2
    omega

/-- **`read_head` reads what `write_head` wrote.** -/
theorem head_setHead (hlen : bs.length ≤ logSize) (hlt : ∀ b ∈ bs, b < 2 ^ 32) :
    (hb.setHead bs).head = bs := by
  simp only [logSize, maxOpBlocks] at hlen
  have hn : (hb.setHead bs).word 0 = bs.length := by
    have hz := word_setHeadFrom_of_le bs (hb.setWord 0 bs.length) (Nat.zero_le 0) (by omega)
    exact hz.trans (word_setWord_self _ _ (by omega))
  rw [head, hn, if_pos (by omega)]
  refine ext_getElem (by simp) fun j hj hj' => ?_
  have hw := word_setHeadFrom bs (hb.setWord 0 bs.length) (i := 0) (by omega) hlt j hj'
  simpa [setHead] using hw

theorem head_setHead_nil : (hb.setHead []).head = [] := head_setHead (Nat.zero_le _) nofun

end Block

/-! ## Histories of the code -/

/-- The blocks of the log, header included. -/
def Log.InLog (l : Log) (a : ℕ) : Prop := l.start ≤ a ∧ a < l.start + l.size

namespace LogDisk

variable {s t u : LogDisk} {l : Log} {d d' m m' : ℕ → Block} {bs : List ℕ} {ws vs : List (ℕ × Block)}
  {a tail start : ℕ}

/-- **Block writes, and nothing else**, lead from one machine to another. -/
structure Wrote (s t : LogDisk) (ws : List (ℕ × Block)) : Prop where
  log : t.log = s.log
  disk : t.disk = apply s.disk ws
  written : t.written = s.written ++ ws
  pinned : ∀ a, t.pinned a = if a ∈ ws.map Prod.fst then none else s.pinned a

theorem wrote_refl (s : LogDisk) : Wrote s s [] :=
  ⟨rfl, rfl, (append_nil _).symm, fun _ => by simp⟩

theorem wrote_bwrite (s : LogDisk) (a : ℕ) (v : Block) : Wrote s (s.bwrite a v) [(a, v)] := by
  refine ⟨rfl, rfl, rfl, fun b => ?_⟩
  rcases eq_or_ne b a with rfl | hne
  · simp [bwrite]
  · simp [bwrite, hne]

theorem Wrote.trans (h : Wrote s t ws) (h' : Wrote t u vs) : Wrote s u (ws ++ vs) where
  log := h'.log.trans h.log
  disk := by rw [h'.disk, h.disk, apply_append]
  written := by rw [h'.written, h.written, append_assoc]
  pinned a := by
    rw [h'.pinned, h.pinned, map_append]
    simp only [mem_append]
    by_cases hv : a ∈ vs.map Prod.fst
    · rw [if_pos hv, if_pos (.inr hv)]
    · rw [if_neg hv]
      exact if_congr (or_iff_left hv).symm rfl rfl

/-- A block that was not written reads as before. -/
theorem Wrote.bread (h : Wrote s t ws) (ha : a ∉ ws.map Prod.fst) : t.bread a = s.bread a := by
  rw [LogDisk.bread, h.pinned, if_neg ha, h.disk, apply_of_notMem ha, LogDisk.bread]

/-- The writes of `write_log`: buffers with contents `f`, into the log. -/
def logCopies (start : ℕ) (f : ℕ → Block) (tail : ℕ) : List ℕ → List (ℕ × Block)
  | [] => []
  | b :: bs => (start + tail + 1, f b) :: logCopies start f (tail + 1) bs

/-- The writes of `install_trans`: the log, to the home blocks. -/
def redo (start : ℕ) (d : ℕ → Block) (tail : ℕ) : List ℕ → List (ℕ × Block)
  | [] => []
  | b :: bs => (b, d (start + tail + 1)) :: redo start d (tail + 1) bs

theorem map_fst_redo : ∀ (bs : List ℕ) (tail : ℕ), (redo start d tail bs).map Prod.fst = bs
  | [], _ => rfl
  | b :: bs, tail => congrArg (b :: ·) (map_fst_redo bs (tail + 1))

theorem length_redo (bs : List ℕ) (tail : ℕ) : (redo start d tail bs).length = bs.length := by
  rw [← length_map Prod.fst, map_fst_redo]

/-- Only the log is read, and not its header. -/
theorem redo_congr (h : ∀ a, l.InLog a → a ≠ l.start → d a = d' a) : ∀ (bs : List ℕ) (tail : ℕ),
    tail + bs.length ≤ l.size - 1 → redo l.start d tail bs = redo l.start d' tail bs
  | [], _, _ => rfl
  | b :: bs, tail, hlen => by
    rw [length_cons] at hlen
    have hcell : d (l.start + tail + 1) = d' (l.start + tail + 1) :=
      h _ ⟨by omega, by omega⟩ (by omega)
    rw [redo, redo, hcell, redo_congr h bs (tail + 1) (by omega)]

theorem mem_logCopies {f : ℕ → Block} : ∀ {bs : List ℕ} {tail : ℕ},
    a ∈ (logCopies start f tail bs).map Prod.fst → start + tail < a ∧ a ≤ start + tail + bs.length
  | b :: bs, tail, h => by
    rw [logCopies, map_cons, mem_cons] at h
    rw [length_cons]
    rcases h with rfl | h
    · exact ⟨by omega, by omega⟩
    · obtain ⟨h1, h2⟩ := mem_logCopies h
      exact ⟨by omega, by omega⟩

theorem logCopies_congr {f g : ℕ → Block} : ∀ {bs : List ℕ} (tail : ℕ), (∀ b ∈ bs, f b = g b) →
    logCopies start f tail bs = logCopies start g tail bs
  | [], _, _ => rfl
  | b :: bs, tail, h => by
    rw [logCopies, logCopies, h b mem_cons_self,
      logCopies_congr (tail + 1) fun c hc => h c (mem_cons_of_mem _ hc)]

/-- **What `write_log` copied to the log is what `install_trans` takes from it.** -/
theorem redo_logCopies (f : ℕ → Block) : ∀ (bs : List ℕ) (tail : ℕ) (d : ℕ → Block),
    redo start (apply d (logCopies start f tail bs)) tail bs = bs.map fun b => (b, f b)
  | [], _, _ => rfl
  | b :: bs, tail, d => by
    have hfresh : start + tail + 1 ∉ (logCopies start f (tail + 1) bs).map Prod.fst := fun hmem => by
      have := (mem_logCopies hmem).1
      omega
    rw [logCopies, redo, apply_cons, redo_logCopies f bs (tail + 1), apply_of_notMem hfresh,
      update_self, map_cons]

/-- `write_log`, when the home blocks it reads are outside the log. -/
theorem wrote_writeLogFrom : ∀ (bs : List ℕ) (tail : ℕ) (s : LogDisk),
    (∀ b ∈ bs, ¬ s.log.InLog b) → tail + bs.length ≤ s.log.size - 1 →
      Wrote s (s.writeLogFrom tail bs) (logCopies s.log.start s.bread tail bs)
  | [], _, s, _, _ => wrote_refl s
  | b :: bs, tail, s, hb, hlen => by
    rw [length_cons] at hlen
    have hw := wrote_bwrite s (s.log.start + tail + 1) (s.bread b)
    have hb' : ∀ c ∈ bs, ¬ s.log.InLog c := fun c hc => hb c (mem_cons_of_mem _ hc)
    have hrest := wrote_writeLogFrom bs (tail + 1) (s.bwrite (s.log.start + tail + 1) (s.bread b))
      hb' (by rw [hw.log]; omega)
    -- the buffers that follow are not touched by the write into the log
    have hsame : ∀ c ∈ bs, (s.bwrite (s.log.start + tail + 1) (s.bread b)).bread c = s.bread c :=
      fun c hc => hw.bread fun hmem => hb' c hc (by
        rw [map_singleton, mem_singleton] at hmem
        exact ⟨by omega, by omega⟩)
    rw [hw.log, logCopies_congr _ hsame] at hrest
    exact hw.trans hrest

/-- `install_trans`, when its home blocks are outside the log and the log is not pinned. -/
theorem wrote_installTransFrom : ∀ (bs : List ℕ) (tail : ℕ) (s : LogDisk),
    (∀ b ∈ bs, ¬ s.log.InLog b) → tail + bs.length ≤ s.log.size - 1 →
      (∀ a, s.log.InLog a → s.pinned a = none) →
      Wrote s (s.installTransFrom tail bs) (redo s.log.start s.disk tail bs)
  | [], _, s, _, _, _ => wrote_refl s
  | b :: bs, tail, s, hb, hlen, hpin => by
    rw [length_cons] at hlen
    have hin : s.log.InLog (s.log.start + tail + 1) := ⟨by omega, by omega⟩
    have hread : s.bread (s.log.start + tail + 1) = s.disk (s.log.start + tail + 1) := by
      rw [bread, hpin _ hin, Option.getD_none]
    have hw := wrote_bwrite s b (s.bread (s.log.start + tail + 1))
    have hpin' : ∀ a, s.log.InLog a →
        (s.bwrite b (s.bread (s.log.start + tail + 1))).pinned a = none := fun a ha => by
      rw [hw.pinned, hpin a ha, ite_self]
    have hrest := wrote_installTransFrom bs (tail + 1) (s.bwrite b (s.bread (s.log.start + tail + 1)))
      (fun c hc => hb c (mem_cons_of_mem _ hc)) (by rw [hw.log]; omega) hpin'
    have hlog : ∀ a, s.log.InLog a →
        (s.bwrite b (s.bread (s.log.start + tail + 1))).disk a = s.disk a := fun a ha =>
      update_of_ne (fun he : a = b => hb b mem_cons_self (he ▸ ha)) _ _
    rw [hw.log, redo_congr (fun a ha _ => hlog a ha) bs (tail + 1) (by omega)] at hrest
    rw [installTransFrom, redo, ← hread]
    exact hw.trans hrest

theorem wrote_writeHead (s : LogDisk) :
    Wrote s s.writeHead [(s.log.start, (s.bread s.log.start).setHead s.log.lh)] :=
  wrote_bwrite s _ _

/-- **Installing the log and clearing its header**: the second half of `commit`, and of
`recover_from_log`. -/
theorem wrote_install (hb : ∀ b ∈ s.log.lh, ¬ s.log.InLog b) (hlen : s.log.lh.length ≤ s.log.size - 1)
    (hpin : ∀ a, s.log.InLog a → s.pinned a = none) :
    ∃ hb : Block, hb.head = [] ∧
      Wrote s.clearHead s.installTrans.clearHead.writeHead
        (redo s.log.start s.disk 0 s.log.lh ++ [(s.log.start, hb)]) := by
  have hw := wrote_installTransFrom s.log.lh 0 s hb (by omega) hpin
  have hclear : Wrote s.clearHead s.installTrans.clearHead (redo s.log.start s.disk 0 s.log.lh) := by
    refine ⟨?_, hw.disk, hw.written, hw.pinned⟩
    rw [clearHead, clearHead, installTrans, hw.log]
  have hhead := wrote_writeHead s.installTrans.clearHead
  rw [hclear.log] at hhead
  exact ⟨_, Block.head_setHead_nil, hclear.trans hhead⟩

/-! ## What a disk stands for -/

/-- **Recovery would leave `m` in the home blocks** of the disk `d`. -/
structure Stands (l : Log) (d m : ℕ → Block) : Prop where
  outside : ∀ b ∈ (d l.start).head, ¬ l.InLog b
  length_le : (d l.start).head.length ≤ l.size - 1
  home : ∀ a, ¬ l.InLog a → apply d (redo l.start d 0 (d l.start).head) a = m a

/-- With an empty header a disk stands for itself. -/
theorem stands_of_head_nil (hd : (d l.start).head = []) (h : ∀ a, ¬ l.InLog a → d a = m a) :
    Stands l d m := by
  refine ⟨by simp [hd], by simp [hd], fun a ha => ?_⟩
  rw [hd]
  exact h a ha

/-- **Installing and clearing**, cut off anywhere, does not change what the disk stands for. -/
theorem Stands.take (h : Stands l d m) (hpos : 0 < l.size) {hb : Block} (hhb : hb.head = []) (n : ℕ) :
    Stands l (apply d ((redo l.start d 0 (d l.start).head ++ [(l.start, hb)]).take n)) m := by
  set bs := (d l.start).head with hbs
  rcases Nat.lt_or_ge bs.length n with hn | hn
  · -- everything was written
    rw [take_of_length_le (by simp [length_redo]; omega), apply_append]
    refine stands_of_head_nil (by simpa [apply] using hhb) fun a ha => ?_
    have hne : a ≠ l.start := fun he => ha ⟨by omega, by omega⟩
    rw [← h.home a ha]
    exact update_of_ne hne _ _
  · rw [take_append_of_le_length (by rwa [length_redo])]
    -- the log and its header are as they were, so the same blocks are installed again
    have hlog : ∀ a, l.InLog a → apply d ((redo l.start d 0 bs).take n) a = d a := fun a ha => by
      refine apply_of_notMem fun hmem => h.outside a ?_ ha
      rw [map_take, map_fst_redo] at hmem
      exact mem_of_mem_take hmem
    have hstart := hlog l.start ⟨le_rfl, by omega⟩
    refine ⟨by rw [hstart]; exact h.outside, by rw [hstart]; exact h.length_le, fun a ha => ?_⟩
    rw [hstart, redo_congr (fun a ha _ => hlog a ha) _ 0 (by have := h.length_le; omega), apply_apply_take]
    exact h.home a ha

/-- **Recovery writes the home blocks that the disk stands for**, and empties the log. -/
theorem Stands.recover (h : Stands l d m) (hpos : 0 < l.size) :
    (∀ n, Stands l (crashedRecovery l d n) m) ∧
      ∀ a, ¬ l.InLog a → (reboot l d).recoverFromLog.disk a = m a := by
  obtain ⟨hb, hhb, hw⟩ := wrote_install (s := (reboot l d).readHead) h.outside h.length_le
    (fun _ _ => rfl)
  have hwritten : (reboot l d).recoverFromLog.written
      = redo l.start d 0 (d l.start).head ++ [(l.start, hb)] := hw.written
  refine ⟨fun n => ?_, fun a ha => ?_⟩
  · rw [crashedRecovery, hwritten]
    exact h.take hpos hhb n
  · have hdisk : (reboot l d).recoverFromLog.disk
        = apply d (redo l.start d 0 (d l.start).head ++ [(l.start, hb)]) := hw.disk
    have hne : a ≠ l.start := fun he => ha ⟨by omega, by omega⟩
    rw [hdisk, apply_append, ← h.home a ha]
    exact update_of_ne hne _ _

/-! ## Transactions -/

/-- Between transactions, with `m` in the home blocks: nothing is logged, pinned or committed. -/
structure Quiet (l : Log) (s : LogDisk) (m : ℕ → Block) : Prop where
  log : s.log = { l with outstanding := 0, committing := false, lh := [] }
  pinned : ∀ a, s.pinned a = none
  head : (s.disk l.start).head = []
  home : ∀ a, ¬ l.InLog a → s.disk a = m a

/-- Inside a transaction, with `m` in the home blocks as they are read: the blocks that may differ from
the disk are logged. -/
structure Logged (l : Log) (s : LogDisk) (m : ℕ → Block) : Prop where
  start : s.log.start = l.start
  size : s.log.size = l.size
  outside : ∀ b ∈ s.log.lh, ¬ l.InLog b
  lt : ∀ b ∈ s.log.lh, b < 2 ^ 32
  length_le : s.log.lh.length ≤ logSize
  length_lt : s.log.lh.length ≤ l.size - 1
  pinned : ∀ a, a ∉ s.log.lh → s.pinned a = none
  head : (s.disk l.start).head = []
  bread : ∀ a, ¬ l.InLog a → s.bread a = m a

theorem Quiet.stands (h : Quiet l s m) : Stands l s.disk m := stands_of_head_nil h.head h.home

theorem Quiet.logged (h : Quiet l s m) (hlog : t.log = { s.log with outstanding := t.log.outstanding })
    (hdisk : t.disk = s.disk) (hpinned : t.pinned = s.pinned) : Logged l t m := by
  have hlh : t.log.lh = [] := by rw [hlog, h.log]
  refine ⟨by rw [hlog, h.log], by rw [hlog, h.log], by simp [hlh], by simp [hlh], by simp [hlh],
    by simp [hlh], fun a _ => by rw [hpinned, h.pinned], by rw [hdisk, h.head], fun a ha => ?_⟩
  rw [LogDisk.bread, hpinned, h.pinned, hdisk, Option.getD_none, h.home a ha]

/-- **A log write** changes one block, as read, and nothing on the disk. -/
theorem Logged.logWrite (h : Logged l s m) {w : ℕ × Block} (hw : ¬ l.InLog w.1 ∧ w.1 < 2 ^ 32)
    (hrun : LogDisk.logWrite w s = .ok t) :
    Logged l t (update m w.1 w.2) ∧ t.log = { s.log with lh := t.log.lh } ∧
      t.disk = s.disk ∧ t.written = s.written := by
  obtain ⟨_, hcheck, ht⟩ := bind_eq_ok.mp hrun
  cases ht
  have hroom : s.log.lh.length < logSize ∧ s.log.lh.length < s.log.size - 1 := by
    rw [Log.logWriteCheck] at hcheck
    split at hcheck
    · cases hcheck
    · omega
  have hsize := h.size
  have hlog := @Log.logWrite_eq s.log w.1
  have hlen : (s.log.logWrite w.1).lh.length ≤ s.log.lh.length + 1 := Log.length_logWrite_le
  refine ⟨⟨(congrArg Log.start hlog).trans h.start, (congrArg Log.size hlog).trans h.size,
    fun b hb => ?_, fun b hb => ?_, by simp only; omega, by simp only; omega, fun a ha => ?_,
    h.head, fun a ha => ?_⟩, hlog, rfl, rfl⟩
  · rcases Log.mem_logWrite.mp hb with hb | rfl
    · exact h.outside b hb
    · exact hw.1
  · rcases Log.mem_logWrite.mp hb with hb | rfl
    · exact h.lt b hb
    · exact hw.2
  · obtain ⟨ha, hne⟩ := not_or.mp (mt Log.mem_logWrite.mpr ha)
    exact (update_of_ne hne _ _).trans (h.pinned a ha)
  · rcases eq_or_ne a w.1 with rfl | hne
    · simp [LogDisk.bread]
    · rw [update_of_ne hne, ← h.bread a ha]
      exact congrArg (Option.getD · (s.disk a)) (update_of_ne hne _ _)

/-- The log writes of a transaction. -/
theorem Logged.loop_logWrite : ∀ (ws : List (ℕ × Block)) {s t : LogDisk} {m : ℕ → Block},
    Logged l s m → (∀ w ∈ ws, ¬ l.InLog w.1 ∧ w.1 < 2 ^ 32) → loop LogDisk.logWrite ws s = .ok t →
      Logged l t (apply m ws) ∧ t.log = { s.log with lh := t.log.lh } ∧
        t.disk = s.disk ∧ t.written = s.written
  | [], s, t, m, h, _, ht => by
    cases ht
    exact ⟨h, rfl, rfl, rfl⟩
  | w :: ws, s, t, m, h, hws, ht => by
    obtain ⟨s1, hs1, ht⟩ := bind_eq_ok.mp ht
    obtain ⟨h1, hl1, hd1, hw1⟩ := h.logWrite (hws w mem_cons_self) hs1
    obtain ⟨h2, hl2, hd2, hw2⟩ :=
      Logged.loop_logWrite ws h1 (fun v hv => hws v (mem_cons_of_mem _ hv)) ht
    exact ⟨h2, by rw [hl2, hl1], hd2.trans hd1, hw2.trans hw1⟩

/-- **The log is written behind an empty header**: cut off anywhere, the disk stands for what it stood
for. -/
theorem stands_logCopies {f : ℕ → Block} (hlen : bs.length ≤ l.size - 1) (hpos : 0 < l.size)
    (hhead : (d l.start).head = []) (hm : ∀ a, ¬ l.InLog a → d a = m a) (n : ℕ) :
    Stands l (apply d ((logCopies l.start f 0 bs).take n)) m := by
  have hin : ∀ a ∈ ((logCopies l.start f 0 bs).take n).map Prod.fst, l.InLog a ∧ a ≠ l.start := by
    intro a ha
    rw [map_take] at ha
    obtain ⟨h1, h2⟩ := mem_logCopies (mem_of_mem_take ha)
    exact ⟨⟨by omega, by omega⟩, by omega⟩
  have hstart : apply d ((logCopies l.start f 0 bs).take n) l.start = d l.start :=
    apply_of_notMem fun hmem => (hin _ hmem).2 rfl
  refine stands_of_head_nil (by rw [hstart, hhead]) fun a ha => ?_
  rw [apply_of_notMem fun hmem => ha (hin a hmem).1, hm a ha]

/-- **The write of the header commits**: behind it, the disk stands for the buffers. -/
theorem Logged.stands_commit (h : Logged l s m) (hpos : 0 < l.size) {hb : Block}
    (hhb : hb.head = s.log.lh) :
    Stands l (apply s.disk (logCopies l.start s.bread 0 s.log.lh ++ [(l.start, hb)])) m := by
  set C := logCopies l.start s.bread 0 s.log.lh with hC
  have hd : apply s.disk (C ++ [(l.start, hb)]) = update (apply s.disk C) l.start hb :=
    apply_append ..
  have hstart : (apply s.disk (C ++ [(l.start, hb)]) l.start).head = s.log.lh := by
    rw [hd, update_self, hhb]
  have hredo : redo l.start (apply s.disk (C ++ [(l.start, hb)])) 0 s.log.lh
      = s.log.lh.map fun b => (b, s.bread b) := by
    rw [← redo_logCopies s.bread s.log.lh 0 s.disk, hd]
    have := h.length_lt
    exact redo_congr (fun a _ hne => update_of_ne hne _ _) _ 0 (by omega)
  refine ⟨by rw [hstart]; exact h.outside, by rw [hstart]; exact h.length_lt, fun a ha => ?_⟩
  rw [hstart, hredo, apply_map, ← h.bread a ha]
  split
  · rfl
  · rename_i hna
    -- a block that is not logged is read from the disk, and is not in the log
    have hnotC : a ∉ C.map Prod.fst := fun hmem => ha <| by
      obtain ⟨h1, h2⟩ := mem_logCopies hmem
      have := h.length_lt
      exact ⟨by omega, by omega⟩
    have hne : a ≠ l.start := fun he => ha ⟨by omega, by omega⟩
    rw [hd, update_of_ne hne, apply_of_notMem hnotC, LogDisk.bread, h.pinned a hna,
      Option.getD_none]

/-- The writes of `commit`: the log, its header, the home blocks, an empty header. -/
theorem Logged.wrote_commit (h : Logged l s m) (hne : 0 < s.log.lh.length) :
    ∃ hb hb' : Block, hb.head = s.log.lh ∧ hb'.head = [] ∧
      Wrote s.clearHead s.commit ((logCopies l.start s.bread 0 s.log.lh ++ [(l.start, hb)]) ++
        (redo l.start (apply s.disk (logCopies l.start s.bread 0 s.log.lh ++ [(l.start, hb)])) 0 s.log.lh
          ++ [(l.start, hb')])) := by
  have hin : ∀ b ∈ s.log.lh, ¬ s.log.InLog b := fun b hb hmem => h.outside b hb <| by
    rwa [Log.InLog, h.start, h.size] at hmem
  have hlen : s.log.lh.length ≤ s.log.size - 1 := h.size ▸ h.length_lt
  have hw1 : Wrote s s.writeLog _ := wrote_writeLogFrom s.log.lh 0 s hin (by omega)
  have hw2 := wrote_writeHead s.writeLog
  rw [hw1.log] at hw2
  have hw := hw1.trans hw2
  have hpin : ∀ a, s.log.InLog a → s.writeLog.writeHead.pinned a = none := fun a ha => by
    rw [hw.pinned, h.pinned a fun hmem => hin a hmem ha, ite_self]
  obtain ⟨hb', hhb', hw3⟩ := wrote_install (s := s.writeLog.writeHead)
    (by rwa [hw.log]) (by rwa [hw.log]) (by rwa [hw.log])
  refine ⟨(s.writeLog.bread l.start).setHead s.log.lh, hb', Block.head_setHead h.length_le h.lt, hhb', ?_⟩
  have hclear : Wrote s.clearHead s.writeLog.writeHead.clearHead _ :=
    ⟨by rw [clearHead, clearHead, hw.log], hw.disk, hw.written, hw.pinned⟩
  rw [hw.log, hw.disk, h.start] at hw3
  rw [h.start] at hclear
  rw [LogDisk.commit, if_pos hne]
  exact hclear.trans hw3

/-- **`commit`**, with `m₀` in the home blocks before and `m` in the buffers: cut off anywhere, the disk
stands for one of the two; at the end, for the second. -/
theorem Logged.commit (h : Logged l s m) {m0 : ℕ → Block} (hpos : 0 < l.size)
    (h0 : ∀ a, ¬ l.InLog a → s.disk a = m0 a) :
    s.commit.log = { s.log with lh := [] } ∧ (∀ a, s.commit.pinned a = none) ∧
      (s.commit.disk l.start).head = [] ∧ (∀ a, ¬ l.InLog a → s.commit.disk a = m a) ∧
      ∃ ws, s.commit.disk = apply s.disk ws ∧ s.commit.written = s.written ++ ws ∧
        ∀ n, Stands l (apply s.disk (ws.take n)) m0 ∨ Stands l (apply s.disk (ws.take n)) m := by
  rcases Nat.eq_zero_or_pos s.log.lh.length with hnil | hne
  · have hlh : s.log.lh = [] := length_eq_zero_iff.mp hnil
    have hpin : ∀ a, s.pinned a = none := fun a => h.pinned a (by simp [hlh])
    rw [LogDisk.commit, if_neg (by omega)]
    refine ⟨by rw [← hlh], hpin, h.head, fun a ha => ?_, [], rfl, (append_nil _).symm,
      fun n => .inl ?_⟩
    · rw [← h.bread a ha, LogDisk.bread, hpin, Option.getD_none]
    · rw [take_nil]
      exact stands_of_head_nil h.head h0
  · obtain ⟨hb, hb', hhb, hhb', hw⟩ := h.wrote_commit hne
    have hst := h.stands_commit hpos hhb
    set C := logCopies l.start s.bread 0 s.log.lh with hC
    set d2 := apply s.disk (C ++ [(l.start, hb)]) with hd2
    have hhead : (d2 l.start).head = s.log.lh := by
      rw [hd2, apply_append]
      exact (congrArg Block.head (update_self ..)).trans hhb
    have hdisk : s.commit.disk
        = update (apply d2 (redo l.start d2 0 s.log.lh)) l.start hb' := by
      rw [hw.disk, apply_append, apply_append]
      rfl
    refine ⟨hw.log, fun a => ?_, ?_, fun a ha => ?_, _, hw.disk, hw.written, fun n => ?_⟩
    · rw [hw.pinned]
      split
      · rfl
      · rename_i hna
        refine h.pinned a fun hmem => hna ?_
        simp [map_fst_redo, hmem]
    · rw [hdisk, update_self, hhb']
    · have hne : a ≠ l.start := fun he => ha ⟨by omega, by omega⟩
      have hhome := hst.home a ha
      rw [hhead] at hhome
      rw [hdisk, update_of_ne hne, hhome]
    · rcases Nat.lt_or_ge C.length n with hn | hn
      · -- the header is on the disk
        right
        have htake := hst.take hpos hhb' (n - (C ++ [(l.start, hb)]).length)
        rw [hhead, ← apply_append] at htake
        rwa [take_append, take_of_length_le (by simp; omega)]
      · left
        rw [append_assoc, take_append_of_le_length hn]
        exact stands_logCopies h.length_lt hpos h.head h0 n

/-- **A transaction**: cut off anywhere, the disk stands for the home blocks before it or after it. -/
theorem Quiet.transact (h : Quiet l s m) (hpos : 0 < l.size)
    (hws : ∀ w ∈ ws, ¬ l.InLog w.1 ∧ w.1 < 2 ^ 32) (ht : LogDisk.transact ws s = .ok t) :
    Quiet l t (apply m ws) ∧ ∃ vs, t.disk = apply s.disk vs ∧ t.written = s.written ++ vs ∧
      ∀ n, Stands l (apply s.disk (vs.take n)) m ∨ Stands l (apply s.disk (vs.take n)) (apply m ws) := by
  have hbegin : s.log.beginOp = some { s.log with outstanding := 1 } := by
    rw [h.log]
    rfl
  rw [LogDisk.transact, hbegin] at ht
  obtain ⟨s1, hs1, ht⟩ := bind_eq_ok.mp ht
  obtain ⟨⟨l2, doCommit⟩, hend, ht⟩ := bind_eq_ok.mp ht
  have hlogged : Logged l { s with log := { s.log with outstanding := 1 } } m := h.logged rfl rfl rfl
  obtain ⟨h1, hlog1, hd1, hw1⟩ := hlogged.loop_logWrite ws hws hs1
  have hend' : s1.log.endOp = .ok ({ s1.log with outstanding := 0, committing := true }, true) := by
    rw [hlog1, h.log]
    rfl
  rw [hend'] at hend
  cases hend
  cases ht
  -- `end_op` leaves the disk, the buffers and the header alone
  have h2 : Logged l { s1 with log := { s1.log with outstanding := 0, committing := true } }
      (apply m ws) :=
    ⟨h1.start, h1.size, h1.outside, h1.lt, h1.length_le, h1.length_lt, h1.pinned, h1.head, h1.bread⟩
  obtain ⟨hlog, hpin, hhead, hhome, vs, hdisk, hwritten, hcrash⟩ :=
    h2.commit hpos fun a ha => show _ = m a by rw [← h.home a ha, ← hd1]
  refine ⟨⟨?_, hpin, hhead, hhome⟩, vs, by rw [← hd1]; exact hdisk, by rw [← hw1]; exact hwritten,
    fun n => by rw [← hd1]; exact hcrash n⟩
  simp only [hlog]
  rw [hlog1, h.log]

/-! ## Sessions -/

/-- The history only grows. -/
theorem Quiet.length_written_le (hpos : 0 < l.size) : ∀ (ts : List (List (ℕ × Block)))
    {s t : LogDisk} {m : ℕ → Block}, Quiet l s m → (∀ ws ∈ ts, ∀ w ∈ ws, ¬ l.InLog w.1 ∧ w.1 < 2 ^ 32) →
    loop LogDisk.transact ts s = .ok t → s.written.length ≤ t.written.length
  | [], s, t, m, _, _, ht => by
    cases ht
    exact le_rfl
  | ws :: ts, s, t, m, h, hts, ht => by
    obtain ⟨s1, hs1, ht⟩ := bind_eq_ok.mp ht
    obtain ⟨h1, vs, -, hw, -⟩ := h.transact hpos (hts ws mem_cons_self) hs1
    have hrest :=
      Quiet.length_written_le hpos ts h1 (fun us hus => hts us (mem_cons_of_mem _ hus)) ht
    rw [hw, length_append] at hrest
    omega

/-- **Whole sessions.**  The disk after any number of block writes stands for the home blocks after some of
the transactions, and at least after those that had returned. -/
theorem Quiet.session (hpos : 0 < l.size) : ∀ (ts : List (List (ℕ × Block))) {s t : LogDisk}
    {m : ℕ → Block}, Quiet l s m → (∀ ws ∈ ts, ∀ w ∈ ws, ¬ l.InLog w.1 ∧ w.1 < 2 ^ 32) →
    loop LogDisk.transact ts s = .ok t →
      ∃ vs, t.written = s.written ++ vs ∧ ∀ n, ∃ j ≤ ts.length,
        Stands l (apply s.disk (vs.take n)) (apply m (ts.take j).flatten) ∧
        ∀ i ≤ ts.length, ∀ u, loop LogDisk.transact (ts.take i) s = .ok u →
          u.written.length ≤ s.written.length + n → i ≤ j
  | [], s, t, m, h, _, ht => by
    cases ht
    refine ⟨[], (append_nil _).symm, fun n => ⟨0, le_rfl, ?_, fun i hi _ _ _ => hi⟩⟩
    rw [take_nil]
    exact h.stands
  | ws :: ts, s, t, m, h, hts, ht => by
    obtain ⟨s1, hs1, ht⟩ := bind_eq_ok.mp ht
    obtain ⟨h1, vs1, hd1, hw1, hcrash⟩ := h.transact hpos (hts ws mem_cons_self) hs1
    obtain ⟨vs2, hw2, hrest⟩ :=
      Quiet.session hpos ts h1 (fun us hus => hts us (mem_cons_of_mem _ hus)) ht
    refine ⟨vs1 ++ vs2, by rw [hw2, hw1, append_assoc], fun n => ?_⟩
    -- a longer session goes through the end of the first transaction
    have hfirst : ∀ i u, loop LogDisk.transact ((ws :: ts).take (i + 1)) s = .ok u →
        loop LogDisk.transact (ts.take i) s1 = .ok u := fun i u hu => by
      obtain ⟨s1', hs1', hu⟩ := bind_eq_ok.mp hu
      cases hs1.symm.trans hs1'
      exact hu
    rcases Nat.lt_or_ge n vs1.length with hn | hn
    · -- the first transaction is cut off, so nothing has returned
      have hnone : ∀ i u, loop LogDisk.transact ((ws :: ts).take i) s = .ok u →
          u.written.length ≤ s.written.length + n → i = 0 := fun i u hu hlen => by
        cases i with
        | zero => rfl
        | succ i =>
          have hle := h1.length_written_le hpos (ts.take i)
            (fun us hus => hts us (mem_cons_of_mem _ (mem_of_mem_take hus)))
            (hfirst i u hu)
          rw [hw1, length_append] at hle
          omega
      rw [take_append_of_le_length hn.le]
      rcases hcrash n with hst | hst
      · exact ⟨0, Nat.zero_le _, hst, fun i _ u hu hlen => (hnone i u hu hlen).le⟩
      · refine ⟨1, by simp, by simpa using hst, fun i _ u hu hlen => ?_⟩
        have := hnone i u hu hlen
        omega
    · obtain ⟨j, hj, hst, hret⟩ := hrest (n - vs1.length)
      refine ⟨j + 1, by simpa using hj, ?_, fun i hi u hu hlen => ?_⟩
      · rw [take_append, take_of_length_le hn, apply_append, ← hd1, take_succ_cons,
          flatten_cons, apply_append]
        exact hst
      · cases i with
        | zero => exact Nat.zero_le _
        | succ i =>
          have hle := hret i (by simpa using hi) u (hfirst i u hu)
            (by rw [hw1, length_append]; omega)
          omega

/-- A machine on which transactions may begin: the log is empty in memory and on the disk, as
`recover_from_log` leaves it. -/
structure Booted (s : LogDisk) : Prop where
  log : s.log = { s.log with outstanding := 0, committing := false, lh := [] }
  size : 0 < s.log.size
  pinned : ∀ a, s.pinned a = none
  head : (s.disk s.log.start).head = []
  written : s.written = []

/-- The machine after a boot on the disk `d`. -/
def boot (l : Log) (d : ℕ → Block) : LogDisk := { (reboot l d).recoverFromLog with written := [] }

/-- Recovery that crashes, again and again. -/
theorem Stands.foldl_crashedRecovery (hpos : 0 < l.size) : ∀ (ns : List ℕ) {d : ℕ → Block},
    Stands l d m → Stands l (ns.foldl (crashedRecovery l) d) m
  | [], _, h => h
  | n :: ns, _, h => Stands.foldl_crashedRecovery hpos ns ((h.recover hpos).1 n)

/-- **Crash atomicity.**  A session of transactions crashes after `n` block writes, recovery crashes any
number of times, and then runs to its end: the home blocks are what some of the transactions, in order,
made of them, and all that had returned are among these. -/
theorem crash_atomic {ts : List (List (ℕ × Block))} (hs : s.Booted)
    (hts : ∀ ws ∈ ts, ∀ w ∈ ws, ¬ s.log.InLog w.1 ∧ w.1 < 2 ^ 32)
    (ht : loop LogDisk.transact ts s = .ok t) (n : ℕ) (ns : List ℕ) :
    ∃ j ≤ ts.length,
      (∀ a, ¬ s.log.InLog a →
        (reboot s.log (ns.foldl (crashedRecovery s.log)
          (apply s.disk (t.written.take n)))).recoverFromLog.disk a
        = apply s.disk (ts.take j).flatten a) ∧
      ∀ i ≤ ts.length, ∀ u, loop LogDisk.transact (ts.take i) s = .ok u → u.written.length ≤ n → i ≤ j := by
  have hq : Quiet s.log s s.disk := ⟨hs.log, hs.pinned, hs.head, fun _ _ => rfl⟩
  obtain ⟨vs, hw, hcrash⟩ := hq.session hs.size ts hts ht
  obtain ⟨j, hj, hst, hret⟩ := hcrash n
  rw [hs.written, List.nil_append] at hw
  refine ⟨j, hj, fun a ha => ?_, fun i hi u hu hlen => hret i hi u hu (by simpa [hs.written] using hlen)⟩
  rw [hw]
  exact ((hst.foldl_crashedRecovery hs.size ns).recover hs.size).2 a ha

/-- The disk of `mkfs`, before anything is written to it. -/
def emptyDisk : LogDisk := ⟨.init mkfsSuperblock, fun _ => .zero, fun _ => none, []⟩

/-- A transaction on an empty disk; a crash while its blocks are installed, and one in the recovery. -/
theorem crash_atomic_empty : emptyDisk.Booted ∧ ∃ t,
    loop LogDisk.transact [[(100, fun _ => 1), (101, fun _ => 2)]] emptyDisk = .ok t ∧
    ∃ j ≤ 1, ∀ a, ¬ emptyDisk.log.InLog a →
      (reboot emptyDisk.log ([1].foldl (crashedRecovery emptyDisk.log)
        (apply emptyDisk.disk (t.written.take 4)))).recoverFromLog.disk a
      = apply emptyDisk.disk (List.take j [[(100, fun _ => 1), (101, fun _ => 2)]]).flatten a := by
  have hb : emptyDisk.Booted := by
    refine ⟨rfl, by decide, fun _ => rfl, ?_, rfl⟩
    simp [emptyDisk, Block.head]
  have hrun :
      ∃ t, loop LogDisk.transact [[(100, fun _ => 1), (101, fun _ => 2)]] emptyDisk = .ok t := ⟨_, rfl⟩
  obtain ⟨t, ht⟩ := hrun
  have hts : ∀ ws ∈ [[((100 : ℕ), (fun _ => 1 : Block)), (101, fun _ => 2)]], ∀ w ∈ ws,
      ¬ emptyDisk.log.InLog w.1 ∧ w.1 < 2 ^ 32 := by
    intro ws hws w hw
    rw [List.mem_singleton.mp hws, List.mem_cons, List.mem_singleton] at hw
    rcases hw with rfl | rfl <;>
    · simp only [Log.InLog, emptyDisk, Log.init, mkfsSuperblock, logSize, maxOpBlocks]
      omega
  obtain ⟨j, hj, hhome, -⟩ := crash_atomic hb hts ht 4 [1]
  exact ⟨hb, t, ht, j, hj, hhome⟩

end LogDisk

end Xv6
