import Xv6.Fs.Bcache

/-!
# Fs/Coherence — the buffer cache is coherent

Two invariants of the callers of `Fs/Bcache`: `Shape` says who uses which buffer and for which block, `Contents`
what buffers and disk hold.  A transfer is done for a caller that has the lock of the buffer, so the data of a
dirty buffer on the disk queue do not change before they are on the disk.
-/

namespace Xv6

open Outcome Function List

namespace Bcache

namespace System

variable {U : Type}

variable {s s' : System U} {u v : U} {n m : ℕ} {b b' : Fin nbuf} {sv : Bool} {disk : ℕ → ℕ → Block}

/-! ## The invariant -/

/-- Who uses which buffer, and for which block. -/
structure Shape (s : System U) : Prop where
  ring : s.cache.Ring
  unique : ∀ b b', (s.cache.buf b).dev = rootDev → (s.cache.buf b').dev = rootDev →
    (s.cache.buf b).blockno = (s.cache.buf b').blockno → b = b'
  refs : Ledger.Exact (fun u => (s.pc u).buf) 0 fun b => (s.cache.buf b).refcnt
  ident : ∀ u n b, (s.pc u).target = some (n, b) →
    (s.cache.buf b).dev = rootDev ∧ (s.cache.buf b).blockno = n
  lock : ∀ u b, (s.cache.buf b).lock = some u ↔ (s.pc u).holds = some b

/-- What the buffers and the disk hold.  A buffer on the disk queue belongs to a caller that waits for it; a
valid one has the last data written, but for changes its caller has not written yet; a block without a dirty
buffer has them on the disk. -/
structure Contents (s : System U) : Prop where
  nodup : s.cache.idequeue.Nodup
  queue : ∀ b ∈ s.cache.idequeue, ∃ u n, s.pc u = .reading n b ∧ (s.cache.buf b).valid = false ∨
    s.pc u = .writing n b ∧ (s.cache.buf b).dirty = true
  valid : ∀ u n b, (∃ sv, s.pc u = .inUse n b sv) ∨ s.pc u = .writing n b → (s.cache.buf b).valid = true
  flags : ∀ b, (s.cache.buf b).dirty = true → (s.cache.buf b).valid = true
  data : ∀ b, (s.cache.buf b).dev = rootDev → (s.cache.buf b).valid = true →
    (∀ u n, s.pc u ≠ .inUse n b false) → (s.cache.buf b).data = s.written (s.cache.buf b).blockno
  disk : ∀ n, (∀ b, (s.cache.buf b).dev = rootDev → (s.cache.buf b).blockno = n →
    (s.cache.buf b).dirty = false) → s.cache.disk rootDev n = s.written n

/-- A buffer without references has no caller. -/
theorem Shape.no_caller (h : s.Shape) (hb : (s.cache.buf b).refcnt = 0) (u : U) : (s.pc u).buf ≠ some b := by
  have h0 : Ledger.total (fun u => (s.pc u).buf) 0 b = ((s.cache.buf b).refcnt : ℕ∞) := h.refs b
  rw [hb] at h0
  exact Ledger.ne_some_of_total_eq_zero h0 u

theorem buf_of_holds {p : Phase} (h : p.holds = some b) : p.buf = some b := by
  cases p <;> simp_all [Phase.holds, Phase.buf, Phase.target]

theorem Shape.caller (h : s.Shape) (hu : (s.pc u).holds = some b) (hv : (s.pc v).holds = some b) : u = v :=
  Option.some.inj (((h.lock u b).mpr hu).symm.trans ((h.lock v b).mpr hv))

/-- A buffer on the disk queue is held by a caller in `iderw`. -/
theorem Contents.notMem_queue (hc : s.Contents) (h : s.Shape) (hu : (s.pc u).holds = some b)
    (hr : ∀ n, s.pc u ≠ .reading n b) (hw : ∀ n, s.pc u ≠ .writing n b) : b ∉ s.cache.idequeue := by
  intro hb
  obtain ⟨v, n, ⟨hv, -⟩ | ⟨hv, -⟩⟩ := hc.queue b hb
  · obtain rfl := h.caller hu (by rw [hv]; rfl)
    exact hr n hv
  · obtain rfl := h.caller hu (by rw [hv]; rfl)
    exact hw n hv

theorem Shape.root (h : s.Shape) (hu : (s.pc u).holds = some b) : (s.cache.buf b).dev = rootDev := by
  obtain ⟨⟨n, b1⟩, ht, rfl⟩ := Option.map_eq_some_iff.mp (buf_of_holds hu)
  exact (h.ident u n b1 ht).1

/-- A buffer on the disk queue has a caller, and its transfer is not done. -/
theorem Contents.holder (hc : s.Contents) (hb : b ∈ s.cache.idequeue) : ∃ u, (s.pc u).holds = some b := by
  obtain ⟨u, n, ⟨hu, -⟩ | ⟨hu, -⟩⟩ := hc.queue b hb <;> exact ⟨u, by rw [hu]; rfl⟩

theorem Contents.notMem_synced (hc : s.Contents) (hd : (s.cache.buf b).synced = true) : b ∉ s.cache.idequeue := by
  intro hb
  obtain ⟨hv, hd⟩ := synced_iff.mp hd
  obtain ⟨u, n, ⟨-, hf⟩ | ⟨-, hf⟩⟩ := hc.queue b hb
  · rw [hv] at hf
    cases hf
  · rw [hd] at hf
    cases hf

theorem setBuf_buf (c : Bcache U) (b : Fin nbuf) (x : Buf U) (b' : Fin nbuf) :
    (c.setBuf b x).buf b' = if b' = b then x else c.buf b' := by
  by_cases hb : b' = b
  · subst hb
    simp
  · rw [setBuf_of_ne hb, if_neg hb]

theorem Shape.congr (h : s.Shape) (hbuf : s'.cache.buf = s.cache.buf) (hpc : s'.pc = s.pc)
    (hr : s'.cache.Ring) : s'.Shape :=
  ⟨hr, by rw [hbuf]; exact h.unique, by rw [hbuf, hpc]; exact h.refs, by rw [hbuf, hpc]; exact h.ident,
    by rw [hbuf, hpc]; exact h.lock⟩

theorem holds_ne {q : Phase} (hq : ∀ m b', q.target = some (m, b') → b' = b) {b' : Fin nbuf} (hb : b' ≠ b) :
    q.holds ≠ some b' := by
  intro hh
  have := buf_of_holds hh
  obtain ⟨⟨m, b1⟩, ht, rfl⟩ := Option.map_eq_some_iff.mp this
  exact hb (hq m b1 ht)

/-- Only references, locks and links change, and a caller that waits for no transfer and has saved its
changes. -/
theorem Contents.congr (hc : s.Contents)
    (hbuf : ∀ b, (s'.cache.buf b).valid = (s.cache.buf b).valid ∧ (s'.cache.buf b).dirty = (s.cache.buf b).dirty ∧
      (s'.cache.buf b).dev = (s.cache.buf b).dev ∧ (s'.cache.buf b).blockno = (s.cache.buf b).blockno ∧
      (s'.cache.buf b).data = (s.cache.buf b).data)
    (hq : s'.cache.idequeue = s.cache.idequeue) (hd : s'.cache.disk = s.cache.disk) (hw : s'.written = s.written)
    (hpc : ∀ v, s'.pc v = s.pc v ∨ ∀ n b, (∀ sv, s'.pc v ≠ .inUse n b sv) ∧ s'.pc v ≠ .writing n b ∧
      s.pc v ≠ .reading n b ∧ s.pc v ≠ .writing n b ∧ s.pc v ≠ .inUse n b false) : s'.Contents := by
  constructor
  · rw [hq]
    exact hc.nodup
  · intro b hb
    rw [hq] at hb
    obtain ⟨v, n, hv⟩ := hc.queue b hb
    refine ⟨v, n, ?_⟩
    rw [(hbuf b).1, (hbuf b).2.1]
    rcases hpc v with heq | hne
    · rwa [heq]
    · rcases hv with ⟨hv, -⟩ | ⟨hv, -⟩
      · exact absurd hv (hne n b).2.2.1
      · exact absurd hv (hne n b).2.2.2.1
  · intro v n b hv
    rw [(hbuf b).1]
    rcases hpc v with heq | hne
    · exact hc.valid v n b (heq ▸ hv)
    · rcases hv with ⟨sv, hv⟩ | hv
      · exact absurd hv ((hne n b).1 sv)
      · exact absurd hv (hne n b).2.1
  · intro b
    rw [(hbuf b).1, (hbuf b).2.1]
    exact hc.flags b
  · intro b
    rw [(hbuf b).1, (hbuf b).2.2.1, (hbuf b).2.2.2.1, (hbuf b).2.2.2.2, hw]
    refine fun h1 h2 h3 => hc.data b h1 h2 fun v n hv => ?_
    rcases hpc v with heq | hne
    · exact h3 v n (heq.trans hv)
    · exact (hne n b).2.2.2.2 hv
  · intro n
    rw [hd, hw]
    refine fun h1 => hc.disk n fun b h2 h3 => ?_
    rw [← (hbuf b).2.1]
    exact h1 b ((hbuf b).2.2.1.trans h2) ((hbuf b).2.2.2.1.trans h3)

theorem target_of_holds {q : Phase} (hq : q.holds = some b) (m : ℕ) (b' : Fin nbuf) (ht : q.target = some (m, b')) :
    b' = b := by
  have := buf_of_holds hq
  rw [Phase.buf, ht] at this
  exact Option.some.inj this

/-- A valid buffer whose caller has saved its changes has the last data written. -/
theorem Contents.saved (hc : s.Contents) (h : s.Shape) (hu : (s.pc u).holds = some b)
    (hv : (s.cache.buf b).valid = true) (hroot : (s.cache.buf b).dev = rootDev)
    (hs : ∀ m, s.pc u ≠ .inUse m b false) : (s.cache.buf b).data = s.written (s.cache.buf b).blockno :=
  hc.data b hroot hv fun v m hvm => by
    obtain rfl := h.caller hu (v := v) (by rw [hvm]; rfl)
    exact hs m hvm

theorem goto_buf (s : System U) (b b' : Fin nbuf) :
    s.cache.buf b' = if b' = b then s.cache.buf b else s.cache.buf b' := by
  split
  · rename_i hb
    rw [hb]
  · rfl

theorem Contents.nodup_snoc (hc : s.Contents) (hb : b ∉ s.cache.idequeue) : (s.cache.idequeue ++ [b]).Nodup := by
  refine nodup_append.mpr ⟨hc.nodup, nodup_singleton b, ?_⟩
  rintro b1 hb1 b2 hb2 rfl
  exact hb (mem_singleton.mp hb2 ▸ hb1)

theorem record_written (s : System U) (b : Fin nbuf) :
    (s.record b).written (s.cache.buf b).blockno = (s.cache.buf b).data := update_self ..

/-! ### Who uses which buffer -/

variable [DecidableEq U]

/-- Buffer `b` becomes `x`, and caller `u` goes on at `p`. -/
def put (s : System U) (b : Fin nbuf) (x : Buf U) (u : U) (p : Phase) : System U :=
  { s with cache := s.cache.setBuf b x }.goto u p

section Put

variable {x : Buf U} {p : Phase}

theorem goto_pc (s : System U) (u : U) (p : Phase) (v : U) :
    (s.goto u p).pc v = if v = u then p else s.pc v := by
  by_cases hv : v = u
  · subst hv
    simp [goto]
  · simp [goto, hv]

theorem put_buf (s : System U) (b : Fin nbuf) (x : Buf U) (u : U) (p : Phase) (b' : Fin nbuf) :
    (s.put b x u p).cache.buf b' = if b' = b then x else s.cache.buf b' := setBuf_buf ..

theorem put_pc (s : System U) (b : Fin nbuf) (x : Buf U) (u : U) (p : Phase) (v : U) :
    (s.put b x u p).pc v = if v = u then p else s.pc v := goto_pc ..

/-- The blocks of the buffers stay different. -/
theorem Shape.put_unique (h : s.Shape) (hx : ∀ b', b' ≠ b → (s.cache.buf b').dev = rootDev → x.dev = rootDev →
    (s.cache.buf b').blockno ≠ x.blockno) (b1 b2 : Fin nbuf)
    (h1 : ((s.put b x u p).cache.buf b1).dev = rootDev) (h2 : ((s.put b x u p).cache.buf b2).dev = rootDev)
    (heq : ((s.put b x u p).cache.buf b1).blockno = ((s.put b x u p).cache.buf b2).blockno) : b1 = b2 := by
  rw [put_buf] at h1 h2 heq
  rw [put_buf] at heq
  split at h1
  · rename_i hb1
    split at h2
    · rename_i hb2
      rw [hb1, hb2]
    · rename_i hb2
      rw [if_pos hb1, if_neg hb2] at heq
      exact absurd heq.symm (hx b2 hb2 h2 h1)
  · rename_i hb1
    split at h2
    · rename_i hb2
      rw [if_neg hb1, if_pos hb2] at heq
      exact absurd heq (hx b1 hb1 h1 h2)
    · rename_i hb2
      rw [if_neg hb1, if_neg hb2] at heq
      exact h.unique b1 b2 h1 h2 heq

/-- The counts after a change of one caller and one buffer. -/
theorem put_refs : (fun v => ((s.put b x u p).pc v).buf) = update (fun v => (s.pc v).buf) u p.buf ∧
    (fun b' => ((s.put b x u p).cache.buf b').refcnt)
      = update (fun b' => (s.cache.buf b').refcnt) b x.refcnt := by
  constructor
  · funext v
    rw [put_pc]
    by_cases hv : v = u
    · subst hv
      simp
    · simp [hv]
  · funext b'
    rw [put_buf]
    by_cases hb : b' = b
    · subst hb
      simp
    · simp [hb]

section

variable (h : s.Shape)

include h

/-- **A caller takes a reference.** -/
theorem Shape.put_take (hu : s.pc u = .idle) (hp : p.buf = some b)
    (hx : x.refcnt = (s.cache.buf b).refcnt + 1) :
    Ledger.Exact (fun v => ((s.put b x u p).pc v).buf) 0 fun b' => ((s.put b x u p).cache.buf b').refcnt := by
  have hnone : (fun v => (s.pc v).buf) u = none := by simp [hu, Phase.buf, Phase.target]
  intro f
  rw [put_refs.1, put_refs.2, hp, hx, Ledger.total_assign (m := fun v => (s.pc v).buf) (s := u) hnone]
  exact h.refs.share f

/-- **A caller drops its reference.** -/
theorem Shape.put_drop (hu : (s.pc u).buf = some b) (hx : x.refcnt = (s.cache.buf b).refcnt - 1) :
    Ledger.Exact (fun v => ((s.put b x u .idle).pc v).buf) 0
      fun b' => ((s.put b x u .idle).cache.buf b').refcnt := by
  have hsome : (fun v => (s.pc v).buf) u = some b := hu
  have hw : Ledger.Exact (update (fun v => (s.pc v).buf) u none) (b ::ₘ 0)
      fun b' => (s.cache.buf b').refcnt := fun f => by
    rw [Ledger.total_withdraw (m := fun v => (s.pc v).buf) (s := u) hsome]
    exact h.refs f
  rw [put_refs.1, put_refs.2, hx]
  exact hw.drop

/-- A caller keeps its reference. -/
theorem Shape.put_keep (hp : p.buf = (s.pc u).buf) (hx : x.refcnt = (s.cache.buf b).refcnt) :
    Ledger.Exact (fun v => ((s.put b x u p).pc v).buf) 0 fun b' => ((s.put b x u p).cache.buf b').refcnt := by
  rw [put_refs.1, put_refs.2, hx, hp, update_eq_self (f := fun v => (s.pc v).buf),
    update_eq_self (f := fun b' => (s.cache.buf b').refcnt)]
  exact h.refs

theorem Shape.put_ident (hx : ∀ m, (p.target = some (m, b) ∨ ∃ v, (s.pc v).target = some (m, b)) →
    x.dev = rootDev ∧ x.blockno = m) (hp : ∀ m b', p.target = some (m, b') → b' = b) (v : U) (m : ℕ)
    (b' : Fin nbuf) (hv : ((s.put b x u p).pc v).target = some (m, b')) :
    ((s.put b x u p).cache.buf b').dev = rootDev ∧ ((s.put b x u p).cache.buf b').blockno = m := by
  rw [put_pc] at hv
  rw [put_buf]
  split at hv
  · obtain rfl := hp m b' hv
    rw [if_pos rfl]
    exact hx m (.inl hv)
  · by_cases hb : b' = b
    · subst hb
      rw [if_pos rfl]
      exact hx m (.inr ⟨v, hv⟩)
    · rw [if_neg hb]
      exact h.ident v m b' hv

theorem Shape.put_lock (hx : ∀ v, x.lock = some v ↔ ((s.put b x u p).pc v).holds = some b)
    (hp : ∀ b', b' ≠ b → (p.holds = some b' ↔ (s.pc u).holds = some b')) (v : U) (b' : Fin nbuf) :
    ((s.put b x u p).cache.buf b').lock = some v ↔ ((s.put b x u p).pc v).holds = some b' := by
  rw [put_buf]
  by_cases hb : b' = b
  · subst hb
    rw [if_pos rfl]
    exact hx v
  · rw [if_neg hb, h.lock v b', put_pc]
    by_cases hv : v = u
    · subst hv
      rw [if_pos rfl]
      exact (hp b' hb).symm
    · rw [if_neg hv]

/-- The lock where nobody takes or leaves it. -/
theorem Shape.lock_same (hx : x.lock = (s.cache.buf b).lock) (hp : p.holds = (s.pc u).holds) (v : U) :
    x.lock = some v ↔ ((s.put b x u p).pc v).holds = some b := by
  rw [hx, h.lock v b, put_pc]
  by_cases hv : v = u
  · subst hv
    rw [if_pos rfl, hp]
  · rw [if_neg hv]

/-- **A caller starts on a buffer of its block.** -/
theorem Shape.put_enter (hu : s.pc u = .idle)
    (hx : x.dev = rootDev ∧ x.blockno = n ∧ x.refcnt = (s.cache.buf b).refcnt + 1 ∧ x.lock = (s.cache.buf b).lock)
    (hother : ∀ b', b' ≠ b → (s.cache.buf b').dev = rootDev → (s.cache.buf b').blockno ≠ n)
    (hident : ∀ v m, (s.pc v).target = some (m, b) → m = n) : (s.put b x u (.asleep n b)).Shape := by
  obtain ⟨hd, hn, hr, hl⟩ := hx
  refine ⟨h.ring, h.put_unique fun b' hb h1 _ => hn ▸ hother b' hb h1, h.put_take hu rfl hr, h.put_ident ?_ ?_,
    h.put_lock (h.lock_same hl (by rw [hu]; rfl)) fun b' _ => by rw [hu]; rfl⟩
  · rintro m (hm | ⟨v, hv⟩)
    · cases hm
      exact ⟨hd, hn⟩
    · exact ⟨hd, hn.trans (hident v m hv).symm⟩
  · intro m b' hm
    cases hm
    rfl

/-- **A caller goes on with its buffer**, which keeps its block. -/
theorem Shape.put_go (ht : (s.pc u).target = some (n, b)) (hp : p.target = some (n, b))
    (hx : x.dev = (s.cache.buf b).dev ∧ x.blockno = (s.cache.buf b).blockno ∧ x.refcnt = (s.cache.buf b).refcnt)
    (hl : ∀ v, x.lock = some v ↔ ((s.put b x u p).pc v).holds = some b) : (s.put b x u p).Shape := by
  obtain ⟨hd, hn, hr⟩ := hx
  have hid := h.ident u n b ht
  have hnone : ∀ {q : Phase}, q.target = some (n, b) → ∀ m b', q.target = some (m, b') → b' = b :=
    fun hq m b' hm => congrArg Prod.snd (Option.mem_unique hm hq)
  refine ⟨h.ring, h.put_unique fun b' hb h1 h2 heq => hb (h.unique b' b h1 (hd ▸ h2) (heq.trans hn)),
    h.put_keep (by rw [Phase.buf, hp, Phase.buf, ht]) hr, h.put_ident ?_ (hnone hp),
    h.put_lock hl fun b' hb => iff_of_false (holds_ne (hnone hp) hb) (holds_ne (hnone ht) hb)⟩
  rintro m (hm | ⟨v, hv⟩)
  · cases hm.symm.trans hp
    exact ⟨hd.trans hid.1, hn.trans hid.2⟩
  · obtain ⟨h1, h2⟩ := h.ident v m b hv
    exact ⟨hd.trans h1, hn.trans h2⟩

/-- **A caller leaves its buffer.** -/
theorem Shape.put_leave (hu : s.pc u = .released n b)
    (hx : x.dev = (s.cache.buf b).dev ∧ x.blockno = (s.cache.buf b).blockno ∧
      x.refcnt = (s.cache.buf b).refcnt - 1 ∧ x.lock = (s.cache.buf b).lock) : (s.put b x u .idle).Shape := by
  obtain ⟨hd, hn, hr, hl⟩ := hx
  refine ⟨h.ring, h.put_unique fun b' hb h1 h2 heq => hb (h.unique b' b h1 (hd ▸ h2) (heq.trans hn)),
    h.put_drop (by rw [hu]; rfl) hr, h.put_ident ?_ nofun,
    h.put_lock (h.lock_same hl (by rw [hu]; rfl)) fun b' _ => by rw [hu]; rfl⟩
  rintro m (hm | ⟨v, hv⟩)
  · cases hm
  · obtain ⟨h1, h2⟩ := h.ident v m b hv
    exact ⟨hd.trans h1, hn.trans h2⟩

/-- A caller that moves on without touching its buffer. -/
theorem Shape.goto (ht : (s.pc u).target = some (n, b)) (hp : p.target = some (n, b))
    (hl : p.holds = (s.pc u).holds) : (s.goto u p).Shape := by
  have hput := h.put_go (x := s.cache.buf b) ht hp ⟨rfl, rfl, rfl⟩ (h.lock_same rfl hl)
  exact hput.congr (by simp [System.goto, put, setBuf]) rfl h.ring

/-- **Every step keeps the shape.** -/
theorem Shape.step (hc : s.Contents) (hs : Step s s') : s'.Shape := by
  cases hs with
  | @bget u n b c hu hb =>
    rcases h.ring.bget_eq_ok hb with ⟨hd, hn, rfl⟩ | ⟨hno, h0, -, rfl⟩
    · exact h.put_enter hu ⟨hd, hn, rfl, rfl⟩ (fun b' hne h1 h2 => hne (h.unique b' b h1 hd (h2.trans hn.symm)))
        fun v m hv => (h.ident v m b hv).2.symm.trans hn
    · refine h.put_enter hu ⟨rfl, rfl, by rw [h0], rfl⟩ (fun b' _ h1 h2 => hno b' ⟨h1, h2⟩) fun v m hv => ?_
      exact absurd (by rw [Phase.buf, hv]; rfl) (h.no_caller h0 v)
  | @acquire u n b c hu ha =>
    obtain ⟨hl, rfl⟩ := acquiresleep_eq_some ha
    refine h.put_go (n := n) (by rw [hu]; rfl) rfl ⟨rfl, rfl, rfl⟩ fun v => ?_
    rw [put_pc]
    split
    · rename_i hv
      exact iff_of_true (by rw [hv]) rfl
    · rename_i hv
      rw [← h.lock v b, hl]
      exact iff_of_false (fun he => hv (Option.some.inj he).symm) nofun
  | @hit u n b hu hv => exact h.goto (n := n) (b := b) (by rw [hu]; rfl) rfl (by rw [hu]; rfl)
  | @miss u n b c hu hv hi =>
    obtain ⟨-, rfl⟩ := iderw_eq_ok hi
    exact (h.goto (n := n) (b := b) (p := .reading n b) (by rw [hu]; rfl) rfl (by rw [hu]; rfl)).congr rfl rfl h.ring
  | @wake u n b hu hd => exact h.goto (n := n) (b := b) (by rw [hu]; rfl) rfl (by rw [hu]; rfl)
  | @change u n b sv hu data =>
    exact h.put_go (n := n) (by rw [hu]; rfl) rfl ⟨rfl, rfl, rfl⟩ (h.lock_same rfl (by rw [hu]; rfl))
  | @bwrite u n b sv c hu hw =>
    obtain ⟨-, rfl⟩ := bwrite_eq_ok hw
    have hput := h.put_go (n := n) (p := .writing n b) (x := { s.cache.buf b with dirty := true }) (by rw [hu]; rfl) rfl
      ⟨rfl, rfl, rfl⟩ (h.lock_same rfl (by rw [hu]; rfl))
    exact hput.congr rfl rfl h.ring
  | @done u n b hu hd => exact h.goto (n := n) (b := b) (by rw [hu]; rfl) rfl (by rw [hu]; rfl)
  | @logWrite u n b sv hu =>
    have hput := h.put_go (n := n) (p := .inUse n b true) (x := { s.cache.buf b with dirty := true }) (by rw [hu]; rfl)
      rfl ⟨rfl, rfl, rfl⟩ (h.lock_same rfl (by rw [hu]; rfl))
    exact hput.congr rfl rfl h.ring
  | @brelse u n b c hu hr =>
    obtain ⟨hl, rfl⟩ := brelse_eq_ok hr
    refine h.put_go (n := n) (by rw [hu]; rfl) rfl ⟨rfl, rfl, rfl⟩ fun v => ?_
    rw [put_pc]
    split
    · exact iff_of_false nofun nofun
    · rename_i hv
      rw [← h.lock v b, hl]
      exact iff_of_false nofun fun he => hv (Option.some.inj he).symm
  | @unref u n b hu =>
    have hput := h.put_leave hu (x := { s.cache.buf b with refcnt := (s.cache.buf b).refcnt - 1 })
      ⟨rfl, rfl, rfl, rfl⟩
    exact hput.congr (funext fun b' => unref_buf s.cache b b') rfl (h.ring.unref b)
  | @intr c hi =>
    rcases ideintr_eq_ok hi with rfl | ⟨b, q, hq, hcase⟩
    · exact h
    · obtain ⟨u, n, hu⟩ := hc.queue b (by rw [hq]; exact mem_cons_self)
      have ht : (s.pc u).target = some (n, b) := by
        rcases hu with ⟨hu, -⟩ | ⟨hu, -⟩
        · rw [hu]; rfl
        · rw [hu]; rfl
      have hpc : ∀ x, (s.put b x u (s.pc u)).pc = s.pc := fun x => update_eq_self ..
      rcases hcase with ⟨-, rfl⟩ | ⟨-, rfl⟩
      · have hput := h.put_go (x := { s.cache.buf b with
          data := s.cache.disk (s.cache.buf b).dev (s.cache.buf b).blockno, valid := true, dirty := false }) ht ht
          ⟨rfl, rfl, rfl⟩ (h.lock_same rfl rfl)
        exact hput.congr rfl (hpc _).symm h.ring
      · have hput := h.put_go (x := { s.cache.buf b with valid := true, dirty := false }) ht ht
          ⟨rfl, rfl, rfl⟩ (h.lock_same rfl rfl)
        exact hput.congr rfl (hpc _).symm h.ring

end

end Put

/-! ### What buffers and disk hold -/

section

variable (hc : s.Contents)

include hc

/-- A caller takes or leaves a reference or the lock. -/
theorem Contents.put_quiet {x : Buf U} {p : Phase}
    (hx : x.valid = (s.cache.buf b).valid ∧ x.dirty = (s.cache.buf b).dirty ∧ x.dev = (s.cache.buf b).dev ∧
      x.blockno = (s.cache.buf b).blockno ∧ x.data = (s.cache.buf b).data)
    (hp : ∀ n b, (∀ sv, p ≠ .inUse n b sv) ∧ p ≠ .writing n b ∧
      s.pc u ≠ .reading n b ∧ s.pc u ≠ .writing n b ∧ s.pc u ≠ .inUse n b false) : (s.put b x u p).Contents := by
  refine hc.congr (fun b' => ?_) rfl rfl rfl fun v => ?_
  · rw [put_buf]
    split
    · rename_i hb
      rw [hb]
      exact hx
    · exact ⟨rfl, rfl, rfl, rfl, rfl⟩
  · rw [put_pc]
    split
    · rename_i hv
      rw [hv]
      exact .inr hp
    · exact .inl rfl

/-- **One caller works alone on one buffer**: nobody else has the lock of `b`, which becomes `x`, and `u` goes on
at `p`.  Only `b` and its block have to be looked at. -/
theorem Contents.alone {x : Buf U} {p : Phase}
    (hbuf : ∀ b', s'.cache.buf b' = if b' = b then x else s.cache.buf b')
    (hpc : ∀ v, s'.pc v = if v = u then p else s.pc v)
    (hu : ∀ m b', (s.pc u).target = some (m, b') → b' = b) (hp : ∀ m b', p.target = some (m, b') → b' = b)
    (hother : ∀ v, v ≠ u → (s.pc v).holds ≠ some b)
    (hnd : s'.cache.idequeue.Nodup) (hq : ∀ b' ∈ s'.cache.idequeue, b' ≠ b → b' ∈ s.cache.idequeue)
    (hbq : b ∈ s'.cache.idequeue → ∃ m, p = .reading m b ∧ x.valid = false ∨ p = .writing m b ∧ x.dirty = true)
    (hval : x.valid = true ∨ x.dirty = false ∧ ∀ m, (∀ sv, p ≠ .inUse m b sv) ∧ p ≠ .writing m b)
    (hdata : (∃ m, p = .inUse m b false) ∨ x.valid = false ∨ x.data = s'.written x.blockno)
    (hw : ∀ b', b' ≠ b → (s.cache.buf b').dev = rootDev →
      s'.written (s.cache.buf b').blockno = s.written (s.cache.buf b').blockno)
    (hdisk : ∀ m, s'.cache.disk rootDev m = s'.written m ∨ x.dirty = true ∧ x.dev = rootDev ∧ x.blockno = m ∨
      s'.cache.disk rootDev m = s.cache.disk rootDev m ∧ s'.written m = s.written m ∧
        ((s.cache.buf b).dirty = true → (s.cache.buf b).blockno = m →
          x.dirty = true ∧ x.dev = (s.cache.buf b).dev ∧ x.blockno = m)) : s'.Contents := by
  refine ⟨hnd, fun b' hb' => ?_, fun v m b' hv => ?_, fun b' hd => ?_, fun b' h1 h2 h3 => ?_, fun m hm => ?_⟩
  · by_cases hb : b' = b
    · subst hb
      obtain ⟨m, hm⟩ := hbq hb'
      refine ⟨u, m, ?_⟩
      rwa [hbuf, if_pos rfl, hpc, if_pos rfl]
    · obtain ⟨v, m, hvm⟩ := hc.queue b' (hq b' hb' hb)
      refine ⟨v, m, ?_⟩
      rw [hbuf, if_neg hb, hpc, if_neg]
      · exact hvm
      · rintro rfl
        exact hb (hu m b' (by rcases hvm with ⟨hv, -⟩ | ⟨hv, -⟩ <;> rw [hv] <;> rfl))
  · rw [hbuf]
    rw [hpc] at hv
    split at hv
    · obtain rfl := hp m b' (by rcases hv with ⟨sv, hv⟩ | hv <;> rw [hv] <;> rfl)
      rw [if_pos rfl]
      rcases hval with hval | ⟨-, hn⟩
      · exact hval
      · rcases hv with ⟨sv, hv⟩ | hv
        · exact absurd hv ((hn m).1 sv)
        · exact absurd hv (hn m).2
    · rename_i hvu
      split
      · rename_i hb
        exact absurd (by rcases hv with ⟨sv, hv⟩ | hv <;> rw [hv, ← hb] <;> rfl) (hother v hvu)
      · exact hc.valid v m b' hv
  · rw [hbuf] at hd ⊢
    split
    · rename_i hb
      rw [if_pos hb] at hd
      rcases hval with hval | ⟨hx, -⟩
      · exact hval
      · rw [hd] at hx
        cases hx
    · rename_i hb
      rw [if_neg hb] at hd
      exact hc.flags b' hd
  · rw [hbuf] at h1 h2 ⊢
    split
    · rename_i hb
      rw [if_pos hb] at h2
      rcases hdata with ⟨n, rfl⟩ | hx | hx
      · exact absurd (by rw [hpc, if_pos rfl, hb]) (h3 u n)
      · rw [h2] at hx
        cases hx
      · exact hx
    · rename_i hb
      rw [if_neg hb] at h1 h2
      rw [hw b' hb h1]
      refine hc.data b' h1 h2 fun v n hv => h3 v n ?_
      rw [hpc, if_neg, hv]
      rintro rfl
      exact hb (hu n b' (by rw [hv]; rfl))
  · have hmb := hm b
    rw [hbuf, if_pos rfl] at hmb
    rcases hdisk m with heq | ⟨hd, hdev, hno⟩ | ⟨hsame, hwr, hkeep⟩
    · exact heq
    · rw [hmb hdev hno] at hd
      cases hd
    · rw [hsame, hwr]
      refine hc.disk m fun b' h1 h2 => ?_
      by_cases hb : b' = b
      · subst hb
        by_contra hd
        obtain ⟨hx, hdev, hno⟩ := hkeep (Bool.not_eq_false _ ▸ hd) h2
        rw [hmb (hdev.trans h1) hno] at hx
        cases hx
      · have := hm b'
        rw [hbuf, if_neg hb] at this
        exact this h1 h2

/-- `bread` or `bwrite` returns. -/
theorem Contents.goto_inUse (h : s.Shape) (hu : (s.pc u).holds = some b)
    (ht : (s.pc u).target = some (n, b)) (hv : (s.cache.buf b).valid = true) (hb : b ∉ s.cache.idequeue)
    (hs : ∀ m, s.pc u ≠ .inUse m b false) : (s.goto u (.inUse n b true)).Contents :=
  hc.alone (goto_buf s b) (goto_pc s u _) (target_of_holds hu) (by rintro m b' ⟨⟩; rfl)
    (fun v hvu hh => hvu (h.caller hh hu)) hc.nodup (fun _ hb' _ => hb') (fun hb' => absurd hb' hb) (.inl hv)
    (.inr (.inr (hc.saved h hu hv (h.ident u n b ht).1 hs))) (fun _ _ _ => rfl)
    fun m => .inr (.inr ⟨rfl, rfl, fun hd hm => ⟨hd, rfl, hm⟩⟩)

/-- **A caller works on its buffer**: it changes the data, or it hands them to `bwrite` or `log_write`. -/
theorem Contents.put_own (h : s.Shape) (hu : s.pc u = .inUse n b sv) {x : Buf U} {p : Phase}
    {w : ℕ → Block} {q : List (Fin nbuf)} (hdev : x.dev = (s.cache.buf b).dev)
    (hno : x.blockno = (s.cache.buf b).blockno) (hval : x.valid = (s.cache.buf b).valid)
    (hp : ∀ m b', p.target = some (m, b') → b' = b)
    (hw : ∀ m, m ≠ (s.cache.buf b).blockno → w m = s.written m)
    (hdata : p = .inUse n b false ∨ x.data = w (s.cache.buf b).blockno)
    (hdirty : x.dirty = true ∨ x.dirty = (s.cache.buf b).dirty ∧ w = s.written)
    (hq : q = s.cache.idequeue ∨ q = s.cache.idequeue ++ [b] ∧ p = .writing n b ∧ x.dirty = true) :
    ({ s with cache := { s.cache.setBuf b x with idequeue := q }, written := w }.goto u p).Contents := by
  have hl : (s.pc u).holds = some b := by rw [hu]; rfl
  have hbq := hc.notMem_queue h hl (fun m => by rw [hu]; nofun) fun m => by rw [hu]; nofun
  have hroot := (h.ident u n b (by rw [hu]; rfl)).1
  refine hc.alone (setBuf_buf s.cache b x) (goto_pc _ u p) (target_of_holds hl) hp
    (fun v hvu hh => hvu (h.caller hh hl)) ?_ (fun b' hb' hne => ?_) (fun hb' => ?_)
    (.inl (hval.trans (hc.valid u n b (.inl ⟨sv, hu⟩)))) ?_
    (fun b' hb' h1 => hw _ fun heq => hb' (h.unique b' b h1 hroot heq)) fun m => ?_
  · rcases hq with rfl | ⟨rfl, -, -⟩
    · exact hc.nodup
    · exact hc.nodup_snoc hbq
  · rcases hq with rfl | ⟨rfl, -, -⟩
    · exact hb'
    · exact (mem_append.mp hb').resolve_right fun hs => hne (mem_singleton.mp hs)
  · rcases hq with rfl | ⟨-, hq⟩
    · exact absurd hb' hbq
    · exact ⟨n, .inr hq⟩
  · rw [hno]
    exact hdata.imp (fun hp => ⟨n, hp⟩) .inr
  · by_cases hbm : (s.cache.buf b).blockno = m
    · rcases hdirty with hd | ⟨hd, rfl⟩
      · exact .inr (.inl ⟨hd, hdev.trans hroot, hno.trans hbm⟩)
      · exact .inr (.inr ⟨rfl, rfl, fun hd' _ => ⟨hd.trans hd', hdev, hno.trans hbm⟩⟩)
    · exact .inr (.inr ⟨rfl, hw m (Ne.symm hbm), fun _ hm => absurd hm hbm⟩)

/-- **A transfer ends**: the buffer has the last data written, and so has its block where it was dirty. -/
theorem Contents.transfer (h : s.Shape) {c : Bcache U} {q : List (Fin nbuf)} {x : Buf U}
    (hq : s.cache.idequeue = b :: q) (hbuf : ∀ b', c.buf b' = if b' = b then x else s.cache.buf b')
    (hx : x.valid = true ∧ x.data = s.written x.blockno) (hcq : c.idequeue = q)
    (hdisk : ∀ m, c.disk rootDev m = s.written m ∨ c.disk rootDev m = s.cache.disk rootDev m ∧
      ((s.cache.buf b).dirty = true → (s.cache.buf b).blockno ≠ m)) : Contents { s with cache := c } := by
  have hnd := hc.nodup
  rw [hq, nodup_cons] at hnd
  obtain ⟨u, hu⟩ := hc.holder (hq ▸ mem_cons_self)
  refine hc.alone (u := u) (p := s.pc u) hbuf (fun v => ?_) (target_of_holds hu) (target_of_holds hu)
    (fun v hvu hh => hvu (h.caller hh hu)) (hcq ▸ hnd.2) (fun b' hb' _ => ?_)
    (fun hb' => absurd (hcq ▸ hb') hnd.1) (.inl hx.1) (.inr (.inr hx.2)) (fun _ _ _ => rfl) fun m => ?_
  · split
    · rename_i hv
      rw [hv]
    · rfl
  · rw [hq]
    exact mem_cons_of_mem b (hcq ▸ hb')
  · rcases hdisk m with heq | ⟨heq, hne⟩
    · exact .inl heq
    · exact .inr (.inr ⟨heq, rfl, fun hd hm => absurd hm (hne hd)⟩)

/-- **Every step keeps the contents.** -/
theorem Contents.step (h : s.Shape) (hs : Step s s') : s'.Contents := by
  cases hs with
  | @bget u n b c hu hb =>
    rcases h.ring.bget_eq_ok hb with ⟨-, -, rfl⟩ | ⟨-, h0, hd, rfl⟩
    · exact hc.put_quiet ⟨rfl, rfl, rfl, rfl, rfl⟩ (by simp [hu])
    · refine hc.alone (put_buf s b _ u _) (put_pc s b _ u _) (by rw [hu]; nofun) (by rintro m b' ⟨⟩; rfl)
        (fun v _ hv => h.no_caller h0 v (buf_of_holds hv)) hc.nodup (fun _ hb' _ => hb') (fun hb' => ?_)
        (.inr ⟨rfl, fun m => ⟨nofun, nofun⟩⟩) (.inr (.inl rfl)) (fun _ _ _ => rfl)
        fun m => .inr (.inr ⟨rfl, rfl, fun hd' => by rw [hd] at hd'; cases hd'⟩)
      obtain ⟨v, hv⟩ := hc.holder hb'
      exact absurd (buf_of_holds hv) (h.no_caller h0 v)
  | @acquire u n b c hu ha =>
    obtain ⟨-, rfl⟩ := acquiresleep_eq_some ha
    exact hc.put_quiet ⟨rfl, rfl, rfl, rfl, rfl⟩ (by simp [hu])
  | @hit u n b hu hv =>
    have hl : (s.pc u).holds = some b := by rw [hu]; rfl
    exact hc.goto_inUse h hl (by rw [hu]; rfl) hv
      (hc.notMem_queue h hl (fun m => by rw [hu]; nofun) fun m => by rw [hu]; nofun) fun m => by rw [hu]; nofun
  | @miss u n b c hu hv hr =>
    obtain ⟨-, rfl⟩ := iderw_eq_ok hr
    have hl : (s.pc u).holds = some b := by rw [hu]; rfl
    have hdirty : (s.cache.buf b).dirty = false := by
      by_contra hd
      rw [hc.flags b (Bool.not_eq_false _ ▸ hd)] at hv
      cases hv
    exact hc.alone (goto_buf s b) (goto_pc _ u _) (target_of_holds hl) (by rintro m b' ⟨⟩; rfl)
      (fun v hvu hh => hvu (h.caller hh hl))
      (hc.nodup_snoc (hc.notMem_queue h hl (fun m => by rw [hu]; nofun) fun m => by rw [hu]; nofun))
      (fun b' hb' hne => (mem_append.mp hb').resolve_right fun hs => hne (mem_singleton.mp hs))
      (fun _ => ⟨n, .inl ⟨rfl, hv⟩⟩) (.inr ⟨hdirty, fun m => ⟨nofun, nofun⟩⟩) (.inr (.inl hv)) (fun _ _ _ => rfl)
      fun m => .inr (.inr ⟨rfl, rfl, fun hd hm => ⟨hd, rfl, hm⟩⟩)
  | @wake u n b hu hd =>
    exact hc.goto_inUse h (by rw [hu]; rfl) (by rw [hu]; rfl) (synced_iff.mp hd).1 (hc.notMem_synced hd)
      fun m => by rw [hu]; nofun
  | @change u n b sv hu data =>
    exact hc.put_own h hu rfl rfl rfl (by rintro m b' ⟨⟩; rfl) (fun _ _ => rfl) (.inl rfl) (.inr ⟨rfl, rfl⟩) (.inl rfl)
  | @bwrite u n b sv c hu hw =>
    obtain ⟨-, rfl⟩ := bwrite_eq_ok hw
    exact hc.put_own h hu rfl rfl rfl (by rintro m b' ⟨⟩; rfl) (fun m hm => update_of_ne hm ..)
      (.inr (record_written s b).symm) (.inl rfl) (.inr ⟨rfl, rfl, rfl⟩)
  | @done u n b hu hd =>
    exact hc.goto_inUse h (by rw [hu]; rfl) (by rw [hu]; rfl) (synced_iff.mp hd).1 (hc.notMem_synced hd)
      fun m => by rw [hu]; nofun
  | @logWrite u n b sv hu =>
    exact hc.put_own h hu (x := { s.cache.buf b with dirty := true }) rfl rfl rfl (by rintro m b' ⟨⟩; rfl)
      (fun m hm => update_of_ne hm ..) (.inr (record_written s b).symm) (.inl rfl) (.inl rfl)
  | @brelse u n b c hu hr =>
    obtain ⟨-, rfl⟩ := brelse_eq_ok hr
    exact hc.put_quiet ⟨rfl, rfl, rfl, rfl, rfl⟩ (by simp [hu])
  | @unref u n b hu =>
    have hput := hc.put_quiet (u := u) (b := b) (p := .idle)
      (x := { s.cache.buf b with refcnt := (s.cache.buf b).refcnt - 1 }) ⟨rfl, rfl, rfl, rfl, rfl⟩ (by simp [hu])
    have hbuf : ∀ b', (({ s with cache := s.cache.unref b }.goto u .idle).cache.buf b') = (s.put b
        { s.cache.buf b with refcnt := (s.cache.buf b).refcnt - 1 } u .idle).cache.buf b' := unref_buf s.cache b
    refine hput.congr (fun b' => ?_) (unref_rest s.cache b).1 (unref_rest s.cache b).2 rfl fun v => .inl rfl
    rw [hbuf]
    exact ⟨rfl, rfl, rfl, rfl, rfl⟩
  | @intr c hi =>
    rcases ideintr_eq_ok hi with rfl | ⟨b, q, hq, ⟨hd, rfl⟩ | ⟨hd, rfl⟩⟩
    · exact hc
    · obtain ⟨u, hu⟩ := hc.holder (hq ▸ mem_cons_self)
      have hroot := (h.root hu)
      refine hc.transfer h hq (setBuf_buf s.cache b _) ⟨rfl, ?_⟩ rfl fun m => .inr ⟨rfl, fun hd' => ?_⟩
      · show s.cache.disk (s.cache.buf b).dev (s.cache.buf b).blockno = s.written (s.cache.buf b).blockno
        rw [hroot]
        refine hc.disk _ fun b1 hb1 hn1 => ?_
        rw [h.unique b1 b hb1 hroot hn1, hd]
      · rw [hd] at hd'
        cases hd'
    · obtain ⟨u, n, ⟨-, hv⟩ | ⟨hu, -⟩⟩ := hc.queue b (hq ▸ mem_cons_self)
      · rw [hc.flags b hd] at hv
        cases hv
      -- the caller that waits for the transfer has the lock, so nobody has changed the data since `bwrite`
      · have hl : (s.pc u).holds = some b := by rw [hu]; rfl
        have hroot := h.root hl
        have hdata := hc.saved h hl (hc.flags b hd) hroot fun m => by rw [hu]; nofun
        refine hc.transfer h hq (setBuf_buf _ b _) ⟨rfl, hdata⟩ rfl fun m => ?_
        by_cases hm : (s.cache.buf b).blockno = m
        · refine .inl ?_
          show (s.cache.setDisk (s.cache.buf b).dev (s.cache.buf b).blockno (s.cache.buf b).data).disk rootDev m = _
          rw [hroot, ← hm, ← hdata]
          simp [setDisk]
        · refine .inr ⟨?_, fun _ => hm⟩
          show (s.cache.setDisk (s.cache.buf b).dev (s.cache.buf b).blockno (s.cache.buf b).data).disk rootDev m = _
          rw [hroot]
          simp [setDisk, update_of_ne (Ne.symm hm)]

end

/-! ### Every run -/

theorem shape_init (U : Type) (disk : ℕ → ℕ → Block) : (init U disk).Shape where
  ring := ring_binit U disk
  unique _ _ hb := absurd hb (by simp [init, binit, rootDev])
  refs _ := Ledger.total_eq_zero.mpr
    ⟨Set.eq_empty_of_forall_notMem fun _ => nofun, Multiset.notMem_zero _⟩
  ident := nofun
  lock _ _ := iff_of_false nofun nofun

theorem contents_init (U : Type) (disk : ℕ → ℕ → Block) : (init U disk).Contents where
  nodup := nodup_nil
  queue := nofun
  valid _ _ _ hu := by rcases hu with ⟨_, hu⟩ | hu <;> cases hu
  flags := nofun
  data _ hb := absurd hb (by simp [init, binit, rootDev])
  disk _ _ := rfl

/-- **Every reachable state has both.** -/
theorem Reachable.inv (h : s.Reachable disk) : s.Shape ∧ s.Contents := by
  induction h with
  | refl => exact ⟨shape_init U disk, contents_init U disk⟩
  | tail _ hs ih => exact ⟨ih.1.step ih.2 hs, ih.2.step ih.1 hs⟩

/-- **A step gives no buffer another block**, but for one that nobody uses and that is not dirty. -/
theorem Step.same_block (hr : s.cache.Ring) (hs : Step s s')
    (hb : 0 < (s.cache.buf b).refcnt ∨ (s.cache.buf b).dirty = true) :
    (s'.cache.buf b).dev = (s.cache.buf b).dev ∧ (s'.cache.buf b).blockno = (s.cache.buf b).blockno := by
  -- what a step writes to one buffer keeps the block
  have hset : ∀ (b' : Fin nbuf) (x : Buf U), (b' = b → x.dev = (s.cache.buf b).dev ∧ x.blockno = (s.cache.buf b).blockno) →
      ((s.cache.setBuf b' x).buf b).dev = (s.cache.buf b).dev ∧
        ((s.cache.setBuf b' x).buf b).blockno = (s.cache.buf b).blockno := by
    intro b' x hx
    rw [setBuf_buf]
    split
    · rename_i hbb
      exact hx hbb.symm
    · exact ⟨rfl, rfl⟩
  cases hs with
  | bget hu h =>
    rcases hr.bget_eq_ok h with ⟨-, -, rfl⟩ | ⟨-, h0, hd, rfl⟩
    · exact hset _ _ (by rintro rfl; exact ⟨rfl, rfl⟩)
    · refine hset _ _ ?_
      rintro rfl
      rcases hb with hb | hb
      · omega
      · rw [hd] at hb
        cases hb
  | acquire hu h =>
    obtain ⟨-, rfl⟩ := acquiresleep_eq_some h
    exact hset _ _ (by rintro rfl; exact ⟨rfl, rfl⟩)
  | hit | wake | done => exact ⟨rfl, rfl⟩
  | miss hu hv h =>
    obtain ⟨-, rfl⟩ := iderw_eq_ok h
    exact ⟨rfl, rfl⟩
  | change hu data => exact hset _ _ (by rintro rfl; exact ⟨rfl, rfl⟩)
  | bwrite hu h =>
    obtain ⟨-, rfl⟩ := bwrite_eq_ok h
    exact hset _ _ (by rintro rfl; exact ⟨rfl, rfl⟩)
  | logWrite hu => exact hset _ _ (by rintro rfl; exact ⟨rfl, rfl⟩)
  | brelse hu h =>
    obtain ⟨-, rfl⟩ := brelse_eq_ok h
    exact hset _ _ (by rintro rfl; exact ⟨rfl, rfl⟩)
  | @unref u n b' hu =>
    have hbuf := unref_buf s.cache b' b
    show ((s.cache.unref b').buf b).dev = _ ∧ ((s.cache.unref b').buf b).blockno = _
    rw [hbuf]
    exact hset _ _ (by rintro rfl; exact ⟨rfl, rfl⟩)
  | intr h =>
    rcases ideintr_eq_ok h with rfl | ⟨b', q, -, ⟨-, rfl⟩ | ⟨-, rfl⟩⟩
    · exact ⟨rfl, rfl⟩
    · exact hset _ _ (by rintro rfl; exact ⟨rfl, rfl⟩)
    · exact hset b' { s.cache.buf b' with valid := true, dirty := false } (by rintro rfl; exact ⟨rfl, rfl⟩)

/-- **The buffer cache is coherent**: in every reachable state a block of `ROOTDEV` has at most one buffer, the
list through the head has every buffer once in both directions, no step gives a buffer that is used or dirty
another block, and behind `bread` a caller has the lock of a buffer of its block, with the last data written to
it. -/
theorem Reachable.coherent (h : s.Reachable disk) :
    (∀ b b', (s.cache.buf b).dev = rootDev → (s.cache.buf b').dev = rootDev →
      (s.cache.buf b).blockno = (s.cache.buf b').blockno → b = b') ∧
    s.cache.Ring ∧
    (∀ s' b, Step s s' → 0 < (s.cache.buf b).refcnt ∨ (s.cache.buf b).dirty = true →
      (s'.cache.buf b).dev = (s.cache.buf b).dev ∧ (s'.cache.buf b).blockno = (s.cache.buf b).blockno) ∧
    ∀ u n b, s.pc u = .inUse n b true → (s.cache.buf b).lock = some u ∧ (s.cache.buf b).dev = rootDev ∧
      (s.cache.buf b).blockno = n ∧ (s.cache.buf b).valid = true ∧ (s.cache.buf b).data = s.written n := by
  obtain ⟨hshape, hcontents⟩ := h.inv
  refine ⟨hshape.unique, hshape.ring, fun s' b hs hb => hs.same_block hshape.ring hb, fun u n b hu => ?_⟩
  obtain ⟨hdev, hno⟩ := hshape.ident u n b (by rw [hu]; rfl)
  have hlock := (hshape.lock u b).mpr (by rw [hu]; rfl)
  have hvalid := hcontents.valid u n b (.inl ⟨true, hu⟩)
  refine ⟨hlock, hdev, hno, hvalid, ?_⟩
  rw [hcontents.data b hdev hvalid fun v m hv => ?_, hno]
  -- only the holder of the lock could have changed the data
  obtain rfl := hshape.caller (u := u) (v := v) (b := b) (by rw [hu]; rfl) (by rw [hv]; rfl)
  rw [hu] at hv
  cases hv

/-! ## What the calls of a reachable state return -/

omit [DecidableEq U] in
/-- **`bget` in a fresh cache** finds no buffer of the block and recycles one. -/
theorem bget_binit (disk : ℕ → ℕ → Block) (n : ℕ) : ∃ b, (binit U disk).bget rootDev n = .ok (b,
    (binit U disk).setBuf b ⟨false, false, rootDev, n, none, 1, fun _ => 0⟩) := by
  have hr := ring_binit U disk
  have hmiss : (binit U disk).scan (binit U disk).links.next (fun x => x.dev == rootDev && x.blockno == n)
      = some none := by
    rcases hr.scan_cases (.inl rfl) (fun x => x.dev == rootDev && x.blockno == n) with ⟨b, hs, -⟩ | ⟨-, heq⟩
    · simp [binit, rootDev] at hs
    · exact heq
  rcases hr.scan_cases (.inr rfl) (fun x => x.refcnt == 0 && !x.dirty) with ⟨b, -, heq⟩ | ⟨hno, -⟩
  · refine ⟨b, ?_⟩
    unfold bget
    rw [hmiss]
    simp only
    rw [heq]
    rfl
  · have := hno ⟨0, by decide⟩
    simp [binit] at this

omit [DecidableEq U] in
/-- The transfer of the only buffer of the queue ends. -/
theorem ideintr_single {c : Bcache U} (hq : c.idequeue = [b]) :
    ∃ c', c.ideintr = .ok c' ∧ (c'.buf b).synced = true := by
  unfold ideintr
  rw [hq]
  refine ⟨_, rfl, ?_⟩
  show ((setBuf _ b _).buf b).synced = true
  rw [setBuf_self]
  rfl

/-- A caller has the lock of a buffer that is still to be read. -/
theorem exists_locked (disk : ℕ → ℕ → Block) (u : U) (n : ℕ) : ∃ (s : System U) (b : Fin nbuf),
    s.Reachable disk ∧ s.pc u = .locked n b ∧ s.cache.idequeue = [] ∧ s.written = disk rootDev ∧
      s.cache.buf b = ⟨false, false, rootDev, n, some u, 1, fun _ => 0⟩ := by
  obtain ⟨b, hb⟩ := bget_binit (U := U) disk n
  let x : Buf U := ⟨false, false, rootDev, n, none, 1, fun _ => 0⟩
  let s1 : System U := (init U disk).put b x u (.asleep n b)
  have h1 : s1.Reachable disk := .single (.bget rfl hb)
  have hbuf1 : s1.cache.buf b = x := (put_buf ..).trans (if_pos rfl)
  have hpc1 : s1.pc u = .asleep n b := (put_pc ..).trans (if_pos rfl)
  have hacq : s1.cache.acquiresleep u b = some (s1.cache.setBuf b { x with lock := some u }) := by
    rw [acquiresleep, hbuf1]
    rfl
  exact ⟨s1.put b { x with lock := some u } u (.locked n b), b, h1.tail (.acquire hpc1 hacq),
    (put_pc ..).trans (if_pos rfl), rfl, rfl, (put_buf ..).trans (if_pos rfl)⟩

/-- **A block of the disk can be read.** -/
theorem exists_bread (disk : ℕ → ℕ → Block) (u : U) (hn : n < fsSize) :
    ∃ (s : System U) (b : Fin nbuf), s.Reachable disk ∧ s.pc u = .inUse n b true ∧ s.written = disk rootDev := by
  obtain ⟨s, b, h, hpc, hq, hw, hbuf⟩ := exists_locked disk u n
  have hrw : s.cache.iderw u b = .ok { s.cache with idequeue := [b] } := by
    simp [iderw, holdingsleep, idestart, Buf.synced, hbuf, hq, Nat.not_le.mpr hn, ok_bind]
  have hmiss := h.tail (.miss hpc (by rw [hbuf]) hrw)
  obtain ⟨c, hc, hsync⟩ := ideintr_single (c := { s.cache with idequeue := [b] }) rfl
  have hintr := hmiss.tail (.intr hc)
  have hpc' : ({ { s with cache := c }.goto u (.reading n b) with cache := c }).pc u = .reading n b := by
    rw [goto_pc, if_pos rfl]
  exact ⟨_, b, hintr.tail (.wake hpc' hsync), by rw [goto_pc, if_pos rfl], hw⟩

/-- The first caller reads block 5 of a disk whose blocks hold their numbers. -/
theorem coherent_first_read : ∃ (s : System Unit) (b : Fin nbuf), s.Reachable (fun _ n _ => n.toUInt8) ∧
    s.pc () = .inUse 5 b true ∧ (s.cache.buf b).data = fun _ => 5 := by
  obtain ⟨s, b, h, hpc, hw⟩ := exists_bread (fun _ n _ => n.toUInt8) () (n := 5) (by decide)
  refine ⟨s, b, h, hpc, ?_⟩
  obtain ⟨-, -, -, -, hdata⟩ := (Reachable.coherent h).2.2.2 () 5 b hpc
  rw [hdata, hw]
  rfl

end System

end Bcache

end Xv6
