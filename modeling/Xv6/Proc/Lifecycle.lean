import Xv6.Proc.Table

/-!
# Proc/Lifecycle — what holds of the process table in every run

The invariants come in two parts: `Tree` says who is whose parent, with the entries `fork` is still
building, and `Records` ties the entries to the numbers given out and to the history.  Most steps only move
a process between the three live states (`Alike`).  From the two parts: every process has a parent that can
wait for it, pids are distinct, and who exits is returned once.

`killed` is another matter: it stays in an entry that nobody uses, and `kill` matches pids there too.
-/

namespace Xv6

open Outcome Function List

/-- The process is there and has not exited. -/
def ProcState.live : ProcState → Bool
  | .sleeping | .runnable | .running => true
  | _ => false

namespace PTable

variable {t t' : PTable} {c i : Fin nProc}

/-! ## The invariants -/

/-- The parents. -/
structure Tree (t : PTable) : Prop where
  init : (t.proc t.initproc).state.live
  unused : ∀ i, (t.proc i).state = .unused → (t.proc i).parent = none
  parent : ∀ i, i ≠ t.initproc → (t.proc i).state.live ∨ (t.proc i).state = .zombie →
    ∃ j, (t.proc i).parent = some j ∧ (t.proc j).state.live
  embryo : ∀ i, (t.proc i).state = .embryo → ∃ c b, t.building c = some (i, b)
  building : ∀ c i b, t.building c = some (i, b) → (t.proc i).state = .embryo ∧ (t.proc c).state.live ∧
    (t.proc i).parent = if b then some c else none
  builder : ∀ c c' i b b', t.building c = some (i, b) → t.building c' = some (i, b') → c = c'

/-- The numbers and the history. -/
structure Records (t : PTable) : Prop where
  lt : ∀ i, (t.proc i).state ≠ .unused → (t.proc i).born < t.nextpid
  pid : ∀ i, (t.proc i).state ≠ .unused → (t.proc i).pid = pidOf (t.proc i).born
  inj : ∀ i j, (t.proc i).state ≠ .unused → (t.proc j).state ≠ .unused →
    (t.proc i).born = (t.proc j).born → i = j
  exitedLt : ∀ b ∈ t.exited, b < t.nextpid
  nodup : t.waited.Nodup
  subset : ∀ b ∈ t.waited, b ∈ t.exited
  zombie : ∀ i, (t.proc i).state ≠ .unused →
    ((t.proc i).born ∈ t.exited ↔ (t.proc i).state = .zombie)
  pending : ∀ b ∈ t.exited, b ∉ t.waited → ∃ i, (t.proc i).state = .zombie ∧ (t.proc i).born = b
  fresh : ∀ i, (t.proc i).state ≠ .unused → (t.proc i).born ∉ t.waited

/-- Two tables in which the same processes live, and have died. -/
structure Alike (t t' : PTable) : Prop where
  nextpid : t'.nextpid = t.nextpid
  initproc : t'.initproc = t.initproc
  building : t'.building = t.building
  exited : t'.exited = t.exited
  waited : t'.waited = t.waited
  parent : ∀ i, (t'.proc i).parent = (t.proc i).parent
  born : ∀ i, (t'.proc i).born = (t.proc i).born
  pid : ∀ i, (t'.proc i).pid = (t.proc i).pid
  state : ∀ i, (t'.proc i).state = (t.proc i).state ∨
    (t'.proc i).state.live ∧ (t.proc i).state.live

namespace Alike

theorem refl (t : PTable) : Alike t t :=
  ⟨rfl, rfl, rfl, rfl, rfl, fun _ => rfl, fun _ => rfl, fun _ => rfl, fun _ => .inl rfl⟩

theorem live (h : Alike t t') (i : Fin nProc) : (t'.proc i).state.live = (t.proc i).state.live := by
  rcases h.state i with e | ⟨e1, e2⟩
  · rw [e]
  · rw [e1, e2]

theorem eq_iff (h : Alike t t') {s : ProcState} (hs : s.live = false) (i : Fin nProc) :
    (t'.proc i).state = s ↔ (t.proc i).state = s := by
  rcases h.state i with e | ⟨e1, e2⟩
  · rw [e]
  · constructor
    · intro e
      rw [e, hs] at e1
      cases e1
    · intro e
      rw [e, hs] at e2
      cases e2

theorem tree (h : Alike t t') (ht : t.Tree) : t'.Tree where
  init := by rw [h.initproc, h.live]; exact ht.init
  unused i hi := by rw [h.parent]; exact ht.unused i ((h.eq_iff rfl i).1 hi)
  parent i hi hs := by
    rw [h.initproc] at hi
    rw [h.live, h.eq_iff rfl] at hs
    obtain ⟨j, hj, hl⟩ := ht.parent i hi hs
    exact ⟨j, (h.parent i).trans hj, (h.live j).trans hl⟩
  embryo i hi := by rw [h.building]; exact ht.embryo i ((h.eq_iff rfl i).1 hi)
  building c i b hb := by
    rw [h.building] at hb
    rw [h.eq_iff rfl, h.live, h.parent]
    exact ht.building c i b hb
  builder := by rw [h.building]; exact ht.builder

theorem records (h : Alike t t') (ht : t.Records) : t'.Records := by
  have hu : ∀ i, (t'.proc i).state ≠ .unused ↔ (t.proc i).state ≠ .unused := fun i =>
    not_congr (h.eq_iff rfl i)
  have hz : ∀ i, (t'.proc i).state = .zombie ↔ (t.proc i).state = .zombie := h.eq_iff rfl
  constructor <;> simp only [h.nextpid, h.exited, h.waited, h.born, h.pid, hu, hz]
  exacts [ht.lt, ht.pid, ht.inj, ht.exitedLt, ht.nodup, ht.subset, ht.zombie, ht.pending, ht.fresh]

/-- A live entry that stays one. -/
theorem set {e : ProcEntry} (hl : (t.proc i).state.live) (he : e.state.live)
    (hp : e.parent = (t.proc i).parent) (hb : e.born = (t.proc i).born) (hn : e.pid = (t.proc i).pid) :
    Alike t (t.set i e) where
  nextpid := rfl
  initproc := rfl
  building := rfl
  exited := rfl
  waited := rfl
  parent j := by simp only [PTable.set, update_apply]; split <;> simp_all
  born j := by simp only [PTable.set, update_apply]; split <;> simp_all
  pid j := by simp only [PTable.set, update_apply]; split <;> simp_all
  state j := by simp only [PTable.set, update_apply]; split <;> simp_all

theorem wakeup1 (t : PTable) (ch : Option Chan) : Alike t (t.wakeup1 ch) where
  nextpid := rfl
  initproc := rfl
  building := rfl
  exited := rfl
  waited := rfl
  parent j := by simp only [PTable.wakeup1]; split <;> rfl
  born j := by simp only [PTable.wakeup1]; split <;> rfl
  pid j := by simp only [PTable.wakeup1]; split <;> rfl
  state j := by
    simp only [PTable.wakeup1]
    split
    · rename_i h
      exact .inr ⟨rfl, by rw [h.1]; rfl⟩
    · exact .inl rfl

theorem kill (t : PTable) (n : ℤ) : Alike t (t.kill n) := by
  unfold PTable.kill
  split
  · exact refl t
  · rename_i i _
    refine ⟨rfl, rfl, rfl, rfl, rfl, fun j => ?_, fun j => ?_, fun j => ?_, fun j => ?_⟩ <;>
      simp only [PTable.set, update_apply] <;> split <;> simp_all
    by_cases h : (t.proc i).state = .sleeping
    · exact .inr ⟨by rw [if_pos h]; rfl, by rw [h]; rfl⟩
    · exact .inl h

end Alike

theorem Runs.live (h : t.Runs c) : (t.proc c).state.live := by
  rw [h.1]
  rfl

/-! ## The steps of `fork` -/

/-- `allocproc` takes an unused entry, if there is one. -/
theorem allocproc_cases (t : PTable) (c : Fin nProc) :
    (∀ i, (t.proc i).state ≠ .unused) ∧ t.allocproc c = t ∨
    ∃ i, (t.proc i).state = .unused ∧ t.allocproc c =
      { (t.set i { t.proc i with state := .embryo, pid := pidOf t.nextpid, born := t.nextpid }).build c
        (some (i, false)) with nextpid := t.nextpid + 1 } := by
  unfold allocproc
  split
  · rename_i h
    refine .inl ⟨fun i hi => ?_, rfl⟩
    have := List.find?_eq_none.1 h i (mem_finRange i)
    simp only [hi, decide_true, not_true_eq_false] at this
  · rename_i i h
    exact .inr ⟨i, by simpa using List.find?_some h, rfl⟩

/-- An entry that was no live process, or stays one, is written: parents stay live. -/
theorem Tree.parent_update (ht : t.Tree) {e : ProcEntry} (he : (t.proc i).state.live → e.state.live)
    {j : Fin nProc} (hj : j ≠ t.initproc) (hs : (t.proc j).state.live ∨ (t.proc j).state = .zombie) :
    ∃ k, (t.proc j).parent = some k ∧ (update t.proc i e k).state.live := by
  obtain ⟨k, hk, hl⟩ := ht.parent j hj hs
  refine ⟨k, hk, ?_⟩
  by_cases hki : k = i
  · rw [hki, update_self]
    exact he (hki ▸ hl)
  · rw [update_of_ne hki]
    exact hl

/-- An entry that was no zombie is written: those who wait to be returned are still there. -/
theorem Records.pending_update (ht : t.Records) {e : ProcEntry} (hi : (t.proc i).state ≠ .zombie) {b : ℕ}
    (hb : b ∈ t.exited) (hw : b ∉ t.waited) :
    ∃ j, (update t.proc i e j).state = .zombie ∧ (update t.proc i e j).born = b := by
  obtain ⟨j, hz, hj⟩ := ht.pending b hb hw
  have hji : j ≠ i := fun h => hi (h ▸ hz)
  exact ⟨j, by rw [update_of_ne hji]; exact hz, by rw [update_of_ne hji]; exact hj⟩

/-- **Process `c` writes an entry that is not live**: what it may have been building there, or an entry that
nobody builds. -/
theorem Tree.write (ht : t.Tree) {t' : PTable} {e : ProcEntry} {o : Option (Fin nProc × Bool)}
    (hproc : t'.proc = update t.proc i e) (hinit : t'.initproc = t.initproc)
    (hbuild : t'.building = update t.building c o) (hi : ¬ (t.proc i).state.live) (hc : (t.proc c).state.live)
    (hcb : ∀ j b, t.building c = some (j, b) → j = i) (hown : ∀ d b, t.building d = some (i, b) → d = c)
    (hu : e.state = .unused → e.parent = none) (hpar : e.state.live ∨ e.state = .zombie → e.parent = some c)
    (hemb : e.state = .embryo → ∃ b, o = some (i, b))
    (hb : ∀ j b, o = some (j, b) → j = i ∧ e.state = .embryo ∧ e.parent = if b then some c else none) : t'.Tree := by
  have hci : c ≠ i := fun h => hi (h ▸ hc)
  constructor <;> simp only [hproc, hinit, hbuild]
  · have := ht.init
    grind [update_apply]
  · have := ht.unused
    grind [update_apply]
  · intro j hj hs
    by_cases hji : j = i
    · rw [hji, update_self] at hs ⊢
      exact ⟨c, hpar hs, by rwa [update_of_ne hci]⟩
    · rw [update_of_ne hji] at hs ⊢
      exact ht.parent_update (fun h => absurd h hi) hj hs
  · intro j hj
    by_cases hji : j = i
    · rw [hji, update_self] at hj
      obtain ⟨b, h⟩ := hemb hj
      exact ⟨c, b, by rw [hji, update_self, h]⟩
    · rw [update_of_ne hji] at hj
      obtain ⟨d, b, hd⟩ := ht.embryo j hj
      have hdc : d ≠ c := by
        rintro rfl
        exact hji (hcb j b hd)
      exact ⟨d, b, by rwa [update_of_ne hdc]⟩
  · have := ht.building
    grind [update_apply]
  · have := ht.builder
    grind [update_apply]

theorem Tree.allocproc (ht : t.Tree) (hc : t.Runs c) : (t.allocproc c).Tree := by
  rcases t.allocproc_cases c with ⟨-, e⟩ | ⟨i, hi, e⟩
  · rw [e]
    exact ht
  rw [e]
  refine ht.write (i := i) rfl rfl rfl (by rw [hi]; nofun) hc.live (by rw [hc.2]; nofun) (fun d b hd => ?_) nofun
    (fun h => by rcases h with h | h <;> cases h) (fun _ => ⟨false, rfl⟩) ?_
  · rw [(ht.building d i b hd).1] at hi
    cases hi
  · rintro j b ⟨⟩
    exact ⟨rfl, rfl, ht.unused i hi⟩

theorem Records.allocproc (ht : t.Records) (c : Fin nProc) : (t.allocproc c).Records := by
  rcases t.allocproc_cases c with ⟨-, e⟩ | ⟨i, hi, e⟩
  · rw [e]
    exact ht
  rw [e]
  have hpend := fun b hb hw => ht.pending_update (b := b)
    (e := { t.proc i with state := .embryo, pid := pidOf t.nextpid, born := t.nextpid })
    (by rw [hi]; nofun : (t.proc i).state ≠ .zombie) hb hw
  obtain ⟨h1, h2, h3, h4, h5, h6, h7, -, h9⟩ := ht
  constructor <;> simp only [PTable.set, PTable.build]
  case pending => exact hpend
  all_goals grind [update_apply]

/-- An entry keeps its number. -/
theorem Records.set (ht : t.Records) {e : ProcEntry} (hu : (t.proc i).state ≠ .unused)
    (hz : (t.proc i).state ≠ .zombie) (hz' : e.state ≠ .zombie) (hb : e.born = (t.proc i).born)
    (hn : e.pid = (t.proc i).pid) : (t.set i e).Records := by
  have hpend := fun b hb hw => ht.pending_update (b := b) (e := e) hz hb hw
  obtain ⟨h1, h2, h3, h4, h5, h6, h7, -, h9⟩ := ht
  constructor <;> simp only [PTable.set]
  case pending => exact hpend
  all_goals grind [update_apply]

/-- `fork` writes the entry that it builds. -/
theorem Records.built (ht : t.Records) (hT : t.Tree) {b : Bool} (hb : t.building c = some (i, b))
    {e : ProcEntry} (he : e.state ≠ .zombie) (hn : e.born = (t.proc i).born) (hp : e.pid = (t.proc i).pid)
    (b' : Option (Fin nProc × Bool)) : ((t.set i e).build c b').Records := by
  have hi := (hT.building c i b hb).1
  have h := ht.set (i := i) (by rw [hi]; nofun) (by rw [hi]; nofun) he hn hp
  exact ⟨h.lt, h.pid, h.inj, h.exitedLt, h.nodup, h.subset, h.zombie, h.pending, h.fresh⟩

/-- `fork` is over, one way or the other. -/
theorem Tree.built (ht : t.Tree) {b : Bool} (hb : t.building c = some (i, b)) {e : ProcEntry}
    (hp : e.parent = (t.proc i).parent)
    (he : b = false ∧ e.state = .unused ∨ b = true ∧ e.state.live) : ((t.set i e).build c none).Tree := by
  obtain ⟨hi, hc, hip⟩ := ht.building c i b hb
  rw [hip] at hp
  refine ht.write (i := i) rfl rfl rfl (by rw [hi]; nofun) hc (fun j b' hj => ?_)
    (fun d b' hd => ht.builder d c i b' b hd hb) ?_ ?_ ?_ nofun
  · rw [hb] at hj
    cases hj
    rfl
  all_goals
    rcases he with ⟨rfl, he⟩ | ⟨rfl, he⟩
    all_goals grind [ProcState.live]

theorem Tree.forkParent (ht : t.Tree) (c : Fin nProc) : (t.forkParent c).Tree := by
  unfold PTable.forkParent
  split
  · rename_i i hb
    obtain ⟨hi, hc, hip⟩ := ht.building c i false hb
    refine ht.write (i := i) rfl rfl rfl (by rw [hi]; nofun) hc (fun j b hj => ?_)
      (fun d b hd => ht.builder d c i b false hd hb) (fun h => ?_) (fun _ => rfl) (fun _ => ⟨true, rfl⟩) ?_
    · rw [hb] at hj
      cases hj
      rfl
    · exact absurd (hi.symm.trans h) nofun
    · rintro j b ⟨⟩
      exact ⟨rfl, hi, rfl⟩
  · exact ht

theorem Records.forkParent (ht : t.Records) (hT : t.Tree) (c : Fin nProc) :
    (t.forkParent c).Records := by
  unfold PTable.forkParent
  split
  · rename_i i hb
    refine ht.built hT hb ?_ ?_ ?_ _
    · rw [(hT.building c i false hb).1]
      nofun
    · rfl
    · rfl
  · exact ht

theorem Tree.forkEnd (ht : t.Tree) (c : Fin nProc) : (t.forkEnd c).Tree := by
  unfold PTable.forkEnd
  split
  · rename_i i hb
    exact ht.built hb rfl (.inr ⟨rfl, rfl⟩)
  · exact ht

theorem Records.forkEnd (ht : t.Records) (hT : t.Tree) (c : Fin nProc) : (t.forkEnd c).Records := by
  unfold PTable.forkEnd
  split
  · rename_i i hb
    refine ht.built hT hb ?_ ?_ ?_ _
    · nofun
    · rfl
    · rfl
  · exact ht

theorem Tree.forkFail (ht : t.Tree) (c : Fin nProc) : (t.forkFail c).Tree := by
  unfold PTable.forkFail
  split
  · rename_i i hb
    exact ht.built hb rfl (.inl ⟨rfl, rfl⟩)
  · exact ht

theorem Records.forkFail (ht : t.Records) (hT : t.Tree) (c : Fin nProc) :
    (t.forkFail c).Records := by
  unfold PTable.forkFail
  split
  · rename_i i hb
    refine ht.built hT hb ?_ ?_ ?_ _
    · nofun
    · rfl
    · rfl
  · exact ht

/-! ## `wait` -/

theorem zombieChild_spec (h : t.zombieChild c = some i) :
    (t.proc i).parent = some c ∧ (t.proc i).state = .zombie := by
  simpa using List.find?_some h

theorem wait_of_child (h : t.zombieChild c = some i) : t.wait c =
    { t.set i { t.proc i with pid := 0, parent := none, killed := false, state := .unused } with
      waited := (t.proc i).born :: t.waited } := by
  simp only [PTable.wait, h]

theorem alike_wait (hc : t.Runs c) (h : t.zombieChild c = none) : Alike t (t.wait c) := by
  simp only [PTable.wait, h]
  split
  · exact .refl t
  · exact .set hc.live rfl rfl rfl rfl

theorem Tree.wait (ht : t.Tree) (hc : t.Runs c) : (t.wait c).Tree := by
  cases h : t.zombieChild c with
  | none => exact (alike_wait hc h).tree ht
  | some i =>
    obtain ⟨hp, hz⟩ := zombieChild_spec h
    rw [wait_of_child h]
    refine ht.write (i := i) (c := c) (o := none) rfl rfl (by rw [← hc.2, update_eq_self]; rfl) (by rw [hz]; nofun) hc.live
      (by rw [hc.2]; nofun) (fun d b hd => ?_) (fun _ => rfl) (fun h => by rcases h with h | h <;> cases h) nofun nofun
    rw [(ht.building d i b hd).1] at hz
    cases hz

theorem Records.wait (ht : t.Records) (hc : t.Runs c) : (t.wait c).Records := by
  cases h : t.zombieChild c with
  | none => exact (alike_wait hc h).records ht
  | some i =>
    obtain ⟨hp, hz⟩ := zombieChild_spec h
    have hu : (t.proc i).state ≠ .unused := by
      rw [hz]
      nofun
    have hx := (ht.zombie i hu).2 hz
    rw [wait_of_child h]
    constructor <;> simp only [PTable.set]
    case pending =>
      intro b hb hw
      obtain ⟨j, hj, rfl⟩ := ht.pending b hb (fun h => hw (mem_cons_of_mem _ h))
      have hji : j ≠ i := by
        rintro rfl
        exact hw (mem_cons_self ..)
      exact ⟨j, by rw [update_of_ne hji]; exact hj, by rw [update_of_ne hji]⟩
    all_goals obtain ⟨h1, h2, h3, h4, h5, h6, h7, -, h9⟩ := ht
    all_goals grind [update_apply]

/-! ## `exit` -/

/-- What `exit` writes: the children go to init, and the process is a zombie. -/
structure Exits (t : PTable) (c : Fin nProc) (t' : PTable) : Prop where
  ne : c ≠ t.initproc
  nextpid : t'.nextpid = t.nextpid
  initproc : t'.initproc = t.initproc
  building : t'.building = t.building
  exited : t'.exited = (t.proc c).born :: t.exited
  waited : t'.waited = t.waited
  blamed : t'.blamed = t.blamed
  parent : ∀ i, (t'.proc i).parent =
    if (t.proc i).parent = some c then some t.initproc else (t.proc i).parent
  born : ∀ i, (t'.proc i).born = (t.proc i).born
  pid : ∀ i, (t'.proc i).pid = (t.proc i).pid
  killed : ∀ i, (t'.proc i).killed = (t.proc i).killed
  zombie : (t'.proc c).state = .zombie
  state : ∀ i ≠ c, (t'.proc i).state = (t.proc i).state ∨
    (t'.proc i).state.live ∧ (t.proc i).state.live

/-- The loop that passes the children on changes nothing but parents, and wakes init. -/
theorem abandon_spec (t : PTable) (c : Fin nProc) : Alike
    { t with proc := fun i =>
      if (t.proc i).parent = some c then { t.proc i with parent := some t.initproc } else t.proc i }
    (t.abandon c) := by
  unfold PTable.abandon
  split
  · exact .wakeup1 _ _
  · exact .refl _

theorem killed_wakeup1 (t : PTable) (ch : Option Chan) (i : Fin nProc) :
    ((t.wakeup1 ch).proc i).killed = (t.proc i).killed := by
  simp only [PTable.wakeup1]
  split <;> rfl

theorem killed_abandon (t : PTable) (c i : Fin nProc) :
    ((t.abandon c).proc i).killed = (t.proc i).killed ∧ (t.abandon c).blamed = t.blamed := by
  unfold PTable.abandon
  dsimp only
  split
  · refine ⟨?_, rfl⟩
    rw [killed_wakeup1]
    dsimp only
    split <;> rfl
  · refine ⟨?_, rfl⟩
    dsimp only
    split <;> rfl

theorem exits (h : t.exit c = .ok t') : t.Exits c t' := by
  unfold PTable.exit at h
  split at h
  · cases h
  rename_i hc
  cases h
  have h1 := Alike.wakeup1 t ((t.proc c).parent.map .proc)
  have h2 := abandon_spec (t.wakeup1 ((t.proc c).parent.map .proc)) c
  have h3 := killed_wakeup1 t ((t.proc c).parent.map .proc)
  have h4 : (t.wakeup1 ((t.proc c).parent.map .proc)).blamed = t.blamed := rfl
  generalize t.wakeup1 ((t.proc c).parent.map .proc) = u at h1 h2 h3 h4
  refine ⟨hc, h2.nextpid.trans h1.nextpid, h2.initproc.trans h1.initproc, h2.building.trans h1.building,
    rfl, h2.waited.trans h1.waited, (killed_abandon u c c).2.trans h4, fun i => ?_, fun i => ?_, fun i => ?_,
    fun i => ?_, ?_, fun i hi => ?_⟩ <;> simp only [PTable.set]
  · have := h2.parent i
    grind [update_apply, h1.parent i, h1.initproc]
  · have := h2.born i
    grind [update_apply, h1.born i]
  · have := h2.pid i
    grind [update_apply, h1.pid i]
  · have := (killed_abandon u c i).1
    grind [update_apply]
  · rw [update_self]
  · have := h2.state i
    have := h1.state i
    rw [update_of_ne hi]
    grind

theorem Tree.exit (ht : t.Tree) (hc : t.Runs c) (h : PTable.exit t c = .ok t') : t'.Tree := by
  have e := exits h
  have hl : ∀ i, i ≠ c → (t'.proc i).state.live = (t.proc i).state.live := by
    intro i hi
    rcases e.state i hi with h | ⟨h1, h2⟩
    · rw [h]
    · rw [h1, h2]
  have hs : ∀ i s, s.live = false → s ≠ .zombie → ((t'.proc i).state = s ↔ (t.proc i).state = s) := by
    intro i s hs hz
    by_cases hi : i = c
    · rw [hi, e.zombie, hc.1]
      exact ⟨fun h => absurd h.symm hz, fun h => by rw [← h] at hs; cases hs⟩
    · have := e.state i hi
      grind
  have hlc := hc.live
  have hbc := hc.2
  constructor
  · rw [e.initproc, hl _ e.ne.symm]
    exact ht.init
  · intro i hi
    have := ht.unused i ((hs i _ rfl (by decide)).1 hi)
    rw [e.parent, this]
    rfl
  · intro i hi hz
    rw [e.initproc] at hi
    have hz' : (t.proc i).state.live ∨ (t.proc i).state = .zombie := by
      by_cases hic : i = c
      · exact .inl (hic ▸ hlc)
      · have := e.state i hic
        grind
    obtain ⟨j, hj, hjl⟩ := ht.parent i hi hz'
    rw [e.parent, hj]
    by_cases hjc : j = c
    · exact ⟨t.initproc, by rw [if_pos (by rw [hjc])], by rw [hl _ e.ne.symm]; exact ht.init⟩
    · exact ⟨j, if_neg (fun h => hjc (Option.some.inj h)), by rw [hl _ hjc]; exact hjl⟩
  · intro i hi
    rw [e.building]
    exact ht.embryo i ((hs i _ rfl (by decide)).1 hi)
  · intro d i b hb
    rw [e.building] at hb
    obtain ⟨hi, hd, hp⟩ := ht.building d i b hb
    have hdc : d ≠ c := by
      rintro rfl
      rw [hbc] at hb
      cases hb
    refine ⟨(hs i _ rfl (by decide)).2 hi, by rw [hl d hdc]; exact hd, ?_⟩
    rw [e.parent, hp]
    cases b
    · rfl
    · exact if_neg (fun h => hdc (Option.some.inj h))
  · rw [e.building]
    exact ht.builder

theorem Records.exit (ht : t.Records) (hc : t.Runs c) (h : PTable.exit t c = .ok t') : t'.Records := by
  have e := exits h
  have hu : ∀ i, (t'.proc i).state ≠ .unused ↔ (t.proc i).state ≠ .unused := by
    intro i
    by_cases hi : i = c
    · rw [hi, e.zombie, hc.1]
      simp
    · have := e.state i hi
      grind [ProcState.live]
  have hz : ∀ i, (t'.proc i).state = .zombie ↔ (t.proc i).state = .zombie ∨ i = c := by
    intro i
    by_cases hi : i = c
    · rw [hi]
      exact ⟨fun _ => .inr rfl, fun _ => e.zombie⟩
    · have := e.state i hi
      grind [ProcState.live]
  have huc : (t.proc c).state ≠ .unused := by
    rw [hc.1]
    nofun
  have hx : (t.proc c).born ∉ t.exited := fun h => by
    have := (ht.zombie c huc).1 h
    rw [hc.1] at this
    cases this
  constructor <;> simp only [e.nextpid, e.exited, e.waited, e.born, e.pid, hu, hz]
  case pending =>
    intro b hb hw
    rcases mem_cons.1 hb with rfl | hb
    · exact ⟨c, .inr rfl, rfl⟩
    · obtain ⟨i, hi, hib⟩ := ht.pending b hb hw
      exact ⟨i, .inl hi, hib⟩
  all_goals obtain ⟨h1, h2, h3, h4, h5, h6, h7, -, h9⟩ := ht
  all_goals grind

/-! ## Every step -/

/-- A step that only moves a process between live states, or is not enabled. -/
theorem alike_ite {p : Prop} [Decidable p] {u : PTable} (h : p → Alike t u) :
    Alike t (if p then u else t) := by
  split
  · exact h ‹_›
  · exact .refl t

/-- **One step keeps the parents and the records.** -/
theorem step (e : ProcEvent) (ht : t.Tree) (hr : t.Records) (h : e.run t = .ok t') :
    t'.Tree ∧ t'.Records := by
  have alike : ∀ {u}, Alike t u → u.Tree ∧ u.Records := fun h => ⟨h.tree ht, h.records hr⟩
  cases e <;> simp only [ProcEvent.run, Except.ok.injEq] at h
  case exit c =>
    split at h
    · exact ⟨ht.exit ‹_› h, hr.exit ‹_› h⟩
    · cases h
      exact ⟨ht, hr⟩
  all_goals subst h
  case kill n => exact alike (.kill t n)
  case wakeup n => exact alike (.wakeup1 t _)
  case trap c =>
    refine alike (alike_ite fun hc => ?_)
    have h := Alike.set (e := { t.proc c with killed := true }) hc.live hc.live rfl rfl rfl
    exact ⟨h.nextpid, h.initproc, h.building, h.exited, h.waited, h.parent, h.born, h.pid, h.state⟩
  case schedule i => exact alike (alike_ite fun hi => .set (by rw [hi]; rfl) rfl rfl rfl rfl)
  case yield i => exact alike (alike_ite fun hi => .set (by rw [hi]; rfl) rfl rfl rfl rfl)
  case sleep i n => exact alike (alike_ite fun hi => .set (by rw [hi]; rfl) rfl rfl rfl rfl)
  all_goals split
  case allocproc.isTrue hc => exact ⟨ht.allocproc hc, hr.allocproc _⟩
  case forkFail.isTrue => exact ⟨ht.forkFail _, hr.forkFail ht _⟩
  case forkParent.isTrue => exact ⟨ht.forkParent _, hr.forkParent ht _⟩
  case forkEnd.isTrue => exact ⟨ht.forkEnd _, hr.forkEnd ht _⟩
  case wait.isTrue hc => exact ⟨ht.wait hc, hr.wait hc⟩
  all_goals exact ⟨ht, hr⟩

theorem tree_boot : boot.Tree where
  init := rfl
  unused i _ := by
    simp only [boot]
    split <;> rfl
  parent i hi hs := by
    simp only [boot] at hi hs
    rw [if_neg hi] at hs
    rcases hs with hs | hs <;> cases hs
  embryo i hi := by
    simp only [boot] at hi
    split at hi <;> cases hi
  building := nofun
  builder := nofun

theorem pidOf_of_lt {n : ℕ} (h : n < 2 ^ 31) : pidOf n = n := by
  unfold pidOf
  rw [Int.bmod_eq_of_le] <;> omega

theorem records_boot : boot.Records := by
  have := pidOf_of_lt (n := 1) (by decide)
  constructor <;> simp only [boot] <;> grind

/-- **Every run keeps them.** -/
theorem run {es : List ProcEvent} (h : loop ProcEvent.run es boot = .ok t) : t.Tree ∧ t.Records :=
  loop_inv (P := fun t => t.Tree ∧ t.Records) (fun e _ _ _ ht h => step e ht.1 ht.2 h)
    ⟨tree_boot, records_boot⟩ h

/-! ## The life of a process -/

/-- Every process has a parent to wait for it, pids are distinct, and who has exited is waited for once. -/
structure Lifecycle (t : PTable) : Prop where
  parent : ∀ i, i ≠ t.initproc →
    (t.proc i).state ∈ [.sleeping, .runnable, .running, .zombie] →
    ∃ j, (t.proc i).parent = some j ∧ (t.proc j).state ≠ .unused ∧ (t.proc j).state ≠ .zombie
  pids : t.nextpid ≤ 2 ^ 31 → ∀ i j, (t.proc i).state ≠ .unused → (t.proc j).state ≠ .unused →
    (t.proc i).pid = (t.proc j).pid → i = j
  exited : ∀ b ∈ t.exited, t.waited.count b = 1 ∨ t.waited.count b = 0 ∧
    ∃ i, (t.proc i).state = .zombie ∧ (t.proc i).born = b
  waited : ∀ b ∈ t.waited, b ∈ t.exited

theorem Tree.lifecycle (ht : t.Tree) (hr : t.Records) : t.Lifecycle where
  parent i hi hs := by
    have hs : (t.proc i).state.live ∨ (t.proc i).state = .zombie := by
      generalize (t.proc i).state = s at hs
      cases s <;> simp [ProcState.live] at hs ⊢
    obtain ⟨j, hj, hl⟩ := ht.parent i hi hs
    refine ⟨j, hj, fun h => ?_, fun h => ?_⟩ <;>
      rw [h] at hl <;> cases hl
  pids hn i j hi hj h := by
    rw [hr.pid i hi, hr.pid j hj, pidOf_of_lt (by have := hr.lt i hi; omega),
      pidOf_of_lt (by have := hr.lt j hj; omega)] at h
    exact hr.inj i j hi hj (by exact_mod_cast h)
  exited b hb := by
    by_cases hw : b ∈ t.waited
    · exact .inl (count_eq_one_of_mem hr.nodup hw)
    · exact .inr ⟨count_eq_zero.2 hw, hr.pending b hb hw⟩
  waited := hr.subset

/-- The step is a `wait` that returns the pid of a zombie, called by the zombie's parent. -/
def Returned (e : ProcEvent) (t t' : PTable) : Prop :=
  ∃ c i, e = .wait c ∧ t.Runs c ∧ (t.proc i).state = .zombie ∧ (t.proc i).parent = some c ∧
    t.waitReply c = some (t.proc i).pid ∧ (t.proc i).pid = pidOf (t.proc i).born ∧
    t'.waited = (t.proc i).born :: t.waited

/-- Only such a step makes the history of returned processes longer. -/
theorem returned_of_step (e : ProcEvent) (hr : t.Records) (h : e.run t = .ok t') :
    t'.waited = t.waited ∨ Returned e t t' := by
  cases e <;> simp only [ProcEvent.run, Except.ok.injEq] at h
  case exit c =>
    split at h
    · exact .inl (exits h).waited
    · cases h
      exact .inl rfl
  all_goals subst h
  case kill n => exact .inl (Alike.kill t n).waited
  case wakeup n => exact .inl rfl
  all_goals split
  case wait.isTrue c hc =>
    cases h : t.zombieChild c with
    | none => exact .inl (alike_wait hc h).waited
    | some i =>
      obtain ⟨hp, hz⟩ := zombieChild_spec h
      refine .inr ⟨c, i, rfl, hc, hz, hp, ?_, hr.pid i (by rw [hz]; nofun), ?_⟩
      · simp only [waitReply, h]
      · rw [wait_of_child h]
  case allocproc.isTrue c hc =>
    rcases t.allocproc_cases c with ⟨-, e⟩ | ⟨i, -, e⟩ <;> rw [e] <;> exact .inl rfl
  case forkFail.isTrue => unfold PTable.forkFail; split <;> exact .inl rfl
  case forkParent.isTrue => unfold PTable.forkParent; split <;> exact .inl rfl
  case forkEnd.isTrue => unfold PTable.forkEnd; split <;> exact .inl rfl
  all_goals exact .inl rfl

end PTable

/-- **The life of a process**, in every run: parents that are there, distinct pids, and every process that
exits is returned by one `wait` of its parent. -/
theorem process_lifecycle (es : List ProcEvent) (t : PTable)
    (h : loop ProcEvent.run es PTable.boot = .ok t) :
    t.Lifecycle ∧ ∀ e t', e.run t = .ok t' → t'.waited = t.waited ∨ PTable.Returned e t t' := by
  obtain ⟨ht, hr⟩ := PTable.run h
  exact ⟨ht.lifecycle hr, fun e _ he => PTable.returned_of_step e hr he⟩

/-- The first process forks, the child exits, and `wait` returns it. -/
theorem process_lifecycle_fork : ∃ t, loop ProcEvent.run
    [.schedule 0, .allocproc 0, .forkParent 0, .forkEnd 0, .schedule 1, .exit 1, .wait 0]
    PTable.boot = .ok t ∧ t.waited = [2] ∧ t.Lifecycle := by
  have h : Returns (loop ProcEvent.run
      [.schedule 0, .allocproc 0, .forkParent 0, .forkEnd 0, .schedule 1, .exit 1, .wait 0]
      PTable.boot) fun t => t.waited = [2] := by decide +kernel
  obtain ⟨t, ht, hw⟩ := h
  exact ⟨t, ht, hw, (process_lifecycle _ t ht).1⟩

/-! ## `killed` -/

namespace PTable

variable {t t' : PTable} {c i : Fin nProc}

/-- Whoever is killed was killed by its pid, or trapped. -/
def Blamed (t : PTable) : Prop :=
  ∀ i, (t.proc i).state ≠ .unused → (t.proc i).killed → (t.proc i).born ∈ t.blamed

/-- No unused entry is marked. -/
def Clean (t : PTable) : Prop := ∀ i, (t.proc i).state = .unused → (t.proc i).killed = false

/-- The steps that would mark an unused entry, or leave one marked: a `kill` by a pid that an unused entry
still has, and a `fork` that fails after its child was killed. -/
def Aimed : ProcEvent → PTable → Prop
  | .kill n, t => ∀ i, (t.proc i).state = .unused → (t.proc i).pid ≠ n
  | .forkFail c, t => ∀ i, t.building c = some (i, false) → (t.proc i).killed = false
  | _, _ => True

instance : ∀ (e : ProcEvent) (t : PTable), Decidable (Aimed e t)
  | .kill n, t => inferInstanceAs (Decidable (∀ i, (t.proc i).state = .unused → (t.proc i).pid ≠ n))
  | .forkFail c, t =>
    inferInstanceAs (Decidable (∀ i, t.building c = some (i, false) → (t.proc i).killed = false))
  | .allocproc _, _ | .forkParent _, _ | .forkEnd _, _ | .exit _, _ | .wait _, _ | .trap _, _
  | .schedule _, _ | .yield _, _ | .sleep _ _, _ | .wakeup _, _ => .isTrue trivial

theorem killTarget_spec {n : ℤ} (h : t.killTarget n = some i) : (t.proc i).pid = n := by
  simpa using List.find?_some h

section

variable (hb : t.Blamed) (hc : t.Clean)

include hb hc

/-- One entry is written; what its mark says is so. -/
theorem blamed_update {e : ProcEntry}
    (hp : t'.proc = update t.proc i e) (hl : ∀ b ∈ t.blamed, b ∈ t'.blamed)
    (he : e.state ≠ .unused → e.killed → e.born ∈ t'.blamed) (hu : e.state = .unused → e.killed = false) :
    t'.Blamed ∧ t'.Clean := by
  constructor <;> intro j <;> rw [hp, update_apply] <;> split
  · exact he
  · exact fun hs hk => hl _ (hb j hs hk)
  · exact hu
  · exact hc j

/-- One entry is written, and keeps its number and its mark. -/
theorem blamed_set {s : ProcState} {p : Option (Fin nProc)} {ch : Option Chan}
    (hp : t'.proc = update t.proc i { t.proc i with state := s, parent := p, chan := ch })
    (hl : t'.blamed = t.blamed) (hi : (t.proc i).state ≠ .unused)
    (hs : s = .unused → (t.proc i).killed = false) : t'.Blamed ∧ t'.Clean :=
  blamed_update hb hc hp (fun _ h => hl ▸ h) (fun _ hk => hl ▸ hb i hi hk) hs

/-- The marks and the numbers are the old ones, and so is who is unused. -/
theorem blamed_frame (hl : t'.blamed = t.blamed)
    (hu : ∀ i, (t'.proc i).state = .unused ↔ (t.proc i).state = .unused)
    (hn : ∀ i, (t'.proc i).born = (t.proc i).born) (hk : ∀ i, (t'.proc i).killed = (t.proc i).killed) :
    t'.Blamed ∧ t'.Clean := by
  constructor <;> intro i
  · rw [Ne, hu, hk, hn, hl]
    exact hb i
  · rw [hu, hk]
    exact hc i

theorem blamed_kill {n : ℤ} (ha : Aimed (.kill n) t) :
    (t.kill n).Blamed ∧ (t.kill n).Clean := by
  unfold kill
  split
  · exact ⟨hb, hc⟩
  · rename_i i hi
    have hn := killTarget_spec hi
    have hu : (t.proc i).state ≠ .unused := fun h => ha i h hn
    refine blamed_update hb hc rfl (fun b hb => mem_append_right _ hb) (fun _ _ => ?_) fun h => ?_
    · refine mem_append_left _ (mem_map.2 ⟨i, ?_, rfl⟩)
      simp [mem_filter, hu, hn]
    · dsimp only at h
      split at h
      · cases h
      · exact absurd h hu

theorem blamed_exit (hr : t.Runs c) (h : t.exit c = .ok t') :
    t'.Blamed ∧ t'.Clean := by
  have e := exits h
  refine blamed_frame hb hc e.blamed (fun i => ?_) e.born e.killed
  by_cases hi : i = c
  · rw [hi, e.zombie, hr.1]
    exact ⟨nofun, nofun⟩
  · rcases e.state i hi with h | ⟨h1, h2⟩
    · rw [h]
    · constructor <;> intro h
      · rw [h] at h1
        cases h1
      · rw [h] at h2
        cases h2

theorem blamed_wait (hr : t.Runs c) : (t.wait c).Blamed ∧ (t.wait c).Clean := by
  have hu : (t.proc c).state ≠ .unused := by
    rw [hr.1]
    nofun
  unfold wait
  split
  · exact blamed_update hb hc rfl (fun _ h => h) (fun h => absurd rfl h) fun _ => rfl
  · split
    · exact ⟨hb, hc⟩
    · exact blamed_set hb hc rfl rfl hu nofun

end

theorem blamed_fork (ht : t.Tree) (hb : t.Blamed) (hc : t.Clean) (c : Fin nProc) :
    ((t.allocproc c).Blamed ∧ (t.allocproc c).Clean) ∧
    ((t.forkParent c).Blamed ∧ (t.forkParent c).Clean) ∧ (t.forkEnd c).Blamed ∧ (t.forkEnd c).Clean := by
  refine ⟨?_, ?_, ?_⟩
  · rcases t.allocproc_cases c with ⟨-, e⟩ | ⟨i, hi, e⟩ <;> rw [e]
    · exact ⟨hb, hc⟩
    · refine blamed_update hb hc rfl (fun _ h => h) (fun _ hk => ?_) nofun
      rw [hc i hi] at hk
      cases hk
  all_goals
    simp only [forkParent, forkEnd]
    split
    · rename_i i h
      have hi := (ht.building c i _ h).1
      exact blamed_set hb hc rfl rfl (by rw [hi]; nofun) (by simp [hi])
    · exact ⟨hb, hc⟩

/-- **One step**: where it aims at no unused entry, marks have their reason. -/
theorem blamed_step (e : ProcEvent) (ht : t.Tree) (hb : t.Blamed) (hc : t.Clean) (ha : Aimed e t)
    (h : e.run t = .ok t') : t'.Blamed ∧ t'.Clean := by
  cases e <;> simp only [ProcEvent.run, Except.ok.injEq] at h
  case exit c =>
    split at h
    · exact blamed_exit hb hc ‹_› h
    · cases h
      exact ⟨hb, hc⟩
  all_goals subst h
  case kill n => exact blamed_kill hb hc ha
  case wakeup n =>
    have h := Alike.wakeup1 t (some (.other n))
    exact blamed_frame hb hc rfl (h.eq_iff rfl) h.born (killed_wakeup1 t _)
  all_goals split
  case allocproc.isTrue => exact (blamed_fork ht hb hc _).1
  case forkParent.isTrue => exact (blamed_fork ht hb hc _).2.1
  case forkEnd.isTrue => exact (blamed_fork ht hb hc _).2.2
  case forkFail.isTrue c hr =>
    unfold forkFail
    split
    · rename_i i h
      have hi := (ht.building c i _ h).1
      exact blamed_set hb hc rfl rfl (by rw [hi]; nofun) fun _ => ha i h
    · exact ⟨hb, hc⟩
  case wait.isTrue hr => exact blamed_wait hb hc hr
  case trap.isTrue c hr =>
    refine blamed_update hb hc rfl (fun b hb => mem_cons_of_mem _ hb)
      (fun _ _ => mem_cons_self ..) fun h => ?_
    rw [hr.1] at h
    cases h
  case schedule.isTrue i hi => exact blamed_set hb hc rfl rfl (by rw [hi]; nofun) nofun
  case yield.isTrue i hi => exact blamed_set hb hc rfl rfl (by rw [hi]; nofun) nofun
  case sleep.isTrue i n hi => exact blamed_set hb hc rfl rfl (by rw [hi]; nofun) nofun
  all_goals exact ⟨hb, hc⟩

end PTable

/-- **Only a `kill` aimed at a process kills it**, in every run without a `kill` by the pid of an unused
entry and without a `fork` that fails after its child was killed. -/
theorem killed_by_aim (es : List ProcEvent) (t : PTable)
    (ha : Along ProcEvent.run PTable.Aimed es PTable.boot)
    (h : loop ProcEvent.run es PTable.boot = .ok t) :
    t.Blamed ∧ ∀ n, PTable.Aimed (.kill n) t → t.killReply n = 0 →
      ∃ i, (t.proc i).state ≠ .unused ∧ (t.proc i).pid = n := by
  have hinv := Along.inv (fun t : PTable => (t.Tree ∧ t.Records) ∧ t.Blamed ∧ t.Clean)
    (fun e _ _ hi ha hs =>
      ⟨PTable.step e hi.1.1 hi.1.2 hs, PTable.blamed_step e hi.1.1 hi.2.1 hi.2.2 ha hs⟩)
    es _ t ⟨⟨PTable.tree_boot, PTable.records_boot⟩, ?_⟩ ha h
  · refine ⟨hinv.2.1, fun n hn hr => ?_⟩
    unfold PTable.killReply at hr
    split at hr
    · rename_i hs
      obtain ⟨i, hi⟩ := Option.isSome_iff_exists.1 hs
      have hp := PTable.killTarget_spec hi
      exact ⟨i, fun hu => hn i hu hp, hp⟩
    · cases hr
  · constructor <;> intro i <;> simp only [PTable.boot] <;> split <;> simp

/-- The first process kills its child by its pid. -/
theorem killed_by_aim_child : ∃ t, loop ProcEvent.run
    [.schedule 0, .allocproc 0, .forkParent 0, .forkEnd 0, .kill 2] PTable.boot = .ok t ∧
    (t.proc 1).killed ∧ t.Blamed := by
  have h : Returns (loop ProcEvent.run
      [.schedule 0, .allocproc 0, .forkParent 0, .forkEnd 0, .kill 2] PTable.boot)
      fun t => (t.proc 1).killed := by decide +kernel
  obtain ⟨t, ht, hk⟩ := h
  exact ⟨t, ht, hk, (killed_by_aim _ t (by decide +kernel) ht).1⟩

/-- **`kill(0)` returns 0, and the next child is born killed.** -/
theorem child_born_killed :
    PTable.boot.killReply 0 = 0 ∧ (∀ i, (PTable.boot.proc i).state ≠ .unused → (PTable.boot.proc i).pid ≠ 0) ∧
    Returns (loop ProcEvent.run [.schedule 0, .kill 0, .allocproc 0, .forkParent 0, .forkEnd 0] PTable.boot)
      fun t => (t.proc 1).state = .runnable ∧ (t.proc 1).killed ∧ (t.proc 1).born ∉ t.blamed := by
  decide +kernel

end Xv6
