import Xv6.Ipc.Console

/-!
# Ipc/Discipline — runs of the console

What a step does to the line and to the processes that read (`Effects`), and what a run does: the characters
that reads take are the committed ones, in order and once, and the bytes a process takes are in its call until
that returns (`console_discipline`).  One thing is lost: what a process has taken before it is killed while it
waits for more (`Harmless`).
-/

namespace Xv6

open Function List

namespace Console

variable {s : Console} {l : Line}

/-- A process in a call has got what is not left of it. -/
def ReaderOk : Reader → Prop
  | .idle => True
  | .reading n target got => n + got.length = target ∧ ctrlD ∉ got

/-- **The console shows the line**, and the processes have got what they have taken. -/
structure Ok (s : Console) (l : Line) : Prop where
  shows : s.input.Shows l
  reader : ∀ pid, ReaderOk (s.reader pid)

/-- **What a step does**: it keeps the console, takes committed characters in order, and every byte that a
process takes is in its call until that returns or fails. -/
structure Effects (s : Console) (l : Line) (x : ConsoleEffect) (s' : Console) : Prop where
  ok : s'.Ok (x.follow l)
  proper : x.Proper
  queue : l.unread ++ x.committed l = x.taken ++ (x.follow l).unread
  accounts : ∀ pid, (s.reader pid).got ++ x.takenBy pid
    = x.returnedBy pid ++ x.lostBy pid ++ (s'.reader pid).got

theorem Ok.nothing (h : s.Ok l) : Effects s l .nothing s :=
  ⟨h, trivial, append_nil _, fun _ => append_nil _⟩

/-- A step of process `pid`. -/
theorem Ok.effects {x : ConsoleEffect} {u' : List UInt8} {input : InputBuf} {pid : ℕ} {r : Reader} (h : s.Ok l)
    (hfollow : x.follow l = ⟨l.unread.drop x.taken.length, l.edit⟩) (hcommitted : x.committed l = [])
    (hu : l.unread = x.taken ++ u') (hshows : input.Shows ⟨u', l.edit⟩) (hr : ReaderOk r)
    (hproper : x.Proper)
    (hother : ∀ p, p ≠ pid → x.takenBy p = [] ∧ x.returnedBy p = [] ∧ x.lostBy p = [])
    (haccounts : (s.reader pid).got ++ x.takenBy pid = x.returnedBy pid ++ x.lostBy pid ++ r.got) :
    Effects s l x ⟨input, update s.reader pid r⟩ := by
  have hdrop : l.unread.drop x.taken.length = u' := by rw [hu, drop_left]
  have hself : (⟨input, update s.reader pid r⟩ : Console).reader pid = r := update_self ..
  have hkept : ∀ p, p ≠ pid → (⟨input, update s.reader pid r⟩ : Console).reader p = s.reader p :=
    fun p hne => update_of_ne hne ..
  rw [hdrop] at hfollow
  refine ⟨⟨hfollow ▸ hshows, fun p => ?_⟩, hproper, ?_, fun p => ?_⟩
  · rcases eq_or_ne p pid with rfl | hne
    · rwa [hself]
    · rw [hkept p hne]
      exact h.reader p
  · rw [hcommitted, append_nil, hfollow]
    exact hu
  · rcases eq_or_ne p pid with rfl | hne
    · rw [hself]
      exact haccounts
    · obtain ⟨h1, h2, h3⟩ := hother p hne
      rw [hkept p hne, h1, h2, h3, append_nil]
      rfl

/-- **A process goes on in its call.** -/
theorem Ok.goOn (h : s.Ok l) (killed : Bool) {pid n target : ℕ} {got : List UInt8}
    (hgot : (s.reader pid).got = got) (hn : n + got.length = target) (hD : ctrlD ∉ got) :
    Effects s l (s.goOn killed pid n target got).1 (s.goOn killed pid n target got).2 := by
  obtain ⟨hno, ⟨u', hu, hs'⟩, hleft⟩ :=
    InputBuf.Shows.consoleread (d := l.edit) killed target n h.shows (by omega)
  rw [Console.goOn]
  generalize s.input.consoleread killed target n = res at hno hu hs' hleft ⊢
  obtain ⟨bs, e, input⟩ := res
  simp only at hno hu hs' hleft ⊢
  have hmem : ctrlD ∉ got ++ bs := fun hm => (mem_append.mp hm).elim hD hno
  have hlen : (got ++ bs).length = got.length + bs.length := length_append
  have hother : ∀ p xs, p ≠ pid → (if pid = p then xs else ([] : List UInt8)) = [] := fun p xs hne =>
    if_neg (Ne.symm hne)
  cases e with
  | done m =>
    rw [InputBuf.ReadEnd.eofs, append_nil] at hu
    refine h.effects rfl rfl hu hs' trivial ⟨hmem, ?_⟩ (fun p hne => ⟨hother p _ hne, hother p _ hne, rfl⟩) ?_
    · have hm : m + bs.length = n := hleft
      omega
    · rw [hgot]
      simp [ConsoleEffect.takenBy, ConsoleEffect.returnedBy, ConsoleEffect.lostBy, Reader.got]
  | eof m =>
    obtain ⟨rfl, rfl, hm⟩ : bs = [] ∧ m = n ∧ n = target := hleft
    obtain rfl : got = [] := length_eq_zero_iff.mp (by omega)
    refine h.effects rfl rfl hu hs' trivial ⟨rfl, by omega⟩
      (fun p hne => ⟨hother p _ hne, hother p _ hne, rfl⟩) ?_
    rw [hgot]
    simp [ConsoleEffect.takenBy, ConsoleEffect.returnedBy, ConsoleEffect.lostBy, Reader.got]
  | fail =>
    rw [InputBuf.ReadEnd.eofs, append_nil] at hu
    refine h.effects rfl rfl hu hs' trivial hmem (fun p hne => ⟨hother p _ hne, rfl, hother p _ hne⟩) ?_
    rw [hgot]
    simp [ConsoleEffect.takenBy, ConsoleEffect.returnedBy, ConsoleEffect.lostBy, Reader.got]
  | sleep m =>
    rw [InputBuf.ReadEnd.eofs, append_nil] at hu
    have hm : m + bs.length = n := hleft
    refine h.effects rfl rfl hu hs' ⟨by omega, hmem⟩ hno (fun p hne => ⟨hother p _ hne, rfl, rfl⟩) ?_
    rw [hgot]
    simp [ConsoleEffect.takenBy, ConsoleEffect.returnedBy, ConsoleEffect.lostBy, Reader.got]

/-- **One step.** -/
theorem Ok.step (h : s.Ok l) (ev : ConsoleEvent) : Effects s l (s.step ev).1 (s.step ev).2 := by
  cases ev with
  | intr c =>
    exact ⟨⟨h.shows.consoleintr c, h.reader⟩, trivial, rfl, fun _ => append_nil _⟩
  | read pid n killed =>
    rw [Console.step]
    split
    · rename_i hidle
      exact h.goOn killed (by rw [hidle]; rfl) rfl nofun
    · exact h.nothing
  | wake pid killed =>
    rw [Console.step]
    split
    · exact h.nothing
    · rename_i n target got hreading
      have hok := h.reader pid
      rw [hreading] at hok
      exact h.goOn killed (by rw [hreading]; rfl) hok.1 hok.2

/-- **A run.** -/
theorem Ok.run : ∀ (evs : List ConsoleEvent) {s : Console} {l : Line}, s.Ok l →
    (Console.run evs s).2.Ok (lineAfter (Console.run evs s).1 l) ∧
    (∀ x ∈ (Console.run evs s).1, x.Proper) ∧
    l.unread ++ committedIn (Console.run evs s).1 l
      = (Console.run evs s).1.flatMap ConsoleEffect.taken ++ (lineAfter (Console.run evs s).1 l).unread ∧
    ∀ pid, (s.reader pid).got ++ (Console.run evs s).1.flatMap (ConsoleEffect.takenBy pid)
      = (Console.run evs s).1.flatMap (fun x => x.returnedBy pid ++ x.lostBy pid)
        ++ ((Console.run evs s).2.reader pid).got
  | [], s, l, h => ⟨h, nofun, append_nil _, fun _ => append_nil _⟩
  | ev :: evs, s, l, h => by
    have hx := h.step ev
    obtain ⟨hok, hproper, hqueue, haccounts⟩ := Ok.run evs hx.ok
    simp only [Console.run, lineAfter, committedIn, flatMap_cons]
    refine ⟨hok, fun x hmem => ?_, ?_, fun pid => ?_⟩
    · rcases mem_cons.mp hmem with rfl | hmem
      · exact hx.proper
      · exact hproper x hmem
    · rw [← append_assoc, hx.queue, append_assoc, hqueue, append_assoc]
    · rw [← append_assoc, hx.accounts pid, append_assoc, haccounts pid, ← append_assoc]

theorem init_ok (buf : ℕ → UInt8) : (init buf).Ok ⟨[], []⟩ := ⟨InputBuf.shows_init buf, fun _ => trivial⟩

/-! ## What is lost -/

/-- The committed characters that are unread. -/
def unread (s : Console) : List UInt8 :=
  Ring.window inputBuf s.input.buf s.input.r (subUint s.input.w s.input.r)

/-- **A process that has got some bytes of a call and asks for `n` more loses none**, whether it is killed or
not: there is nothing to lose, or it will not have to wait. -/
def Safe (s : Console) (killed : Bool) (n : ℕ) (got : List UInt8) : Prop :=
  killed = true → got ++ s.unread = [] ∨ n ≤ s.unread.length ∨ newline ∈ s.unread ∨ ctrlD ∈ s.unread

/-- **The event loses nothing**, as the state before it shows. -/
def Harmless (s : Console) : ConsoleEvent → Prop
  | .intr _ => True
  | .read pid n killed =>
    match s.reader pid with
    | .idle => s.Safe killed n.toNat []
    | .reading _ _ _ => True
  | .wake pid killed =>
    match s.reader pid with
    | .idle => True
    | .reading n _ got => s.Safe killed n got

/-- All the events of a run lose nothing. -/
def HarmlessRun : List ConsoleEvent → Console → Prop
  | [], _ => True
  | ev :: evs, s => s.Harmless ev ∧ HarmlessRun evs (s.step ev).2

theorem Ok.unread_eq (h : s.Ok l) : s.unread = l.unread := by
  rw [unread, h.shows.sub_eq.1]
  exact h.shows.holds.of_append.eq_window.symm

theorem Ok.goOn_lost_iff (h : s.Ok l) (killed : Bool) (pid n target : ℕ) (got : List UInt8) :
    (∀ p, (s.goOn killed pid n target got).1.lostBy p = []) ↔ s.Safe killed n got := by
  obtain ⟨hiff, hall⟩ := InputBuf.Shows.fail_iff (d := l.edit) killed target n h.shows
  rw [Console.goOn, Safe, h.unread_eq]
  generalize s.input.consoleread killed target n = res at hiff hall ⊢
  obtain ⟨bs, e, input⟩ := res
  simp only at hiff hall ⊢
  have hsafe : e ≠ .fail → killed = true →
      got ++ l.unread = [] ∨ n ≤ l.unread.length ∨ newline ∈ l.unread ∨ ctrlD ∈ l.unread := fun hne hk => by
    by_contra hno
    simp only [not_or, Nat.not_le] at hno
    exact hne (hiff.mpr ⟨hk, hno.2⟩)
  cases e with
  | done m => exact iff_of_true (fun _ => rfl) (hsafe nofun)
  | eof m => exact iff_of_true (fun _ => rfl) (hsafe nofun)
  | sleep m => exact iff_of_true (fun _ => rfl) (hsafe nofun)
  | fail =>
    obtain ⟨hk, hlt, hnl, hD⟩ := hiff.mp rfl
    rw [hall rfl]
    constructor
    · intro hlost _
      have := hlost pid
      simp only [ConsoleEffect.lostBy, if_true] at this
      exact .inl this
    · intro hs p
      rcases hs hk with hnil | hle | hmem | hmem
      · simp only [ConsoleEffect.lostBy, hnil, ite_self]
      · omega
      · exact absurd hmem hnl
      · exact absurd hmem hD

/-- **A step loses nothing exactly if its event is harmless.** -/
theorem Ok.lost_iff (h : s.Ok l) (ev : ConsoleEvent) :
    (∀ pid, (s.step ev).1.lostBy pid = []) ↔ s.Harmless ev := by
  cases ev with
  | intr c => exact iff_of_true (fun _ => rfl) trivial
  | read pid n killed =>
    cases hr : s.reader pid with
    | idle =>
      simp only [Console.step, Harmless, hr]
      exact h.goOn_lost_iff killed pid _ _ _
    | reading m target got =>
      simp only [Console.step, Harmless, hr]
      exact iff_of_true (fun _ => rfl) trivial
  | wake pid killed =>
    cases hr : s.reader pid with
    | idle =>
      simp only [Console.step, Harmless, hr]
      exact iff_of_true (fun _ => rfl) trivial
    | reading n target got =>
      simp only [Console.step, Harmless, hr]
      exact h.goOn_lost_iff killed pid _ _ _

/-- **A run loses nothing exactly if its events are harmless.** -/
theorem Ok.run_lost_iff : ∀ (evs : List ConsoleEvent) {s : Console} {l : Line}, s.Ok l →
    ((∀ x ∈ (Console.run evs s).1, ∀ pid, x.lostBy pid = []) ↔ HarmlessRun evs s)
  | [], _, _, _ => iff_of_true nofun trivial
  | ev :: evs, s, l, h => by
    rw [Console.run, HarmlessRun, ← h.lost_iff ev, ← Ok.run_lost_iff evs (h.step ev).ok,
      forall_mem_cons]

theorem length_flatMap_append {α : Type} (f g : α → List UInt8) : ∀ xs : List α,
    (xs.flatMap fun x => f x ++ g x).length = (xs.flatMap f).length + (xs.flatMap g).length
  | [] => rfl
  | x :: xs => by
    simp only [flatMap_cons, length_append, length_flatMap_append f g xs]
    omega

/-- What is taken is returned exactly if nothing is lost. -/
theorem returned_iff {es : List ConsoleEffect} {got taken : ℕ → List UInt8}
    (h : ∀ pid, taken pid = es.flatMap (fun x => x.returnedBy pid ++ x.lostBy pid) ++ got pid) :
    (∀ pid, es.flatMap (ConsoleEffect.returnedBy pid) ++ got pid = taken pid) ↔
      ∀ x ∈ es, ∀ pid, x.lostBy pid = [] := by
  constructor
  · intro hall x hx pid
    have hlen := congrArg List.length ((hall pid).trans (h pid))
    rw [length_append, length_append, length_flatMap_append] at hlen
    have hnil : es.flatMap (ConsoleEffect.lostBy pid) = [] := length_eq_zero_iff.mp (by omega)
    exact flatMap_eq_nil_iff.mp hnil x hx
  · intro hno pid
    rw [h pid]
    congr 1
    exact flatMap_congr fun x hx => by rw [hno x hx pid, append_nil]

end Console

/-- **The console line discipline.**  After every run, of any length, the indices are in order; the erase
characters leave what is committed as it is, and no character that arrives is written over an unread one.
What the reads take is what is committed, in order and once, with a `^D` for each read that returns 0 bytes
for it; and it is what they return, exactly if no process is killed while it waits with bytes. -/
theorem console_discipline (buf : ℕ → UInt8) (evs : List ConsoleEvent) :
    let es := (Console.run evs (.init buf)).1
    let s := (Console.run evs (.init buf)).2
    (subUint s.input.w s.input.r ≤ subUint s.input.e s.input.r ∧
      subUint s.input.e s.input.r ≤ inputBuf) ∧
    (∀ c, c = ctrlU ∨ c = ctrlH ∨ c = delete → (s.step (.intr c)).2.unread = s.unread) ∧
    (∀ c, s.unread <+: (s.step (.intr c)).2.unread) ∧
    committedIn es ⟨[], []⟩ = es.flatMap ConsoleEffect.taken ++ s.unread ∧
    (∀ x ∈ es, x.Proper) ∧
    ((∀ pid, es.flatMap (ConsoleEffect.returnedBy pid) ++ (s.reader pid).got
        = es.flatMap (ConsoleEffect.takenBy pid)) ↔ Console.HarmlessRun evs (.init buf)) := by
  have hinit := Console.init_ok buf
  obtain ⟨hok, hproper, hqueue, haccounts⟩ := hinit.run evs
  obtain ⟨hw, he, -⟩ := hok.shows.sub_eq
  have hunread := hok.unread_eq
  have htyped : ∀ c, ((Console.run evs (.init buf)).2.step (.intr c)).2.unread
      = (lineAfter (Console.run evs (.init buf)).1 ⟨[], []⟩).unread
        ++ (lineAfter (Console.run evs (.init buf)).1 ⟨[], []⟩).committed c := fun c =>
    (hok.step (.intr c)).ok.unread_eq
  refine ⟨⟨?_, ?_⟩, fun c hc => ?_, fun c => ?_, ?_, hproper, ?_⟩
  · rw [hw, he, List.length_append]
    exact Nat.le_add_right _ _
  · rw [he]
    exact hok.shows.length_le
  · have hno : (lineAfter (Console.run evs (.init buf)).1 ⟨[], []⟩).committed c = [] := by
      rw [Line.committed, Line.enters, if_pos (by tauto)]
    rw [htyped, hno, List.append_nil, hunread]
  · rw [htyped, hunread]
    exact List.prefix_append _ _
  · rw [hunread]
    exact hqueue
  · exact (Console.returned_iff fun pid => haccounts pid).trans (hinit.run_lost_iff evs)

/-- A line that fills the ring, and a process that takes it, waits for more and is killed. -/
def killedReader : List ConsoleEvent :=
  List.replicate inputBuf (.intr 97) ++ [.read 1 200 false, .wake 1 true]

/-- **A killed reader loses what it has taken**: the whole line is committed, and no read returns it. -/
theorem killed_reader_loses_line :
    let es := (Console.run killedReader (.init fun _ => 0)).1
    let s := (Console.run killedReader (.init fun _ => 0)).2
    committedIn es ⟨[], []⟩ = List.replicate inputBuf 97 ∧ s.unread = [] ∧
      es.flatMap (ConsoleEffect.takenBy 1) = List.replicate inputBuf 97 ∧
      es.flatMap (ConsoleEffect.returnedBy 1) ++ (s.reader 1).got = [] := by
  decide +kernel

end Xv6
