import Mathlib

/-!
# Lib/Outcome — inverting computations that may panic

A computation that may panic is an `Except ε α`.  A successful run of a bind is a successful run of
both halves, and what holds of every successful iteration of a loop over a list holds of the whole
loop.  `Returns x P` is total correctness: `x` does not panic, and its value satisfies `P`; `Runs x E P`
allows the panics `E`, and `Yields x P` allows any.
-/

namespace Outcome

variable {ε α β ι : Type}

/-- **A bind succeeds when both halves do.** -/
theorem bind_eq_ok {x : Except ε α} {f : α → Except ε β} {b : β} :
    (x >>= f) = .ok b ↔ ∃ a, x = .ok a ∧ f a = .ok b := by
  cases x with
  | error e => exact ⟨fun h => absurd h (by simp [bind, Except.bind]), fun ⟨_, h, _⟩ => nomatch h⟩
  | ok a => exact ⟨fun h => ⟨a, rfl, h⟩, fun ⟨_, h, h'⟩ => by cases h; exact h'⟩

@[simp] theorem ok_bind (a : α) (f : α → Except ε β) : ((.ok a : Except ε α) >>= f) = f a := rfl

@[simp] theorem error_bind (e : ε) (f : α → Except ε β) :
    ((.error e : Except ε α) >>= f) = .error e := rfl

@[simp] theorem pure_eq_ok (a : α) : (pure a : Except ε α) = .ok a := rfl

@[simp] theorem throw_eq_error (e : ε) : (throw e : Except ε α) = .error e := rfl

/-- A loop over a list: each item updates the state or panics. -/
def loop (body : ι → α → Except ε α) : List ι → α → Except ε α
  | [], a => .ok a
  | i :: is, a => body i a >>= loop body is

section

variable (body : ι → α → Except ε α)

include body

@[simp] theorem loop_nil (a : α) : loop body [] a = .ok a := rfl

theorem loop_cons (i : ι) (is : List ι) (a : α) :
    loop body (i :: is) a = body i a >>= loop body is := rfl

/-- **Running a concatenation is running its halves.** -/
theorem loop_append (is js : List ι) (a : α) :
    loop body (is ++ js) a = loop body is a >>= loop body js := by
  induction is generalizing a with
  | nil => rfl
  | cons i is ih =>
    rw [List.cons_append, loop_cons, loop_cons]
    cases body i a with
    | error e => rfl
    | ok b => exact ih b

end

/-- **The invariant rule.**  What every iteration preserves, the loop preserves. -/
theorem loop_inv {body : ι → α → Except ε α} {P : α → Prop} {is : List ι}
    (hstep : ∀ i ∈ is, ∀ a b, P a → body i a = .ok b → P b) {a b : α} (ha : P a)
    (h : loop body is a = .ok b) : P b := by
  induction is generalizing a with
  | nil => cases h; exact ha
  | cons i is ih =>
    obtain ⟨c, hc, h⟩ := bind_eq_ok.mp h
    exact ih (fun j hj => hstep j (List.mem_cons_of_mem _ hj))
      (hstep i List.mem_cons_self a c ha hc) h

/-- `R` holds of every iteration the loop makes: the item, the state before and the state after. -/
def Each (body : ι → α → Except ε α) (R : ι → α → α → Prop) : List ι → α → Prop
  | [], _ => True
  | i :: is, a => ∀ b, body i a = .ok b → R i a b ∧ Each body R is b

section Each

variable {body : ι → α → Except ε α} {R Q L : ι → α → α → Prop}

@[simp] theorem each_nil (a : α) : Each body R [] a := trivial

/-- A run that computes can be checked step by step. -/
instance decidableEach [∀ i a b, Decidable (R i a b)] :
    ∀ (is : List ι) (a : α), Decidable (Each body R is a)
  | [], _ => .isTrue trivial
  | i :: is, a =>
    match h : body i a with
    | .error _ => .isTrue fun _ hb => nomatch h.symm.trans hb
    | .ok b =>
      haveI := decidableEach is b
      decidable_of_iff (R i a b ∧ Each body R is b)
        ⟨fun hr _ hb => Except.ok.inj (h.symm.trans hb) ▸ hr, fun hr => hr b h⟩

/-- **The invariant rule for properties of steps.**  Under an invariant of the states, and what `L`
says of each step, a property of the steps may be replaced by an equivalent one. -/
theorem each_iff (Inv : α → Prop)
    (hiff : ∀ i a b, Inv a → body i a = .ok b → L i a b → (R i a b ↔ Q i a b))
    (hinv : ∀ i a b, Inv a → body i a = .ok b → L i a b → R i a b → Inv b) :
    ∀ (is : List ι) (a : α), Inv a → Each body L is a → (Each body R is a ↔ Each body Q is a)
  | [], _, _, _ => Iff.rfl
  | i :: is, a, ha, hL => by
    refine forall_congr' fun b => imp_congr_right fun hb => ?_
    obtain ⟨hl, hLs⟩ := hL b hb
    refine ⟨fun ⟨hr, hrs⟩ => ?_, fun ⟨hq, hqs⟩ => ?_⟩
    · exact ⟨(hiff i a b ha hb hl).mp hr,
        (each_iff Inv hiff hinv is b (hinv i a b ha hb hl hr) hLs).mp hrs⟩
    · have hr := (hiff i a b ha hb hl).mpr hq
      exact ⟨hr, (each_iff Inv hiff hinv is b (hinv i a b ha hb hl hr) hLs).mpr hqs⟩

end Each

/-! ## Total correctness -/

section Returns

variable {x : Except ε α} {f : α → Except ε β} {P P' : α → Prop} {Q : β → Prop}

/-- **`x` returns, and what it returns satisfies `P`.** -/
def Returns (x : Except ε α) (P : α → Prop) : Prop := ∃ a, x = .ok a ∧ P a

theorem returns_ok {a : α} : Returns (.ok a : Except ε α) P ↔ P a :=
  ⟨fun ⟨_, h, hP⟩ => by cases h; exact hP, fun h => ⟨a, rfl, h⟩⟩

/-- **The rule of sequential composition.** -/
theorem Returns.bind (h : Returns x P) (hf : ∀ a, P a → Returns (f a) Q) : Returns (x >>= f) Q := by
  obtain ⟨a, ha, hP⟩ := h
  obtain ⟨b, hb, hQ⟩ := hf a hP
  exact ⟨b, bind_eq_ok.mpr ⟨a, ha, hb⟩, hQ⟩

theorem Returns.mono (h : Returns x P) (hP : ∀ a, x = .ok a → P a → P' a) : Returns x P' := by
  obtain ⟨a, ha, h⟩ := h
  exact ⟨a, ha, hP a ha h⟩

/-- A computation can be checked by running it. -/
instance decidableReturns [DecidablePred P] : Decidable (Returns x P) :=
  match x with
  | .ok a => decidable_of_iff (P a) returns_ok.symm
  | .error _ => .isFalse fun ⟨_, h, _⟩ => nomatch h

end Returns

/-! ## Partial correctness -/

section Yields

variable {x y : Except ε α} {f : α → Except ε β} {P P' : α → Prop} {Q : β → Prop}

/-- **Whatever `x` returns satisfies `P`.** -/
def Yields (x : Except ε α) (P : α → Prop) : Prop := ∀ a, x = .ok a → P a

theorem yields_ok {a : α} (h : P a) : Yields (.ok a : Except ε α) P := fun _ ha => Except.ok.inj ha ▸ h

theorem yields_error {e : ε} : Yields (.error e : Except ε α) P := nofun

theorem Yields.bind (h : Yields x P) (hf : ∀ a, P a → Yields (f a) Q) : Yields (x >>= f) Q := fun b hb => by
  obtain ⟨a, ha, hb⟩ := bind_eq_ok.mp hb
  exact hf a (h a ha) b hb

/-- A computation of which only its result is used. -/
theorem Yields.bind_eq (hf : ∀ a, x = .ok a → Yields (f a) Q) : Yields (x >>= f) Q :=
  Yields.bind (P := fun a => x = .ok a) (fun _ => id) hf

theorem Yields.ite {c : Prop} [Decidable c] (hx : Yields x P) (hy : Yields y P) :
    Yields (if c then x else y) P := by
  split
  · exact hx
  · exact hy

end Yields

section Runs

variable {x : Except ε α} {f : α → Except ε β} {E E' : ε → Prop} {P P' : α → Prop} {Q : β → Prop}

/-- **`x` returns a value with `P`, or panics with `E`.** -/
def Runs (x : Except ε α) (E : ε → Prop) (P : α → Prop) : Prop :=
  (∀ e, x = .error e → E e) ∧ ∀ a, x = .ok a → P a

theorem runs_ok {a : α} : Runs (.ok a : Except ε α) E P ↔ P a :=
  ⟨fun h => h.2 a rfl, fun h => ⟨nofun, fun _ ha => Except.ok.inj ha ▸ h⟩⟩

theorem runs_error {e : ε} : Runs (.error e : Except ε α) E P ↔ E e :=
  ⟨fun h => h.1 e rfl, fun h => ⟨fun _ he => Except.error.inj he ▸ h, nofun⟩⟩

theorem Runs.bind (h : Runs x E P) (hf : ∀ a, P a → Runs (f a) E Q) : Runs (x >>= f) E Q := by
  cases x with
  | error e => exact runs_error.mpr (runs_error.mp h)
  | ok a => exact hf a (runs_ok.mp h)

theorem Runs.mono (h : Runs x E P) (hE : ∀ e, E e → E' e) (hP : ∀ a, P a → P' a) : Runs x E' P' :=
  ⟨fun e he => hE e (h.1 e he), fun a ha => hP a (h.2 a ha)⟩

theorem Runs.of_ok (h : Runs x E P) {a : α} (hx : x = .ok a) : P a := h.2 a hx

/-- Without a panic, it returns. -/
theorem Runs.returns (h : Runs x E P) (hE : ∀ e, ¬ E e) : Returns x P := by
  cases x with
  | error e => exact absurd (runs_error.mp h) (hE e)
  | ok a => exact ⟨a, rfl, runs_ok.mp h⟩

end Runs

section Steps

variable {body : ι → α → Except ε α} {R : ι → α → α → Prop} {Q : ι → α → Prop}

/-- The loop runs to its end, and `R` holds of each of its iterations. -/
def Steps (body : ι → α → Except ε α) (R : ι → α → α → Prop) : List ι → α → Prop
  | [], _ => True
  | i :: is, a => Returns (body i a) fun b => R i a b ∧ Steps body R is b

/-- `Q` holds before each iteration the loop makes. -/
def Along (body : ι → α → Except ε α) (Q : ι → α → Prop) : List ι → α → Prop
  | [], _ => True
  | i :: is, a => Q i a ∧ ∀ b, body i a = .ok b → Along body Q is b

/-- A run that computes can be checked step by step. -/
instance decidableAlong [∀ i a, Decidable (Q i a)] :
    ∀ (is : List ι) (a : α), Decidable (Along body Q is a)
  | [], _ => .isTrue trivial
  | i :: is, a =>
    match h : body i a with
    | .error _ =>
      decidable_of_iff (Q i a) ⟨fun hQ => ⟨hQ, fun _ hb => nomatch h.symm.trans hb⟩, And.left⟩
    | .ok b =>
      have := decidableAlong is b
      decidable_of_iff (Q i a ∧ Along body Q is b)
        ⟨fun hQ => ⟨hQ.1, fun _ hb => Except.ok.inj (h.symm.trans hb) ▸ hQ.2⟩,
          fun hQ => ⟨hQ.1, hQ.2 b h⟩⟩

/-- **The rule for runs**: where `Q` holds before a step, the step returns, has `R` and keeps the
invariant; so a run with `Q` all along returns and has `R` at every step. -/
theorem Along.steps (Inv : α → Prop)
    (hstep : ∀ i a, Inv a → Q i a → Returns (body i a) fun b => R i a b ∧ Inv b) :
    ∀ (is : List ι) (a : α), Inv a → Along body Q is a → Steps body R is a
  | [], _, _, _ => trivial
  | i :: is, a, ha, hQ => by
    refine (hstep i a ha hQ.1).mono fun b hb ⟨hR, hinv⟩ => ⟨hR, ?_⟩
    exact Along.steps Inv hstep is b hinv (hQ.2 b hb)

/-- **The rule for runs that may panic**: what every step keeps where `Q` holds before it, holds after a
run with `Q` all along. -/
theorem Along.inv (Inv : α → Prop)
    (hstep : ∀ i a b, Inv a → Q i a → body i a = .ok b → Inv b) :
    ∀ (is : List ι) (a b : α), Inv a → Along body Q is a → loop body is a = .ok b → Inv b
  | [], _, _, ha, _, h => by
    cases h
    exact ha
  | i :: is, a, b, ha, hQ, h => by
    obtain ⟨c, hc, h⟩ := bind_eq_ok.mp h
    exact Along.inv Inv hstep is c b (hstep i a c ha hQ.1 hc) (hQ.2 c hc) h

end Steps

section Exact

variable {x : Except ε α} {C C' : Prop} {J : α → Prop} {Bad : ε → Prop}

/-- `x` ends in a bad error. -/
def Fails (x : Except ε α) (Bad : ε → Prop) : Prop := ∃ e, Bad e ∧ x = .error e

instance decidableFails [DecidablePred Bad] : Decidable (Fails x Bad) :=
  match x with
  | .ok _ => .isFalse fun ⟨_, _, h⟩ => nomatch h
  | .error e => decidable_of_iff (Bad e) ⟨fun h => ⟨e, h, rfl⟩, fun ⟨_, h, he⟩ => Except.error.inj he ▸ h⟩

/-- **`x` ends in a bad error exactly when `C` fails**; what it returns otherwise satisfies `J`. -/
def Exact (x : Except ε α) (C : Prop) (J : α → Prop) (Bad : ε → Prop) : Prop :=
  (C ∧ (∀ b, x = .ok b → J b) ∧ ∀ e, x = .error e → ¬ Bad e) ∨ ¬ C ∧ ∃ e, Bad e ∧ x = .error e

theorem exact_ok {a : α} (hC : C) (ha : J a) : Exact (.ok a) C J Bad :=
  .inl ⟨hC, fun _ hb => Except.ok.inj hb ▸ ha, nofun⟩

theorem exact_error {e : ε} (hC : C) (he : ¬ Bad e) : Exact (.error e) C J Bad :=
  .inl ⟨hC, nofun, fun _ h => Except.error.inj h ▸ he⟩

theorem exact_bad {e : ε} (hC : ¬ C) (he : Bad e) : Exact (.error e) C J Bad := .inr ⟨hC, e, he, rfl⟩

theorem Exact.congr (h : Exact x C J Bad) (hC : C ↔ C') : Exact x C' J Bad := by rwa [propext hC] at h

/-- The condition decides. -/
theorem Exact.iff (h : Exact x C J Bad) : C ↔ ∀ e, x = .error e → ¬ Bad e := by
  rcases h with ⟨hC, -, hno⟩ | ⟨hC, e, he, hx⟩
  · exact iff_of_true hC hno
  · exact iff_of_false hC fun h => h e hx he

theorem Exact.iff_not_fails (h : Exact x C J Bad) : C ↔ ¬ Fails x Bad :=
  h.iff.trans ⟨fun hno ⟨e, he, hx⟩ => hno e hx he, fun hno e hx he => hno ⟨e, he, hx⟩⟩

/-- What follows an exact computation without bad errors of its own. -/
theorem Exact.bind {J' : β → Prop} {f : α → Except ε β} (h : Exact x C J Bad)
    (hf : ∀ a, J a → Exact (f a) True J' Bad) : Exact (x >>= f) C J' Bad := by
  rcases h with ⟨hC, hJ, hno⟩ | ⟨hC, e, he, rfl⟩
  · cases x with
    | error e => exact exact_error hC (hno e rfl)
    | ok a =>
      rcases hf a (hJ a rfl) with ⟨-, h⟩ | ⟨h, -⟩
      · exact .inl ⟨hC, h⟩
      · exact absurd trivial h
  · exact exact_bad hC he

/-- **The rule for exact runs**: a loop ends in a bad error exactly when the condition fails before one of
its turns. -/
theorem Exact.loop {body : ι → α → Except ε α} {Q : ι → α → Prop} : ∀ (is : List ι),
    (∀ i ∈ is, ∀ a, J a → Exact (body i a) (Q i a) J Bad) → ∀ a, J a →
    Exact (Outcome.loop body is a) (Along body Q is a) J Bad
  | [], _, _, ha => exact_ok trivial ha
  | i :: is, h, a, ha => by
    have hrest := Exact.loop is fun i hi => h i (List.mem_cons_of_mem _ hi)
    rcases h i List.mem_cons_self a ha with ⟨hQ, hJ, hno⟩ | ⟨hQ, e, he, hx⟩
    · cases hx : body i a with
      | error e =>
        rw [Outcome.loop, hx]
        refine exact_error ⟨hQ, fun b hb => ?_⟩ (hno e hx)
        rw [hx] at hb
        cases hb
      | ok b =>
        rw [Outcome.loop, hx]
        refine (hrest b (hJ b hx)).congr ⟨fun hb => ⟨hQ, fun c hc => ?_⟩, fun hb => hb.2 b hx⟩
        cases hx.symm.trans hc
        exact hb
    · rw [Outcome.loop, hx]
      exact exact_bad (fun hA => hQ hA.1) he

end Exact

section Agree

variable {γ δ : Type} {R : α → γ → Prop} {S : β → δ → Prop} {x : Except ε α} {y : Except ε γ}

/-- **Both return, and what they return is related, or both fail.** -/
def Agree (R : α → γ → Prop) : Except ε α → Except ε γ → Prop
  | .ok a, .ok c => R a c
  | .error _, .error _ => True
  | _, _ => False

theorem Agree.mono {R' : α → γ → Prop} (h : Agree R x y) (hR : ∀ a c, R a c → R' a c) : Agree R' x y := by
  cases x <;> cases y
  · trivial
  · exact h
  · exact h
  · exact hR _ _ h

theorem Agree.of_ok {a : α} (h : Agree R (.ok a) y) : ∃ c, y = .ok c ∧ R a c := by
  cases y with
  | error e => exact h.elim
  | ok c => exact ⟨c, rfl, h⟩

theorem Agree.of_error {e : ε} (h : Agree R (.error e) y) : ∃ e', y = .error e' := by
  cases y with
  | error e' => exact ⟨e', rfl⟩
  | ok c => exact h.elim

end Agree

end Outcome
