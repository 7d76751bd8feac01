import Mathlib

/-!
# Lib/Simulation — runs of a labelled transition system

`Trace step es s t` says that the events `es` lead from `s` to `t`.  A step-by-step simulation along a
function of the states, under an invariant of the concrete ones, carries whole runs over.
-/

namespace Simulation

variable {α β ε : Type*}

/-- **The events `es` lead from one state to another.** -/
inductive Trace (step : ε → α → α → Prop) : List ε → α → α → Prop where
  | nil (s : α) : Trace step [] s s
  | cons {e : ε} {es : List ε} {s t u : α} (h : step e s t) (ht : Trace step es t u) :
      Trace step (e :: es) s u

/-- **Simulation of runs**: every run of the concrete system is one of the abstract system, and keeps
the invariant. -/
theorem Trace.map {step : ε → α → α → Prop} {step' : ε → β → β → Prop} (f : α → β) (Inv : α → Prop)
    (hstep : ∀ e s t, Inv s → step e s t → step' e (f s) (f t) ∧ Inv t)
    {es : List ε} {s t : α} (hs : Inv s) (h : Trace step es s t) :
    Trace step' es (f s) (f t) ∧ Inv t := by
  induction h with
  | nil s => exact ⟨.nil (f s), hs⟩
  | cons h _ ih =>
    obtain ⟨h', hinv⟩ := hstep _ _ _ hs h
    obtain ⟨ht', hinv'⟩ := ih hinv
    exact ⟨.cons h' ht', hinv'⟩

end Simulation
