import Mathlib.Data.List.Induction

universe u v w

namespace Trace

variable {State : Type u} {Label : Type v} {Output : Type w}

def follow (step : State → Label → Option State) : State → List Label → Option State
  | s, [] => some s
  | s, a :: as => (step s a).bind fun t => follow step t as

theorem follow_append (step : State → Label → Option State) (s : State) (as bs : List Label) :
    follow step s (as ++ bs) = (follow step s as).bind fun t => follow step t bs := by
  induction as generalizing s with
  | nil => rfl
  | cons a as ih =>
    simp only [List.cons_append, follow]
    cases step s a with
    | none => rfl
    | some t => exact ih t

theorem follow_snoc {step : State → Label → Option State} {s t : State} {as : List Label} {a : Label} :
    follow step s (as ++ [a]) = some t ↔ ∃ u, follow step s as = some u ∧ step u a = some t := by
  rw [follow_append, Option.bind_eq_some_iff]
  simp [follow]

/-- What holds at the start and is kept by every step, given the labels so far, holds after
every trace. -/
theorem follow_induction {step : State → Label → Option State} {s : State}
    {P : List Label → State → Prop} (start : P [] s)
    (keep : ∀ as t a u, follow step s as = some t → P as t → step t a = some u → P (as ++ [a]) u)
    {as : List Label} {t : State} (h : follow step s as = some t) : P as t := by
  induction as using List.reverseRecOn generalizing t with
  | nil =>
    cases h
    exact start
  | append_singleton as a ih =>
    obtain ⟨u, hu, ha⟩ := follow_snoc.mp h
    exact keep as u a t hu (ih hu) ha

def emitted (step : State → Label → Option State) (out : State → Label → List Output) :
    State → List Label → List Output
  | _, [] => []
  | s, a :: as => out s a ++ (step s a).elim [] fun t => emitted step out t as

theorem emitted_snoc {step : State → Label → Option State} {out : State → Label → List Output} {s t : State}
    {as : List Label} (h : follow step s as = some t) (a : Label) :
    emitted step out s (as ++ [a]) = emitted step out s as ++ out t a := by
  induction as generalizing s with
  | nil =>
    obtain rfl : s = t := Option.some.inj h
    cases moved : step s a with
    | none => simp [emitted, moved]
    | some u => simp [emitted, moved]
  | cons b as ih =>
    obtain ⟨u, moved, rest⟩ := Option.bind_eq_some_iff.mp h
    simp [emitted, moved, ih rest]

end Trace
