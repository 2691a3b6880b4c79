import Mathlib.Data.Option.Basic

/-!
# Lists of steps

A machine is a step function, which says what an event leads to if it is possible, and a condition
on the events in the states where they happen. `steps` takes the steps of a list and checks both, so
that a run on given events is a computation. What every step keeps holds of its result. The two
instances decide conditions on what a table holds.
-/

namespace Machine

variable {σ ε : Type*} {step : σ → ε → Option σ} {C : σ → ε → Prop} [∀ s e, Decidable (C s e)]

/-- What a list of events leads to, if each is possible and meets the condition where it happens. -/
def steps (step : σ → ε → Option σ) (C : σ → ε → Prop) [∀ s e, Decidable (C s e)] (s : σ) : List ε → Option σ
  | [] => some s
  | e :: es => if C s e then (step s e).bind fun s' => steps step C s' es else none

/-- What every step under the condition keeps holds at the end. -/
theorem steps_induct {P : σ → Prop} (hP : ∀ {s e s'}, P s → C s e → step s e = some s' → P s')
    {s s' : σ} {es : List ε}
    (h : P s) (hs : steps step C s es = some s') : P s' := by
  induction es generalizing s with
  | nil =>
    obtain rfl := Option.some.inj hs
    exact h
  | cons e es ih =>
    rw [steps] at hs
    obtain ⟨hC, hs⟩ := Option.ite_none_right_eq_some.mp hs
    obtain ⟨s₁, he, hs⟩ := Option.bind_eq_some_iff.mp hs
    exact ih (hP h hC he) hs

/-- A condition on what is there can be decided. -/
instance forallSome {α : Type*} {o : Option α} {p : α → Prop} [DecidablePred p] :
    Decidable (∀ a, o = some a → p a) :=
  match o with
  | none => isTrue nofun
  | some a => decidable_of_iff (p a) ⟨fun h _ hb => Option.some.inj hb ▸ h, fun h => h a rfl⟩

/-- A condition on the pair that is there can be decided. -/
instance forallPair {α β : Type*} {o : Option (α × β)} {p : α → β → Prop} [∀ a b, Decidable (p a b)] :
    Decidable (∀ a b, o = some (a, b) → p a b) :=
  decidable_of_iff (∀ r, o = some r → p r.1 r.2) ⟨fun h a b => h (a, b), fun h r => h r.1 r.2⟩

end Machine
