import JarText.Fault

/-!
# Outcomes that end alike

Two runs over related data end alike if they fail with the same fault or give related results. Steps
that end alike one after the other make runs that do (`Alike.bind`).
-/

set_option autoImplicit false

namespace JarText

/-- The outcomes are related values, or the same fault. -/
inductive Alike {α β : Type} (R : α → β → Prop) : Except Fault α → Except Fault β → Prop where
  | ok {a : α} {b : β} (h : R a b) : Alike R (.ok a) (.ok b)
  | error (fault : Fault) : Alike R (.error fault) (.error fault)

namespace Alike

variable {α β α' β' γ : Type} {R : α → β → Prop} {outcome : Except Fault α}
  {outcome' : Except Fault β}

theorem mono {S : α → β → Prop} (h : Alike R outcome outcome')
    (himp : ∀ a b, outcome = .ok a → R a b → S a b) : Alike S outcome outcome' := by
  cases h with
  | ok h => exact .ok (himp _ _ rfl h)
  | error fault => exact .error fault

theorem bind {S : α' → β' → Prop} {step : α → Except Fault α'} {step' : β → Except Fault β'}
    (h : Alike R outcome outcome')
    (hstep : ∀ a b, outcome = .ok a → R a b → Alike S (step a) (step' b)) :
    Alike S (outcome >>= step) (outcome' >>= step') := by
  cases h with
  | ok h => exact hstep _ _ rfl h
  | error fault => exact .error fault

theorem trans {S : β → γ → Prop} {T : α → γ → Prop} {outcome'' : Except Fault γ}
    (h : Alike R outcome outcome') (h' : Alike S outcome' outcome'')
    (himp : ∀ a b c, R a b → S b c → T a c) : Alike T outcome outcome'' := by
  cases h with
  | ok h =>
    cases h' with
    | ok h' => exact .ok (himp _ _ _ h h')
  | error fault =>
    cases h'
    exact .error fault

theorem eq_of_error {fault : Fault} (h : Alike R (.error fault) outcome') :
    outcome' = .error fault := by
  cases h
  rfl

theorem exists_of_ok {a : α} (h : Alike R (.ok a) outcome') : ∃ b, outcome' = .ok b ∧ R a b := by
  cases h with
  | ok h => exact ⟨_, rfl, h⟩

end Alike

end JarText
