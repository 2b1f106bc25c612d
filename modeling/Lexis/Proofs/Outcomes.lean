/-!
# Outcomes that agree

Two readings of two texts, or two runs, are compared by their outcomes: they succeed together, with
related values, or fail together, with related errors.
-/

namespace Lexis

/-- Two outcomes agree: both are values, or both are errors, and they are related. -/
inductive Agree {α β ε δ : Type} (R : α → β → Prop) (S : ε → δ → Prop) :
    Except ε α → Except δ β → Prop
  | ok {a : α} {b : β} : R a b → Agree R S (.ok a) (.ok b)
  | error {e : ε} {d : δ} : S e d → Agree R S (.error e) (.error d)

namespace Agree

section

variable {α β ε δ : Type} {R : α → β → Prop} {S : ε → δ → Prop}

theorem of_ok {a : α} {y : Except δ β} (h : Agree R S (.ok a) y) : ∃ b, y = .ok b ∧ R a b := by
  cases h with
  | ok hR => exact ⟨_, rfl, hR⟩

theorem of_error {e : ε} {y : Except δ β} (h : Agree R S (.error e) y) :
    ∃ d, y = .error d ∧ S e d := by
  cases h with
  | error hS => exact ⟨_, rfl, hS⟩

theorem imp {R' : α → β → Prop} {S' : ε → δ → Prop} {x : Except ε α} {y : Except δ β}
    (h : Agree R S x y) (hR : ∀ a b, R a b → R' a b) (hS : ∀ e d, S e d → S' e d) :
    Agree R' S' x y := by
  cases h with
  | ok h => exact .ok (hR _ _ h)
  | error h => exact .error (hS _ _ h)

theorem map {γ ζ : Type} {R' : γ → ζ → Prop} {x : Except ε α} {y : Except δ β} {f : α → γ}
    {g : β → ζ} (h : Agree R S x y) (hR : ∀ a b, R a b → R' (f a) (g b)) :
    Agree R' S (x.map f) (y.map g) := by
  cases h with
  | ok h => exact .ok (hR _ _ h)
  | error h => exact .error h

end

theorem refl {α ε : Type} {R : α → α → Prop} {S : ε → ε → Prop} (hR : ∀ a, R a a)
    (hS : ∀ e, S e e) (x : Except ε α) : Agree R S x x := by
  cases x with
  | ok a => exact .ok (hR a)
  | error e => exact .error (hS e)

end Agree

end Lexis
