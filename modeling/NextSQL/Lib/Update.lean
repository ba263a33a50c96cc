import Mathlib.Logic.Function.Basic

/-!
# Values of an updated function

A value of an updated function is the new one at the updated place, or an old
one elsewhere.
-/

namespace Function

universe u v

theorem update_cases {α : Type u} {β : Type v} [DecidableEq α] {f : α → β} {a x : α} {b y : β}
    (value : update f a b x = y) : (x = a ∧ b = y) ∨ (x ≠ a ∧ f x = y) := by
  by_cases same : x = a
  · exact .inl ⟨same, by rw [← value, same, update_self]⟩
  · exact .inr ⟨same, by rw [← value, update_of_ne same]⟩

end Function
