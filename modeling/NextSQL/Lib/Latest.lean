import Mathlib.Data.List.Basic

/-!
# The last value a list gives

Replaying a log keeps, for a piece of state that is overwritten as a whole, the
value of the last record that gives one. `List.latest f xs` is that value. Over
an append the second part decides, and the first only where the second is
silent.
-/

namespace List

universe u v

variable {α : Type u} {β : Type v} {f g : α → Option β} {xs ys : List α}

/-- The value of the last element that gives one. -/
def latest (f : α → Option β) (xs : List α) : Option β := xs.reverse.findSome? f

theorem latest_append : latest f (xs ++ ys) = (latest f ys).or (latest f xs) := by
  rw [latest, reverse_append, findSome?_append]
  rfl

@[simp] theorem latest_singleton {x : α} : latest f [x] = f x := by
  cases value : f x <;> simp [latest, value]

theorem latest_cons {x : α} : latest f (x :: xs) = (latest f xs).or (f x) := by
  rw [← singleton_append, latest_append, latest_singleton]

theorem latest_eq_none_iff : latest f xs = none ↔ ∀ x ∈ xs, f x = none := by
  rw [latest, findSome?_eq_none_iff]
  simp

theorem exists_of_latest {b : β} (found : latest f xs = some b) : ∃ x ∈ xs, f x = some b := by
  obtain ⟨x, member, value⟩ := exists_of_findSome?_eq_some found
  exact ⟨x, mem_reverse.mp member, value⟩

theorem latest_congr (same : ∀ x ∈ xs, f x = g x) : latest f xs = latest g xs := by
  induction xs with
  | nil => rfl
  | cons x rest ih =>
    rw [latest_cons, latest_cons, same x mem_cons_self,
      ih fun y member => same y (mem_cons_of_mem x member)]

/-- Elements that give nothing can be appended. -/
theorem latest_append_silent (silent : ∀ y ∈ ys, f y = none) :
    latest f (xs ++ ys) = latest f xs := by
  rw [latest_append, latest_eq_none_iff.mpr silent]
  rfl

/-- A value found behind some point is found without what stands before. -/
theorem latest_drop {n : Nat} (found : (latest f (xs.drop n)).isSome) :
    latest f xs = latest f (xs.drop n) := by
  obtain ⟨b, value⟩ := Option.isSome_iff_exists.mp found
  calc latest f xs = latest f (xs.take n ++ xs.drop n) := by rw [take_append_drop]
    _ = latest f (xs.drop n) := by rw [latest_append, value]; rfl

end List
