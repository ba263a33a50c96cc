import Mathlib.Data.List.Forall2

/-!
# Results of fallible code

One step of a fallible computation, and of one that also changes a state: what
follows from how the first part ended. Proofs about such code take it apart
with these lemmas, step by step, and do not unfold the monads.
-/

universe u v

theorem Except.bind_eq_ok_iff {ε α β : Type u} {x : Except ε α} {f : α → Except ε β} {b : β} :
    (x >>= f) = .ok b ↔ ∃ a, x = .ok a ∧ f a = .ok b := by
  cases x with
  | error e =>
    constructor
    · rintro ⟨⟩
    · rintro ⟨a, ⟨⟩, -⟩
  | ok a =>
    constructor
    · exact fun done => ⟨a, rfl, done⟩
    · rintro ⟨a, ⟨⟩, done⟩
      exact done

/-- A computation that begins with a check succeeds if the check does not fail and
the rest of it succeeds. -/
theorem Except.check_eq_ok_iff {ε α β : Type u} {c : Prop} [Decidable c] {e : ε}
    {f : β → Except ε α} {x : Except ε α} {a : α} :
    (if c then Bind.bind (throw e) f else x) = .ok a ↔ ¬ c ∧ x = .ok a := by
  split
  · rename_i failed
    exact ⟨nofun, fun passed => absurd failed passed.1⟩
  · rename_i passed
    exact ⟨fun done => ⟨passed, done⟩, fun both => both.2⟩

/-- The same for a check that is followed by no bind. -/
theorem Except.ite_error_eq_ok_iff {ε : Type u} {α : Type v} {c : Prop} [Decidable c] {e : ε}
    {x : Except ε α} {a : α} : (if c then .error e else x) = .ok a ↔ ¬ c ∧ x = .ok a := by
  split
  next failed => exact ⟨nofun, fun passed => absurd failed passed.1⟩
  next passed => exact ⟨fun done => ⟨passed, done⟩, fun both => both.2⟩

/-- A list of fallible computations succeeds with the list of their results. -/
theorem List.mapM_eq_some_iff {α β : Type} {f : α → Option β} {xs : List α} {ys : List β} :
    xs.mapM f = some ys ↔ List.Forall₂ (fun x y => f x = some y) xs ys := by
  induction xs generalizing ys with
  | nil =>
    constructor
    · rintro ⟨⟩
      exact .nil
    · rintro ⟨⟩
      rfl
  | cons x rest ih =>
    rw [List.mapM_cons]
    constructor
    · intro done
      obtain ⟨first, value, more⟩ := Option.bind_eq_some_iff.mp done
      obtain ⟨others, values, same⟩ := Option.bind_eq_some_iff.mp more
      cases same
      exact .cons value (ih.mp values)
    · intro every
      cases every with
      | cons value values =>
        exact Option.bind_eq_some_iff.mpr
          ⟨_, value, Option.bind_eq_some_iff.mpr ⟨_, ih.mpr values, rfl⟩⟩

/-- Every element of the first of two related lists has a partner in the second. -/
theorem List.Forall₂.exists_right {α β : Type} {R : α → β → Prop} {xs : List α} {ys : List β}
    (related : List.Forall₂ R xs ys) {x : α} (member : x ∈ xs) : ∃ y ∈ ys, R x y := by
  induction related with
  | nil => cases member
  | cons here _ ih =>
    obtain rfl | later := List.mem_cons.mp member
    · exact ⟨_, List.mem_cons_self, here⟩
    · obtain ⟨y, inside, rest⟩ := ih later
      exact ⟨y, List.mem_cons_of_mem _ inside, rest⟩

namespace EStateM

variable {ε σ α β : Type u} {x : EStateM ε σ α} {f : α → EStateM ε σ β} {s s' : σ}

theorem bind_of_ok {a : α} (first : x s = .ok a s') : (x >>= f) s = f a s' := by
  change EStateM.bind x f s = _
  rw [EStateM.bind, first]

theorem bind_of_error {e : ε} (first : x s = .error e s') : (x >>= f) s = .error e s' := by
  change EStateM.bind x f s = _
  rw [EStateM.bind, first]

end EStateM
