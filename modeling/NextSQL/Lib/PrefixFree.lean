import Mathlib.Data.List.Forall2
import Mathlib.Data.List.Infix
import Mathlib.Data.List.Lex
import Mathlib.Order.Lattice

/-!
# Concatenations of prefix-free parts

Strings made of parts are compared symbol by symbol. When of two parts at the
same place neither is a proper prefix of the other, comparing the strings is
comparing the parts in turn: the first two parts that differ decide
(`append_lt_append_of_lt`).
-/

open List

namespace List

variable {α : Type*}

/-- Neither of two lists is a proper prefix of the other. -/
def Apart (p q : List α) : Prop := (p <+: q → p = q) ∧ (q <+: p → p = q)

variable {p q : List α}

theorem Apart.tail {a : α} (apart : Apart (a :: p) (a :: q)) : Apart p q := by
  constructor
  · intro inside
    exact (cons.inj (apart.1 (cons_prefix_cons.mpr ⟨rfl, inside⟩))).2
  · intro inside
    exact (cons.inj (apart.2 (cons_prefix_cons.mpr ⟨rfl, inside⟩))).2

theorem Apart.symm (apart : Apart p q) : Apart q p :=
  ⟨fun inside => (apart.2 inside).symm, fun inside => (apart.1 inside).symm⟩

/-- Parts that are apart and differ decide the order of what they begin. -/
theorem append_lt_append_of_lt [LinearOrder α] (apart : Apart p q) (lt : p < q) (r s : List α) :
    p ++ r < q ++ s := by
  induction p generalizing q with
  | nil =>
    cases apart.1 nil_prefix
    exact absurd lt (lt_irrefl _)
  | cons a p ih =>
    cases q with
    | nil => cases lt
    | cons b q =>
      obtain first | ⟨rfl, rest⟩ := cons_lt_cons_iff.mp lt
      · exact cons_lt_cons_iff.mpr (.inl first)
      · exact cons_lt_cons_iff.mpr (.inr ⟨rfl, ih apart.tail rest⟩)

theorem append_lt_append_iff [LinearOrder α] {r s : List α} : p ++ r < p ++ s ↔ r < s := by
  induction p with
  | nil => rfl
  | cons a p ih => rw [cons_append, cons_append, cons_lt_cons_self, ih]

/-- Parts that begin strings, one a prefix of the other, are equal if they are apart. -/
theorem Apart.eq_of_append_prefix {r s : List α} (apart : Apart p q) (inside : p ++ r <+: q ++ s) :
    p = q := by
  have both := prefix_or_prefix_of_prefix ((prefix_append p r).trans inside) (prefix_append q s)
  obtain left | right := both
  · exact apart.1 left
  · exact apart.2 right

/-- Strings of as many parts are apart if their parts are. -/
theorem Apart.flatten {ps qs : List (List α)} (parts : Forall₂ Apart ps qs) :
    Apart ps.flatten qs.flatten := by
  induction parts with
  | nil => exact ⟨fun _ => rfl, fun _ => rfl⟩
  | @cons p q ps qs apart _ ih =>
    rw [flatten_cons, flatten_cons]
    constructor
    · intro inside
      cases apart.eq_of_append_prefix inside
      rw [ih.1 ((prefix_append_right_inj p).mp inside)]
    · intro inside
      cases apart.symm.eq_of_append_prefix inside
      rw [ih.2 ((prefix_append_right_inj _).mp inside)]

end List
