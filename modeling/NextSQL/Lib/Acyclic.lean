import Mathlib.Logic.Relation

/-!
# Graphs without cycles

A graph is a relation between nodes. It stays free of cycles when edges are
taken away, and when edges are added that lead to nodes without edges
(`Acyclic.of_sinks`). Where the added edges all leave one node, a new cycle runs
through that node (`Acyclic.through`), and it consists of one added edge and a
walk along old ones (`walk_to_start`).
-/

namespace Graphs

open Relation

universe u

variable {α : Type u} {edge edge' : α → α → Prop}

/-- No walk comes back to where it began. -/
def Acyclic (edge : α → α → Prop) : Prop := ∀ a, ¬ TransGen edge a a

/-- Edges to nodes that have no edges themselves close no cycle. -/
theorem Acyclic.of_sinks (acyclic : Acyclic edge)
    (origin : ∀ {a b}, edge' a b → edge a b ∨ ∀ c, ¬ edge' b c) : Acyclic edge' := by
  -- a walk whose last node has an edge passes no sink
  have old : ∀ {a b c}, TransGen edge' a b → edge' b c → TransGen edge a b := by
    intro a b c walk next
    induction walk generalizing c with
    | single first =>
      obtain isOld | sink := origin first
      · exact .single isOld
      · exact absurd next (sink c)
    | tail _ last ih =>
      obtain isOld | sink := origin last
      · exact (ih last).tail isOld
      · exact absurd next (sink c)
  intro a cycle
  obtain ⟨b, first, -⟩ := TransGen.head'_iff.mp cycle
  exact acyclic a (old cycle first)

variable {start : α}

/-- A cycle that edges out of one node have closed runs through that node. -/
theorem Acyclic.through (acyclic : Acyclic edge)
    (origin : ∀ {a b}, edge' a b → a ≠ start → edge a b) {a : α} (cycle : TransGen edge' a a) :
    TransGen edge' start start := by
  have split : ∀ {b}, TransGen edge' a b →
      TransGen edge a b ∨ ReflTransGen edge' a start ∧ TransGen edge' start b := by
    intro b walk
    induction walk with
    | single first =>
      by_cases here : a = start
      · subst here
        exact .inr ⟨.refl, .single first⟩
      · exact .inl (.single (origin first here))
    | @tail b c walk last ih =>
      obtain isOld | ⟨before, after⟩ := ih
      · by_cases here : b = start
        · subst here
          exact .inr ⟨walk.to_reflTransGen, .single last⟩
        · exact .inl (isOld.tail (origin last here))
      · exact .inr ⟨before, after.tail last⟩
  obtain isOld | ⟨before, after⟩ := split cycle
  · exact absurd isOld (acyclic a)
  · exact after.trans_left before

/-- A walk to the node needs old edges only. -/
theorem walk_to_start (origin : ∀ {a b}, edge' a b → a ≠ start → edge a b) {a : α}
    (walk : ReflTransGen edge' a start) : ReflTransGen edge a start := by
  induction walk using ReflTransGen.head_induction_on with
  | refl => exact .refl
  | @head b c step _ ih =>
    by_cases here : b = start
    · subst here
      exact .refl
    · exact ih.head (origin step here)

end Graphs
