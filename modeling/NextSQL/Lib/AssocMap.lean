import Mathlib.Data.List.AList

/-!
# Finite maps that are walked entry by entry

A finite map is an association list without duplicate keys. Code that ranges
over a map is a test of all its entries, or a pass that rewrites each value and
drops some of them. The lemmas say what such code does in terms of lookups, so
that no proof depends on the order of the entries.
-/

namespace AList

universe u v

variable {α : Type u} {β : Type v}

section Tests

variable [DecidableEq α]

theorem all_entries_iff (s : AList fun _ : α => β) (test : α → β → Bool) :
    (s.entries.all fun e => test e.1 e.2) = true ↔
      ∀ a b, s.lookup a = some b → test a b := by
  rw [List.all_eq_true]
  constructor
  · intro every a b found
    exact every ⟨a, b⟩ (mem_lookup_iff.mp found)
  · rintro every ⟨a, b⟩ member
    exact every a b (mem_lookup_iff.mpr member)

theorem eq_of_lookup_insert_empty {a a' : α} {b b' : β}
    (found : ((∅ : AList fun _ : α => β).insert a' b').lookup a = some b) : a' = a ∧ b' = b := by
  by_cases here : a = a'
  · subst here
    rw [lookup_insert] at found
    exact ⟨rfl, Option.some.inj found⟩
  · rw [lookup_insert_ne here, lookup_empty] at found
    cases found

end Tests

/-! ## Passes -/

/-- The entries a pass keeps, each with the value the pass gives it. -/
def keepEntries (f : α → β → Option β) (entries : List (Sigma fun _ : α => β)) :
    List (Sigma fun _ : α => β) :=
  entries.filterMap fun e => (f e.1 e.2).map fun b => ⟨e.1, b⟩

theorem keys_keepEntries_sublist (f : α → β → Option β) :
    ∀ entries : List (Sigma fun _ : α => β), (keepEntries f entries).keys.Sublist entries.keys
  | [] => List.Sublist.refl _
  | ⟨a, b⟩ :: rest => by
    have tail := keys_keepEntries_sublist f rest
    cases kept : f a b with
    | none =>
      simp only [keepEntries, List.filterMap_cons, kept, Option.map_none, List.keys_cons]
      exact tail.cons a
    | some b' =>
      simp only [keepEntries, List.filterMap_cons, kept, Option.map_some, List.keys_cons]
      exact tail.cons_cons a

/-- One pass over a map: `f` gives each key its new value, or drops it. -/
def filterMapVal (f : α → β → Option β) (s : AList fun _ : α => β) : AList fun _ : α => β where
  entries := keepEntries f s.entries
  nodupKeys := (keys_keepEntries_sublist f s.entries).nodup s.nodupKeys

theorem mem_keepEntries {f : α → β → Option β} {entries : List (Sigma fun _ : α => β)}
    {a : α} {b : β} :
    (⟨a, b⟩ : Sigma fun _ : α => β) ∈ keepEntries f entries ↔
      ∃ old, (⟨a, old⟩ : Sigma fun _ : α => β) ∈ entries ∧ f a old = some b := by
  simp only [keepEntries, List.mem_filterMap, Option.map_eq_some_iff]
  constructor
  · rintro ⟨⟨a', old⟩, member, b', kept, same⟩
    cases same
    exact ⟨old, member, kept⟩
  · rintro ⟨old, member, kept⟩
    exact ⟨⟨a, old⟩, member, b, kept, rfl⟩

section Lookups

variable [DecidableEq α]

/-- After a pass each key has the value the pass gives its old value. -/
@[simp] theorem lookup_filterMapVal (f : α → β → Option β) (s : AList fun _ : α => β) (a : α) :
    (filterMapVal f s).lookup a = (s.lookup a).bind (f a) := by
  ext b
  rw [Option.bind_eq_some_iff]
  constructor
  · intro found
    obtain ⟨old, member, kept⟩ := mem_keepEntries.mp (mem_lookup_iff.mp found)
    exact ⟨old, mem_lookup_iff.mpr member, kept⟩
  · rintro ⟨old, found, kept⟩
    exact mem_lookup_iff.mpr (mem_keepEntries.mpr ⟨old, mem_lookup_iff.mp found, kept⟩)

theorem lookup_insert_if (s : AList fun _ : α => β) (a a' : α) (b : β) :
    (s.insert a b).lookup a' = if a' = a then some b else s.lookup a' := by
  by_cases same : a' = a
  · subst same
    simp
  · simp [same, lookup_insert_ne same]

theorem lookup_erase_if (s : AList fun _ : α => β) (a a' : α) :
    (s.erase a).lookup a' = if a' = a then none else s.lookup a' := by
  by_cases same : a' = a
  · subst same
    simp
  · simp [same, lookup_erase_ne same]

end Lookups

/-! ## Sums over the entries -/

end AList
