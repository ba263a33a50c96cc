import NextSQL.Mvcc.Engine

/-!
# Version chains

A row's versions form a chain: the undo record a version names holds the
version before it. What a reader sees in a row depends on the transactions it
sees, and is computed by walking the chain (`walkVersions`). Undo ids shrink
along the walk, so the walk ends; `view` is its result, with the equation that
the source's loop suggests (`view_eq`).
-/

namespace NextSQL.Mvcc

open Row Undo Option

/-- The undo links of the records lead to smaller ids. -/
def Descending (recs : UndoID → Option Record) : Prop :=
  ∀ ⦃u : UndoID⦄ ⦃r : Record⦄, recs u = some r → r.old.undo < u

/-- What a reader that sees the transactions `sees` reads in a version. -/
def view (recs : UndoID → Option Record) (sees : TxnID → Bool) (v : Version) : Option Bytes :=
  walkVersions recs sees (v.undo + 1) v

/-- What such a reader reads under a key. -/
def viewRow (recs : UndoID → Option Record) (sees : TxnID → Bool) (row : Option Version) :
    Option Bytes :=
  row.bind (view recs sees)

/-- What the reversal of a record leaves behind. -/
def target (r : Record) : Option Version :=
  if r.kind = .insert then none else some r.old

variable {recs recs' : UndoID → Option Record} {sees : TxnID → Bool}

/-- Fuel beyond the version's undo id changes nothing. -/
theorem walkVersions_fuel (descending : Descending recs) :
    ∀ {fuel : Nat} {v : Version}, v.undo < fuel →
      walkVersions recs sees fuel v = view recs sees v := by
  intro fuel
  induction fuel using Nat.strong_induction_on with
  | _ fuel ih =>
    intro v enough
    obtain ⟨fuel, rfl⟩ : ∃ n, fuel = n + 1 := ⟨fuel - 1, by lia⟩
    unfold view
    simp only [walkVersions]
    split
    · rfl
    split
    · rfl
    cases found : recs v.undo with
    | none => rfl
    | some r =>
      have smaller := descending found
      dsimp only
      split
      · rfl
      have atFuel : walkVersions recs sees fuel r.old = view recs sees r.old :=
        ih fuel (by lia) (by lia)
      have atUndo : walkVersions recs sees v.undo r.old = view recs sees r.old :=
        ih v.undo enough smaller
      rw [atFuel, atUndo]

/-- The loop of the source: read the version if its creator is seen, and else go
on with the version before it. -/
theorem view_eq (descending : Descending recs) (v : Version) : view recs sees v =
      if sees v.xmin then
        if v.xmax = 0 ∨ sees v.xmax = false then some v.payload else none
      else if v.undo = 0 then none
      else (recs v.undo).bind fun r => viewRow recs sees (target r) := by
  conv_lhs => rw [view, walkVersions]
  split
  · rfl
  split
  · rfl
  cases found : recs v.undo with
  | none => rfl
  | some r =>
    simp only [bind_some, target]
    split
    · rfl
    · exact walkVersions_fuel descending (descending found)

theorem view_of_seen {v : Version} (seen : sees v.xmin) :
    view recs sees v = if v.xmax = 0 ∨ sees v.xmax = false then some v.payload else none := by
  rw [view, walkVersions, if_pos seen]

theorem view_of_unlinked {v : Version} (unseen : sees v.xmin = false) (unlinked : v.undo = 0) :
    view recs sees v = none := by
  rw [view, walkVersions, if_neg (by simp [unseen]), if_pos unlinked]

/-- Two logs show the same below an id if they agree below it. -/
theorem view_congr (descending : Descending recs) (descending' : Descending recs')
    {bound : UndoID} (same : ∀ u, u < bound → recs' u = recs u) :
    ∀ {v : Version}, v.undo < bound → view recs' sees v = view recs sees v := by
  intro v
  induction undo : v.undo using Nat.strong_induction_on generalizing v with
  | _ n ih =>
    intro below
    rw [view_eq descending, view_eq descending', undo, same n below]
    by_cases seen : sees v.xmin
    · rw [if_pos seen, if_pos seen]
    rw [if_neg seen, if_neg seen]
    by_cases unlinked : n = 0
    · rw [if_pos unlinked, if_pos unlinked]
    rw [if_neg unlinked, if_neg unlinked]
    cases found : recs n with
    | none => rfl
    | some r =>
      have smaller := descending found
      simp only [bind_some, viewRow, target]
      split
      · rfl
      · exact ih r.old.undo smaller rfl (by lia)

/-- A log from which records were dropped shows the same to a reader that never
needs a dropped one. `needs` collects the versions the walk can meet. -/
theorem view_drop (descending : Descending recs) (descending' : Descending recs')
    (needs : Version → Prop)
    (closed : ∀ {v r}, needs v → recs v.undo = some r → r.kind ≠ .insert → needs r.old)
    (kept : ∀ {v r}, needs v → sees v.xmin = false → recs v.undo = some r → recs' v.undo = some r)
    (absent : ∀ {u}, recs u = none → recs' u = none) :
    ∀ {v : Version}, needs v → view recs' sees v = view recs sees v := by
  intro v
  induction undo : v.undo using Nat.strong_induction_on generalizing v with
  | _ n ih =>
    intro needed
    rw [view_eq descending, view_eq descending', undo]
    cases seen : sees v.xmin with
    | true => rfl
    | false =>
      by_cases unlinked : n = 0
      · simp [unlinked]
      simp only [Bool.false_eq_true, if_false, if_neg unlinked]
      cases found : recs n with
      | none => rw [absent found, bind_none, bind_none]
      | some r =>
        rw [← undo] at found
        have found' := kept needed seen found
        rw [undo] at found found'
        rw [found']
        simp only [bind_some, viewRow, target]
        by_cases inserted : r.kind = .insert
        · rw [if_pos inserted, bind_none, bind_none]
        rw [if_neg inserted, bind_some, bind_some]
        refine ih r.old.undo (descending found) rfl (closed needed ?_ inserted)
        rw [undo]
        exact found

end NextSQL.Mvcc
