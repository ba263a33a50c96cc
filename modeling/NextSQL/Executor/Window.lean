import NextSQL.Lib.Result
import NextSQL.Sql.Expr

/-!
# Window functions over spilled rows

When the memory for the window functions of a query runs out, the rows are written to 16 parts by
a hash of their partition keys, and each part is evaluated on its own. A row comes back as one JSON
value that holds all of the encoded row, so that no column is left to evaluate; and a part that
cannot be read is passed over.
-/

namespace NextSQL.Executor

open Sql List

/-- What `Apply` does apart from spilling, and what becomes of spilled rows. -/
structure Windows (D : Type) where
  /-- The window values of the rows, or an error and the values there were by then. -/
  runGroups : List (Row D) → Except (Nerr × List (Row D)) (List (Row D))
  sharedPartition : Bool
  /-- The hash of the partition keys of a row. -/
  part : Row D → Fin 16
  writeError : List (Row D) → Option Nerr
  readError : Fin 16 → Option Nerr
  /-- The encoded row and its place as a JSON value. -/
  json : Row D × ℕ → Value D

namespace Windows

variable {D : Type} (w : Windows D)

/-- `Spill.Read`: a row of a part is a single value. -/
def read (rows : List (Row D)) (p : Fin 16) : Except Nerr (List (Row D)) :=
  match w.readError p with
  | some err => .error err
  | none => .ok ((rows.zipIdx.filter (w.part ·.1 = p)).map fun r => [w.json r])

/-- One part is evaluated without the last value of its rows. That is no decimal, so that every
row counts as the first one. -/
def runPart (rows results : List (Row D)) (p : Fin 16) : Except Nerr (List (Row D)) :=
  match w.read rows p with
  | .error _ | .ok [] => .ok results
  | .ok partRows =>
    match w.runGroups (partRows.map dropLast) with
    | .error (err, _) => .error err
    | .ok localResults => .ok (localResults.foldl (·.set 0) results)

def runSpilled (rows results : List (Row D)) : Except Nerr (List (Row D)) :=
  match w.writeError rows with
  | some err => .error err
  | none => (finRange 16).foldlM (w.runPart rows) results

/-- `Apply` with a budget and at least one window. -/
def apply (rows : List (Row D)) : Except Nerr (List (Row D)) :=
  if rows = [] then .ok rows
  else
    match w.runGroups rows with
    | .ok results => .ok (zipWith (· ++ ·) rows results)
    | .error (err, results) =>
      if err.code = .exhausted ∧ w.sharedPartition = true then
        match w.runSpilled rows results with
        | .ok results => .ok (zipWith (· ++ ·) rows results)
        | .error serr => .error (if serr.code = .exhausted then err else serr)
      else .error err

variable {w} {rows results out : List (Row D)}

theorem runPart_of_foldlM {l : List (Fin 16)} (done : l.foldlM (w.runPart rows) results = .ok out)
    {p : Fin 16} (member : p ∈ l) : ∃ before after, w.runPart rows before p = .ok after := by
  induction l generalizing results with
  | nil => cases member
  | cons q rest ih =>
    rw [foldlM_cons] at done
    obtain ⟨next, here, done⟩ := Except.bind_eq_ok_iff.mp done
    obtain rfl | later := mem_cons.mp member
    · exact ⟨results, next, here⟩
    · exact ih done later

variable (reads : ∀ p, w.readError p = none)
  (columns : ∀ n, ∃ err, w.runGroups (replicate (n + 1) []) = .error err)

include reads columns

/-- The part of the first row is evaluated on rows without columns. -/
theorem runSpilled_fails (row : Row D) : w.runSpilled (row :: rows) results ≠ .ok out := by
  intro done
  unfold runSpilled at done
  split at done
  · cases done
  obtain ⟨before, after, ran⟩ := runPart_of_foldlM done (mem_finRange (w.part row))
  obtain ⟨others, found⟩ : ∃ others, (row :: rows).zipIdx.filter (w.part ·.1 = w.part row) =
      (row, 0) :: others := ⟨_, filter_cons_of_pos (decide_eq_true rfl)⟩
  obtain ⟨err, fails⟩ := columns others.length
  have bare : (others.map fun r => [w.json r]).map dropLast = replicate others.length [] := by
    simp [Function.comp_def]
  rw [runPart, read, reads, found, map_cons] at ran
  dsimp only at ran
  rw [map_cons, bare, dropLast_singleton, ← replicate_succ, fails] at ran
  cases ran

omit reads columns

/-- A query on rows with columns; without memory for it, there is no I/O left for it either. -/
def query (memory : Bool) : Windows Byte where
  runGroups rows :=
    if memory = true ∧ [] ∉ rows then .ok rows
    else .error (⟨.exhausted, "scheduler.Budget", "memory budget exceeded"⟩,
      rows.map fun _ => [.zero])
  sharedPartition := true
  part _ := 0
  writeError _ := none
  readError _ :=
    if memory then none else some ⟨.exhausted, "scheduler.Budget", "I/O budget exceeded"⟩
  json _ := .data ⟨.json, 0, 0⟩ 0

end Windows

end NextSQL.Executor
