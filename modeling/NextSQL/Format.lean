import Mathlib.Data.List.Lex
import NextSQL.Lib.Bytes

/-!
# Identifiers and byte strings

Keys are byte strings in the order of `bytes.Compare`: the lexicographic order
of their bytes, a proper prefix first. Identifiers are counters that start at
one; zero is reserved in each of them (page zero is the superblock, transaction
zero a row older than the version headers, undo record zero the end of a
chain).
-/

namespace NextSQL

/-- One byte. -/
abbrev Byte := Fin 256

/-- A byte string, ordered as `bytes.Compare` orders it. -/
abbrev Bytes := List Byte

instance : LawfulBEq Bytes := inferInstance

/-- A key of a tree or of the lock table. -/
abbrev Key := Bytes

/-- A transaction id. -/
abbrev TxnID := Nat

/-- An undo record id. -/
abbrev UndoID := Nat

/-- A page id. -/
abbrev PageID := Nat

/-- A tree of the database. -/
abbrev TreeID := Nat

/-- A log sequence number. -/
abbrev LSN := Nat

end NextSQL
