import NextSQL.Format

/-!
# Row versions

A leaf value is a row version: who created it, who deleted it, the undo record
that holds the version before it, and the payload (`internal/storage/row`). A
value without the version header is a row from before versioning; it counts as
committed data that no transaction wrote.
-/

namespace NextSQL.Row

/-- One row version. -/
structure Version where
  xmin : TxnID
  xmax : TxnID
  undo : UndoID
  payload : Bytes
  deriving DecidableEq, Repr

/-- The zero value of a version around a payload. -/
def Version.bare (payload : Bytes) : Version := { xmin := 0, xmax := 0, undo := 0, payload }

/-- The transaction that wrote the version last: the one that deleted the row,
or else the one that created it. -/
def Version.writer (v : Version) : TxnID := if v.xmax = 0 then v.xmin else v.xmax

/-- A leaf value, as `Inspect` tells the two kinds apart. -/
inductive Stored where
  | plain (payload : Bytes)
  | versioned (version : Version)
  deriving DecidableEq, Repr

/-- The version a leaf value stands for. -/
def Stored.version : Stored → Version
  | .plain payload => .bare payload
  | .versioned version => version

/-- Whether the value carries the version header. -/
def Stored.has : Stored → Bool
  | .plain _ => false
  | .versioned _ => true

end NextSQL.Row
