import NextSQL.Lib.Update
import NextSQL.Row.Version

/-!
# The undo log in memory

An undo record holds the version a write replaced. The records of a transaction
are linked newest to oldest through `prev`; the log keeps the newest record of
each transaction (`internal/undo/log.go`). Record ids grow, and a link leads to
a smaller id, so the walks below take the log's next id as their fuel.
-/

namespace NextSQL.Undo

open Row

/-- What the write behind a record did. -/
inductive Kind where
  | insert
  | update
  | delete
  deriving DecidableEq, Repr

structure Record where
  id : UndoID
  txn : TxnID
  prev : UndoID
  kind : Kind
  pageID : PageID
  key : Key
  old : Version
  deriving DecidableEq, Repr

structure Log where
  nextID : UndoID
  recs : UndoID → Option Record
  byTxn : TxnID → UndoID

namespace Log

/-- A log without records. -/
def empty : Log where
  nextID := 1
  recs _ := none
  byTxn _ := 0

/-- Store a record under the next id. A record without a predecessor is linked
to the newest record known for its transaction id. -/
def append (l : Log) (r : Record) : Log × UndoID :=
  let id := l.nextID
  let r' := { r with id, prev := if r.prev = 0 then l.byTxn r.txn else r.prev }
  ({ nextID := id + 1
     recs := Function.update l.recs id (some r')
     byTxn := Function.update l.byTxn r.txn id }, id)

def get (l : Log) (id : UndoID) : Option Record := l.recs id

/-- The records from `head` on, newest first. -/
def chainFrom (recs : UndoID → Option Record) : Nat → UndoID → List Record
  | 0, _ => []
  | fuel + 1, head =>
    if head = 0 then []
    else
      match recs head with
      | none => []
      | some r => r :: chainFrom recs fuel r.prev

def chain (l : Log) (head : UndoID) : List Record := chainFrom l.recs l.nextID head

/-- What a rollback has to reverse: the records from `lastUndo` on, each with the
tree it was logged for (`targets`, oldest first), or nothing when the two do not
have the same length. -/
def undoWork (l : Log) (lastUndo : UndoID) (targets : List TreeID) :
    Option (List (TreeID × Record)) :=
  let recs := l.chain lastUndo
  if recs.length = targets.length then some (targets.reverse.zip recs) else none

/-- Drop the records from `head` on. -/
def dropFrom : Nat → (UndoID → Option Record) → UndoID → (UndoID → Option Record)
  | 0, recs, _ => recs
  | fuel + 1, recs, head =>
    if head = 0 then recs
    else
      match recs head with
      | none => recs
      | some r => dropFrom fuel (Function.update recs head none) r.prev

/-- Drop what memory holds of a transaction. -/
def forgetTxn (l : Log) (txn : TxnID) : Log :=
  if txn = 0 then l
  else
    { l with
      recs := dropFrom l.nextID l.recs (l.byTxn txn)
      byTxn := Function.update l.byTxn txn 0 }

end Log

end NextSQL.Undo
