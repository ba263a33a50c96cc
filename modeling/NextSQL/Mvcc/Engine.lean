import NextSQL.Txn.Manager
import NextSQL.Undo.Log

/-!
# Transactions over versioned rows

The row-level behaviour of `internal/storage/btree/txn.go` and `mvcc.go` with
the transaction bookkeeping of `internal/storage/engine.go`: writes that leave
an undo record behind, reads that walk the versions back, rollback record by
record, and the cleaning up after a commit. A tree is the map from its keys to
leaf values; how the map is laid out on pages is modelled elsewhere.

A write is two steps, as in the source. `lockWrite` takes the key lock, or
skips it when the transaction is the only running one; later the write itself
runs under the tree's mutex. Rollback reverses one record at a time, each under
the mutex, so other transactions run in between. After a commit the goroutine
checks that no snapshot is live and then acts on it; the check and the action
are two steps.
-/

namespace NextSQL.Mvcc

open Function (update)
open Row Undo Txn

/-- A key of a tree. -/
abbrev Cell := TreeID × Key

/-- A reversal that is under way: the records still to be reversed, newest
first, each with the tree it belongs to. -/
structure Undoing where
  pending : List (TreeID × Record)
  full : Bool
  deriving DecidableEq, Repr

/-- The engine's record of a running write transaction. -/
structure Writer where
  lastUndo : UndoID
  /-- The tree of each undo record, oldest first. -/
  liveTargets : List TreeID
  deleted : List Cell
  /-- The key whose lock `lockWrite` skipped for the write under way. -/
  pass : Option Key
  undoing : Option Undoing
  deriving DecidableEq, Repr

/-- Where the goroutine of a committed transaction is. -/
inductive Cleanup where
  | checkForget (deleted : List Cell)
  | forget (deleted : List Cell)
  | checkPurge (parts : List (TreeID × List Key))
  | purge (tree : TreeID) (batch rest : List Key) (parts : List (TreeID × List Key))
  deriving DecidableEq, Repr

structure Engine where
  tm : Manager
  undo : Log
  rows : Cell → Option Stored
  writers : TxnID → Option Writer
  finishing : TxnID → Option Cleanup

/-! ## Reading -/

/-- Walk the versions of a row back to the first one that is seen. -/
def walkVersions (recs : UndoID → Option Record) (sees : TxnID → Bool) :
    Nat → Version → Option Bytes
  | 0, _ => none
  | fuel + 1, v =>
    if sees v.xmin then
      if v.xmax = 0 ∨ sees v.xmax = false then some v.payload else none
    else if v.undo = 0 then none
    else
      match recs v.undo with
      | none => none
      | some rec => if rec.kind = .insert then none else walkVersions recs sees fuel rec.old

namespace Engine

def sees (db : Engine) (snap : Snapshot) (xid : TxnID) : Bool := snap.sees xid db.tm.statusOf

/-- The payload a snapshot sees in a leaf value. Undo ids shrink along the
walk, so the fuel covers it. -/
def visiblePayload (db : Engine) (raw : Stored) (snap : Snapshot) : Option Bytes :=
  match raw with
  | .plain payload => some payload
  | .versioned v => walkVersions db.undo.recs (db.sees snap) (v.undo + 1) v

/-- The payload a snapshot sees under a key. -/
def lookup (db : Engine) (cell : Cell) (snap : Snapshot) : Option Bytes :=
  (db.rows cell).bind fun raw => db.visiblePayload raw snap

/-! ## Writing -/

inductive WriteError where
  | alreadyExists
  | notFound
  | serialization
  deriving DecidableEq, Repr

def put (db : Engine) (cell : Cell) (v : Version) : Engine :=
  { db with rows := update db.rows cell (some (.versioned v)) }

def logUndo (db : Engine) (id : TxnID) (tree : TreeID) (kind : Kind) (leaf : PageID) (key : Key)
    (old : Version) : Engine × UndoID :=
  match db.writers id with
  | none => (db, 0)
  | some w =>
    let logged := db.undo.append
      { id := 0, txn := id, prev := w.lastUndo, kind, pageID := leaf, key, old }
    ({ db with
        undo := logged.1
        writers := update db.writers id
          (some { w with lastUndo := logged.2, liveTargets := w.liveTargets ++ [tree] }) },
      logged.2)

/-- The version under the key was created by another transaction that is still
running. -/
def conflictsWithLiveWriter (db : Engine) (id : TxnID) (raw : Stored) : Bool :=
  raw.has && raw.version.xmin != 0 && raw.version.xmin != id &&
    db.tm.statusOf raw.version.xmin == .inProgress

/-- At snapshot isolation and above: the version under the key was created by
another transaction that committed unseen. -/
def conflictsWithCommit (db : Engine) (id : TxnID) (raw : Stored) (snap : Snapshot) : Bool :=
  (match db.tm.active.lookup id with
    | none => false
    | some h => decide (Isolation.snapshotIsolation.level ≤ h.iso.level)) &&
  raw.has && raw.version.xmin != id && !db.sees snap raw.version.xmin &&
    db.tm.statusOf raw.version.xmin == .committed

def insertAt (db : Engine) (id : TxnID) (tree : TreeID) (leaf : PageID) (key : Key)
    (value : Bytes) (snap : Snapshot) : Except WriteError Engine :=
  match db.rows (tree, key) with
  | some raw =>
    if (db.visiblePayload raw snap).isSome then .error .alreadyExists
    else if db.conflictsWithLiveWriter id raw then .error .serialization
    else if db.conflictsWithCommit id raw snap then .error .serialization
    else
      let kind := if raw.has then Kind.update else Kind.insert
      let logged := db.logUndo id tree kind leaf key raw.version
      .ok (logged.1.put (tree, key) { xmin := id, xmax := 0, undo := logged.2, payload := value })
  | none =>
    let logged := db.logUndo id tree .insert leaf key (.bare [])
    .ok (logged.1.put (tree, key) { xmin := id, xmax := 0, undo := logged.2, payload := value })

def updateAt (db : Engine) (id : TxnID) (tree : TreeID) (leaf : PageID) (key : Key)
    (value : Bytes) (snap : Snapshot) : Except WriteError Engine :=
  match db.rows (tree, key) with
  | none => .error .notFound
  | some raw =>
    if (db.visiblePayload raw snap).isNone then .error .notFound
    else if db.conflictsWithLiveWriter id raw then .error .serialization
    else if db.conflictsWithCommit id raw snap then .error .serialization
    else
      let logged := db.logUndo id tree .update leaf key raw.version
      .ok (logged.1.put (tree, key) { xmin := id, xmax := 0, undo := logged.2, payload := value })

def noteDeleted (db : Engine) (id : TxnID) (cell : Cell) : Engine :=
  match db.writers id with
  | none => db
  | some w =>
    { db with
      writers := update db.writers id (some { w with deleted := w.deleted ++ [cell] }) }

def deleteAt (db : Engine) (id : TxnID) (tree : TreeID) (leaf : PageID) (key : Key)
    (snap : Snapshot) : Except WriteError Engine :=
  match db.rows (tree, key) with
  | none => .error .notFound
  | some raw =>
    if (db.visiblePayload raw snap).isNone then .error .notFound
    else if db.conflictsWithLiveWriter id raw then .error .serialization
    else if db.conflictsWithCommit id raw snap then .error .serialization
    else
      let logged := db.logUndo id tree .delete leaf key raw.version
      let db' := logged.1.noteDeleted id (tree, key)
      .ok (db'.put (tree, key)
        { xmin := raw.version.xmin, xmax := id, undo := logged.2, payload := raw.version.payload })

/-- The three row writes. -/
inductive Action where
  | insert (value : Bytes)
  | update (value : Bytes)
  | delete
  deriving DecidableEq, Repr

def write (db : Engine) (id : TxnID) (tree : TreeID) (leaf : PageID) (key : Key)
    (action : Action) (snap : Snapshot) : Except WriteError Engine :=
  match action with
  | .insert value => db.insertAt id tree leaf key value snap
  | .update value => db.updateAt id tree leaf key value snap
  | .delete => db.deleteAt id tree leaf key snap

/-- Bulk load: rows without undo records, up to the first key that is present. -/
def insertBatch (db : Engine) (id : TxnID) (tree : TreeID) : List (Key × Bytes) → Engine
  | [] => db
  | (key, value) :: more =>
    if (db.rows (tree, key)).isSome then db
    else
      (db.put (tree, key) { xmin := id, xmax := 0, undo := 0, payload := value }).insertBatch
        id tree more

/-- Bulk rewrite: every listed row that the snapshot sees gets its new payload,
without an undo record and without a conflict check. -/
def patchVisible (db : Engine) (id : TxnID) (tree : TreeID) (snap : Snapshot) :
    List (Key × Bytes) → Engine
  | [] => db
  | (key, value) :: more =>
    if (db.lookup (tree, key) snap).isSome then
      (db.put (tree, key) { xmin := id, xmax := 0, undo := 0, payload := value }).patchVisible
        id tree snap more
    else db.patchVisible id tree snap more

/-! ## Locks -/

/-- Take the key lock of a write, or skip it. -/
def lockWrite (db : Engine) (id : TxnID) (key : Key) (tag : String) : Engine :=
  match db.tm.active.lookup id, db.writers id with
  | some h, some w =>
    if h.iso.level < Isolation.serializable.level ∧ db.tm.activeCount ≤ 1 ∧
        db.tm.onlineBuildActive = false then
      { db with writers := update db.writers id (some { w with pass := some key }) }
    else
      { db with
        tm := { db.tm with locks := (db.tm.locks.acquire id key .exclusive tag).1 } }
  | _, _ => db

/-- The transaction has been through `lockWrite` for the key. -/
def cleared (db : Engine) (id : TxnID) (key : Key) : Bool :=
  (match db.writers id with
    | none => false
    | some w => w.pass == some key) ||
  db.tm.locks.heldMode id key == some .exclusive

def clearPass (db : Engine) (id : TxnID) : Engine :=
  match db.writers id with
  | none => db
  | some w => { db with writers := update db.writers id (some { w with pass := none }) }

/-! ## Rollback -/

/-- What the reversal of a record leaves under its key. -/
def restored (rec : Record) : Option Stored :=
  match rec.kind with
  | .insert => none
  | .update => some (.versioned rec.old)
  | .delete => some (.versioned rec.old)

def applyUndoRec (db : Engine) (tree : TreeID) (rec : Record) : Engine :=
  { db with rows := update db.rows (tree, rec.key) (restored rec) }

/-- The records of a transaction with their trees, newest first. -/
def undoWork (db : Engine) (w : Writer) : Option (List (TreeID × Record)) :=
  db.undo.undoWork w.lastUndo w.liveTargets

def setUndoing (db : Engine) (id : TxnID) (w : Writer) (u : Option Undoing) : Engine :=
  { db with writers := update db.writers id (some { w with undoing := u }) }

/-- `ROLLBACK`: the reversal is best effort, a mismatch reverses nothing. -/
def startRollback (db : Engine) (id : TxnID) (w : Writer) : Engine :=
  db.setUndoing id w (some { pending := (db.undoWork w).getD [], full := true })

/-- `ROLLBACK TO SAVEPOINT`: reverse the records logged after the first
`undoLen`. A savepoint of another transaction, or a mismatch, is an error. -/
def startRollbackTo (db : Engine) (id : TxnID) (w : Writer) (undoLen : Nat) : Engine :=
  let n := w.liveTargets.length
  if n ≤ undoLen then db
  else
    match db.undoWork w with
    | none => db
    | some work => db.setUndoing id w (some { pending := work.take (n - undoLen), full := false })

/-! ## After a commit -/

/-- The deleted keys of a transaction, tree by tree. -/
def purgeParts (deleted : List Cell) : List (TreeID × List Key) :=
  (deleted.map (·.1)).dedup.map fun tree =>
    (tree, (deleted.filter fun cell => cell.1 == tree).map (·.2))

def purgeBatchSize : Nat := 256

/-- The row is a tombstone of a committed transaction. -/
def dead (db : Engine) (raw : Stored) : Bool :=
  raw.has && raw.version.xmax != 0 && db.tm.statusOf raw.version.xmax == .committed

/-- Remove the keys of the batch that are dead. -/
def purgeCommittedBatch (db : Engine) (tree : TreeID) : List Key → Engine
  | [] => db
  | key :: more =>
    match db.rows (tree, key) with
    | none => db.purgeCommittedBatch tree more
    | some raw =>
      if db.dead raw then
        { db with rows := update db.rows (tree, key) none }.purgeCommittedBatch tree more
      else db.purgeCommittedBatch tree more

def setCleanup (db : Engine) (id : TxnID) (c : Option Cleanup) : Engine :=
  { db with finishing := update db.finishing id c }

/-- The next step of the goroutine of a committed transaction. -/
def cleanup (db : Engine) (id : TxnID) : Cleanup → Engine
  | .checkForget deleted =>
    if db.tm.liveSnapshots = 0 then db.setCleanup id (some (.forget deleted))
    else db.setCleanup id (some (.checkPurge (purgeParts deleted)))
  | .forget deleted =>
    { db with undo := db.undo.forgetTxn id }.setCleanup id (some (.checkPurge (purgeParts deleted)))
  | .checkPurge [] => db.setCleanup id none
  | .checkPurge ((_, []) :: parts) => db.setCleanup id (some (.checkPurge parts))
  | .checkPurge ((tree, key :: keys) :: parts) =>
    if db.tm.liveSnapshots = 0 then
      db.setCleanup id (some (.purge tree ((key :: keys).take purgeBatchSize)
        ((key :: keys).drop purgeBatchSize) parts))
    else db.setCleanup id (some (.checkPurge parts))
  | .purge tree batch rest parts =>
    (db.purgeCommittedBatch tree batch).setCleanup id (some (.checkPurge ((tree, rest) :: parts)))

/-- The deleters of the dead rows among the keys. -/
def deadTxns (db : Engine) (tree : TreeID) (keys : List Key) : List TxnID :=
  keys.filterMap fun key =>
    match db.rows (tree, key) with
    | none => none
    | some raw => if db.dead raw then some raw.version.xmax else none

/-- Maintenance: remove dead rows and forget their deleters. It runs behind the
barrier that keeps transactions from starting, and only while no snapshot is
live. -/
def purgeDead (db : Engine) (tree : TreeID) (keys : List Key) : Engine :=
  if db.tm.liveSnapshots ≠ 0 then db
  else
    let purged := db.purgeCommittedBatch tree keys
    { purged with undo := (db.deadTxns tree keys).foldl Log.forgetTxn purged.undo }

end Engine

end NextSQL.Mvcc
