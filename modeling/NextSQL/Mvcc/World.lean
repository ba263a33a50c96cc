import NextSQL.Mvcc.Store
import NextSQL.Lib.Run

/-!
# Interleavings of transactions

The steps of all goroutines over one engine, in any order. Beside the engine
the state remembers what the properties speak about and the code does not
store: every snapshot a live handle has taken, with the number of commits that
came before it, the order of the commits, what each running transaction found
under a key at its first write to it, and the undo records it has logged.
-/

namespace NextSQL.Mvcc

open Function (update)
open Row Undo Txn GuardedRuns

structure World where
  db : Engine
  captures : List Capture
  /-- The committed transactions, in commit order. -/
  commits : List TxnID
  /-- What a running transaction found at its first write to a key. -/
  origin : TxnID → Cell → Option (Option Stored)
  /-- The undo records a running transaction has logged, newest first, each with
  its tree. -/
  trail : TxnID → List (TreeID × Record)

/-- The steps. -/
inductive Op where
  /-- `BeginTxn`: the log allocates the id. -/
  | begin (id : TxnID) (iso : Isolation)
  /-- `Refresh`, at the end of `BeginTxn` and for each statement under read committed. -/
  | refresh (id : TxnID)
  /-- `Capture`: a snapshot the caller keeps for itself. -/
  | capture (id : TxnID)
  | beginRead (iso : Isolation)
  | refreshRead (id : TxnID)
  | endRead (id : TxnID)
  | onlineBuild (starts : Bool)
  | lockWrite (id : TxnID) (key : Key) (tag : String)
  /-- Any other request to the lock table. -/
  | lock (id : TxnID) (op : LockManager.Op)
  | write (id : TxnID) (tree : TreeID) (leaf : PageID) (key : Key) (action : Engine.Action)
      (snap : Snapshot)
  | insertBatch (id : TxnID) (tree : TreeID) (rows : List (Key × Bytes))
  | patchVisible (id : TxnID) (tree : TreeID) (rows : List (Key × Bytes)) (snap : Snapshot)
  | rollbackTo (id : TxnID) (undoLen : Nat)
  | rollback (id : TxnID)
  /-- The reversal of one record. -/
  | undoNext (id : TxnID)
  /-- The return of `RollbackToSavepoint`. -/
  | undone (id : TxnID)
  /-- The end of `RollbackTxn`. -/
  | abort (id : TxnID)
  | commit (id : TxnID)
  /-- The next step of the goroutine of a committed transaction. -/
  | cleanup (id : TxnID)
  | purgeDead (tree : TreeID) (keys : List Key)
  deriving DecidableEq, Repr

namespace World

/-- A database without rows. -/
def empty : World where
  db := {
    tm := newManager 1
    undo := .empty
    rows := fun _ => none
    writers := fun _ => none
    finishing := fun _ => none }
  captures := []
  commits := []
  origin _ _ := none
  trail _ := []

def note (w : World) (holder : TxnID) (reader : Bool) (snap : Snapshot) : World :=
  { w with captures := { holder, reader, snap, taken := w.commits.length } :: w.captures }

def forgetCaptures (w : World) (holder : TxnID) (reader : Bool) : World :=
  { w with captures := w.captures.filter fun c => c.holder != holder || c.reader != reader }

/-- Remember what a transaction finds at its first write to a cell. -/
def noteOrigin (w : World) (id : TxnID) (cell : Cell) : World :=
  { w with
    origin := update w.origin id
      (update (w.origin id) cell (some ((w.origin id cell).getD (w.db.rows cell)))) }

/-- The same for the cells that a bulk write has changed. -/
def noteChanged (w : World) (id : TxnID) (db : Engine) (cells : List Cell) : World :=
  cells.foldl (fun acc cell => if w.db.rows cell = db.rows cell then acc
    else acc.noteOrigin id cell) w

/-- Remember the record a write has logged. -/
def noteTrail (w : World) (id : TxnID) (tree : TreeID) (logged : Option Record) : World :=
  match logged with
  | none => w
  | some rec => { w with trail := update w.trail id ((tree, rec) :: w.trail id) }

def holds (w : World) (id : TxnID) (snap : Snapshot) : Bool :=
  w.captures.any fun c => c.holder == id && !c.reader && c.snap == snap

/-- The transaction whose request an operation of the lock table is. -/
def lockOwner : LockManager.Op → Option TxnID
  | .acquire txn _ _ _ => some txn
  | .acquireRange txn _ _ _ _ => some txn
  | .cancel _ txn => some txn
  | .releaseAll _ => none

def freshWriter : Writer where
  lastUndo := 0
  liveTargets := []
  deleted := []
  pass := none
  undoing := none

/-- The writer of a transaction that is not in the middle of a reversal. -/
def idle (w : World) (id : TxnID) : Option Writer :=
  (w.db.writers id).filter fun writer => writer.undoing.isNone

/-- The state after a step, or nothing when the step cannot be taken. -/
def step? (w : World) : Op → Option World
  | .begin id iso =>
    if id ≠ 0 ∧ w.db.tm.next ≤ id then
      let tm := w.db.tm.attach id iso
      let db := { w.db with tm, writers := update w.db.writers id (some freshWriter) }
      let origin := update w.origin id fun _ => none
      let trail := update w.trail id []
      some ({ w with db, origin, trail }.note id false (tm.capture id))
    else none
  | .refresh id =>
    match w.db.tm.active.lookup id with
    | none => none
    | some _ =>
      some ({ w with db := { w.db with tm := w.db.tm.refresh id } }.note id false
        (w.db.tm.capture id))
  | .capture id =>
    match w.db.tm.active.lookup id with
    | none => none
    | some _ => some (w.note id false (w.db.tm.capture id))
  | .beginRead iso =>
    some ({ w with db := { w.db with tm := w.db.tm.beginRead iso } }.note w.db.tm.readToken true
      (w.db.tm.capture 0))
  | .refreshRead id =>
    match w.db.tm.active.lookup id, w.db.tm.readers.lookup id with
    | none, some _ =>
      some ({ w with db := { w.db with tm := w.db.tm.refresh id } }.note id true
        (w.db.tm.capture id))
    | _, _ => none
  | .endRead id =>
    match w.db.tm.readers.lookup id with
    | none => none
    | some _ =>
      some ({ w with db := { w.db with tm := w.db.tm.endRead id } }.forgetCaptures id true)
  | .onlineBuild starts =>
    let builds := w.db.tm.onlineBuilds + if starts then 1 else -1
    some { w with db := { w.db with tm := { w.db.tm with onlineBuilds := builds } } }
  | .lockWrite id key tag =>
    match w.idle id with
    | none => none
    | some _ => some { w with db := w.db.lockWrite id key tag }
  | .lock id op =>
    match w.idle id with
    | none => none
    | some _ =>
      if lockOwner op = some id then
        let tm := { w.db.tm with locks := w.db.tm.locks.apply op }
        some { w with db := { w.db with tm } }
      else none
  | .write id tree leaf key action snap =>
    match w.idle id with
    | none => none
    | some _ =>
      if w.db.cleared id key ∧ w.holds id snap then
        match w.db.write id tree leaf key action snap with
        | .ok db =>
          let w' := (w.noteOrigin id (tree, key)).noteTrail id tree
            (db.undo.get w.db.undo.nextID)
          some { w' with db := db.clearPass id }
        | .error _ => some { w with db := w.db.clearPass id }
      else none
  | .insertBatch id tree rows =>
    match w.idle id with
    | none => none
    | some _ =>
      let db := w.db.insertBatch id tree rows
      some { w.noteChanged id db (rows.map fun row => (tree, row.1)) with db }
  | .patchVisible id tree rows snap =>
    match w.idle id with
    | none => none
    | some _ =>
      if w.holds id snap then
        let db := w.db.patchVisible id tree snap rows
        some { w.noteChanged id db (rows.map fun row => (tree, row.1)) with db }
      else none
  | .rollbackTo id undoLen =>
    match w.idle id with
    | none => none
    | some writer => some { w with db := w.db.startRollbackTo id writer undoLen }
  | .rollback id =>
    match w.idle id with
    | none => none
    | some writer => some { w with db := w.db.startRollback id writer }
  | .undoNext id =>
    match w.db.writers id with
    | none => none
    | some writer =>
      match writer.undoing with
      | some { pending := (tree, rec) :: rest, full } =>
        some { w with
          db := (w.db.applyUndoRec tree rec).setUndoing id writer
            (some { pending := rest, full }) }
      | _ => none
  | .undone id =>
    match w.db.writers id with
    | none => none
    | some writer =>
      match writer.undoing with
      | some { pending := [], full := false } =>
        some { w with db := w.db.setUndoing id writer none }
      | _ => none
  | .abort id =>
    match w.db.writers id with
    | none => none
    | some writer =>
      match writer.undoing with
      | some { pending := [], full := true } =>
        let db := { w.db with
          tm := w.db.tm.abort id
          writers := update w.db.writers id none }
        some ({ w with db }.forgetCaptures id false)
      | _ => none
  | .commit id =>
    match w.idle id with
    | none => none
    | some writer =>
      let db := { w.db with
        tm := w.db.tm.commit id
        writers := update w.db.writers id none
        finishing := update w.db.finishing id (some (.checkForget writer.deleted)) }
      some ({ w with db, commits := w.commits ++ [id] }.forgetCaptures id false)
  | .cleanup id =>
    match w.db.finishing id with
    | none => none
    | some phase => some { w with db := w.db.cleanup id phase }
  | .purgeDead tree keys => some { w with db := w.db.purgeDead tree keys }

def Step (w : World) (op : Op) (w' : World) : Prop := w.step? op = some w'

/-- A transaction inserts a row and commits: how the runs below begin. -/
def inserted : List Op :=
  [.begin 1 .snapshotIsolation, .lockWrite 1 [7] "", .write 1 1 1 [7] (.insert [1]) ⟨1, 2, []⟩,
    .commit 1]

/-- A run with a property of its last state, by execution. -/
theorem exists_run {start : World} {ops : List Op} {holds : World → Prop} [DecidablePred holds]
    (done : (exec step? (fun _ _ => true) start ops).any (fun w => decide (holds w)) = true) :
    ∃ w, Run Step unguarded start ops w ∧ holds w :=
  exists_run_of_exec step? (fun _ _ => true) (fun _ => trivial) done

/-- Two runs, one after the other, with a property of where they end. -/
theorem exists_runs {start : World} {ops more : List Op} {holds : World → World → Prop}
    [∀ w, DecidablePred (holds w)]
    (done : (exec step? (fun _ _ => true) start ops).any (fun w =>
      (exec step? (fun _ _ => true) w more).any fun w' => decide (holds w w')) = true) :
    ∃ w w', Run Step unguarded start ops w ∧ Run Step unguarded w more w' ∧ holds w w' := by
  have first : ∃ w, Run Step unguarded start ops w ∧
      (exec step? (fun _ _ => true) w more).any (fun w' => decide (holds w w')) = true :=
    exists_run (by simpa using done)
  obtain ⟨w, run, done⟩ := first
  obtain ⟨w', more, shown⟩ := exists_run done
  exact ⟨w, w', run, more, shown⟩

end World

end NextSQL.Mvcc
