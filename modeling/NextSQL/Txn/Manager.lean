import NextSQL.Txn.Lock

/-!
# The transaction manager

The manager of `internal/txn/manager.go` with the snapshots of `snapshot.go`:
which transactions are running, which have ended and how, which read snapshots
are registered, and the lock table. A snapshot is the next transaction id and
the set of running transactions at the moment it is taken; it sees the
transactions that had committed by then, and its own.

The manager's mutex makes each of its methods one step. `Commit` and `Abort`
release the locks right after they leave it; the two are one step here.
-/

namespace NextSQL.Txn

inductive Isolation where
  | readCommitted
  | snapshotIsolation
  | serializable
  deriving DecidableEq, Repr

/-- The number the source gives an isolation level; it compares levels by it. -/
def Isolation.level : Isolation → Nat
  | .readCommitted => 1
  | .snapshotIsolation => 2
  | .serializable => 3

/-- The lifecycle of a transaction id. -/
inductive Status where
  | unknown
  | inProgress
  | committed
  | aborted
  deriving DecidableEq, Repr

/-! ## Snapshots -/

/-- The visibility horizon of one transaction. -/
structure Snapshot where
  tid : TxnID
  xmax : TxnID
  active : List TxnID
  deriving DecidableEq, Repr

/-- Whether the snapshot sees what `xid` wrote. Id 0 marks a row older than
versioning. -/
def Snapshot.sees (s : Snapshot) (xid : TxnID) (status : TxnID → Status) : Bool :=
  if xid = 0 ∨ xid = s.tid then true
  else
    match status xid with
    | .aborted => false
    | .inProgress => false
    | _ =>
      if s.xmax ≠ 0 ∧ s.xmax ≤ xid then false
      else !s.active.contains xid

/-! ## The manager -/

/-- One live transaction or registered reader. -/
structure Handle where
  id : TxnID
  iso : Isolation
  snap : Snapshot
  readOnly : Bool
  deriving DecidableEq, Repr

structure Manager where
  next : TxnID
  nextRead : Nat
  active : AList fun _ : TxnID => Handle
  readers : AList fun _ : TxnID => Handle
  status : AList fun _ : TxnID => Status
  locks : LockManager
  onlineBuilds : Int

def newManager (next : TxnID) : Manager where
  next := if next = 0 then 1 else next
  nextRead := 1
  active := ∅
  readers := ∅
  status := ∅
  locks := newLockManager
  onlineBuilds := 0

namespace Manager

/-- The status of a transaction id. An id the manager does not know has
committed. -/
def statusOf (m : Manager) (id : TxnID) : Status :=
  if id = 0 then .committed
  else
    match m.status.lookup id with
    | some s => s
    | none => if (m.active.lookup id).isSome then .inProgress else .committed

def capture (m : Manager) (id : TxnID) : Snapshot where
  tid := id
  xmax := m.next
  active := m.active.keys.filter fun xid => xid != id

/-- Register a transaction id that the log allocated. -/
def attach (m : Manager) (id : TxnID) (iso : Isolation) : Manager :=
  let m' := { m with next := if m.next ≤ id then id + 1 else m.next }
  { m' with
    active := m.active.insert id { id, iso, snap := m'.capture id, readOnly := false }
    status := m.status.insert id .inProgress }

/-- The number a reader's registry token starts at: tokens stay apart from
transaction ids. -/
def readBase : Nat := 2 ^ 63

def readToken (m : Manager) : TxnID := readBase + m.nextRead

def beginRead (m : Manager) (iso : Isolation) : Manager :=
  let id := m.readToken
  { m with
    nextRead := m.nextRead + 1
    readers := m.readers.insert id { id, iso, snap := m.capture 0, readOnly := true } }

def endRead (m : Manager) (id : TxnID) : Manager :=
  { m with readers := m.readers.erase id }

/-- Take a fresh snapshot for a live handle. -/
def refresh (m : Manager) (id : TxnID) : Manager :=
  match m.active.lookup id with
  | some h => { m with active := m.active.insert id { h with snap := m.capture id } }
  | none =>
    match m.readers.lookup id with
    | some h => { m with readers := m.readers.insert id { h with snap := m.capture id } }
    | none => m

/-- The number of running write transactions. -/
def activeCount (m : Manager) : Nat := m.active.entries.length

/-- Running write transactions and registered readers. -/
def liveSnapshots (m : Manager) : Nat := m.active.entries.length + m.readers.entries.length

def onlineBuildActive (m : Manager) : Bool := decide (0 < m.onlineBuilds)

/-- The end of a write transaction: `Commit` and `Abort` differ in the status
they record. -/
def finish (m : Manager) (id : TxnID) (status : Status) : Manager :=
  { m with
    active := m.active.erase id
    status := m.status.insert id status
    locks := m.locks.releaseAll id }

def commit (m : Manager) (id : TxnID) : Manager := m.finish id .committed

def abort (m : Manager) (id : TxnID) : Manager := m.finish id .aborted

end Manager

end NextSQL.Txn
