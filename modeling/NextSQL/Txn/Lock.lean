import NextSQL.Format
import NextSQL.Lib.AssocMap

/-!
# The lock table

The lock manager of `internal/txn/lock.go`: exclusive and shared locks on keys
and on half-open key ranges, a queue of waiting requests, and a wait-for graph
in which a request that would close a cycle is refused.

Every exported operation runs under one mutex, so the state machine here has
one transition for each critical section: a key request, a range request, the
removal of a request whose wait was cancelled or timed out, and the release of
everything a transaction holds. A nil slice is `none`; a range whose end is
`none` is unbounded.
-/

namespace NextSQL.Txn

/-- A lock mode. -/
inductive Mode where
  | shared
  | exclusive
  deriving DecidableEq, Repr

/-- Two modes clash unless both are shared. -/
def Mode.clash (have_ want : Mode) : Bool :=
  have_ == .exclusive || want == .exclusive

/-- What a request is for: one key, or a range of keys. -/
inductive Target where
  | key (key : Key)
  | range (start «end» : Option Key)
  deriving DecidableEq, Repr

/-- A queued request. The number stands for the identity of the source's
pointer. -/
structure Waiter where
  id : Nat
  txn : TxnID
  mode : Mode
  target : Target
  tag : String
  deriving DecidableEq, Repr

/-- The holders of one key, and the label of the request that created it. -/
structure KeyState where
  holders : AList fun _ : TxnID => Mode
  tag : String

/-- A granted range. -/
structure HeldRange where
  txn : TxnID
  mode : Mode
  start : Option Key
  «end» : Option Key
  tag : String
  deriving DecidableEq, Repr

structure LockManager where
  keys : AList fun _ : Key => KeyState
  ranges : List HeldRange
  waiters : List Waiter
  waitFor : AList fun _ : TxnID => List TxnID
  /-- The identity the next waiter gets. -/
  nextWaiter : Nat

def newLockManager : LockManager where
  keys := ∅
  ranges := []
  waiters := []
  waitFor := ∅
  nextWaiter := 0

/-! ## Ranges -/

def inRange (key : Key) (start «end» : Option Key) : Bool :=
  (match start with
    | none => true
    | some start => decide (start ≤ key)) &&
  (match «end» with
    | none => true
    | some «end» => decide (key < «end»))

/-- Whether `[a0, a1)` overlaps `[b0, b1)`. -/
def rangeOverlap (a0 a1 b0 b1 : Option Key) : Bool :=
  (match a1, b0 with
    | some a1, some b0 => decide (b0 < a1)
    | _, _ => true) &&
  (match b1, a0 with
    | some b1, some a0 => decide (a0 < b1)
    | _, _ => true)

/-- `append([]byte(nil), b...)`: a copy, in which an empty slice becomes nil. -/
def cloneBytes : Option Key → Option Key
  | some [] => none
  | b => b

namespace LockManager

/-- The mode `txn` holds on `key`. -/
def heldMode (lm : LockManager) (txn : TxnID) (key : Key) : Option Mode :=
  (lm.keys.lookup key).bind fun st => st.holders.lookup txn

/-! ## The grant tests -/

/-- No other transaction's lock on the key clashes with `mode`. -/
def holdersAllow (holders : AList fun _ : TxnID => Mode) (txn : TxnID) (mode : Mode) : Bool :=
  holders.entries.all fun holder => holder.1 == txn || !holder.2.clash mode

def canGrantKey (lm : LockManager) (txn : TxnID) (key : Key) (mode : Mode) : Bool :=
  (match lm.keys.lookup key with
    | none => true
    | some st => holdersAllow st.holders txn mode) &&
  lm.ranges.all fun r => r.txn == txn || !inRange key r.start r.end || !r.mode.clash mode

def canGrantRange (lm : LockManager) (txn : TxnID) (start «end» : Option Key) (mode : Mode) :
    Bool :=
  (lm.keys.entries.all fun k => !inRange k.1 start «end» || holdersAllow k.2.holders txn mode) &&
  lm.ranges.all fun r =>
    r.txn == txn || !rangeOverlap start «end» r.start r.end || !r.mode.clash mode

def canGrant (lm : LockManager) (txn : TxnID) (mode : Mode) : Target → Bool
  | .key key => lm.canGrantKey txn key mode
  | .range start «end» => lm.canGrantRange txn start «end» mode

/-! ## Grants -/

/-- The mode recorded for `txn` when it is granted `mode` while `held` is
recorded. -/
def grantedMode (held : Option Mode) (mode : Mode) : Mode :=
  match held with
  | none => mode
  | some have_ => if mode == .exclusive || have_ == .exclusive then mode else have_

def grantKey (lm : LockManager) (txn : TxnID) (key : Key) (mode : Mode) (tag : String) :
    LockManager :=
  let st := (lm.keys.lookup key).getD { holders := ∅, tag := "" }
  let st' : KeyState :=
    { holders := st.holders.insert txn (grantedMode (st.holders.lookup txn) mode)
      tag := if st.tag == "" && tag != "" then tag else st.tag }
  { lm with keys := lm.keys.insert key st' }

def grantRange (lm : LockManager) (txn : TxnID) (start «end» : Option Key) (mode : Mode)
    (tag : String) : LockManager :=
  { lm with
    ranges := lm.ranges ++
      [{ txn, mode, start := cloneBytes start, «end» := cloneBytes «end», tag }] }

def grant (lm : LockManager) (txn : TxnID) (mode : Mode) (tag : String) : Target → LockManager
  | .key key => lm.grantKey txn key mode tag
  | .range start «end» => lm.grantRange txn start «end» mode tag

/-! ## The wait-for graph -/

/-- The transactions other than `self` whose lock on the key clashes. -/
def clashingHolders (holders : AList fun _ : TxnID => Mode) (self : TxnID) (mode : Mode) :
    List TxnID :=
  (holders.entries.filter fun holder => holder.2.clash mode && holder.1 != self).map (·.1)

def blockersKey (lm : LockManager) (self : TxnID) (key : Key) (mode : Mode) : List TxnID :=
  ((match lm.keys.lookup key with
    | none => []
    | some st => clashingHolders st.holders self mode) ++
  (lm.ranges.filter fun r =>
    inRange key r.start r.end && r.mode.clash mode && r.txn != self).map (·.txn)).dedup

def blockersRange (lm : LockManager) (self : TxnID) (start «end» : Option Key) (mode : Mode) :
    List TxnID :=
  ((lm.keys.entries.filter fun k => inRange k.1 start «end»).flatMap
    (fun k => clashingHolders k.2.holders self mode) ++
  (lm.ranges.filter fun r =>
    rangeOverlap start «end» r.start r.end && r.mode.clash mode && r.txn != self).map (·.txn)).dedup

def blockers (lm : LockManager) (self : TxnID) (mode : Mode) : Target → List TxnID
  | .key key => lm.blockersKey self key mode
  | .range start «end» => lm.blockersRange self start «end» mode

def setWait (lm : LockManager) (txn : TxnID) (blockers : List TxnID) : LockManager :=
  { lm with waitFor := lm.waitFor.insert txn blockers }

def clearWait (lm : LockManager) (txn : TxnID) : LockManager :=
  { lm with waitFor := lm.waitFor.erase txn }

/-- Rebuild the edges of the queued requests that `affected` selects. -/
def refreshWaits (lm : LockManager) (affected : Target → Bool) : LockManager :=
  lm.waiters.foldl (fun acc w =>
    if affected w.target then acc.setWait w.txn (acc.blockers w.txn w.mode w.target) else acc) lm

def refreshWaitsForKey (lm : LockManager) (key : Key) : LockManager :=
  lm.refreshWaits fun
    | .key waiting => waiting == key
    | .range start «end» => inRange key start «end»

def refreshWaitsForRange (lm : LockManager) (start «end» : Option Key) : LockManager :=
  lm.refreshWaits fun
    | .key waiting => inRange waiting start «end»
    | .range start' end' => rangeOverlap start «end» start' end'

/-- The colours of the depth-first search: a transaction not yet seen has none. -/
inductive Colour where
  | visiting
  | done
  deriving DecidableEq, Repr

/-- The depth-first search behind `hasCycle`. The fuel bounds the depth. -/
def dfs (lm : LockManager) : Nat → (AList fun _ : TxnID => Colour) → TxnID →
    Bool × AList fun _ : TxnID => Colour
  | 0, seen, _ => (false, seen)
  | fuel + 1, seen, id =>
    match seen.lookup id with
    | some .visiting => (true, seen)
    | some .done => (false, seen)
    | none =>
      let visited := ((lm.waitFor.lookup id).getD []).foldl
        (fun acc next => if acc.1 then acc else lm.dfs fuel acc.2 next)
        (false, seen.insert id .visiting)
      if visited.1 then visited else (false, visited.2.insert id .done)

/-- Whether following wait-for edges from `start` comes back to a transaction
under visit. No path visits more transactions than wait, so the fuel covers
every path. -/
def hasCycle (lm : LockManager) (start : TxnID) : Bool :=
  (lm.dfs (lm.waitFor.entries.length + 2) ∅ start).1

/-! ## The queue -/

def removeWaiter (lm : LockManager) (id : Nat) : LockManager :=
  { lm with waiters := lm.waiters.filter fun w => w.id != id }

/-- One request of a pass of `wake`: granted, or kept. -/
def wakeOne (acc : LockManager × List Waiter) (w : Waiter) : LockManager × List Waiter :=
  if acc.1.canGrant w.txn w.mode w.target then
    (((acc.1.grant w.txn w.mode w.tag w.target).clearWait w.txn), acc.2)
  else (acc.1, acc.2 ++ [w])

/-- One pass of `wake` over the queue, in queue order. -/
def wakePass (lm : LockManager) : LockManager :=
  let pass := lm.waiters.foldl wakeOne (lm, [])
  { pass.1 with waiters := pass.2 }

/-- Passes until one grants nothing. A pass that grants something shortens the
queue, so a fuel of the queue's length is enough. -/
def wakeLoop : Nat → LockManager → LockManager
  | 0, lm => lm
  | fuel + 1, lm =>
    let next := lm.wakePass
    if next.waiters.length = lm.waiters.length then next else wakeLoop fuel next

def wake (lm : LockManager) : LockManager :=
  (wakeLoop lm.waiters.length lm).refreshWaits fun _ => true

/-! ## The operations -/

/-- How a request ends inside its critical section. -/
inductive Outcome where
  | granted
  | deadlock
  | queued (id : Nat)
  deriving DecidableEq, Repr

def enqueue (lm : LockManager) (txn : TxnID) (mode : Mode) (tag : String) (target : Target) :
    LockManager :=
  { lm with
    waiters := lm.waiters ++ [{ id := lm.nextWaiter, txn, mode, target, tag }]
    nextWaiter := lm.nextWaiter + 1 }

/-- A request that cannot be granted: it waits, unless its wait closes a cycle. -/
def wait (lm : LockManager) (txn : TxnID) (mode : Mode) (tag : String)
    (queued asked : Target) : LockManager × Outcome :=
  let lm' := (lm.enqueue txn mode tag queued).setWait txn (lm.blockers txn mode asked)
  if lm'.hasCycle txn then
    ((lm'.removeWaiter lm.nextWaiter).clearWait txn, .deadlock)
  else (lm', .queued lm.nextWaiter)

def acquire (lm : LockManager) (txn : TxnID) (key : Key) (mode : Mode) (tag : String) :
    LockManager × Outcome :=
  if lm.canGrantKey txn key mode then
    ((lm.grantKey txn key mode tag).refreshWaitsForKey key, .granted)
  else lm.wait txn mode tag (.key key) (.key key)

/-- The test and the blockers use the slices the caller passed; the queue and
the granted range hold copies of them. -/
def acquireRange (lm : LockManager) (txn : TxnID) (start «end» : Option Key) (mode : Mode)
    (tag : String) : LockManager × Outcome :=
  if lm.canGrantRange txn start «end» mode then
    ((lm.grantRange txn start «end» mode tag).refreshWaitsForRange start «end», .granted)
  else
    lm.wait txn mode tag (.range (cloneBytes start) (cloneBytes «end»)) (.range start «end»)

/-- The removal of a request whose context ended or whose timer fired. A
request that `wake` granted just before is no longer queued, and keeps its
grant. -/
def removeCanceledWaiter (lm : LockManager) (id : Nat) (txn : TxnID) : LockManager × Bool :=
  if lm.waiters.any fun w => w.id == id then
    ((lm.removeWaiter id).clearWait txn, true)
  else (lm, false)

/-- Drop `txn` from the holders of a key, and the key when nobody is left. -/
def releaseHolder (txn : TxnID) (st : KeyState) : Option KeyState :=
  let holders := st.holders.erase txn
  if holders.entries.isEmpty then none else some { st with holders }

def releaseAll (lm : LockManager) (txn : TxnID) : LockManager :=
  let released : LockManager :=
    { lm with
      keys := AList.filterMapVal (fun _ st => releaseHolder txn st) lm.keys
      ranges := lm.ranges.filter fun r => r.txn != txn }
  (released.clearWait txn).wake

/-- The critical sections of the lock manager. -/
inductive Op where
  | acquire (txn : TxnID) (key : Key) (mode : Mode) (tag : String)
  | acquireRange (txn : TxnID) (start «end» : Option Key) (mode : Mode) (tag : String)
  | cancel (id : Nat) (txn : TxnID)
  | releaseAll (txn : TxnID)
  deriving DecidableEq, Repr

/-- The state after one critical section. -/
def apply (lm : LockManager) : Op → LockManager
  | .acquire txn key mode tag => (lm.acquire txn key mode tag).1
  | .acquireRange txn start «end» mode tag => (lm.acquireRange txn start «end» mode tag).1
  | .cancel id txn => (lm.removeCanceledWaiter id txn).1
  | .releaseAll txn => lm.releaseAll txn

end LockManager

end NextSQL.Txn
