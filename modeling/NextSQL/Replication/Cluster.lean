import NextSQL.Wal.Log

/-!
# A cluster of replicas

Every node has a log of its own. The leader appends records to it and proposes
them in batches to Raft, which delivers the batches it has committed to every
node, in one order. A node keeps two positions: the highest LSN it has proposed
itself and the highest one it has applied. A delivered batch that ends at or
below one of them is skipped; any other one is installed, record by record, and
a record below the next LSN of the log is taken for one that is there already.

A proposal may be lost. If it was the one of a commit, the node keeps the commit
and is marked suspect; if it was the one of a rollback, nothing is marked. Raft
itself is taken as it is: it may lose a proposal, it commits those that are left
in order, and the barrier of a new leader comes back when none is left and the
leader has applied all.
-/

namespace NextSQL.Replication

open Wal

/-! ## A node -/

inductive Kind where
  | commit
  | rollback
deriving DecidableEq, Repr

/-- A call of `Replicate` that has not returned. -/
structure Call where
  id : Nat
  kind : Kind
  last : LSN
deriving DecidableEq, Repr

structure Node where
  wal : List Record
  nextLSN : LSN
  /-- The LSN up to which the log was handed over. -/
  replLSN : LSN
  /-- The reported applied LSN. -/
  lastLSN : LSN
  /-- The highest LSN that this node has proposed. -/
  localLSN : LSN
  /-- How many of the committed batches were delivered to it. -/
  applied : Nat
  suspect : Bool
  waiting : Option Call

def endLSN (recs : List Record) : LSN := (recs.getLast?.map Record.lsn).getD 0

namespace Node

def create : Node := ⟨[], 1, 0, 0, 0, 0, false, none⟩

def append (x : Node) (rec : Record) : Node :=
  { x with wal := x.wal ++ [{ rec with lsn := x.nextLSN }], nextLSN := x.nextLSN + 1 }

/-- `InstallRecords`. What was installed before an error stays. -/
def installRecords (x : Node) : List Record → Node × Option Nerr
  | [] => (x, none)
  | rec :: recs =>
    if rec.lsn = 0 then
      (x, some ⟨.invalidArgument, "wal.InstallRecords", "LSN 0 is reserved"⟩)
    else if rec.lsn < x.nextLSN then x.installRecords recs
    else if rec.lsn ≠ x.nextLSN then
      (x, some ⟨.corruption, "wal.InstallRecords", "LSN gap in replicated records"⟩)
    else installRecords { x with wal := x.wal ++ [rec], nextLSN := x.nextLSN + 1 } recs

def applyReplicated (x : Node) (recs : List Record) : Node × Option Nerr :=
  if recs = [] ∨ endLSN recs < x.nextLSN then (x, none)
  else
    match x.installRecords recs with
    | (y, some e) => (y, some e)
    | (y, none) => ({ y with replLSN := max y.replLSN (endLSN recs) }, none)

/-- The state machine's `Apply`. -/
def apply (x : Node) (recs : List Record) : Node × Option Nerr :=
  if recs = [] then (x, some ⟨.invalidFormat, "replication.FSM.Apply", "empty batch"⟩)
  else if endLSN recs ≤ x.localLSN ∨ endLSN recs ≤ x.lastLSN then (x, none)
  else
    match x.applyReplicated recs with
    | (y, some e) => (y, some e)
    | (y, none) => ({ y with lastLSN := max y.lastLSN (endLSN recs) }, none)

def markLocal (x : Node) (lsn : LSN) : Node :=
  { x with localLSN := max x.localLSN lsn, lastLSN := max x.lastLSN lsn }

/-- The records since the last batch. -/
def unhanded (x : Node) : List Record := x.wal.filter (x.replLSN < ·.lsn)

/-- `takeReplLocked`. -/
def takeRepl (x : Node) : Node :=
  if x.unhanded = [] then x else { x with replLSN := endLSN x.unhanded }

/-- The commit records of a batch. -/
def hold (x : Node) (commits : List Record) : Node := commits.foldl append x

/-- A call of `Replicate` comes back without an error, or in doubt: a commit is kept. -/
def keep (x : Node) (call : Call) : Node :=
  match call.kind with
  | .commit => { x with waiting := none, replLSN := max x.replLSN call.last }
  | .rollback => { x with waiting := none }

/-- A call of `Replicate` comes back in doubt: only a commit makes the node suspect. -/
def giveUp (x : Node) (call : Call) : Node :=
  match call.kind with
  | .commit => { x.keep call with suspect := true }
  | .rollback => x.keep call

/-- The record of the log at an LSN. -/
def recordAt (x : Node) (lsn : LSN) : Option Record := x.wal.find? (·.lsn = lsn)

end Node

/-! ## The cluster -/

/-- A batch that was proposed. -/
structure Proposal where
  node : Nat
  id : Nat
  recs : List Record
deriving DecidableEq, Repr

structure Cluster where
  nodes : Nat → Node
  leader : Option Nat
  /-- The barrier of the leader has come back. -/
  ready : Bool
  nextID : Nat
  inflight : List Proposal
  /-- The batches that Raft has committed. -/
  commands : List Proposal

inductive Label where
  | append (n : Nat) (rec : Record)
  /-- A batch of commits, or the end of a rollback. -/
  | propose (n : Nat) (kind : Kind) (commits : List Record)
  | commitEntry
  | lose (i : Nat)
  | giveUp (n : Nat)
  | deliver (n : Nat)
  | elect (n : Nat)
  | barrier (n : Nat)
  /-- `CLUSTER RECONCILE CONFIRM`. -/
  | confirm (n : Nat)

namespace Cluster

def create : Cluster := ⟨fun _ => Node.create, none, false, 0, [], []⟩

def set (s : Cluster) (n : Nat) (x : Node) : Cluster :=
  { s with nodes := Function.update s.nodes n x }

/-- `Replicate` on the leader. -/
def replicate (s : Cluster) (n : Nat) (x : Node) (kind : Kind) (recs : List Record) : Cluster :=
  { s.set n { x.markLocal (endLSN recs) with waiting := some ⟨s.nextID, kind, endLSN recs⟩ } with
    nextID := s.nextID + 1
    inflight := s.inflight ++ [⟨n, s.nextID, recs⟩] }

/-- A batch is handed to `Replicate`. On a node that is not the leader it is not proposed: the
commit records are cut out again and their LSNs are not used a second time. -/
def propose (s : Cluster) (n : Nat) (kind : Kind) (commits : List Record) : Option Cluster :=
  let x := s.nodes n
  match x.waiting, kind with
  | some _, _ => none
  | none, .commit =>
    if commits = [] then none
    else if s.leader = some n then
      let held := x.takeRepl.hold commits
      some (s.replicate n held .commit (x.unhanded ++ held.wal.drop x.wal.length))
    else some (s.set n { x with nextLSN := x.nextLSN + commits.length })
  | none, .rollback =>
    if x.unhanded = [] then some s
    else if s.leader = some n then some (s.replicate n x.takeRepl .rollback x.unhanded)
    else some (s.set n x.takeRepl)

/-- The next committed batch is applied on a node; a call that waited for it comes back. -/
def deliver (s : Cluster) (n : Nat) : Option Cluster :=
  let x := s.nodes n
  match s.commands.drop x.applied with
  | [] => none
  | command :: _ =>
    let y := { (x.apply command.recs).1 with applied := x.applied + 1 }
    match y.waiting with
    | none => some (s.set n y)
    | some call => some (s.set n (if call.id = command.id then y.keep call else y))

def step? (s : Cluster) : Label → Option Cluster
  | .append n rec => some (s.set n ((s.nodes n).append rec))
  | .propose n kind commits => s.propose n kind commits
  | .commitEntry =>
    match s.inflight with
    | [] => none
    | p :: rest => some { s with inflight := rest, commands := s.commands ++ [p] }
  | .lose i =>
    if i < s.inflight.length then some { s with inflight := s.inflight.eraseIdx i } else none
  | .giveUp n => (s.nodes n).waiting.map fun call => s.set n ((s.nodes n).giveUp call)
  | .deliver n => s.deliver n
  | .elect n => some { s with leader := some n, ready := false }
  | .barrier n =>
    if s.leader = some n ∧ s.inflight = [] ∧ (s.nodes n).applied = s.commands.length then
      some { s with ready := true }
    else none
  | .confirm n => some (s.set n { s.nodes n with suspect := false })

def Steps (s : Cluster) (label : Label) (s' : Cluster) : Prop := s.step? label = some s'

def leads (s : Cluster) (n : Nat) : Bool := s.leader = some n && s.ready

/-- Only the leader appends, and only once its barrier has come back; a suspect node does not
propose and is not confirmed. A proposal that is lost, or given up, is one of a commit. A
leader that is not suspect is replaced only when all of its records were handed over and no
call is waiting. -/
def orderly (s : Cluster) : Label → Bool
  | .append n _ => (s.nodes n).suspect || s.leads n
  | .propose n _ _ => s.leads n && !(s.nodes n).suspect
  | .lose _ => s.inflight.all fun p => (s.nodes p.node).suspect ||
      (s.nodes p.node).waiting.any fun call => call.id = p.id && call.kind = .commit
  | .giveUp n => (s.nodes n).suspect || (s.nodes n).waiting.all (·.kind = .commit)
  | .elect _ => s.leader.all fun o => (s.nodes o).suspect ||
      ((s.nodes o).waiting.isNone && (s.nodes o).nextLSN = (s.nodes o).replLSN + 1)
  | .confirm n => (s.nodes n).suspect == false
  | _ => true

end Cluster

end NextSQL.Replication
