import NextSQL.Replication.Agreement

/-!
# The applied position of a replica

Here the cluster of `NextSQL.Replication.Cluster` has also failures, snapshots
and restarts. An apply can fail while it installs the records of a batch in the
log, or after that, before their effects are in the pages. A snapshot of the
state machine is nothing but the applied LSN; restoring one sets the applied LSN
and copies no data. A restart forgets all positions, keeps the records that were
synced, and restores the latest snapshot of the node.

The applied LSN is truthful if every record of a committed batch up to it is in
the storage engine of the node. A new node that is sent a snapshot reports an
applied LSN without having a record. A failed apply is passed over by the next
one, and a proposal that is lost leaves an applied LSN whose records the next
leader numbers again.

It is truthful in every sound run (`applied_truthful`).
-/

namespace NextSQL.Replication

open Function
open GuardedRuns Wal List

/-- What a snapshot holds: the applied LSN, and the number of batches Raft counts for it. -/
structure Snapshot where
  lsn : LSN
  index : Nat

/-- How an apply fails: after some records were installed, or with all of them in the log. -/
inductive Failure where
  | install (count : Nat)
  | apply

structure Replicas where
  nodes : Nat → Node
  /-- The LSN up to which the log is on disk. -/
  synced : Nat → LSN
  /-- Records in the log whose effects are not in the pages. -/
  unapplied : Nat → List Record
  /-- The latest snapshot a node has stored. -/
  snaps : Nat → Option Snapshot
  leader : Option Nat
  nextID : Nat
  inflight : List Proposal
  commands : List Proposal

inductive Event where
  | append (n : Nat) (rec : Record)
  | propose (n : Nat) (kind : Kind) (commits : List Record)
  | commitEntry
  | lose (i : Nat)
  | giveUp (n : Nat)
  | deliver (n : Nat) (failure : Option Failure)
  | elect (n : Nat)
  | snapshot (n : Nat)
  /-- A node that is too far behind for the log of Raft gets the snapshot of another one. -/
  | restore (n source : Nat)
  | restart (n : Nat) (keep : LSN)

namespace Replicas

def create : Replicas where
  nodes := fun _ => Node.create
  synced := fun _ => 0
  unapplied := fun _ => []
  snaps := fun _ => none
  leader := none
  nextID := 0
  inflight := []
  commands := []

def set (s : Replicas) (n : Nat) (x : Node) : Replicas :=
  { s with nodes := update s.nodes n x }

def sync (s : Replicas) (n : Nat) (lsn : LSN) : Replicas :=
  { s with synced := update s.synced n (max (s.synced n) lsn) }

/-- `Replicate` on the leader. -/
def replicate (s : Replicas) (n : Nat) (x : Node) (kind : Kind) (recs : List Record) : Replicas :=
  { s.set n { x.markLocal (endLSN recs) with waiting := some ⟨s.nextID, kind, endLSN recs⟩ } with
    nextID := s.nextID + 1
    inflight := s.inflight ++ [⟨n, s.nextID, recs⟩] }

def propose (s : Replicas) (n : Nat) (kind : Kind) (commits : List Record) : Option Replicas :=
  let x := s.nodes n
  let flushed := s.sync n (x.nextLSN - 1)
  match x.waiting, kind with
  | some _, _ => none
  | none, .commit =>
    if commits = [] then none
    else if s.leader = some n then
      let held := x.takeRepl.hold commits
      some (flushed.replicate n held .commit (x.unhanded ++ held.wal.drop x.wal.length))
    else some (flushed.set n { x with nextLSN := x.nextLSN + commits.length })
  | none, .rollback =>
    if x.unhanded = [] then some flushed
    else if s.leader = some n then some (flushed.replicate n x.takeRepl .rollback x.unhanded)
    else some (flushed.set n x.takeRepl)

/-- The state machine skips a batch. -/
def skips (x : Node) (recs : List Record) : Bool :=
  endLSN recs ≤ x.localLSN || endLSN recs ≤ x.lastLSN

/-- The next committed batch is delivered; a call that waited for it comes back. -/
def deliver (s : Replicas) (n : Nat) (failure : Option Failure) : Option Replicas :=
  let x := s.nodes n
  match s.commands.drop x.applied with
  | [] => none
  | command :: _ =>
    let counted := { x with applied := x.applied + 1 }
    match failure with
    | none =>
      let (y, error) := counted.apply command.recs
      let s := if error.isSome then s else s.sync n (y.nextLSN - 1)
      match y.waiting with
      | none => some (s.set n y)
      | some call =>
        if call.id = command.id then some ((s.sync n call.last).set n (y.keep call))
        else some (s.set n y)
    | some failure =>
      if skips x command.recs then none
      else match failure with
        | .install count => some (s.set n (counted.installRecords (command.recs.take count)).1)
        | .apply =>
          let (y, error) := counted.installRecords command.recs
          if error.isSome then none
          else some { (s.sync n (y.nextLSN - 1)).set n y with
            unapplied := update s.unapplied n
              (s.unapplied n ++ command.recs.filter (x.nextLSN ≤ ·.lsn)) }

/-- A restarted node: the records on disk, and the position of its snapshot. -/
def restarted (x : Node) (keep : LSN) (snap : Option Snapshot) : Node :=
  let wal := x.wal.filter (·.lsn ≤ keep)
  { Node.create with
    wal := wal
    nextLSN := endLSN wal + 1
    lastLSN := (snap.map Snapshot.lsn).getD 0
    applied := (snap.map Snapshot.index).getD 0 }

def step? (s : Replicas) : Event → Option Replicas
  | .append n rec => some (s.set n ((s.nodes n).append rec))
  | .propose n kind commits => s.propose n kind commits
  | .commitEntry =>
    match s.inflight with
    | [] => none
    | p :: rest => some { s with inflight := rest, commands := s.commands ++ [p] }
  | .lose i =>
    if i < s.inflight.length then some { s with inflight := s.inflight.eraseIdx i } else none
  | .giveUp n => (s.nodes n).waiting.map fun call =>
    (if call.kind = .commit then s.sync n call.last else s).set n ((s.nodes n).giveUp call)
  | .deliver n failure => s.deliver n failure
  | .elect n => some { s with leader := some n }
  | .snapshot n =>
    let x := s.nodes n
    some { s with snaps := update s.snaps n (some ⟨x.lastLSN, x.applied⟩) }
  | .restore n source =>
    match s.snaps source with
    | none => none
    | some snap =>
      if (s.nodes n).applied < snap.index then
        some { s.set n { s.nodes n with lastLSN := snap.lsn, applied := snap.index } with
          snaps := update s.snaps n (some snap) }
      else none
  | .restart n keep =>
    if s.synced n ≤ keep then
      some { s.set n (restarted (s.nodes n) keep (s.snaps n)) with
        synced := update s.synced n (endLSN ((s.nodes n).wal.filter (·.lsn ≤ keep)))
        unapplied := update s.unapplied n []
        leader := if s.leader = some n then none else s.leader }
    else none

def Steps (s : Replicas) (event : Event) (s' : Replicas) : Prop := s.step? event = some s'

/-- The highest LSN of a committed batch. -/
def committedLSN (s : Replicas) : LSN := (s.commands.map fun c => endLSN c.recs).foldl max 0

/-- The node leads and has every committed record. -/
def current (s : Replicas) (n : Nat) : Bool :=
  s.leader = some n && s.committedLSN < (s.nodes n).nextLSN

/-- Only a leader that has every committed record appends and proposes, one batch at a time.
No proposal is lost, and the leadership moves when none is in flight and the old leader has
nothing of its own; a leader that restarts keeps nothing of its own either. After an apply has
failed with its records in the log the node restarts before anything else is applied. A
snapshot is taken when everything applied is on disk, and restored where the records it
stands for are on disk already. -/
def sound (s : Replicas) : Event → Bool
  | .append n _ => s.current n
  | .propose n _ _ => s.current n && s.inflight.isEmpty && (s.unapplied n).isEmpty
  | .lose _ => false
  | .deliver n none => (s.unapplied n).isEmpty
  | .elect _ => s.inflight.isEmpty &&
      s.leader.all fun o => (s.nodes o).nextLSN ≤ s.committedLSN + 1
  | .snapshot n => (s.nodes n).lastLSN ≤ s.synced n
  | .restore n source => (s.unapplied n).isEmpty &&
      (s.snaps source).all fun snap => snap.lsn ≤ s.synced n
  | .restart n keep => s.leader ≠ some n || keep ≤ s.committedLSN
  | _ => true

/-- Every record of a committed batch up to the applied LSN is installed. -/
def Truthful (s : Replicas) (n : Nat) : Prop :=
  ∀ command ∈ s.commands, ∀ rec ∈ command.recs, rec.lsn ≤ (s.nodes n).lastLSN →
    rec ∈ (s.nodes n).wal ∧ rec ∉ s.unapplied n

instance (s : Replicas) (n : Nat) : Decidable (s.Truthful n) :=
  inferInstanceAs (Decidable (∀ command ∈ s.commands, _))

end Replicas

/-! ## Batches of one log -/

namespace Node

variable {x : Node} {before recs after : List Record}

section

variable (numbered : Numbered (before ++ recs ++ after))

include numbered

/-- Installing a part of a log into a first part of it. -/
theorem installRecords_within (wal : x.wal <+: before ++ recs ++ after)
    (next : x.nextLSN = x.wal.length + 1) :
    ∃ wal' : List Record, (x.installRecords recs).1 =
        { x with wal := wal', nextLSN := wal'.length + 1 } ∧
      wal' <+: before ++ recs ++ after ∧ x.wal <+: wal' ∧
      ((x.installRecords recs).2 = none → recs ≠ [] → before.length + recs.length ≤ wal'.length) := by
  induction recs generalizing x before with
  | nil =>
    refine ⟨x.wal, ?_, wal, prefix_refl _, fun _ any => absurd rfl any⟩
    rw [installRecords, ← next]
  | cons rec recs ih =>
    have shift : before ++ rec :: recs ++ after = (before ++ [rec]) ++ recs ++ after := by simp
    have lsn : rec.lsn = before.length + 1 := by
      have front : Numbered (before ++ [rec]) := by
        rw [shift, append_assoc] at numbered
        exact (numbered_append_iff.mp numbered).1
      simpa using (numbered_append_iff.mp front).2
    rw [shift] at numbered wal ⊢
    rw [installRecords, if_neg (by lia)]
    have length : (before ++ [rec]).length = before.length + 1 := by simp
    split
    · rename_i below
      obtain ⟨wal', result, part, grown, covers⟩ := ih numbered wal next
      refine ⟨wal', result, part, grown, fun ok _ => ?_⟩
      by_cases any : recs = []
      · have := grown.length_le
        rw [any, length_singleton]
        lia
      · have := covers ok any
        rw [length_cons]
        lia
    split
    · rename_i gap
      exact ⟨x.wal, by rw [← next], wal, prefix_refl _, fun ok => by cases ok⟩
    rename_i notBelow here
    have same : x.wal.length = before.length := by
      lia
    have front : x.wal = before := by
      have taken := prefix_iff_eq_take.mp wal
      rw [same, append_assoc, append_assoc, take_left] at taken
      exact taken
    have longer : x.wal ++ [rec] <+: (before ++ [rec]) ++ recs ++ after := by
      rw [front, append_assoc (before ++ [rec])]
      exact prefix_append _ _
    have next' : x.nextLSN + 1 = (x.wal ++ [rec]).length + 1 := by
      rw [length_append, length_singleton, next]
    obtain ⟨wal', result, part, grown, covers⟩ := @ih
      { x with wal := x.wal ++ [rec], nextLSN := x.nextLSN + 1 } (before ++ [rec]) numbered
      longer next'
    refine ⟨wal', result, part, (prefix_append _ _).trans grown, fun ok _ => ?_⟩
    by_cases any : recs = []
    · have := grown.length_le
      rw [any, length_singleton]
      simp only [length_append, length_singleton] at this
      lia
    · have := covers ok any
      rw [length_cons]
      lia

theorem endLSN_within (any : recs ≠ []) : endLSN recs = before.length + recs.length := by
  have front := (numbered_append_iff.mp numbered).1
  exact endLSN_consecutive any (numbered_append_iff.mp front).2

/-- Applying a committed batch, whatever the node has of the log. -/
theorem apply_within (any : recs ≠ [])
    (wal : x.wal <+: before ++ recs ++ after ∨ before ++ recs ++ after <+: x.wal)
    (next : x.nextLSN = x.wal.length + 1) (last : x.lastLSN ≤ x.wal.length)
    (handed : x.replLSN ≤ x.wal.length) :
    ∃ (wal' : List Record) (handed' last' : LSN), (x.apply recs).1 = { x with
        wal := wal', nextLSN := wal'.length + 1, replLSN := handed', lastLSN := last' } ∧
      x.wal <+: wal' ∧ (wal' = x.wal ∨ wal' <+: before ++ recs ++ after) ∧
      last' ≤ wal'.length ∧ handed' ≤ wal'.length ∧
      handed' ≤ max x.replLSN (before ++ recs ++ after).length := by
  have same : ∃ (wal' : List Record) (handed' last' : LSN), x = { x with
        wal := wal', nextLSN := wal'.length + 1, replLSN := handed', lastLSN := last' } ∧
      x.wal <+: wal' ∧ (wal' = x.wal ∨ wal' <+: before ++ recs ++ after) ∧
      last' ≤ wal'.length ∧ handed' ≤ wal'.length ∧
      handed' ≤ max x.replLSN (before ++ recs ++ after).length :=
    ⟨x.wal, x.replLSN, x.lastLSN, by rw [← next], prefix_refl _, .inl rfl, last, handed,
      le_max_left _ _⟩
  have ends := endLSN_within numbered any
  have inside : before.length + recs.length ≤ (before ++ recs ++ after).length := by
    simp only [length_append]
    lia
  unfold apply
  rw [if_neg any]
  split
  · exact same
  unfold applyReplicated
  by_cases there : recs = [] ∨ endLSN recs < x.nextLSN
  · -- The records are there; only the position advances.
    rw [if_pos there]
    refine ⟨x.wal, x.replLSN, max x.lastLSN (endLSN recs), by rw [← next], prefix_refl _,
      .inl rfl, ?_, handed, le_max_left _ _⟩
    lia
  have new : x.nextLSN ≤ endLSN recs := by
    by_contra less
    exact there (.inr (by lia))
  rw [if_neg there]
  have part : x.wal <+: before ++ recs ++ after := by
    obtain part | whole := wal
    · exact part
    · have := whole.length_le
      lia
  obtain ⟨wal', result, part', grown, covers⟩ := installRecords_within numbered part next
  have := grown.length_le
  generalize x.installRecords recs = installed at result covers ⊢
  obtain ⟨y, error⟩ := installed
  cases error with
  | some e =>
    refine ⟨wal', x.replLSN, x.lastLSN, result, grown, .inr part', ?_, ?_, le_max_left _ _⟩
    · lia
    · lia
  | none =>
    dsimp only at result ⊢
    rw [result]
    refine ⟨wal', max x.replLSN (endLSN recs), max x.lastLSN (endLSN recs), rfl, grown,
      .inr part', ?_, ?_, ?_⟩
    · lia
    · lia
    · lia

end

end Node

/-! ## The invariant -/

/-- What is known of one node: all nodes but the leader hold a first part of the committed
log, the leader may hold more. -/
structure Steady (committed logged : List Record) (leading idle : Prop) (x : Node) (onDisk : LSN)
    (stored : Option Snapshot) (missing : List Record) : Prop where
  follows : ¬ leading → x.wal <+: committed
  leads : leading → logged <+: x.wal ∨ (x.wal <+: committed ∧ idle)
  numbered : Numbered x.wal
  next : x.nextLSN = x.wal.length + 1
  last : x.lastLSN ≤ x.wal.length
  handed : x.replLSN ≤ x.wal.length ∧ x.replLSN ≤ logged.length
  calls : ∀ call ∈ x.waiting, call.last ≤ x.wal.length ∧ call.last ≤ logged.length
  synced : onDisk ≤ x.wal.length
  snap : ∀ sn ∈ stored, sn.lsn ≤ onDisk
  unapplied : ∀ rec ∈ missing, x.lastLSN < rec.lsn

/-- The committed log, and the log with the proposal in flight. -/
structure Position (s : Replicas) (committed logged : List Record) : Prop where
  numbered : Numbered logged
  part : committed <+: logged
  reached : committed.length = s.committedLSN
  batches : ∀ c ∈ s.commands, c.recs ≠ [] ∧ ∃ before after, committed = before ++ c.recs ++ after
  flying : (s.inflight = [] ∧ logged = committed) ∨ ∃ p before, s.inflight = [p] ∧ p.recs ≠ [] ∧
    logged = before ++ p.recs ∧ before.length ≤ committed.length
  nodes : ∀ n, Steady committed logged (s.leader = some n) (s.inflight = []) (s.nodes n) (s.synced n)
    (s.snaps n) (s.unapplied n)

variable {s s' : Replicas} {n : Nat} {committed logged : List Record} {x : Node}

section

variable (position : Position s committed logged)

include position

theorem Position.numbered_committed : Numbered committed := by
  obtain ⟨more, eq⟩ := position.part
  have numbered := position.numbered
  rw [← eq] at numbered
  exact (numbered_append_iff.mp numbered).1

/-- Of the log of a node and the committed log one is a first part of the other. -/
theorem Position.comparable (n : Nat) :
    (s.nodes n).wal <+: committed ∨ committed <+: (s.nodes n).wal := by
  have steady := position.nodes n
  by_cases leading : s.leader = some n
  · obtain more | ⟨part, -⟩ := steady.leads leading
    · exact .inr (position.part.trans more)
    · exact .inl part
  · exact .inl (steady.follows leading)

theorem Position.truthful (n : Nat) : s.Truthful n := by
  intro command member rec inBatch le
  have steady := position.nodes n
  obtain ⟨-, before, after, whole⟩ := position.batches command member
  have inLog : rec ∈ committed := by simp [whole, inBatch]
  refine ⟨?_, fun unapplied => ?_⟩
  · obtain ⟨more, eq⟩ | more := position.comparable n
    · have numbered := position.numbered_committed
      rw [← eq] at numbered inLog
      obtain here | later := mem_append.mp inLog
      · exact here
      have inRange : rec.lsn ∈ more.map Record.lsn := mem_map_of_mem later
      rw [(numbered_append_iff.mp numbered).2, mem_range'_1] at inRange
      have := steady.last
      lia
    · exact more.subset inLog
  · have := steady.unapplied rec unapplied
    lia

end

/-! ## Steps -/

namespace Replicas

/-- All that the cluster knows of one node is replaced. -/
def put (s : Replicas) (n : Nat) (x : Node) (synced : LSN) (snap : Option Snapshot)
    (unapplied : List Record) : Replicas :=
  { s with
    nodes := update s.nodes n x
    synced := update s.synced n synced
    snaps := update s.snaps n snap
    unapplied := update s.unapplied n unapplied }

end Replicas

section

variable (position : Position s committed logged)

include position

/-- With nothing in flight the whole log is committed. -/
theorem Position.landed (landed : s.inflight = []) : logged = committed := by
  obtain ⟨-, same⟩ | ⟨p, before, flying, -⟩ := position.flying
  · exact same
  · cases landed.symm.trans flying

theorem Position.put {synced : LSN} {snap : Option Snapshot} {unapplied : List Record}
    (steady : Steady committed logged (s.leader = some n) (s.inflight = []) x synced snap unapplied) :
    Position (s.put n x synced snap unapplied) committed logged := by
  refine { position with nodes := ?_ }
  intro m
  change Steady committed logged (s.leader = some m) (s.inflight = [])
    (update s.nodes n x m) (update s.synced n synced m)
    (update s.snaps n snap m) (update s.unapplied n unapplied m)
  by_cases same : m = n
  · rw [same]
    simp only [update_self]
    exact steady
  · simp only [update_of_ne same]
    exact position.nodes m

theorem Position.set (steady : Steady committed logged (s.leader = some n) (s.inflight = []) x
      (s.synced n) (s.snaps n) (s.unapplied n)) : Position (s.set n x) committed logged := by
  have same : s.set n x = s.put n x (s.synced n) (s.snaps n) (s.unapplied n) := by
    simp [Replicas.set, Replicas.put]
  exact same ▸ position.put steady

theorem Position.sync {lsn : LSN} (le : lsn ≤ (s.nodes n).wal.length) :
    Position (s.sync n lsn) committed logged := by
  have steady := position.nodes n
  have same : s.sync n lsn =
      s.put n (s.nodes n) (max (s.synced n) lsn) (s.snaps n) (s.unapplied n) := by
    simp [Replicas.sync, Replicas.put]
  rw [same]
  refine position.put { steady with synced := max_le steady.synced le, snap := ?_ }
  exact fun sn member => (steady.snap sn member).trans (le_max_left _ _)

/-- The node that leads and has every committed record has the log in flight as well. -/
theorem Position.current (current : s.current n) :
    s.leader = some n ∧ logged <+: (s.nodes n).wal := by
  simp only [Replicas.current, Bool.and_eq_true, decide_eq_true_eq] at current
  obtain ⟨leader, covers⟩ := current
  refine ⟨leader, ?_⟩
  have steady := position.nodes n
  obtain more | ⟨part, idle⟩ := steady.leads leader
  · exact more
  have length : (s.nodes n).wal.length = committed.length := by
    have := part.length_le
    have := steady.next
    have := position.reached
    lia
  rw [position.landed idle]
  exact part.eq_of_length length ▸ prefix_refl _

theorem Position.append {rec : Record} (current : s.current n) :
    Position (s.set n ((s.nodes n).append rec)) committed logged := by
  obtain ⟨leader, more⟩ := position.current current
  have steady := position.nodes n
  have longer : (s.nodes n).wal.length ≤ ((s.nodes n).append rec).wal.length := by
    simp [Node.append]
  refine position.set ?_
  refine ⟨absurd leader, fun _ => .inl (more.trans (prefix_append _ _)), ?_,
    ?_, steady.last.trans longer, ⟨steady.handed.1.trans longer, steady.handed.2⟩, ?_,
    steady.synced.trans longer, steady.snap, steady.unapplied⟩
  · refine numbered_append_iff.mpr ⟨steady.numbered, ?_⟩
    simp [steady.next]
  · simp [Node.append, steady.next]
  · intro call waiting
    obtain ⟨le, le'⟩ := steady.calls call waiting
    exact ⟨le.trans longer, le'⟩

theorem Position.replicate {kind : Kind} {from_ : Nat} {synced : LSN} (leader : s.leader = some n)
    (landed : s.inflight = []) (more : committed <+: x.wal) (numbered : Numbered x.wal)
    (next : x.nextLSN = x.wal.length + 1) (last : x.lastLSN ≤ x.wal.length)
    (handed : x.replLSN ≤ x.wal.length) (start : from_ ≤ committed.length)
    (any : x.wal.drop from_ ≠ []) (onDisk : synced ≤ x.wal.length) (grown : s.synced n ≤ synced)
    (applied : s.unapplied n = []) :
    Position (Replicas.replicate { s with synced := update s.synced n synced } n x kind
      (x.wal.drop from_)) committed x.wal := by
  have cut : x.wal = x.wal.take from_ ++ x.wal.drop from_ := (take_append_drop _ _).symm
  have short : (x.wal.take from_).length = from_ := by
    rw [length_take]
    have := more.length_le
    lia
  have ends : endLSN (x.wal.drop from_) = x.wal.length := by
    have split := numbered
    rw [cut] at split
    rw [endLSN_consecutive any (numbered_append_iff.mp split).2]
    have := congrArg List.length cut
    rw [length_append] at this
    exact this.symm
  have same := position.landed landed
  refine ⟨numbered, more, position.reached, position.batches, .inr ⟨⟨n, s.nextID, x.wal.drop from_⟩,
    x.wal.take from_, by simp [Replicas.replicate, landed], any, cut, short.le.trans start⟩, ?_⟩
  intro m
  change Steady committed x.wal (s.leader = some m) _ (update s.nodes n _ m)
    (update s.synced n synced m) (s.snaps m) (s.unapplied m)
  by_cases here : m = n
  · subst here
    simp only [update_self, ends]
    refine ⟨absurd leader, fun _ => .inl (prefix_refl _), numbered, next,
      ?_, ⟨handed, handed⟩, ?_, onDisk, ?_, ?_⟩
    · change max x.lastLSN x.wal.length ≤ x.wal.length
      lia
    · rintro call ⟨⟩
      exact ⟨le_rfl, le_rfl⟩
    · intro sn member
      exact ((position.nodes m).snap sn member).trans grown
    · rw [applied]
      nofun
  have steady := position.nodes m
  have le : logged.length ≤ x.wal.length := by
    rw [same]
    exact more.length_le
  simp only [update_of_ne here]
  have follows : ¬ s.leader = some m := fun leads => here (Option.some.inj (leads.symm.trans leader))
  exact ⟨steady.follows, fun leads => absurd leads follows, steady.numbered, steady.next, steady.last,
    ⟨steady.handed.1, steady.handed.2.trans le⟩,
    fun call waiting => ⟨(steady.calls call waiting).1, (steady.calls call waiting).2.trans le⟩,
    steady.synced, steady.snap, steady.unapplied⟩

end

theorem unhanded_drop (numbered : Numbered x.wal) (handed : x.replLSN ≤ x.wal.length) :
    x.unhanded = x.wal.drop x.replLSN := by
  have cut : x.wal = x.wal.take x.replLSN ++ x.wal.drop x.replLSN := (take_append_drop _ _).symm
  refine Node.unhanded_eq cut (cut ▸ numbered) ?_
  rw [length_take]
  lia

/-- What `takeReplLocked` does to the position of the log that was handed over. -/
theorem takeRepl_eq (numbered : Numbered x.wal) (handed : x.replLSN ≤ x.wal.length) :
    x.takeRepl = { x with replLSN := x.wal.length } := by
  have cut : x.wal = x.wal.take x.replLSN ++ x.wal.drop x.replLSN := (take_append_drop _ _).symm
  have short : (x.wal.take x.replLSN).length = x.replLSN := by
    rw [length_take]
    lia
  have split := numbered
  rw [cut] at split
  unfold Node.takeRepl
  rw [unhanded_drop numbered handed]
  split
  · rename_i none
    have : x.wal.length ≤ x.replLSN := drop_eq_nil_iff.mp none
    have same : x.wal.length = x.replLSN := by lia
    rw [same]
  · rename_i any
    rw [endLSN_consecutive any (numbered_append_iff.mp split).2, short, length_drop]
    congr 1
    lia

theorem Position.propose (position : Position s committed logged) {kind : Kind}
    {commits : List Record} (sound : s.sound (.propose n kind commits))
    (step : s.propose n kind commits = some s') : ∃ logged', Position s' committed logged' := by
  simp only [Replicas.sound, Bool.and_eq_true, List.isEmpty_iff] at sound
  obtain ⟨⟨current, landed⟩, applied⟩ := sound
  obtain ⟨leader, more⟩ := position.current current
  have steady := position.nodes n
  have same := position.landed landed
  rw [same] at more
  have start : (s.nodes n).replLSN ≤ committed.length := same ▸ steady.handed.2
  have taken := takeRepl_eq steady.numbered steady.handed.1
  have unhanded := unhanded_drop steady.numbered steady.handed.1
  have next := steady.next
  have synced := steady.synced
  have last := steady.last
  unfold Replicas.propose at step
  dsimp only at step
  split at step
  · cases step
  · split at step
    · cases step
    rename_i any
    cases step
    obtain ⟨held, length, lsns, result⟩ :=
      Node.hold_eq { s.nodes n with replLSN := (s.nodes n).wal.length } commits next
    have nonempty : held ≠ [] := by
      rintro rfl
      exact any (length_eq_zero_iff.mp length.symm)
    have batch : (s.nodes n).wal.drop (s.nodes n).replLSN ++ held =
        ((s.nodes n).wal ++ held).drop (s.nodes n).replLSN :=
      (drop_append_of_le_length steady.handed.1).symm
    rw [taken, unhanded, result]
    rw [drop_left, batch]
    refine ⟨(s.nodes n).wal ++ held, ?_⟩
    refine @Position.replicate s n committed logged _ position _ (s.nodes n).replLSN _ leader landed
      (more.trans (prefix_append _ _)) (numbered_append_iff.mpr ⟨steady.numbered, lsns⟩) ?_ ?_ ?_
      start ?_ ?_ ?_ applied
    · simp
    · simp only [length_append]
      lia
    · simp
    · rw [← batch]
      simp [nonempty]
    · simp only [length_append]
      lia
    · exact le_max_left _ _
  split at step
  · cases step
    exact ⟨logged, position.sync (by lia)⟩
  rename_i any
  cases step
  rw [taken, unhanded]
  rw [unhanded] at any
  refine ⟨(s.nodes n).wal, ?_⟩
  refine @Position.replicate s n committed logged { s.nodes n with replLSN := (s.nodes n).wal.length }
    position _ (s.nodes n).replLSN _ leader landed more steady.numbered next last le_rfl start any
    ?_ ?_ applied
  · lia
  · exact le_max_left _ _

theorem Position.commitEntry (position : Position s committed logged)
    (step : s.Steps .commitEntry s') : Position s' logged logged := by
  unfold Replicas.Steps at step
  simp only [Replicas.step?] at step
  obtain ⟨none, -⟩ | ⟨p, before, flying, any, whole, short⟩ := position.flying
  · rw [none] at step
    cases step
  rw [flying] at step
  cases step
  have numbered := position.numbered
  have ends : endLSN p.recs = logged.length := by
    have inside : Numbered (before ++ p.recs ++ []) := by
      rw [append_nil, ← whole]
      exact numbered
    rw [Node.endLSN_within inside any, whole, length_append]
  have longer := position.part.length_le
  refine ⟨numbered, prefix_refl _, ?_, ?_, .inl ⟨rfl, rfl⟩, ?_⟩
  · have reached := position.reached
    unfold Replicas.committedLSN at reached ⊢
    rw [map_append, foldl_append]
    change logged.length = max ((s.commands.map fun c => endLSN c.recs).foldl max 0) (endLSN p.recs)
    rw [← reached, ends]
    exact (max_eq_right longer).symm
  · intro c member
    obtain old | new := mem_append.mp member
    · obtain ⟨any', before', after', eq⟩ := position.batches c old
      obtain ⟨more, eq'⟩ := position.part
      refine ⟨any', before', after' ++ more, ?_⟩
      rw [← eq', eq]
      simp
    · rw [mem_singleton.mp new]
      exact ⟨any, before, [], by simpa using whole⟩
  intro m
  have steady := position.nodes m
  refine { steady with follows := fun follows => ?_, leads := fun leading => ?_ }
  · exact (steady.follows follows).trans position.part
  · obtain more | ⟨part, -⟩ := steady.leads leading
    · exact .inl more
    · exact .inr ⟨part.trans position.part, rfl⟩

section Calls

variable {leading idle : Prop} {onDisk : LSN} {stored : Option Snapshot} {missing : List Record}

section

variable (steady : Steady committed logged leading idle x onDisk stored missing)

include steady

theorem Steady.keep {call : Call} (waiting : x.waiting = some call) :
    Steady committed logged leading idle (x.keep call) onDisk stored missing := by
  obtain ⟨le, le'⟩ := steady.calls call waiting
  obtain ⟨handed, handed'⟩ := steady.handed
  unfold Node.keep
  split
  · refine { steady with handed := ⟨?_, ?_⟩, calls := nofun }
    · exact Nat.max_le.mpr ⟨handed, le⟩
    · exact Nat.max_le.mpr ⟨handed', le'⟩
  · exact { steady with calls := nofun }

theorem Steady.giveUp {call : Call} (waiting : x.waiting = some call) :
    Steady committed logged leading idle (x.giveUp call) onDisk stored missing := by
  unfold Node.giveUp
  split
  · exact { steady.keep waiting with }
  · exact steady.keep waiting

end

theorem keep_wal (x : Node) (call : Call) : (x.keep call).wal = x.wal := by
  unfold Node.keep
  split <;> rfl

theorem giveUp_wal (x : Node) (call : Call) : (x.giveUp call).wal = x.wal := by
  unfold Node.giveUp
  split
  · exact keep_wal x call
  · exact keep_wal x call

theorem Steady.grow (steady : Steady committed logged leading idle x onDisk stored missing)
    (numbered : Numbered committed) (part : committed <+: logged) {y : Node}
    (longer : x.wal <+: y.wal) (within : y.wal = x.wal ∨ y.wal <+: committed)
    (next : y.nextLSN = y.wal.length + 1) (last : y.lastLSN ≤ y.wal.length)
    (handed : y.replLSN ≤ y.wal.length)
    (handed' : y.replLSN ≤ max x.replLSN committed.length) (waiting : y.waiting = x.waiting)
    {missing' : List Record} (unapplied : ∀ rec ∈ missing', y.lastLSN < rec.lsn) :
    Steady committed logged leading idle y onDisk stored missing' := by
  have le := longer.length_le
  refine ⟨fun follows => ?_, fun leads => ?_, ?_, next, last, ⟨handed, ?_⟩, ?_,
    steady.synced.trans le, steady.snap, unapplied⟩
  · obtain same | part := within
    · exact same ▸ steady.follows follows
    · exact part
  · obtain more | ⟨part', idle⟩ := steady.leads leads
    · exact .inl (more.trans longer)
    · obtain same | part'' := within
      · exact .inr ⟨same ▸ part', idle⟩
      · exact .inr ⟨part'', idle⟩
  · obtain same | ⟨more, eq⟩ := within
    · exact same ▸ steady.numbered
    · rw [← eq] at numbered
      exact (numbered_append_iff.mp numbered).1
  · have := part.length_le
    have := steady.handed.2
    lia
  · intro call member
    rw [waiting] at member
    obtain ⟨here, there⟩ := steady.calls call member
    exact ⟨here.trans le, there⟩

end Calls

theorem Position.deliver (position : Position s committed logged)
    (sound : s.sound (.deliver n none)) (step : s.deliver n none = some s') :
    Position s' committed logged := by
  have applied : s.unapplied n = [] := List.isEmpty_iff.mp sound
  have steady := position.nodes n
  unfold Replicas.deliver at step
  dsimp only at step
  split at step
  · cases step
  rename_i command rest next
  have member : command ∈ s.commands := mem_of_mem_drop (i := (s.nodes n).applied) (by simp [next])
  obtain ⟨any, before, after, whole⟩ := position.batches command member
  have numbered := position.numbered_committed
  have comparable := position.comparable n
  rw [whole] at numbered comparable
  obtain ⟨wal', handed', last', result, longer, within, last, handed, handed''⟩ :=
    @Node.apply_within { s.nodes n with applied := (s.nodes n).applied + 1 } before command.recs after
      numbered any comparable steady.next steady.last steady.handed.1
  rw [← whole] at within handed'' numbered
  generalize Node.apply { s.nodes n with applied := (s.nodes n).applied + 1 } command.recs =
    answer at step result
  obtain ⟨y, error⟩ := answer
  dsimp only at result step longer within last handed handed''
  have grown : Steady committed logged (s.leader = some n) (s.inflight = []) y (s.synced n)
      (s.snaps n) (s.unapplied n) := by
    refine steady.grow numbered position.part ?_ ?_ ?_ ?_ ?_ ?_ ?_ ?_
    all_goals rw [result]
    · exact longer
    · exact within
    · exact last
    · exact handed
    · exact handed''
    · rw [applied]
      nofun
  have synced : ∀ y' : Node, Steady committed logged (s.leader = some n) (s.inflight = []) y'
      (s.synced n) (s.snaps n) (s.unapplied n) → y'.wal = y.wal →
      Position ((if error.isSome then s else s.sync n (y.nextLSN - 1)).set n y') committed logged := by
    intro y' steady' wal
    split
    · exact position.set steady'
    refine (position.set steady').sync ?_
    rw [grown.next, ← wal]
    exact (congrArg (·.wal.length) (update_self n y' s.nodes)).ge
  split at step
  · cases step
    exact synced y grown rfl
  rename_i call waiting
  split at step
  · cases step
    refine (synced (y.keep call) (grown.keep waiting) (keep_wal y call)).sync ?_
    have here : ∀ t : Replicas, (t.set n (y.keep call)).nodes n = y.keep call :=
      fun t => update_self ..
    rw [here, keep_wal]
    exact (grown.calls call waiting).1
  · cases step
    exact synced y grown rfl

theorem installRecords_covered {recs : List Record}
    (covered : ∀ rec ∈ recs, rec.lsn ≠ 0 ∧ rec.lsn < x.nextLSN) :
    x.installRecords recs = (x, none) := by
  induction recs with
  | nil => rfl
  | cons rec recs ih =>
    obtain ⟨zero, below⟩ := covered rec (by simp)
    rw [Node.installRecords, if_neg zero, if_pos below]
    exact ih fun r member => covered r (by simp [member])

/-- Installing a part of the committed log, whatever the node has of it. -/
theorem installRecords_comparable {before recs after : List Record}
    (numbered : Numbered (before ++ recs ++ after))
    (wal : x.wal <+: before ++ recs ++ after ∨ before ++ recs ++ after <+: x.wal)
    (next : x.nextLSN = x.wal.length + 1) :
    ∃ wal' : List Record, (x.installRecords recs).1 =
        { x with wal := wal', nextLSN := wal'.length + 1 } ∧ x.wal <+: wal' ∧
      (wal' = x.wal ∨ wal' <+: before ++ recs ++ after) := by
  obtain part | whole := wal
  · obtain ⟨wal', result, part', grown, -⟩ := Node.installRecords_within numbered part next
    exact ⟨wal', result, grown, .inr part'⟩
  have covered : x.installRecords recs = (x, none) := by
    refine installRecords_covered fun rec member => ?_
    have inLog : rec ∈ before ++ recs ++ after := by simp [member]
    have := numbered.lsn_bounds inLog
    have := whole.length_le
    lia
  rw [covered]
  exact ⟨x.wal, by rw [← next], prefix_refl _, .inl rfl⟩

/-- An apply fails: the applied LSN stays where it is. -/
theorem Position.deliver_fails (position : Position s committed logged) {failure : Failure}
    (step : s.deliver n (some failure) = some s') : Position s' committed logged := by
  have steady := position.nodes n
  unfold Replicas.deliver at step
  dsimp only at step
  split at step
  · cases step
  rename_i command rest next
  split at step
  · cases step
  have member : command ∈ s.commands := mem_of_mem_drop (i := (s.nodes n).applied) (by simp [next])
  obtain ⟨-, before, after, whole⟩ := position.batches command member
  have numbered := position.numbered_committed
  -- Whatever part of the batch is installed, the node keeps a part of the committed log.
  have installed : ∀ recs before after, committed = before ++ recs ++ after →
      ∃ wal' : List Record, (Node.installRecords
          { s.nodes n with applied := (s.nodes n).applied + 1 } recs).1 =
        { s.nodes n with
          applied := (s.nodes n).applied + 1, wal := wal', nextLSN := wal'.length + 1 } ∧
        ∀ missing, (∀ rec ∈ missing, (s.nodes n).lastLSN < rec.lsn) →
          Steady committed logged (s.leader = some n) (s.inflight = []) { s.nodes n with
            applied := (s.nodes n).applied + 1, wal := wal', nextLSN := wal'.length + 1 }
            (s.synced n) (s.snaps n) missing := by
    intro recs before after whole
    have comparable := position.comparable n
    have numbered' := numbered
    rw [whole] at comparable numbered'
    obtain ⟨wal', result, longer, within⟩ := @installRecords_comparable
      { s.nodes n with applied := (s.nodes n).applied + 1 } before recs after numbered' comparable
      steady.next
    rw [← whole] at within
    refine ⟨wal', result, fun missing unapplied => ?_⟩
    have le := longer.length_le
    exact steady.grow numbered position.part longer within rfl (steady.last.trans le)
      (steady.handed.1.trans le) (le_max_left _ _) rfl unapplied (y := { s.nodes n with
        applied := (s.nodes n).applied + 1, wal := wal', nextLSN := wal'.length + 1 })
  split at step
  · rename_i count
    cases step
    have split : committed = before ++ command.recs.take count ++
        (command.recs.drop count ++ after) := by
      rw [whole]
      nth_rewrite 1 [← take_append_drop count command.recs]
      simp only [append_assoc]
    obtain ⟨wal', result, grown⟩ := installed _ _ _ split
    rw [result]
    exact position.set (grown _ steady.unapplied)
  obtain ⟨wal', result, grown⟩ := installed _ _ _ whole
  split at step
  · cases step
  cases step
  rw [result]
  have same : ∀ (y : Node) (lsn : LSN) (missing : List Record),
      { (s.sync n lsn).set n y with unapplied := update s.unapplied n missing } =
        (s.put n y (s.synced n) (s.snaps n) missing).sync n lsn := by
    intro y lsn missing
    simp [Replicas.set, Replicas.put, Replicas.sync]
  rw [same]
  refine (position.put (grown _ fun rec unapplied => ?_)).sync (by simp [Replicas.put])
  obtain old | new := mem_append.mp unapplied
  · exact steady.unapplied rec old
  have := of_decide_eq_true (mem_filter.mp new).2
  have := steady.next
  have := steady.last
  lia

theorem Position.elect (position : Position s committed logged)
    (sound : s.sound (.elect n)) :
    Position { s with leader := some n } committed logged := by
  simp only [Replicas.sound, Bool.and_eq_true, List.isEmpty_iff] at sound
  obtain ⟨landed, spent⟩ := sound
  refine { position with nodes := fun m => ?_ }
  have steady := position.nodes m
  have part : s.leader = some m → m ≠ n → (s.nodes m).wal <+: committed := by
    intro leading _
    have nothing : (s.nodes m).nextLSN ≤ s.committedLSN + 1 := by simpa [leading] using spent
    obtain part | ⟨more, eq⟩ := position.comparable m
    · exact part
    have length := congrArg List.length eq
    rw [length_append] at length
    have := steady.next
    have := position.reached
    have none : more = [] := length_eq_zero_iff.mp (by lia)
    rw [none, append_nil] at eq
    exact eq ▸ prefix_refl _
  by_cases leading : s.leader = some m
  · refine { steady with follows := fun follows => ?_, leads := fun _ => steady.leads leading }
    refine part leading fun same => ?_
    exact follows (congrArg some same.symm)
  · refine { steady with follows := fun _ => steady.follows leading, leads := fun _ => ?_ }
    exact .inr ⟨steady.follows leading, landed⟩

theorem endLSN_numbered {log : List Record} (numbered : Numbered log) :
    endLSN log = log.length := by
  by_cases any : log = []
  · rw [any]
    rfl
  · have inside : Numbered ([] ++ log ++ []) := by simpa using numbered
    simpa using Node.endLSN_within inside any

theorem Numbered.filter_le {log : List Record} (numbered : Numbered log) (lsn : LSN) :
    log.filter (·.lsn ≤ lsn) = log.take lsn := by
  have split := numbered
  rw [← take_append_drop lsn log] at split
  obtain ⟨first, rest⟩ := numbered_append_iff.mp split
  nth_rewrite 1 [← take_append_drop lsn log]
  rw [filter_append]
  have before : (log.take lsn).filter (·.lsn ≤ lsn) = log.take lsn := by
    refine filter_eq_self.mpr fun rec member => ?_
    have := (first.lsn_bounds member).2
    rw [length_take] at this
    simp only [decide_eq_true_eq]
    lia
  have after : (log.drop lsn).filter (·.lsn ≤ lsn) = [] := by
    refine filter_eq_nil_iff.mpr fun rec member => ?_
    have inRange : rec.lsn ∈ (log.drop lsn).map Record.lsn := mem_map_of_mem member
    have long : lsn < log.length := by
      by_contra short
      rw [drop_eq_nil_of_le (by lia)] at member
      cases member
    rw [rest, mem_range'_1, length_take] at inRange
    simp only [decide_eq_true_eq]
    lia
  rw [before, after, append_nil]

theorem Position.restart (position : Position s committed logged) {keep : LSN}
    (sound : s.sound (.restart n keep)) (step : s.Steps (.restart n keep) s') :
    Position s' committed logged := by
  unfold Replicas.Steps at step
  simp only [Replicas.step?] at step
  split at step
  · rename_i kept
    cases step
    refine { position with nodes := fun m => ?_ }
    by_cases here : m = n
    · subst here
      have steady := position.nodes m
      have onDisk := steady.synced
      change Steady committed logged _ _ (update s.nodes m _ m)
        (update s.synced m _ m) (s.snaps m) (update s.unapplied m [] m)
      simp only [update_self]
      have cut : (s.nodes m).wal.filter (·.lsn ≤ keep) <+: (s.nodes m).wal ∧
          ((s.nodes m).wal.filter (·.lsn ≤ keep)).length = min keep (s.nodes m).wal.length := by
        rw [steady.numbered.filter_le]
        exact ⟨List.take_prefix _ _, length_take⟩
      have numbered : Numbered ((s.nodes m).wal.filter (·.lsn ≤ keep)) := by
        obtain ⟨more, eq⟩ := cut.1
        have numbered := steady.numbered
        rw [← eq] at numbered
        exact (numbered_append_iff.mp numbered).1
      have aside : ¬ (if s.leader = some m then none else s.leader) = some m := by
        split <;> simp_all
      have longer : s.synced m ≤ endLSN ((s.nodes m).wal.filter (·.lsn ≤ keep)) := by
        rw [endLSN_numbered numbered]
        lia
      refine ⟨fun _ => ?_, fun leading => absurd leading aside, numbered, ?_, ?_, ⟨zero_le,
        zero_le⟩, nofun, (endLSN_numbered numbered).le,
        fun sn member => (steady.snap sn member).trans longer, nofun⟩
      · by_cases leading : s.leader = some m
        · have short : keep ≤ s.committedLSN := by simpa [Replicas.sound, leading] using sound
          obtain part | more := position.comparable m
          · exact cut.1.trans part
          refine prefix_of_prefix_length_le cut.1 more ?_
          change ((s.nodes m).wal.filter (·.lsn ≤ keep)).length ≤ committed.length
          rw [cut.2, position.reached]
          exact (Nat.min_le_left _ _).trans short
        · exact cut.1.trans (steady.follows leading)
      · exact congrArg (· + 1) (endLSN_numbered numbered)
      · have le : ((s.snaps m).map Snapshot.lsn).getD 0 ≤ s.synced m := by
          cases stored : s.snaps m with
          | none => exact zero_le
          | some sn => exact steady.snap sn stored
        exact (le.trans longer).trans (endLSN_numbered numbered).le
    have steady := position.nodes m
    change Steady committed logged _ _ (update s.nodes n _ m)
      (update s.synced n _ m) (s.snaps m) (update s.unapplied n [] m)
    simp only [update_of_ne here]
    have same : ((if s.leader = some n then none else s.leader) = some m) = (s.leader = some m) := by
      split
      · rename_i leader
        simp [leader, Ne.symm here]
      · rfl
    rw [same]
    exact steady
  · cases step

theorem Position.step {event : Event} (position : Position s committed logged)
    (sound : s.sound event) (step : s.Steps event s') :
    ∃ committed' logged', Position s' committed' logged' := by
  cases event with
  | append n rec =>
    cases step
    exact ⟨committed, logged, position.append sound⟩
  | propose n kind commits => exact ⟨committed, position.propose sound step⟩
  | commitEntry => exact ⟨logged, logged, position.commitEntry step⟩
  | lose i => cases sound
  | giveUp n =>
    obtain ⟨call, waiting, rfl⟩ := Option.map_eq_some_iff.mp step
    have steady := (position.nodes n).giveUp waiting
    refine ⟨committed, logged, ?_⟩
    split
    · refine (position.set steady).sync ?_
      rw [show (s.set n _).nodes n = _ from update_self .., giveUp_wal]
      exact ((position.nodes n).calls call waiting).1
    · exact position.set steady
  | deliver n failure =>
    cases failure with
    | none => exact ⟨committed, logged, position.deliver sound step⟩
    | some failure => exact ⟨committed, logged, position.deliver_fails step⟩
  | elect n =>
    cases step
    exact ⟨committed, logged, position.elect sound⟩
  | snapshot n =>
    cases step
    refine ⟨committed, logged, ?_⟩
    have same : ∀ snap, { s with snaps := update s.snaps n snap } =
        s.put n (s.nodes n) (s.synced n) snap (s.unapplied n) := by
      intro snap
      simp [Replicas.put]
    rw [same]
    refine position.put { position.nodes n with snap := ?_ }
    rintro sn ⟨⟩
    exact of_decide_eq_true sound
  | restore n source =>
    unfold Replicas.Steps at step
    simp only [Replicas.step?] at step
    split at step
    · cases step
    rename_i snap found
    split at step
    · cases step
      simp only [Replicas.sound, found, Bool.and_eq_true, List.isEmpty_iff, Option.all_some,
        decide_eq_true_eq] at sound
      have steady := position.nodes n
      have same : ∀ y : Node,
          { s.set n y with snaps := update s.snaps n (some snap) } =
            s.put n y (s.synced n) (some snap) (s.unapplied n) := by
        intro y
        simp [Replicas.set, Replicas.put]
      refine ⟨committed, logged, ?_⟩
      rw [same]
      refine position.put { steady with
        last := sound.2.trans steady.synced
        snap := ?_
        unapplied := ?_ }
      · rintro sn ⟨⟩
        exact sound.2
      · rw [sound.1]
        exact fun _ member => absurd member not_mem_nil
    · cases step
  | restart n keep => exact ⟨committed, logged, position.restart sound step⟩

theorem position_create : Position Replicas.create [] [] := by
  refine ⟨rfl, prefix_refl _, rfl, nofun, .inl ⟨rfl, rfl⟩, fun n => ?_⟩
  exact ⟨fun _ => prefix_refl _, nofun, rfl, rfl, le_rfl, ⟨le_rfl, le_rfl⟩, nofun, le_rfl, nofun,
    nofun⟩

namespace NewNode

def begin (t : TxnID) : Record := { type := .begin, txnID := t }

def commit (t : TxnID) : Record := { type := .commit, txnID := t }

/-- Node 0 commits a transaction and takes a snapshot. -/
def snapshotted : List Event :=
  [.elect 0, .append 0 (begin 1), .propose 0 .commit [commit 1], .commitEntry, .deliver 0 none,
   .snapshot 0]

/-- Node 1 has the batch when it gets the snapshot, and both restart. -/
def behind : List Event :=
  [.deliver 1 (some .apply), .restart 1 2, .restore 1 0, .restart 1 2, .restart 0 2]

/-- The second batch is applied after the first one has failed. -/
def passedOver : List Event :=
  snapshotted ++ [.append 0 (begin 2), .propose 0 .commit [commit 2], .commitEntry,
    .deliver 1 (some .apply), .deliver 1 none]

end NewNode

end NextSQL.Replication
