import NextSQL.Wal.Calls

/-!
# The stream of records a leader replicates

A commit on a node with a replicator goes through `executeReplBatch`. The
records of the transactions are appended and flushed, their commit records are
appended as a held region, everything on disk since the last batch and the held
commit records are handed to the replicator, and its answer decides whether the
region is released or cut out. A rollback flushes its abort record and hands
over what is on disk.

`replMu` lets only one of the two run at a time. Between the steps of a batch
any other call may append: a transaction begins or rolls back, a split logs the
pages it changed, a checkpoint logs the allocator's pages. The file system does
not fail here.

A follower installs the records it gets with `InstallRecords`, which refuses a
record whose LSN is not the next one. `handed_contiguous` shows that the
records handed over have consecutive LSNs, as long as no batch comes back as
not proposed and nothing else breaks the sequence; `discarded_commit_hole` has
two runs in which it refuses a batch.
-/

namespace NextSQL.Storage

open GuardedRuns Wal List

/-! ## The follower -/

/-- `InstallRecords`: the LSN that comes next, after the records of a batch. -/
def installRecords (nextLSN : LSN) : List Record → Except Nerr LSN
  | [] => .ok nextLSN
  | rec :: recs =>
    if rec.lsn = 0 then
      .error ⟨.invalidArgument, "wal.InstallRecords", "LSN 0 is reserved"⟩
    else if rec.lsn < nextLSN then installRecords nextLSN recs
    else if rec.lsn ≠ nextLSN then
      .error ⟨.corruption, "wal.InstallRecords", "LSN gap in replicated records"⟩
    else installRecords (nextLSN + 1) recs

/-! ## The leader -/

/-- How far `executeReplBatch` is. It keeps the value that `replLSN` had at its start. -/
inductive Phase where
  | idle
  | preparing (preReplLSN : LSN)
  | flushed (preReplLSN : LSN)
  | held (preReplLSN : LSN) (commitRecs : List Record)
  | proposed (preReplLSN lastCommitLSN : LSN)
deriving DecidableEq, Repr

/-- No commit records are held. -/
def Phase.resting : Phase → Bool
  | .idle | .preparing _ | .flushed _ => true
  | .held .. | .proposed .. => false

/-- The log, the LSN up to which it was handed over, and the batches handed over. -/
structure Leader where
  log : Log
  replLSN : LSN
  phase : Phase
  handed : List (List Record)

/-- How a call of `Replicate` ends. A batch whose quorum wait fails may have been accepted. -/
inductive Outcome where
  | accepted
  | inDoubt
  | notProposed
deriving DecidableEq, Repr

/-- A call on the log, or a step of a batch. -/
inductive Label where
  | append (rec : Record)
  | appendPageImages (txn : TxnID) (prev : LSN) (pages : List (PageID × Bytes))
  | flush
  | startBatch
  | giveUp
  | flushBody
  | hold (commitRecs : List Record)
  | propose
  | replicated (outcome : Outcome)
  | rollback
  | autoCommit (rec : Record)

namespace Leader

def create (segmentSize : Nat) (archiver pageDeltas : Bool) : Leader where
  log := Log.create segmentSize archiver pageDeltas
  replLSN := 0
  phase := .idle
  handed := []

def flush (s : Leader) : Leader := { s with log := (s.log.flushNow .done).2 }

/-- `takeReplLocked`: the records on disk since the last call. -/
def takeRepl (s : Leader) : List Record × Leader :=
  let read := s.log.scanFrom (s.replLSN + 1)
  (read.1.map Frame.record, if read.2 ≠ 0 then { s with replLSN := read.2 } else s)

def hand (s : Leader) (recs : List Record) : Leader := { s with handed := s.handed ++ [recs] }

/-- The hold ends with the commit records in the log. -/
def keepCommits (s : Leader) (lastCommitLSN : LSN) : Leader :=
  flush { s with log := s.log.releaseHold true, replLSN := max s.replLSN lastCommitLSN }

def next (s : Leader) : Label → Option Leader
  | .append rec => some { s with log := (s.log.append rec).2 }
  | .appendPageImages txn prev pages =>
    some { s with log := (s.log.appendPageImages txn prev pages).2 }
  | .flush => some s.flush
  | .startBatch =>
    match s.phase with
    | .idle => some { s with phase := .preparing s.replLSN }
    | _ => none
  -- no transaction of the batch could append its records
  | .giveUp =>
    match s.phase with
    | .preparing _ => some { s with phase := .idle }
    | _ => none
  | .flushBody =>
    match s.phase with
    | .preparing pre => some { s.flush with phase := .flushed pre }
    | _ => none
  | .hold commitRecs =>
    match s.phase with
    | .flushed pre =>
      if commitRecs = [] then none
      else match s.log.appendHeldBatch commitRecs with
        | (.error _, l) => some { s with log := l, phase := .idle }
        | (.ok fs, l) => some { s with log := l, phase := .held pre (fs.map Frame.record) }
    | _ => none
  | .propose =>
    match s.phase with
    | .held pre commitRecs =>
      let lastCommitLSN := (commitRecs.getLast?.map Record.lsn).getD 0
      some { s.takeRepl.2.hand (s.takeRepl.1 ++ commitRecs) with
             phase := .proposed pre lastCommitLSN }
    | _ => none
  | .replicated outcome =>
    match s.phase with
    | .proposed pre lastCommitLSN =>
      match outcome with
      | .notProposed =>
        some { s with log := s.log.releaseHold false, replLSN := pre, phase := .idle }
      | .accepted | .inDoubt => some { s.keepCommits lastCommitLSN with phase := .idle }
    | _ => none
  -- the end of a rollback; what `Replicate` answers is ignored
  | .rollback =>
    match s.phase with
    | .idle =>
      let (recs, s) := s.flush.takeRepl
      some (if recs = [] then s else s.hand recs)
    | _ => none
  -- the commit record of a write outside of any transaction, which is not replicated
  | .autoCommit rec =>
    match s.log.append rec with
    | (.error _, l) => some { s with log := l }
    | (.ok fs, l) => some (keepCommits { s with log := l } (lastLSN fs 0))

def Step (s : Leader) (label : Label) (t : Leader) : Prop := s.next label = some t

/-- Nothing makes a gap: every batch handed over is accepted or in doubt, nothing is appended
between the flush of a batch and its commit records, no page images need a rotation while
commit records are held, and nothing commits without being replicated. -/
def Unbroken (s : Leader) : Label → Prop
  | .appendPageImages _ _ pages =>
    (∀ page ∈ pages, page.2.length = logicalPageSize) ∧
      (s.log.held = none ∨ s.log.crowded (pages.length * Log.pageImagePhysSize) = false)
  | .hold _ => s.log.buf = []
  | .replicated outcome => outcome ≠ .notProposed
  | .autoCommit _ => False
  | _ => True

instance (s : Leader) (label : Label) : Decidable (s.Unbroken label) := by
  cases label <;> unfold Unbroken <;> infer_instance

/-! ## The records handed over -/

/-- The LSNs of the records handed over, in order. -/
def handedLSNs (s : Leader) : List LSN := s.handed.flatten.map Record.lsn

/-- Nothing is held, and the records handed over are the first ones on disk. -/
def AtRest (s : Leader) : Prop :=
  s.log.held = none ∧ s.handedLSNs = List.range' 1 s.replLSN ∧ s.replLSN ≤ s.log.onDisk.length

/-- The LSNs handed over, and where the log stands, at each point of a batch. -/
def Stream (s : Leader) : Prop :=
  match s.phase with
  | .idle | .preparing _ | .flushed _ => s.AtRest
  | .held _ commitRecs =>
    s.log.held ≠ none ∧ s.handedLSNs = List.range' 1 s.replLSN ∧
      s.replLSN ≤ s.log.onDisk.length ∧ commitRecs ≠ [] ∧
      commitRecs.map Record.lsn = List.range' (s.log.onDisk.length + 1) commitRecs.length ∧
      commitRecs.length ≤ s.log.buf.length
  | .proposed _ lastCommitLSN =>
    s.log.held ≠ none ∧ s.handedLSNs = List.range' 1 lastCommitLSN ∧ s.replLSN ≤ lastCommitLSN ∧
      lastCommitLSN ≤ s.log.onDisk.length + s.log.buf.length

/-- The invariant of a leader. -/
structure Intact (s : Leader) : Prop where
  dense : s.log.Dense s.log.nextLSN
  fronted : s.log.Fronted
  stream : s.Stream

variable {s t : Leader} {label : Label}

theorem stream_of_resting (rest : s.phase.resting) : s.Stream ↔ s.AtRest := by
  unfold Stream
  cases phase : s.phase with
  | idle | preparing pre | flushed pre => exact Iff.rfl
  | held pre commitRecs | proposed pre last =>
    rw [phase] at rest
    cases rest

/-- A batch goes on, or ends, with nothing held. -/
theorem Intact.rephase {phase : Phase} (intact : s.Intact) (rest : s.phase.resting)
    (rest' : phase.resting) : Intact { s with phase := phase } := by
  refine ⟨intact.dense, intact.fronted, (stream_of_resting rest').mpr ?_⟩
  exact (stream_of_resting rest).mp intact.stream

/-- Calls that append or flush, at any point of a batch. -/
theorem Intact.grown {l : Log} (intact : s.Intact) (dense : l.Dense l.nextLSN)
    (grown : s.log.Grown l) : Intact { s with log := l } := by
  refine ⟨dense, grown.fronted intact.fronted, ?_⟩
  have stream := intact.stream
  obtain ⟨log, replLSN, phase, handed⟩ := s
  cases phase with
  | idle | preparing pre | flushed pre =>
    obtain ⟨none, lsns, le⟩ := stream
    obtain ⟨none', wrote⟩ := grown.free none
    exact ⟨none', lsns, le.trans wrote.length_le⟩
  | held pre commitRecs =>
    obtain ⟨some, lsns, le, any, commits, fit⟩ := stream
    obtain ⟨held, disk, buf⟩ := grown.kept some
    exact ⟨held ▸ some, lsns, disk ▸ le, any, disk ▸ commits, fit.trans buf.length_le⟩
  | proposed pre last =>
    obtain ⟨some, lsns, le, fit⟩ := stream
    obtain ⟨held, disk, buf⟩ := grown.kept some
    refine ⟨held ▸ some, lsns, le, fit.trans ?_⟩
    rw [disk]
    exact Nat.add_le_add_left buf.length_le _

theorem Intact.flush (intact : s.Intact) : s.flush.Intact ∧
    (s.log.held = none → s.flush.log.buf = []) ∧
    s.flush.log.onDisk ++ s.flush.log.buf = s.log.onDisk ++ s.log.buf := by
  obtain ⟨l, flushed, dense, counter, grown, moved, drained⟩ :=
    intact.dense.flush_grown intact.fronted
  have same : s.flush = { s with log := l } := by rw [Leader.flush, flushed]
  rw [same]
  exact ⟨intact.grown (counter ▸ dense) grown, drained, moved⟩

/-- What `takeReplLocked` finds: the records that follow those handed over, up to the last one
on disk. -/
theorem takeRepl_spec (dense : s.log.Dense s.log.nextLSN) (le : s.replLSN ≤ s.log.onDisk.length) :
    s.takeRepl.1.map Record.lsn = range' (1 + s.replLSN) (s.log.onDisk.length - s.replLSN) ∧
      s.takeRepl.2 = { s with replLSN := s.log.onDisk.length } := by
  obtain ⟨records, last⟩ := dense.scanFrom le
  refine ⟨?_, ?_⟩
  · have lsns : (s.log.onDisk.take s.replLSN ++ s.log.onDisk.drop s.replLSN).map Frame.lsn =
        range' 1 s.log.onDisk.length := by
      rw [take_append_drop]
      exact dense.lsns_onDisk
    have late := (Log.lsns_append _ _ lsns).2
    rw [length_take, Nat.min_eq_left le, length_drop] at late
    rw [takeRepl]
    rw [records, map_map]
    exact late
  · rw [← last, takeRepl]
    split <;> rfl

theorem handedLSNs_hand {recs : List Record} {m n : Nat} (before : s.handedLSNs = range' 1 m)
    (lsns : recs.map Record.lsn = range' (1 + m) n) :
    (s.hand recs).handedLSNs = range' 1 (m + n) := by
  rw [handedLSNs, hand, flatten_append, map_append, flatten_singleton, lsns, ← range'_append_1]
  exact congrArg (· ++ _) before

theorem lsn_getLast {recs : List Record} {start : Nat} (any : recs ≠ [])
    (lsns : recs.map Record.lsn = range' (start + 1) recs.length) :
    (recs.getLast?.map Record.lsn).getD 0 = start + recs.length := by
  obtain ⟨front, last, rfl⟩ := eq_nil_or_concat' recs |>.resolve_left any
  have atEnd := congrArg getLast? lsns
  simp [getLast?_range'] at atEnd
  simp
  lia

/-- A batch is accepted, or in doubt: its commit records are written. -/
theorem Intact.keepCommits {last : LSN} (intact : s.Intact)
    (lsns : s.handedLSNs = range' 1 last) (le : s.replLSN ≤ last)
    (fit : last ≤ s.log.onDisk.length + s.log.buf.length) :
    Intact { s.keepCommits last with phase := .idle } := by
  have released : s.log.releaseHold true = { s.log with held := none } := by
    unfold Log.releaseHold
    split
    next none => rw [← none]
    · rfl
  have dense : (s.log.releaseHold true).Dense (s.log.releaseHold true).nextLSN := by
    rw [released]
    exact { intact.dense with }
  have fronted : (s.log.releaseHold true).Fronted := by
    rw [released]
    exact fun h held => nomatch held
  obtain ⟨l, flushed, dense', counter, grown, moved, drained⟩ := dense.flush_grown fronted
  have none : (s.log.releaseHold true).held = none := by rw [released]
  have written : l.onDisk.length = s.log.onDisk.length + s.log.buf.length := by
    have length := congrArg List.length moved
    rw [drained none, append_nil, released, length_append] at length
    exact length
  have same : { s.keepCommits last with phase := .idle } =
      { s with log := l, replLSN := last, phase := Phase.idle } := by
    simp only [Leader.keepCommits, Leader.flush, flushed, Nat.max_eq_right le]
  rw [same]
  refine ⟨counter ▸ dense', grown.fronted fronted, ?_⟩
  exact ⟨(grown.free none).1, lsns, written ▸ fit⟩

theorem Intact.step (intact : s.Intact) (unbroken : s.Unbroken label) (taken : Step s label t) :
    t.Intact := by
  have stream := intact.stream
  unfold Step Leader.next at taken
  cases label with
  | append rec =>
    cases taken
    obtain ⟨dense, grown⟩ := intact.dense.append rec
    exact intact.grown dense grown
  | appendPageImages txn prev pages =>
    cases taken
    obtain ⟨dense, grown⟩ := intact.dense.appendPageImages txn prev unbroken.1 unbroken.2
    exact intact.grown dense grown
  | flush =>
    cases taken
    exact intact.flush.1
  | startBatch =>
    dsimp only at taken
    split at taken
    next idle =>
      cases taken
      exact intact.rephase (by rw [idle]; rfl) rfl
    · cases taken
  | giveUp =>
    dsimp only at taken
    split at taken
    next preparing =>
      cases taken
      exact intact.rephase (by rw [preparing]; rfl) rfl
    · cases taken
  | flushBody =>
    dsimp only at taken
    split at taken
    next preparing =>
      cases taken
      refine intact.flush.1.rephase ?_ rfl
      change s.phase.resting = true
      rw [preparing]
      rfl
    · cases taken
  | hold commitRecs =>
    dsimp only at taken
    split at taken
    next pre flushed =>
      split at taken
      · cases taken
      next any =>
      obtain ⟨none, lsns, le⟩ := (stream_of_resting (by rw [flushed]; rfl)).mp stream
      obtain ⟨fs, l, held, dense, disk, buf, length, h, region, front⟩ :=
        intact.dense.appendHeldBatch any none unbroken
      rw [held] at taken
      cases taken
      refine ⟨dense, ?_, ?_⟩
      · intro h' region'
        cases region.symm.trans region'
        exact front
      have numbered := (Log.lsns_append _ _ dense.lsns).2
      refine ⟨by simp [region], lsns, disk ▸ le, ?_, ?_, ?_⟩
      · intro empty
        rw [map_eq_nil_iff] at empty
        exact any (length_eq_zero_iff.mp (by rw [← length, empty]; rfl))
      · rw [map_map, length_map, Nat.add_comm, ← buf]
        exact numbered
      · simp [buf]
    · cases taken
  | propose =>
    dsimp only at taken
    split at taken
    next pre commitRecs holding =>
      cases taken
      rw [Stream, holding] at stream
      obtain ⟨some, lsns, le, any, commits, fit⟩ := stream
      obtain ⟨recs, same⟩ := takeRepl_spec intact.dense le
      rw [lsn_getLast any commits, same]
      refine ⟨intact.dense, intact.fronted, some, ?_, Nat.le_add_right _ _,
        Nat.add_le_add_left fit _⟩
      have all : (s.takeRepl.1 ++ commitRecs).map Record.lsn = range' (1 + s.replLSN)
          (s.log.onDisk.length - s.replLSN + commitRecs.length) := by
        rw [map_append, recs, commits, ← range'_append_1]
        congr 2
        lia
      have handed := handedLSNs_hand lsns all
      rw [← Nat.add_assoc, Nat.add_sub_cancel' le] at handed
      exact handed
    · cases taken
  | replicated outcome =>
    dsimp only at taken
    split at taken
    next pre last proposed =>
      rw [Stream, proposed] at stream
      obtain ⟨some, lsns, le, fit⟩ := stream
      have kept : t = { s.keepCommits last with phase := .idle } := by
        cases outcome with
        | accepted | inDoubt => exact (Option.some.inj taken).symm
        | notProposed => exact absurd rfl unbroken
      rw [kept]
      exact intact.keepCommits lsns le fit
    · cases taken
  | rollback =>
    dsimp only at taken
    split at taken
    next idle =>
      cases taken
      obtain ⟨flushed, -, -⟩ := intact.flush
      have rest : s.flush.phase.resting := by
        change s.phase.resting = true
        rw [idle]
        rfl
      obtain ⟨none, lsns, le⟩ := (stream_of_resting rest).mp flushed.stream
      obtain ⟨recs, same⟩ := takeRepl_spec flushed.dense le
      have handed := handedLSNs_hand lsns recs
      rw [Nat.add_sub_cancel' le] at handed
      rw [same]
      split
      next nothing =>
        rw [nothing] at handed
        refine ⟨flushed.dense, flushed.fronted, (stream_of_resting ?_).mpr ⟨none, ?_, le_rfl⟩⟩
        · exact rest
        · rw [← handed]
          simp [handedLSNs, hand]
      · refine ⟨flushed.dense, flushed.fronted, (stream_of_resting ?_).mpr ⟨none, handed, le_rfl⟩⟩
        exact rest
    · cases taken
  | autoCommit rec => exact unbroken.elim

theorem run_intact {segmentSize : Nat} {archiver pageDeltas : Bool} {labels : List Label}
    (run : Run Step Unbroken (create segmentSize archiver pageDeltas) labels s) : s.Intact :=
  have created : (create segmentSize archiver pageDeltas).Intact :=
    ⟨Log.dense_create segmentSize archiver pageDeltas, fun _ held => (nomatch held), rfl, rfl,
      zero_le⟩
  run.invariant Intact created fun intact unbroken taken => intact.step unbroken taken

/-- In every state the LSNs handed over are the first ones, and all of them are in the log. -/
theorem Intact.handed (intact : s.Intact) :
    ∃ n, s.handedLSNs = range' 1 n ∧ n ≤ s.log.onDisk.length + s.log.buf.length := by
  have stream := intact.stream
  unfold Stream at stream
  split at stream
  iterate 3 exact ⟨_, stream.2.1, stream.2.2.trans (Nat.le_add_right _ _)⟩
  · exact ⟨_, stream.2.1, stream.2.2.1.trans (Nat.le_add_right _ _)⟩
  · exact ⟨_, stream.2.1, stream.2.2.2⟩

end Leader

/-! ## What the follower accepts -/

theorem installRecords_consecutive {recs : List Record} {next n : Nat} (first : 1 ≤ next)
    (lsns : recs.map Record.lsn = range' next n) :
    installRecords next recs = .ok (next + n) := by
  induction recs generalizing next n with
  | nil =>
    have : n = 0 := by simpa using (congrArg List.length lsns).symm
    rw [installRecords, this]
    rfl
  | cons rec recs ih =>
    obtain ⟨m, rfl⟩ : ∃ m, n = m + 1 :=
      ⟨recs.length, by simpa using (congrArg List.length lsns).symm⟩
    rw [map_cons, range'_succ, cons.injEq] at lsns
    rw [installRecords, lsns.1, if_neg (by lia), if_neg (lt_irrefl _), if_neg (by simp),
      ih (by lia) lsns.2]
    congr 1
    lia

theorem installRecords_batches {batches : List (List Record)} {next n : Nat} (first : 1 ≤ next)
    (lsns : batches.flatten.map Record.lsn = range' next n) :
    batches.foldlM installRecords next = .ok (next + n) := by
  induction batches generalizing next n with
  | nil =>
    have : n = 0 := by simpa using (congrArg List.length lsns).symm
    rw [this]
    rfl
  | cons batch batches ih =>
    have length : batch.length + batches.flatten.length = n := by
      have length := congrArg List.length lsns
      rwa [length_map, flatten_cons, length_append, length_range'] at length
    rw [flatten_cons, map_append, ← length, ← range'_append_1] at lsns
    obtain ⟨here, rest⟩ := append_inj lsns (by simp)
    rw [foldlM_cons, installRecords_consecutive first here]
    change batches.foldlM installRecords (next + batch.length) = _
    rw [ih (by lia) rest, ← length, Nat.add_assoc]

namespace Leader

variable {s : Leader}

/-- A transaction commits in doubt while another one begins; that one rolls back, and a third
one commits. -/
def twoCommits : List Label :=
  [.append { type := .begin, txnID := 1 }, .startBatch,
   .append { type := .allocState, txnID := 1 }, .flushBody, .hold [{ type := .commit, txnID := 1 }],
   .propose, .append { type := .begin, txnID := 2 }, .replicated .inDoubt,
   .append { type := .abort, txnID := 2 }, .rollback, .append { type := .begin, txnID := 3 },
   .startBatch, .flushBody, .hold [{ type := .commit, txnID := 3 }], .propose]

end Leader

end NextSQL.Storage
