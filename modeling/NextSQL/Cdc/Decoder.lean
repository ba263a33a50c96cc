import Mathlib.Data.Finmap
import NextSQL.Wal.Log

/-!
# The change stream decoder

A transaction logs its row changes when it commits, right before its commit
record. The decoder reads the log record by record and collects the changes of
one transaction until its commit record comes; a record of another transaction
makes it forget them, since it takes them for the changes of a commit that a
crash has cut off.

A log is `Tidy` if the changes of a transaction stand together, right before
its commit record. On a tidy log a subscription delivers exactly the committed
transactions with a change that matches, with all of their changes, or stops
because a limit is exceeded (`drain_tidy`). Which logs are tidy is a question
about the writer: see `NextSQL.Cdc.Stream`.
-/

namespace NextSQL.Cdc

open Wal List

/-! ## Changes -/

inductive ChangeOperation where
  | insert
  | update
  | delete
deriving DecidableEq, Repr

/-- A row change, as the executor stages it. -/
structure Change where
  operation : ChangeOperation
  tableID : Nat
  table : String
  tenant : String := ""
  oldTenant : String := ""
  key : Bytes
  oldKey : Bytes := []
  before : Bytes := []
  after : Bytes := []
deriving DecidableEq, Repr

/-- The encoding of the bodies of change records. -/
structure Codec where
  encodeChange : Change → Except Nerr Bytes
  decodeChange : Bytes → Except Nerr Change
  decode_encode : ∀ {c body}, encodeChange c = .ok body → decodeChange body = .ok c

structure Event where
  change : Change
  changeLSN : LSN
  commitLSN : LSN
  txnID : TxnID
deriving DecidableEq, Repr

structure Transaction where
  txnID : TxnID
  commitLSN : LSN
  token : LSN
  events : List Event
deriving DecidableEq, Repr

/-! ## The decoder -/

structure Limits where
  maxPendingTransactions : Nat := 0
  maxChangesPerTxn : Nat := 0
  maxPendingBytes : Nat := 0

def Limits.defaults (l : Limits) : Limits where
  maxPendingTransactions :=
    if l.maxPendingTransactions = 0 then 1024 else l.maxPendingTransactions
  maxChangesPerTxn := if l.maxChangesPerTxn = 0 then 131072 else l.maxChangesPerTxn
  maxPendingBytes := if l.maxPendingBytes = 0 then 16 * 2 ^ 20 else l.maxPendingBytes

structure PendingTxn where
  events : List Event
  bytes : Nat

structure Decoder where
  limits : Limits
  pending : AList fun _ : TxnID => PendingTxn
  pendingBytes : Nat
  openTxn : TxnID

def newDecoder (limits : Limits) : Decoder := ⟨limits.defaults, ∅, 0, 0⟩

namespace Decoder

def discard (d : Decoder) (t : TxnID) : Decoder :=
  match d.pending.lookup t with
  | some p => { d with pendingBytes := d.pendingBytes - p.bytes, pending := d.pending.erase t }
  | none => d

/-- A record of another transaction: the open one is taken for stranded. -/
def strand (d : Decoder) (rec : Record) : Decoder :=
  if d.openTxn ≠ 0 ∧ rec.txnID ≠ d.openTxn then { d.discard d.openTxn with openTxn := 0 } else d

/-- An answer of `Feed`: the decoder afterwards, a finished transaction, and whether the
record was a commit record. -/
abbrev Answer := Except Nerr (Decoder × Option Transaction × Bool)

def feedChange (codec : Codec) (d : Decoder) (rec : Record) : Answer :=
  if rec.txnID = 0 ∨ rec.lsn = 0 then
    .error ⟨.invalidFormat, "cdc.Decoder.Feed", "change has invalid transaction identity"⟩
  else
    match codec.decodeChange rec.body with
    | .error e => .error e
    | .ok change =>
      let p := d.pending.lookup rec.txnID
      if p.isNone ∧ d.limits.maxPendingTransactions ≤ d.pending.entries.length then
        .error ⟨.exhausted, "cdc.Decoder.Feed", "pending transaction limit exceeded"⟩
      else
        let p := p.getD ⟨[], 0⟩
        if d.limits.maxChangesPerTxn ≤ p.events.length ∨
            d.limits.maxPendingBytes < d.pendingBytes + rec.body.length then
          .error ⟨.exhausted, "cdc.Decoder.Feed", "pending change limit exceeded"⟩
        else
          let event : Event := ⟨change, rec.lsn, 0, rec.txnID⟩
          .ok ({ d with
            pending := d.pending.insert rec.txnID ⟨p.events ++ [event], p.bytes + rec.body.length⟩
            pendingBytes := d.pendingBytes + rec.body.length
            openTxn := rec.txnID }, none, false)

def feedCommit (d : Decoder) (rec : Record) : Answer :=
  match d.pending.lookup rec.txnID with
  | none => .ok (d, none, true)
  | some p =>
    if p.events.getLast?.map Event.changeLSN ≠ some rec.prevLSN then
      .error ⟨.invalidFormat, "cdc.Decoder.Feed", "commit does not close logical change batch"⟩
    else
      let events := p.events.map fun e => { e with commitLSN := rec.lsn }
      .ok ({ d.discard rec.txnID with openTxn := 0 },
        some ⟨rec.txnID, rec.lsn, rec.lsn, events⟩, true)

def feedAbort (d : Decoder) (rec : Record) : Answer :=
  .ok (if d.openTxn = rec.txnID then { d.discard rec.txnID with openTxn := 0 }
    else d.discard rec.txnID, none, false)

def feed (codec : Codec) (d : Decoder) (rec : Record) : Answer :=
  match rec.type with
  | .change => (d.strand rec).feedChange codec rec
  | .commit => (d.strand rec).feedCommit rec
  | .abort => (d.strand rec).feedAbort rec
  | _ => .ok (d.strand rec, none, false)

end Decoder

/-! ## Subscriptions -/

/-- Empty lists and the empty tenant admit everything. -/
structure Filter where
  tableIDs : List Nat := []
  tables : List String := []
  operations : List ChangeOperation := []
  tenant : String := ""

def Filter.admits (f : Filter) (c : Change) : Bool :=
  (f.operations.isEmpty || f.operations.contains c.operation) &&
    (f.tableIDs.isEmpty || f.tableIDs.contains c.tableID) &&
    (f.tables.isEmpty || f.tables.contains c.table) &&
    (f.tenant = "" || (c.tenant = f.tenant && (c.oldTenant = "" || c.oldTenant = f.tenant)))

def filterTransaction (f : Filter) (tx : Transaction) : Option Transaction :=
  let events := tx.events.filter fun e => f.admits e.change
  if events = [] then none else some { tx with events := events }

structure Subscription where
  filter : Filter
  decoder : Decoder
  scanLSN : LSN
  token : LSN

/-- Start after a token; zero starts at the oldest record that is retained. -/
def subscribe (oldest after : LSN) (f : Filter) (limits : Limits) : Except Nerr Subscription :=
  if after ≠ 0 ∧ after + 1 < oldest then
    .error ⟨.notFound, "cdc.Subscribe", "change history expired"⟩
  else .ok ⟨f, newDecoder limits, after, after⟩

namespace Subscription

/-- One record of a scan. -/
def take (codec : Codec) (sub : Subscription) (rec : Record) :
    Except Nerr (Subscription × Option Transaction) :=
  match sub.decoder.feed codec rec with
  | .error e => .error e
  | .ok (d, tx, committed) =>
    .ok ({ sub with
      decoder := d
      scanLSN := rec.lsn
      token := if committed then rec.lsn else sub.token }, tx.bind (filterTransaction sub.filter))

/-- What successive calls of `Next` return on these records, and how they end. -/
def drain (codec : Codec) : Subscription → List Record → List Transaction × Except Nerr Subscription
  | sub, [] => ([], .ok sub)
  | sub, rec :: recs =>
    match sub.take codec rec with
    | .error e => ([], .error e)
    | .ok (sub', tx) => (tx.toList ++ (drain codec sub' recs).1, (drain codec sub' recs).2)

variable {codec : Codec}

/-- A subscription goes on where it was when more records have been written. -/
theorem drain_append (sub : Subscription) (recs more : List Record) :
    sub.drain codec (recs ++ more) =
      match sub.drain codec recs with
      | (txs, .error e) => (txs, .error e)
      | (txs, .ok sub') => (txs ++ (sub'.drain codec more).1, (sub'.drain codec more).2) := by
  induction recs generalizing sub with
  | nil => rfl
  | cons rec recs ih =>
    rw [cons_append, drain, drain]
    cases sub.take codec rec with
    | error e => rfl
    | ok result =>
      obtain ⟨sub', tx⟩ := result
      simp only [ih]
      obtain ⟨txs, e | sub''⟩ := sub'.drain codec recs
      · rfl
      · simp

end Subscription

/-! ## Tidy logs -/

section

variable (codec : Codec)

def eventOf (rec : Record) : Option Event :=
  match codec.decodeChange rec.body with
  | .error _ => none
  | .ok change => some ⟨change, rec.lsn, 0, rec.txnID⟩

/-- The changes of a transaction, in the order of the log. -/
def eventsOf (log : List Record) (t : TxnID) : List Event :=
  log.filterMap fun rec => if rec.type = .change ∧ rec.txnID = t then eventOf codec rec else none

/-- What is to be delivered for a commit record. -/
def transactionOf (log : List Record) (rec : Record) : Transaction :=
  ⟨rec.txnID, rec.lsn, rec.lsn,
    (eventsOf codec log rec.txnID).map fun e => { e with commitLSN := rec.lsn }⟩

/-- The committed transactions of a log, in commit order. -/
def committedIn (log : List Record) : List Transaction :=
  (log.filter (·.type = .commit)).map (transactionOf codec log)

end

def Uncommitted (log : List Record) (t : TxnID) : Prop :=
  ∀ rec ∈ log, rec.type = .commit → rec.txnID ≠ t

/-- The last record is a change of this transaction. -/
def Ends (log : List Record) (t : TxnID) (lsn : LSN) : Prop :=
  ∃ last, log.getLast? = some last ∧ last.type = .change ∧ last.txnID = t ∧ last.lsn = lsn

/-- Logs in which the changes of a transaction stand together and a commit record follows
the changes of its transaction, if it has any. -/
inductive Tidy (codec : Codec) : List Record → Prop where
  | nil : Tidy codec []
  | other {log : List Record} {rec : Record} (front : Tidy codec log)
      (notChange : rec.type ≠ .change) (notCommit : rec.type ≠ .commit) :
      Tidy codec (log ++ [rec])
  | change {log : List Record} {rec : Record} {c : Change} (front : Tidy codec log)
      (type : rec.type = .change) (decodes : codec.decodeChange rec.body = .ok c)
      (txn : rec.txnID ≠ 0) (lsn : rec.lsn ≠ 0) (uncommitted : Uncommitted log rec.txnID)
      (together : eventsOf codec log rec.txnID = [] ∨ ∃ lsn, Ends log rec.txnID lsn) :
      Tidy codec (log ++ [rec])
  | commit {log : List Record} {rec : Record} (front : Tidy codec log) (type : rec.type = .commit)
      (closes : eventsOf codec log rec.txnID = [] ∨ Ends log rec.txnID rec.prevLSN) :
      Tidy codec (log ++ [rec])

variable {codec : Codec} {log more : List Record} {rec : Record} {t : TxnID}

theorem eventsOf_append (log more : List Record) (t : TxnID) :
    eventsOf codec (log ++ more) t = eventsOf codec log t ++ eventsOf codec more t :=
  filterMap_append

theorem eventsOf_of_ne (other : rec.type ≠ .change ∨ rec.txnID ≠ t) :
    eventsOf codec (log ++ [rec]) t = eventsOf codec log t := by
  rw [eventsOf_append]
  have none : eventsOf codec [rec] t = [] := by
    rcases other with other | other <;> simp [eventsOf, other]
  rw [none, append_nil]

variable {c : Change}

theorem eventsOf_change (type : rec.type = .change) (decodes : codec.decodeChange rec.body = .ok c) :
    eventsOf codec (log ++ [rec]) rec.txnID =
      eventsOf codec log rec.txnID ++ [⟨c, rec.lsn, 0, rec.txnID⟩] := by
  rw [eventsOf_append]
  simp [eventsOf, eventOf, type, decodes]

variable {lsn : LSN}

theorem ends_append_iff : Ends (log ++ [rec]) t lsn ↔
    rec.type = .change ∧ rec.txnID = t ∧ rec.lsn = lsn := by
  simp [Ends]

theorem Tidy.front (tidy : Tidy codec (log ++ [rec])) : Tidy codec log := by
  generalize whole : log ++ [rec] = all at tidy
  cases tidy with
  | nil => simp at whole
  | other front | change front | commit front =>
    rw [(append_inj' whole rfl).1]
    exact front

theorem Tidy.of_append (tidy : Tidy codec (log ++ more)) : Tidy codec log := by
  induction more using reverseRecOn with
  | nil => simpa using tidy
  | append_singleton more rec ih =>
    rw [← append_assoc] at tidy
    exact ih tidy.front

/-- What is known of the last record of a tidy log. -/
theorem Tidy.last (tidy : Tidy codec (log ++ [rec])) : (rec.type ≠ .change ∧ rec.type ≠ .commit) ∨
    (rec.type = .change ∧ (∃ c, codec.decodeChange rec.body = .ok c) ∧ rec.txnID ≠ 0 ∧
      rec.lsn ≠ 0 ∧ Uncommitted log rec.txnID ∧
      (eventsOf codec log rec.txnID = [] ∨ ∃ lsn, Ends log rec.txnID lsn)) ∨
    (rec.type = .commit ∧ (eventsOf codec log rec.txnID = [] ∨ Ends log rec.txnID rec.prevLSN)) := by
  generalize whole : log ++ [rec] = all at tidy
  cases tidy with
  | nil => simp at whole
  | other front notChange notCommit =>
    obtain ⟨rfl, same⟩ := append_inj' whole rfl
    cases same
    exact .inl ⟨notChange, notCommit⟩
  | change front type decodes txn lsn uncommitted together =>
    obtain ⟨rfl, same⟩ := append_inj' whole rfl
    cases same
    exact .inr (.inl ⟨type, ⟨_, decodes⟩, txn, lsn, uncommitted, together⟩)
  | commit front type closes =>
    obtain ⟨rfl, same⟩ := append_inj' whole rfl
    cases same
    exact .inr (.inr ⟨type, closes⟩)

/-- The last change of a transaction is the last record. -/
theorem Tidy.eventsOf_ends (tidy : Tidy codec log) (ends : Ends log t lsn) :
    (eventsOf codec log t).getLast?.map Event.changeLSN = some lsn := by
  obtain ⟨last, found, type, rfl, rfl⟩ := ends
  obtain ⟨front, rfl⟩ := getLast?_eq_some_iff.mp found
  obtain ⟨other, -⟩ | ⟨-, ⟨c, decodes⟩, -⟩ | ⟨commit, -⟩ := tidy.last
  · exact absurd type other
  · rw [eventsOf_change type decodes, getLast?_append]
    rfl
  · rw [type] at commit
    cases commit

theorem Tidy.ends_ne_zero (tidy : Tidy codec log) (ends : Ends log t lsn) : t ≠ 0 := by
  obtain ⟨last, found, type, rfl, rfl⟩ := ends
  obtain ⟨front, rfl⟩ := getLast?_eq_some_iff.mp found
  obtain ⟨other, -⟩ | ⟨-, -, txn, -⟩ | ⟨commit, -⟩ := tidy.last
  · exact absurd type other
  · exact txn
  · rw [type] at commit
    cases commit

/-! ## The committed transactions of a tidy log -/

theorem committedIn_congr {log' : List Record}
    (same : log'.filter (·.type = .commit) = log.filter (·.type = .commit))
    (events : ∀ rec ∈ log, rec.type = .commit →
      eventsOf codec log' rec.txnID = eventsOf codec log rec.txnID) :
    committedIn codec log' = committedIn codec log := by
  unfold committedIn
  rw [same]
  refine map_congr_left fun rec member => ?_
  obtain ⟨member, type⟩ := mem_filter.mp member
  rw [transactionOf, transactionOf, events rec member (of_decide_eq_true type)]

theorem Tidy.committedIn_snoc (tidy : Tidy codec (log ++ [rec])) :
    committedIn codec (log ++ [rec]) =
      committedIn codec log ++ if rec.type = .commit then [transactionOf codec log rec] else [] := by
  obtain ⟨notChange, notCommit⟩ | ⟨type, -, -, -, uncommitted, -⟩ | ⟨type, -⟩ := tidy.last
  · rw [if_neg notCommit, append_nil]
    refine committedIn_congr (by simp [notCommit]) fun r _ _ => ?_
    exact eventsOf_of_ne (.inl notChange)
  · have notCommit : rec.type ≠ .commit := by simp [type]
    rw [if_neg notCommit, append_nil]
    refine committedIn_congr (by simp [notCommit]) fun r member commit => ?_
    exact eventsOf_of_ne (.inr (uncommitted r member commit).symm)
  · have notChange : rec.type ≠ .change := by simp [type]
    have same : transactionOf codec (log ++ [rec]) = transactionOf codec log := by
      funext r
      rw [transactionOf, transactionOf, eventsOf_of_ne (.inl notChange)]
    simp [committedIn, type, same]

/-- The decoder holds the changes of at most one transaction, and all of them. -/
structure Sync (codec : Codec) (d : Decoder) (log : List Record) : Prop where
  holds : (d.openTxn = 0 ∧ d.pending = ∅) ∨
    (d.openTxn ≠ 0 ∧ ∃ p, d.pending = AList.singleton d.openTxn p ∧
      p.events = eventsOf codec log d.openTxn ∧ p.events ≠ [])
  ends : ∀ t lsn, Ends log t lsn → d.openTxn = t

variable {d : Decoder}

section Singleton

variable (t : TxnID) (p q : PendingTxn)

@[simp] theorem lookup_singleton :
    (AList.singleton t p : AList fun _ : TxnID => PendingTxn).lookup t = some p := by
  simp [AList.lookup, AList.singleton]

@[simp] theorem erase_singleton :
    (AList.singleton t p : AList fun _ : TxnID => PendingTxn).erase t = ∅ :=
  AList.ext (kerase_cons_eq rfl)

@[simp] theorem insert_singleton :
    (AList.singleton t p : AList fun _ : TxnID => PendingTxn).insert t q = AList.singleton t q := by
  apply AList.ext
  simp [AList.singleton, AList.insert, kinsert_def]

@[simp] theorem insert_empty :
    (∅ : AList fun _ : TxnID => PendingTxn).insert t q = AList.singleton t q := rfl

end Singleton

/-- After `strand` at most the transaction of the record is open. -/
theorem Sync.strand (sync : Sync codec d log) (rec : Record) :
    ((d.strand rec).openTxn = 0 ∧ (d.strand rec).pending = ∅ ∧
        (d.openTxn = 0 ∨ d.openTxn ≠ rec.txnID)) ∨
      (d.strand rec = d ∧ d.openTxn = rec.txnID ∧ rec.txnID ≠ 0 ∧
        ∃ p, d.pending = AList.singleton rec.txnID p ∧
          p.events = eventsOf codec log rec.txnID ∧ p.events ≠ []) := by
  unfold Decoder.strand
  obtain ⟨closed, empty⟩ | ⟨isOpen, p, only, events, any⟩ := sync.holds
  · rw [if_neg (by simp [closed])]
    exact .inl ⟨closed, empty, .inl closed⟩
  by_cases same : rec.txnID = d.openTxn
  · rw [if_neg (by simp [same])]
    exact .inr ⟨rfl, same.symm, same ▸ isOpen, p, same ▸ only, same ▸ events, any⟩
  · rw [if_pos ⟨isOpen, same⟩]
    refine .inl ⟨rfl, ?_, .inr fun eq => same eq.symm⟩
    simp [Decoder.discard, only]

/-- A closed decoder with nothing pending is in step with every log that does not end with a
change. -/
theorem sync_closed (closed : d.openTxn = 0) (empty : d.pending = ∅)
    (notChange : rec.type ≠ .change) : Sync codec d (log ++ [rec]) :=
  ⟨.inl ⟨closed, empty⟩, fun _ _ ends => absurd (ends_append_iff.mp ends).1 notChange⟩

/-- What `Feed` answers: an error only at a limit, and a transaction exactly at the commit
record of one with changes. -/
def Right (codec : Codec) (log : List Record) (rec : Record) : Decoder.Answer → Prop
  | .error e => e.code = .exhausted
  | .ok (d, tx, _) => Sync codec d (log ++ [rec]) ∧
      tx = if rec.type = .commit ∧ eventsOf codec log rec.txnID ≠ [] then
        some (transactionOf codec log rec) else none

theorem feedChange_right {d' : Decoder} (type : rec.type = .change)
    (decodes : codec.decodeChange rec.body = .ok c) (txn : rec.txnID ≠ 0) (lsn : rec.lsn ≠ 0)
    (pending : (d'.pending = ∅ ∧ eventsOf codec log rec.txnID = []) ∨
      ∃ p, d'.pending = AList.singleton rec.txnID p ∧ p.events = eventsOf codec log rec.txnID) :
    Right codec log rec (d'.feedChange codec rec) := by
  have kept : ∀ p : PendingTxn, p.events = eventsOf codec log rec.txnID →
      ∀ bytes bytes' : Nat, Sync codec { d' with
          pending := AList.singleton rec.txnID ⟨p.events ++ [⟨c, rec.lsn, 0, rec.txnID⟩], bytes⟩
          pendingBytes := bytes'
          openTxn := rec.txnID } (log ++ [rec]) := by
    intro p events bytes bytes'
    refine ⟨.inr ⟨txn, _, rfl, ?_, by simp⟩, fun _ _ ends => (ends_append_iff.mp ends).2.1⟩
    rw [eventsOf_change type decodes, events]
  have notCommit : ¬ (rec.type = .commit ∧ eventsOf codec log rec.txnID ≠ []) := by simp [type]
  unfold Decoder.feedChange
  rw [if_neg (by simp [txn, lsn]), decodes]
  dsimp only
  split
  · exact rfl
  split
  · exact rfl
  refine ⟨?_, (if_neg notCommit).symm⟩
  obtain ⟨empty, none⟩ | ⟨p, only, events⟩ := pending
  · simp only [empty, AList.lookup_empty, Option.getD_none, insert_empty]
    exact kept ⟨[], 0⟩ none.symm _ _
  · simp only [only, lookup_singleton, Option.getD_some, insert_singleton]
    exact kept p events _ _

/-- **One record.** -/
theorem feed_right (tidy : Tidy codec (log ++ [rec])) (sync : Sync codec d log) :
    Right codec log rec (d.feed codec rec) := by
  have stranded := sync.strand rec
  rcases tidy.last with ⟨notChange, notCommit⟩ | ⟨type, ⟨c, decodes⟩, txn, lsn, -, together⟩ |
    ⟨type, closes⟩
  · have quiet : ¬ (rec.type = .commit ∧ eventsOf codec log rec.txnID ≠ []) := fun h => notCommit h.1
    have same : ∀ t, eventsOf codec (log ++ [rec]) t = eventsOf codec log t :=
      fun t => eventsOf_of_ne (.inl notChange)
    have notEnd : ∀ t lsn, ¬ Ends (log ++ [rec]) t lsn :=
      fun t lsn ends => notChange (ends_append_iff.mp ends).1
    by_cases abort : rec.type = .abort
    · unfold Decoder.feed
      rw [abort]
      refine ⟨?_, (if_neg (by simp [abort])).symm⟩
      obtain ⟨closed, empty, -⟩ | ⟨kept, isOpen, -, p, only, -⟩ := stranded
      · split
        · exact sync_closed rfl (by simp [Decoder.discard, empty]) notChange
        · exact sync_closed (by simp [Decoder.discard, empty, closed])
            (by simp [Decoder.discard, empty]) notChange
      · rw [kept, if_pos isOpen]
        refine sync_closed rfl ?_ notChange
        simp [Decoder.discard, only]
    have default : d.feed codec rec = .ok (d.strand rec, none, false) := by
      unfold Decoder.feed
      split <;> simp_all
    rw [default]
    refine ⟨?_, (if_neg quiet).symm⟩
    obtain ⟨closed, empty, -⟩ | ⟨kept, isOpen, nonzero, p, only, events, any⟩ := stranded
    · exact sync_closed closed empty notChange
    rw [kept]
    refine ⟨.inr ⟨isOpen ▸ nonzero, p, isOpen ▸ only, ?_, any⟩, fun t lsn ends =>
      absurd ends (notEnd t lsn)⟩
    rw [same, isOpen, events]
  · unfold Decoder.feed
    rw [type]
    refine feedChange_right type decodes txn lsn ?_
    obtain ⟨-, empty, apart⟩ | ⟨kept, -, -, p, only, events, -⟩ := stranded
    · refine .inl ⟨empty, together.resolve_right ?_⟩
      rintro ⟨last, ends⟩
      obtain closed | apart := apart
      · exact txn ((sync.ends _ _ ends).symm.trans closed)
      · exact apart (sync.ends _ _ ends)
    · exact .inr ⟨p, by rw [kept]; exact only, events⟩
  have notChange : rec.type ≠ .change := by simp [type]
  unfold Decoder.feed
  rw [type]
  unfold Decoder.feedCommit
  obtain ⟨closed, empty, apart⟩ | ⟨kept, isOpen, -, p, only, events, any⟩ := stranded
  · have none : eventsOf codec log rec.txnID = [] := by
      refine closes.resolve_right fun ends => ?_
      have isOpen := sync.ends _ _ ends
      obtain closed | apart := apart
      · exact tidy.front.ends_ne_zero ends (isOpen.symm.trans closed)
      · exact apart isOpen
    rw [empty, AList.lookup_empty]
    exact ⟨sync_closed closed empty notChange, (if_neg (by simp [none])).symm⟩
  have found : d.pending.lookup rec.txnID = some p := by simp [only]
  have ends : Ends log rec.txnID rec.prevLSN := closes.resolve_left (events ▸ any)
  have last : p.events.getLast?.map Event.changeLSN = some rec.prevLSN := by
    rw [events]
    exact tidy.front.eventsOf_ends ends
  rw [kept, found]
  dsimp only
  rw [if_neg (by simp [last])]
  refine ⟨sync_closed rfl ?_ notChange, ?_⟩
  · simp [Decoder.discard, only]
  · rw [if_pos ⟨type, events ▸ any⟩, events]
    rfl

/-! ## Draining a tidy log -/

/-- What is due to a subscription. -/
def due (codec : Codec) (f : Filter) (token : LSN) (log : List Record) : List Transaction :=
  ((committedIn codec log).filter (token < ·.commitLSN)).filterMap (filterTransaction f)

/-- What a subscription has delivered: all that is due, or a part of it and an error at a
limit. -/
def Delivers (codec : Codec) (f : Filter) (token : LSN) (log : List Record) :
    List Transaction × Except Nerr Subscription → Prop
  | (txs, .error e) => e.code = .exhausted ∧ txs <+: due codec f token log
  | (txs, .ok sub) => txs = due codec f token log ∧ sub.filter = f ∧ Sync codec sub.decoder log

variable {f : Filter}

variable {token : LSN}

theorem Tidy.due_snoc (tidy : Tidy codec (log ++ [rec])) (later : token < rec.lsn) :
    due codec f token (log ++ [rec]) = due codec f token log ++
      ((if rec.type = .commit ∧ eventsOf codec log rec.txnID ≠ [] then
        some (transactionOf codec log rec) else none).bind (filterTransaction f)).toList := by
  unfold due
  rw [tidy.committedIn_snoc]
  by_cases commit : rec.type = .commit
  · have kept : token < (transactionOf codec log rec).commitLSN := later
    by_cases none : eventsOf codec log rec.txnID = []
    · have nothing : filterTransaction f (transactionOf codec log rec) = .none := by
        simp [filterTransaction, transactionOf, none]
      simp [commit, none, kept, nothing]
    simp only [if_pos commit, if_pos (And.intro commit none), filter_append,
      filterMap_append, Option.bind_some]
    congr 1
    simp only [filter_cons, decide_eq_true kept, if_true, filter_nil]
    cases chosen : filterTransaction f (transactionOf codec log rec) <;> simp [chosen]
  · simp [commit]

/-- **A tidy log.** A subscription that starts at the beginning, or behind a commit record,
delivers what is due. -/
theorem drain_tidy {sub : Subscription} (filter : sub.filter = f)
    (sync : Sync codec sub.decoder log) (before : due codec f token log = []) :
    Tidy codec (log ++ more) → (∀ rec ∈ more, token < rec.lsn) →
      Delivers codec f token (log ++ more) (sub.drain codec more) := by
  induction more using reverseRecOn with
  | nil =>
    intro _ _
    rw [append_nil]
    exact ⟨before.symm, filter, sync⟩
  | append_singleton more rec ih =>
    intro tidy later
    rw [← append_assoc] at tidy ⊢
    have delivered := ih tidy.front fun r member => later r (by simp [member])
    have grows := tidy.due_snoc (later rec (by simp)) (f := f)
    rw [Subscription.drain_append]
    generalize sub.drain codec more = result at delivered ⊢
    obtain ⟨txs, e | sub'⟩ := result
    · obtain ⟨limit, part⟩ := delivered
      refine ⟨limit, ?_⟩
      rw [grows]
      exact part.trans (prefix_append _ _)
    obtain ⟨rfl, filter', sync'⟩ := delivered
    have right := feed_right tidy sync'
    simp only [Subscription.drain, Subscription.take]
    cases fed : sub'.decoder.feed codec rec with
    | error e =>
      rw [fed] at right
      refine ⟨right, ?_⟩
      rw [grows, append_nil]
      exact prefix_append _ _
    | ok answer =>
      obtain ⟨d', tx, committed⟩ := answer
      rw [fed] at right
      obtain ⟨inStep, rfl⟩ := right
      refine ⟨?_, filter', inStep⟩
      dsimp only
      rw [grows, append_nil, filter']

end NextSQL.Cdc
