import NextSQL.Cdc.Decoder
import NextSQL.Lib.Run

/-!
# The change stream of an engine

The engine writes the log that the decoder reads. A commit appends the allocator
state and the staged changes of its transaction and then the commit record, all
with the engine's mutex held. On a node with a replicator up to 64 transactions
commit together: first the bodies of all of them, then all the commit records,
which are cut out again if the batch was not proposed.

Not everything takes that mutex. A rollback appends its abort record without it,
and a checkpoint all of its records. So a record of another transaction can come
between the changes and the commit record, and the decoder then forgets the
changes. In a batch of two transactions it always forgets them.

If commits with changes are not batched, nothing is appended without the mutex
while a commit has logged a change but not its commit record, and no commit is
tried a second time after it has logged a change, the log is tidy. A subscription
from any token then delivers exactly the committed transactions behind it with a
change that matches, or stops with an error (`stream_complete`).
-/

namespace NextSQL.Cdc

open Function (update update_apply update_eq_self_iff update_of_ne update_self)

open GuardedRuns Wal List

/-- A committed transaction, with the changes it has staged. -/
structure Committed where
  txnID : TxnID
  commitLSN : LSN
  changes : List Change
deriving DecidableEq, Repr

def Transaction.summary (tx : Transaction) : Committed :=
  ⟨tx.txnID, tx.commitLSN, tx.events.map Event.change⟩

/-- The part of a transaction that a subscriber wants to see. -/
def Committed.restrict (f : Filter) (c : Committed) : Option Committed :=
  let changes := c.changes.filter f.admits
  if changes = [] then none else some { c with changes := changes }

/-! ## The engine -/

/-- A record that a commit under way still has to append. -/
inductive Item where
  | alloc (t : TxnID)
  | change (t : TxnID) (c : Change)
deriving DecidableEq, Repr

def Item.txn : Item → TxnID
  | .alloc t | .change t _ => t

/-- The commit, or batch of commits, that holds the engine's mutex. -/
structure Work where
  items : List Item
  commits : List TxnID
  /-- A change has been appended. -/
  started : Bool

structure State where
  replicated : Bool
  log : List Record
  nextLSN : LSN
  nextTxn : TxnID
  /-- The changes that an open transaction has staged. -/
  staged : TxnID → Option (List Change)
  prev : TxnID → LSN
  /-- Structure changes and checkpoints that are being logged. -/
  systems : List TxnID
  work : Option Work
  committed : List Committed
  oldest : LSN

inductive Label where
  | begin
  | stage (t : TxnID) (c : Change)
  /-- A record of another kind, appended with the mutex or, by a checkpoint, without it. -/
  | log (locked : Bool) (rec : Record)
  | beginSystem (locked : Bool)
  | commitSystem (locked : Bool) (t : TxnID)
  | rollback (t : TxnID)
  /-- `commitUnreplicated` or `executeReplBatch` starts. -/
  | commit (ts : List TxnID)
  /-- The next record of the commit under way. -/
  | work
  /-- An append of the commit under way fails. -/
  | fail
  /-- The commit records are appended; those of a batch that was not proposed are cut out. -/
  | finish (kept : Bool)
  | crash (last : LSN)
  | recycle (oldest : LSN)

namespace State

def create (replicated : Bool) : State where
  replicated := replicated
  log := []
  nextLSN := 1
  nextTxn := 1
  staged := fun _ => none
  prev := fun _ => 0
  systems := []
  work := none
  committed := []
  oldest := 1

/-- Append a record at the next LSN. -/
def put (s : State) (rec : Record) : State :=
  { s with log := s.log ++ [{ rec with lsn := s.nextLSN }], nextLSN := s.nextLSN + 1 }

/-- Append a record of a transaction that is linked to the one before. -/
def chain (s : State) (type : RecType) (t : TxnID) (body : Bytes) : State :=
  { s.put { type := type, txnID := t, prevLSN := s.prev t, body := body } with
    prev := update s.prev t s.nextLSN }

/-- Nothing holds the mutex, or it is not needed. -/
def free (s : State) (locked : Bool) : Bool := !locked || s.work.isNone

/-- The transaction is being committed. -/
def committing (s : State) (t : TxnID) : Bool := s.work.any fun w => w.commits.contains t

/-- The records of a commit up to its commit record. -/
def commitBody (s : State) (t : TxnID) : List Item :=
  .alloc t :: ((s.staged t).getD []).map (.change t)

def commitRec (s : State) (t : TxnID) : State :=
  { s.chain .commit t [] with
    staged := update s.staged t none
    committed := s.committed ++ [⟨t, s.nextLSN, (s.staged t).getD []⟩] }

def step? (codec : Codec) (s : State) : Label → Option State
  | .begin =>
    if s.work.isSome then none
    else some { s.chain .begin s.nextTxn [] with
      staged := update s.staged s.nextTxn (some [])
      nextTxn := s.nextTxn + 1 }
  | .stage t c =>
    match s.staged t with
    | none => none
    | some cs =>
      if s.committing t then none
      else some { s with staged := update s.staged t (some (cs ++ [c])) }
  | .log locked rec =>
    if rec.type = .change ∨ rec.type = .commit ∨ rec.type = .begin then none
    else if rec.type = .abort ∧ (s.staged rec.txnID).isSome then none
    else if s.free locked then
      some (if locked then s.chain rec.type rec.txnID rec.body else s.put rec)
    else none
  | .beginSystem locked =>
    if s.free locked then
      some { s.put { type := .begin, txnID := s.nextTxn } with
        systems := s.systems ++ [s.nextTxn]
        nextTxn := s.nextTxn + 1 }
    else none
  | .commitSystem locked t =>
    if s.free locked ∧ t ∈ s.systems then
      some { s.put { type := .commit, txnID := t, prevLSN := s.prev t } with
        systems := s.systems.erase t
        committed := s.committed ++ [⟨t, s.nextLSN, []⟩] }
    else none
  | .rollback t =>
    if (s.staged t).isNone ∨ s.committing t then none
    else some { s.put { type := .abort, txnID := t, prevLSN := s.prev t } with
      staged := update s.staged t none }
  | .commit ts =>
    if s.work.isSome ∨ ts = [] ∨ 64 < ts.length ∨ (!s.replicated ∧ ts.length ≠ 1) ∨
        ¬ ts.all (fun t => (s.staged t).isSome) then none
    else some { s with work := some ⟨ts.flatMap s.commitBody, ts, false⟩ }
  | .work =>
    match s.work with
    | some ⟨.alloc t :: items, ts, started⟩ =>
      some { s.chain .allocState t [] with work := some ⟨items, ts, started⟩ }
    | some ⟨.change t c :: items, ts, _⟩ =>
      match codec.encodeChange c with
      | .error _ => none
      | .ok body => some { s.chain .change t body with work := some ⟨items, ts, true⟩ }
    | _ => none
  | .fail =>
    match s.work with
    | some ⟨item :: items, ts, started⟩ =>
      let rest := ts.filter (· ≠ item.txn)
      some { s with
        work := if rest = [] then none
          else some ⟨items.filter (·.txn ≠ item.txn), rest, started⟩ }
    | _ => none
  | .finish kept =>
    match s.work with
    | some ⟨[], ts, _⟩ =>
      if kept then some { ts.foldl commitRec s with work := none }
      else if s.replicated then
        some { s with nextLSN := s.nextLSN + ts.length, work := none }
      else none
    | _ => none
  | .crash last =>
    let log := s.log.filter (·.lsn ≤ last)
    some { s with
      log := log
      nextLSN := (log.map Record.lsn).foldl max 0 + 1
      nextTxn := (log.map Record.txnID).foldl max 0 + 1
      staged := fun _ => none
      systems := []
      work := none
      committed := s.committed.filter (·.commitLSN ≤ last) }
  | .recycle oldest =>
    if oldest ≤ s.nextLSN then some { s with oldest := max s.oldest oldest } else none

def Steps (codec : Codec) (s : State) (label : Label) (s' : State) : Prop :=
  s.step? codec label = some s'

/-- What a new subscription delivers, and the error with which it stops. -/
def read (codec : Codec) (s : State) (token : LSN) (f : Filter) (limits : Limits) :
    List Transaction × Option Nerr :=
  match subscribe s.oldest token f limits with
  | .error e => ([], some e)
  | .ok sub =>
    match sub.drain codec (s.log.filter fun rec => sub.scanLSN < rec.lsn ∧ s.oldest ≤ rec.lsn) with
    | (txs, .error e) => (txs, some e)
    | (txs, .ok _) => (txs, none)

/-- What a new subscription has to deliver. -/
def due (s : State) (token : LSN) (f : Filter) : List Committed :=
  (s.committed.filter (token < ·.commitLSN)).filterMap (Committed.restrict f)

/-- A token is the LSN of a commit record. -/
def IsToken (s : State) (token : LSN) : Prop := ∃ rec ∈ s.log, rec.type = .commit ∧ rec.lsn = token

instance (s : State) (token : LSN) : Decidable (s.IsToken token) :=
  inferInstanceAs (Decidable (∃ rec ∈ s.log, _))

/-- The transaction has logged a change. -/
def loggedChange (s : State) (t : TxnID) : Bool :=
  s.log.any fun rec => rec.type = .change && rec.txnID = t

/-- No commit is between its first change and its commit record. -/
def between (s : State) : Bool := s.work.all fun w => !w.started

/-- Commits with changes are not batched and not tried again, and nothing is appended
between the changes and the commit record of one. -/
def undisturbed (s : State) : Label → Bool
  | .log locked _ | .beginSystem locked | .commitSystem locked _ => locked || s.between
  | .rollback _ => s.between
  | .commit ts =>
    (ts.length = 1 || ts.all fun t => s.staged t = some []) && ts.all fun t => !s.loggedChange t
  | _ => true

end State

/-! ## The invariant -/

variable {codec : Codec} {s s' : State} {t : TxnID}

/-- Everything but the commit under way. -/
structure Base (codec : Codec) (s : State) : Prop where
  tidy : Tidy codec s.log
  sorted : s.log.Pairwise (·.lsn < ·.lsn)
  numbered : ∀ rec ∈ s.log, 0 < rec.lsn ∧ rec.lsn < s.nextLSN
  counter : 0 < s.nextLSN
  ids : ∀ rec ∈ s.log, rec.type = .change ∨ rec.type = .commit → rec.txnID < s.nextTxn
  positive : 0 < s.nextTxn
  active : ∀ t, s.staged t ≠ none → t ≠ 0 ∧ t < s.nextTxn ∧ Uncommitted s.log t
  system : ∀ t ∈ s.systems, t < s.nextTxn ∧ s.staged t = none ∧ eventsOf codec s.log t = []
  committed : (committedIn codec s.log).map Transaction.summary = s.committed

/-- The commit under way: a batch without changes, or one transaction. -/
inductive Working (codec : Codec) (s : State) : Work → Prop where
  | quiet {items : List Item} {ts : List TxnID} (allocs : ∀ item ∈ items, ∃ t, item = .alloc t)
      (none : ∀ t ∈ ts, s.staged t = some [] ∧ eventsOf codec s.log t = []) :
      Working codec s ⟨items, ts, false⟩
  | start {t : TxnID} {cs : List Change} (staged : s.staged t = some cs)
      (none : eventsOf codec s.log t = []) :
      Working codec s ⟨.alloc t :: cs.map (.change t), [t], false⟩
  | body {t : TxnID} {cs : List Change} {started : Bool}
      (staged : s.staged t = some ((eventsOf codec s.log t).map Event.change ++ cs))
      (ends : started = true → Ends s.log t (s.prev t))
      (none : started = false → eventsOf codec s.log t = []) :
      Working codec s ⟨cs.map (.change t), [t], started⟩

structure Kept (codec : Codec) (s : State) : Prop where
  base : Base codec s
  working : ∀ w ∈ s.work, Working codec s w

/-! ### Records without changes -/

variable {log : List Record} {rec : Record}

theorem uncommitted_snoc (uncommitted : Uncommitted log t)
    (apart : rec.type = .commit → rec.txnID ≠ t) : Uncommitted (log ++ [rec]) t := by
  exact forall_mem_append.mpr ⟨uncommitted, forall_mem_singleton.mpr apart⟩

section

variable (base : Base codec s)

include base

/-- The parts of the invariant that speak of the order of the log. -/
theorem Base.put_sorted (rec : Record) : (s.put rec).log.Pairwise (·.lsn < ·.lsn) ∧
      ∀ r ∈ (s.put rec).log, 0 < r.lsn ∧ r.lsn < (s.put rec).nextLSN := by
  constructor
  · refine pairwise_append.mpr ⟨base.sorted, pairwise_singleton _ _, ?_⟩
    intro r member r' new
    rw [mem_singleton.mp new]
    exact (base.numbered r member).2
  intro r member
  obtain old | new := mem_append.mp member
  · have := base.numbered r old
    exact ⟨this.1, Nat.lt_succ_of_lt this.2⟩
  · rw [mem_singleton.mp new]
    exact ⟨base.counter, lt_add_one _⟩

theorem Base.put_other (notChange : rec.type ≠ .change) (notCommit : rec.type ≠ .commit) :
    Base codec (s.put rec) := by
  have tidy : Tidy codec (s.put rec).log := base.tidy.other notChange notCommit
  obtain ⟨sorted, numbered⟩ := base.put_sorted rec
  refine ⟨tidy, sorted, numbered, Nat.succ_pos _, ?_, base.positive, ?_, ?_, ?_⟩
  · intro r member which
    obtain old | new := mem_append.mp member
    · exact base.ids r old which
    · rw [mem_singleton.mp new] at which
      exact absurd which (by simp [notChange, notCommit])
  · intro t isOpen
    obtain ⟨nonzero, lt, uncommitted⟩ := base.active t isOpen
    exact ⟨nonzero, lt, uncommitted_snoc uncommitted fun commit => absurd commit notCommit⟩
  · intro t member
    obtain ⟨lt, closed, none⟩ := base.system t member
    refine ⟨lt, closed, Eq.trans (eventsOf_of_ne (.inl ?_)) none⟩
    exact notChange
  · refine Eq.trans ?_ base.committed
    rw [State.put] at tidy ⊢
    rw [tidy.committedIn_snoc, if_neg notCommit, append_nil]

theorem Base.prev (prev : TxnID → LSN) : Base codec { s with prev := prev } :=
  { base with }

theorem Base.work (work : Option Work) : Base codec { s with work := work } :=
  { base with }

theorem Base.close (t : TxnID) : Base codec { s with staged := update s.staged t none } := by
  have closes : ∀ t', s.staged t' = none → update s.staged t none t' = none := by
    intro t' closed
    rw [update_apply, closed, ite_self]
  refine { base with active := fun t' isOpen => ?_, system := fun t' member => ?_ }
  · exact base.active t' fun closed => isOpen (closes t' closed)
  · obtain ⟨lt, closed, none⟩ := base.system t' member
    exact ⟨lt, closes t' closed, none⟩

theorem Base.bump : Base codec { s with nextTxn := s.nextTxn + 1 } := by
  refine { base with ids := ?_, positive := Nat.succ_pos _, active := ?_, system := ?_ }
  · exact fun r member which => Nat.lt_succ_of_lt (base.ids r member which)
  · intro t isOpen
    obtain ⟨nonzero, lt, uncommitted⟩ := base.active t isOpen
    exact ⟨nonzero, Nat.lt_succ_of_lt lt, uncommitted⟩
  · intro t member
    obtain ⟨lt, closed, none⟩ := base.system t member
    exact ⟨Nat.lt_succ_of_lt lt, closed, none⟩

theorem Base.chain_other {type : RecType} {body : Bytes} (notChange : type ≠ .change)
    (notCommit : type ≠ .commit) : Base codec (s.chain type t body) :=
  (base.put_other notChange notCommit).prev _

end

/-- A commit that has not logged a change does not mind other records. -/
theorem Working.put_other {w : Work} (working : Working codec s w) (between : w.started = false)
    (notChange : rec.type ≠ .change) (grown : log = s.log ++ [rec])
    (same : ∀ t ∈ w.commits, s'.staged t = s.staged t) (log' : s'.log = log) :
    Working codec s' w := by
  have events : ∀ t, eventsOf codec s'.log t = eventsOf codec s.log t := by
    intro t
    rw [log', grown, eventsOf_of_ne (.inl notChange)]
  cases working with
  | quiet allocs none =>
    refine .quiet allocs fun t member => ?_
    rw [same t member, events]
    exact none t member
  | start staged none =>
    refine .start ?_ ?_
    · rw [same _ (by simp)]
      exact staged
    · rw [events]
      exact none
  | body staged ends none =>
    refine .body ?_ (fun on => ?_) fun off => ?_
    · rw [same _ (by simp), events]
      exact staged
    · cases between.symm.trans on
    · rw [events]
      exact none off

theorem Kept.put_other (kept : Kept codec s) (between : s.between) (rec : Record)
    (notChange : rec.type ≠ .change) (base : Base codec s') (log : s'.log = s.log ++ [rec])
    (work : s'.work = s.work) (same : ∀ t, s.committing t → s'.staged t = s.staged t) :
    Kept codec s' := by
  refine ⟨base, fun w member => ?_⟩
  rw [work] at member
  have found : s.work = some w := member
  have quiet : w.started = false := by simpa [State.between, found] using between
  refine (kept.working w member).put_other quiet notChange rfl (fun t taking => ?_) log
  exact same t (by simpa [State.committing, found] using taking)

theorem between_of_undisturbed {locked : Bool} (free : s.free locked)
    (undisturbed : (locked || s.between)) : s.between := by
  cases locked with
  | false => exact undisturbed
  | true => simp [State.between, Option.isNone_iff_eq_none.mp free]

/-! ### Changes and commit records -/

theorem Base.put_change (base : Base codec s) {c : Change} {body : Bytes} {p : LSN}
    (isOpen : s.staged t ≠ none) (encodes : codec.encodeChange c = .ok body)
    (together : eventsOf codec s.log t = [] ∨ ∃ lsn, Ends s.log t lsn) :
    Base codec (s.put { type := .change, txnID := t, prevLSN := p, body := body }) := by
  obtain ⟨nonzero, lt, uncommitted⟩ := base.active t isOpen
  have tidy : Tidy codec (s.put { type := .change, txnID := t, prevLSN := p, body := body }).log :=
    base.tidy.change rfl (codec.decode_encode encodes) nonzero base.counter.ne' uncommitted together
  obtain ⟨sorted, numbered⟩ := base.put_sorted _
  refine ⟨tidy, sorted, numbered, Nat.succ_pos _, ?_, base.positive, ?_, ?_, ?_⟩
  · exact forall_mem_append.mpr ⟨base.ids, forall_mem_singleton.mpr fun _ => lt⟩
  · intro t' isOpen'
    obtain ⟨nonzero', lt', uncommitted'⟩ := base.active t' isOpen'
    exact ⟨nonzero', lt', uncommitted_snoc uncommitted' fun commit => nomatch commit⟩
  · intro t' member
    obtain ⟨lt', closed, none⟩ := base.system t' member
    refine ⟨lt', closed, (eventsOf_of_ne (.inr ?_)).trans none⟩
    rintro rfl
    exact isOpen closed
  · refine Eq.trans ?_ base.committed
    rw [State.put] at tidy ⊢
    rw [tidy.committedIn_snoc, if_neg (by simp), append_nil]

theorem Base.put_commit (base : Base codec s) {cs : List Change} {p : LSN} (lt : t < s.nextTxn)
    (closes : eventsOf codec s.log t = [] ∨ Ends s.log t p)
    (changes : (eventsOf codec s.log t).map Event.change = cs) :
    Base codec { s.put { type := .commit, txnID := t, prevLSN := p } with
      staged := update s.staged t none
      committed := s.committed ++ [⟨t, s.nextLSN, cs⟩] } := by
  have tidy : Tidy codec (s.put { type := .commit, txnID := t, prevLSN := p }).log :=
    base.tidy.commit rfl closes
  obtain ⟨sorted, numbered⟩ := base.put_sorted { type := .commit, txnID := t, prevLSN := p }
  refine ⟨tidy, sorted, numbered, Nat.succ_pos _, ?_, base.positive, ?_, ?_, ?_⟩
  · exact forall_mem_append.mpr ⟨base.ids, forall_mem_singleton.mpr fun _ => lt⟩
  · intro t' isOpen
    obtain ⟨nonzero', lt', uncommitted'⟩ := (base.close t).active t' isOpen
    refine ⟨nonzero', lt', uncommitted_snoc uncommitted' fun _ => ?_⟩
    rintro rfl
    exact isOpen (update_self ..)
  · intro t' member
    obtain ⟨lt', closed, none⟩ := (base.close t).system t' member
    exact ⟨lt', closed, (eventsOf_of_ne (.inl (by simp))).trans none⟩
  · change (committedIn codec (s.log ++ [_])).map Transaction.summary = _
    rw [State.put] at tidy
    rw [tidy.committedIn_snoc, if_pos rfl, map_append, base.committed, ← changes]
    simp [Transaction.summary, transactionOf, Function.comp_def]

variable {ts : List TxnID}

theorem Base.commitRecs (base : Base codec s) (lt : ∀ t ∈ ts, t < s.nextTxn)
    (none : ∀ t ∈ ts, (s.staged t).getD [] = [] ∧ eventsOf codec s.log t = []) :
    Base codec (ts.foldl State.commitRec s) := by
  induction ts generalizing s with
  | nil => exact base
  | cons t ts ih =>
    have here := none t (by simp)
    rw [foldl_cons]
    refine ih ?_ (fun t' member => lt t' (by simp [member])) fun t' member => ?_
    · have committed := base.put_commit (lt t (by simp)) (p := s.prev t) (.inl here.2)
        (by rw [here.2, here.1]; rfl : _ = (s.staged t).getD [])
      exact committed.prev _
    obtain ⟨empty, events⟩ := none t' (by simp [member])
    refine ⟨?_, (eventsOf_of_ne (.inl (by simp))).trans events⟩
    change (update s.staged t .none t').getD [] = []
    rw [update_apply]
    split
    · rfl
    · exact empty

/-! ### Crashes -/

/-- In a sorted log the records up to an LSN are a first part. -/
theorem filter_le_append (sorted : log.Pairwise (·.lsn < ·.lsn)) (last : LSN) :
    log = log.filter (·.lsn ≤ last) ++ log.filter (last < ·.lsn) := by
  induction log with
  | nil => rfl
  | cons rec log ih =>
    obtain ⟨first, rest⟩ := pairwise_cons.mp sorted
    by_cases le : rec.lsn ≤ last
    · rw [filter_cons_of_pos (by simpa using le),
        filter_cons_of_neg (by simpa using le), cons_append, ← ih rest]
    have none : log.filter (·.lsn ≤ last) = [] := by
      refine filter_eq_nil_iff.mpr fun r member => ?_
      have := first r member
      simp only [decide_eq_true_eq]
      lia
    have all : log.filter (last < ·.lsn) = log := by
      refine filter_eq_self.mpr fun r member => ?_
      have := first r member
      simp only [decide_eq_true_eq]
      lia
    rw [filter_cons_of_neg (by simpa using le), none,
      filter_cons_of_pos (by simp only [decide_eq_true_eq]; lia), all, nil_append]

/-- Cutting off the end of a log cuts off the end of its committed transactions. -/
theorem Tidy.committedIn_append {more : List Record} (tidy : Tidy codec (log ++ more)) :
    ∃ txs, committedIn codec (log ++ more) = committedIn codec log ++ txs ∧
      ∀ tx ∈ txs, ∃ rec ∈ more, tx.commitLSN = rec.lsn := by
  induction more using reverseRecOn with
  | nil => exact ⟨[], by simp, by simp⟩
  | append_singleton more rec ih =>
    rw [← append_assoc] at tidy ⊢
    obtain ⟨txs, committed, late⟩ := ih tidy.front
    refine ⟨txs ++ if rec.type = .commit then [transactionOf codec (log ++ more) rec] else [],
      ?_, ?_⟩
    · rw [tidy.committedIn_snoc, committed, append_assoc]
    intro tx member
    obtain old | new := mem_append.mp member
    · obtain ⟨r, inMore, eq⟩ := late tx old
      exact ⟨r, by simp [inMore], eq⟩
    split at new
    · rw [mem_singleton.mp new]
      exact ⟨rec, by simp, rfl⟩
    · cases new

theorem committedIn_lsn {tx : Transaction} (member : tx ∈ committedIn codec log) :
    ∃ rec ∈ log, rec.type = .commit ∧ rec.lsn = tx.commitLSN ∧ tx.token = tx.commitLSN := by
  obtain ⟨rec, kept, rfl⟩ := mem_map.mp member
  obtain ⟨member, type⟩ := mem_filter.mp kept
  exact ⟨rec, member, of_decide_eq_true type, rfl, rfl⟩

theorem le_foldl_max {l : List Nat} {n : Nat} (member : n ∈ l) : n ≤ l.foldl max 0 := by
  have general : ∀ (l : List Nat) (m : Nat), m ≤ l.foldl max m ∧ ∀ n ∈ l, n ≤ l.foldl max m := by
    intro l
    induction l with
    | nil => exact fun m => ⟨le_refl m, by simp⟩
    | cons k l ih =>
      intro m
      obtain ⟨start, rest⟩ := ih (max m k)
      rw [foldl_cons]
      refine ⟨(le_max_left m k).trans start, fun n member => ?_⟩
      obtain rfl | later := mem_cons.mp member
      · exact (le_max_right m n).trans start
      · exact rest n later
  exact (general l 0).2 n member

theorem Base.crash (base : Base codec s) (last : LSN) (s' : State)
    (crashed : s.Steps codec (.crash last) s') : Base codec s' := by
  cases crashed
  have split := filter_le_append base.sorted last
  have whole := base.tidy
  rw [split] at whole
  have kept := base.sorted.filter (fun rec : Record => decide (rec.lsn ≤ last))
  refine ⟨whole.of_append, kept, ?_, Nat.succ_pos _, ?_, Nat.succ_pos _, nofun, nofun, ?_⟩
  · intro rec member
    refine ⟨(base.numbered rec (mem_filter.mp member).1).1, Nat.lt_succ_of_le ?_⟩
    exact le_foldl_max (mem_map.mpr ⟨rec, member, rfl⟩)
  · intro rec member _
    exact Nat.lt_succ_of_le (le_foldl_max (mem_map.mpr ⟨rec, member, rfl⟩))
  obtain ⟨txs, committed, late⟩ := whole.committedIn_append
  rw [← split] at committed
  have before : (committedIn codec (s.log.filter (·.lsn ≤ last))).filter
      (·.commitLSN ≤ last) = committedIn codec (s.log.filter (·.lsn ≤ last)) := by
    refine filter_eq_self.mpr fun tx member => ?_
    obtain ⟨rec, inLog, -, lsn, -⟩ := committedIn_lsn member
    rw [← lsn]
    exact (mem_filter.mp inLog).2
  have after : txs.filter (·.commitLSN ≤ last) = [] := by
    refine filter_eq_nil_iff.mpr fun tx member => ?_
    obtain ⟨rec, inMore, lsn⟩ := late tx member
    have := of_decide_eq_true (mem_filter.mp inMore).2
    simp only [decide_eq_true_eq]
    lia
  change (committedIn codec (s.log.filter (·.lsn ≤ last))).map Transaction.summary =
    s.committed.filter (·.commitLSN ≤ last)
  have same : (fun c : Committed => decide (c.commitLSN ≤ last)) ∘ Transaction.summary =
      fun tx => decide (tx.commitLSN ≤ last) := rfl
  rw [← base.committed, committed, filter_map, same, filter_append, before, after,
    append_nil]

/-! ### Steps -/

theorem eventsOf_of_not_logged (not : s.loggedChange t = false) : eventsOf codec s.log t = [] := by
  refine filterMap_eq_nil_iff.mpr fun rec member => ?_
  have here := any_eq_false.mp not rec member
  rw [if_neg]
  simpa using here

theorem flatMap_commitBody (none : ∀ t ∈ ts, s.staged t = some []) :
    ∀ item ∈ ts.flatMap s.commitBody, ∃ t, item = .alloc t := by
  intro item member
  obtain ⟨t, taking, inBody⟩ := mem_flatMap.mp member
  rw [State.commitBody, none t taking] at inBody
  exact ⟨t, by simpa using inBody⟩

theorem working_start (isOpen : ts.all (fun t => (s.staged t).isSome) = true)
    (undisturbed : s.undisturbed (.commit ts)) (work : Option Work) :
    Working codec { s with work := work } ⟨ts.flatMap s.commitBody, ts, false⟩ := by
  obtain ⟨single, fresh⟩ := Bool.and_eq_true_iff.mp undisturbed
  have fresh : ∀ t ∈ ts, eventsOf codec s.log t = [] := fun t member =>
    eventsOf_of_not_logged (by simpa using all_eq_true.mp fresh t member)
  obtain one | quiet := Bool.or_eq_true_iff.mp single
  · obtain ⟨t, rfl⟩ := length_eq_one_iff.mp (of_decide_eq_true one)
    obtain ⟨cs, staged⟩ := Option.isSome_iff_exists.mp (all_eq_true.mp isOpen t (by simp))
    have body : [t].flatMap s.commitBody = .alloc t :: cs.map (.change t) := by
      simp [State.commitBody, staged]
    rw [body]
    exact .start staged (fresh t (by simp))
  · have quiet : ∀ t ∈ ts, s.staged t = some [] := fun t member =>
      of_decide_eq_true (all_eq_true.mp quiet t member)
    exact .quiet (flatMap_commitBody quiet) fun t member => ⟨quiet t member, fresh t member⟩

theorem Kept.work (kept : Kept codec s) (step : s.Steps codec .work s') : Kept codec s' := by
  simp only [State.Steps, State.step?] at step
  split at step
  · rename_i t items ts started found
    cases step
    refine ⟨(kept.base.chain_other (by simp) (by simp)).work _, ?_⟩
    rintro _ ⟨⟩
    have events : ∀ t', eventsOf codec (s.chain .allocState t []).log t' = eventsOf codec s.log t' :=
      fun t' => eventsOf_of_ne (.inl (by simp))
    have working := kept.working _ found
    generalize whole : (⟨.alloc t :: items, ts, started⟩ : Work) = w at working
    cases working with
    | quiet allocs none =>
      cases whole
      refine .quiet (fun item member => allocs item (by simp [member])) fun t' member => ?_
      exact ⟨(none t' member).1, (events t').trans (none t' member).2⟩
    | start staged none =>
      cases whole
      refine .body ?_ nofun fun _ => (events t).trans none
      rw [events, none]
      exact staged
    | @body t' cs _ staged ends none =>
      cases cs <;> cases whole
  · rename_i t c items ts started found
    split at step
    · cases step
    rename_i body encodes
    cases step
    have working := kept.working _ found
    generalize whole : (⟨.change t c :: items, ts, started⟩ : Work) = w at working
    cases working with
    | quiet allocs none =>
      cases whole
      obtain ⟨_, alloc⟩ := allocs (.change t c) (by simp)
      cases alloc
    | start staged none => cases whole
    | @body t' cs _ staged ends none =>
      obtain _ | ⟨c', cs⟩ := cs
      · cases whole
      cases whole
      have isOpen : s.staged t ≠ Option.none := by simp [staged]
      have together : eventsOf codec s.log t = [] ∨ ∃ lsn, Ends s.log t lsn := by
        cases started with
        | false => exact .inl (none rfl)
        | true => exact .inr ⟨_, ends rfl⟩
      have base := (kept.base.put_change isOpen encodes together (p := s.prev t)).prev
        (update s.prev t s.nextLSN)
      refine ⟨base.work _, ?_⟩
      rintro _ ⟨⟩
      have events : eventsOf codec (s.chain .change t body).log t =
          eventsOf codec s.log t ++ [⟨c, s.nextLSN, 0, t⟩] :=
        eventsOf_change rfl (codec.decode_encode encodes)
      refine .body ?_ (fun _ => ?_) nofun
      · change s.staged t = _
        rw [events, staged]
        simp
      · change Ends (s.log ++ [_]) t (update s.prev t s.nextLSN t)
        rw [update_self]
        exact ends_append_iff.mpr ⟨rfl, rfl, rfl⟩
  · cases step

theorem Kept.fail (kept : Kept codec s) (step : s.Steps codec .fail s') : Kept codec s' := by
  simp only [State.Steps, State.step?] at step
  split at step
  · rename_i item items ts started found
    cases step
    refine ⟨kept.base.work _, fun w member => ?_⟩
    have working := kept.working _ found
    generalize whole : (⟨item :: items, ts, started⟩ : Work) = w' at working
    split at member
    · cases member
    rename_i others
    cases member
    cases working with
    | quiet allocs none =>
      cases whole
      refine .quiet (fun item' taking => allocs item' ?_) fun t taking => ?_
      · exact mem_cons_of_mem _ (mem_filter.mp taking).1
      · exact none t (mem_filter.mp taking).1
    | start staged none =>
      cases whole
      exact absurd (by simp [Item.txn]) others
    | @body t cs _ staged ends none =>
      obtain _ | ⟨c, cs⟩ := cs
      · cases whole
      · cases whole
        exact absurd (by simp [Item.txn]) others
  · cases step

theorem Kept.finish {keep : Bool} (kept : Kept codec s) (step : s.Steps codec (.finish keep) s') :
    Kept codec s' := by
  simp only [State.Steps, State.step?] at step
  split at step
  · rename_i ts started found
    have base := kept.base
    split at step
    · cases step
      refine ⟨Base.work ?_ _, nofun⟩
      have working := kept.working _ found
      generalize whole : (⟨[], ts, started⟩ : Work) = w at working
      cases working with
      | quiet allocs none =>
        cases whole
        refine base.commitRecs (fun t member => ?_) fun t member => ?_
        · exact (base.active t (by simp [(none t member).1])).2.1
        · exact ⟨by simp [(none t member).1], (none t member).2⟩
      | start staged none => cases whole
      | @body t cs _ staged ends none =>
        obtain _ | ⟨c, cs⟩ := cs
        · cases whole
          have closes : eventsOf codec s.log t = [] ∨ Ends s.log t (s.prev t) := by
            cases started with
            | false => exact .inl (none rfl)
            | true => exact .inr (ends rfl)
          have committed := base.put_commit (base.active t (by simp [staged])).2.1 closes
            (by rw [staged]; simp : _ = (s.staged t).getD [])
          exact committed.prev _
        · cases whole
    split at step
    · cases step
      refine ⟨{ base with numbered := fun rec member => ?_, counter := ?_ }, nofun⟩
      · have := base.numbered rec member
        exact ⟨this.1, Nat.lt_add_right _ this.2⟩
      · exact Nat.lt_add_right _ base.counter
    · cases step
  · cases step

theorem Kept.begin (kept : Kept codec s) (step : s.Steps codec .begin s') : Kept codec s' := by
  have base := kept.base
  simp only [State.Steps, State.step?] at step
  split at step
  · cases step
  rename_i free
  cases step
  have idle : s.work = none := by simpa using free
  have grown : Base codec (s.chain .begin s.nextTxn []) :=
    base.chain_other (by simp) (by simp)
  refine ⟨{ grown.bump with active := ?_, system := ?_ }, ?_⟩
  · intro t isOpen
    by_cases new : t = s.nextTxn
    · refine ⟨new ▸ base.positive.ne', new ▸ lt_add_one _, ?_⟩
      intro rec member commit eq
      have := grown.ids rec member (.inr commit)
      exact absurd (eq.trans new) (ne_of_lt this)
    · have isOpen : s.staged t ≠ none := by
        rwa [← update_of_ne new (some []) s.staged]
      exact grown.bump.active t isOpen
  · intro t member
    obtain ⟨lt, closed, none⟩ := grown.system t member
    refine ⟨Nat.lt_succ_of_lt lt, ?_, none⟩
    exact (update_of_ne (ne_of_lt lt) (some []) s.staged).trans closed
  · intro w member
    cases idle.symm.trans member

theorem Kept.stage {c : Change} (kept : Kept codec s) (step : s.Steps codec (.stage t c) s') : Kept
    codec s' := by
  have base := kept.base
  simp only [State.Steps, State.step?] at step
  split at step
  · cases step
  rename_i cs staged
  split at step
  · cases step
  rename_i apart
  cases step
  have same : ∀ t', t' ≠ t → update s.staged t (some (cs ++ [c])) t' = s.staged t' :=
    fun t' ne => update_of_ne ne _ _
  refine ⟨{ base with active := fun t' isOpen => ?_, system := fun t' member => ?_ }, ?_⟩
  · by_cases ne : t' = t
    · exact ne ▸ base.active t (by simp [staged])
    · exact base.active t' (by rwa [← same t' ne])
  · obtain ⟨lt, closed, none⟩ := base.system t' member
    have ne : t' ≠ t := by
      rintro rfl
      cases closed.symm.trans staged
    exact ⟨lt, (same t' ne).trans closed, none⟩
  intro w member
  have found : s.work = some w := member
  have frame : ∀ t' ∈ w.commits, update s.staged t (some (cs ++ [c])) t' = s.staged t' := by
    intro t' taking
    refine same t' ?_
    rintro rfl
    exact apart (by simpa [State.committing, found] using taking)
  cases kept.working w found with
  | quiet allocs none =>
    exact .quiet allocs fun t' taking => ⟨(frame t' taking).trans (none t' taking).1,
      (none t' taking).2⟩
  | start staged' none => exact .start ((frame _ (by simp)).trans staged') none
  | body staged' ends none => exact .body ((frame _ (by simp)).trans staged') ends none

theorem Kept.logOther {locked : Bool} {rec : Record} (kept : Kept codec s)
    (undisturbed : s.undisturbed (.log locked rec))
    (step : s.Steps codec (.log locked rec) s') : Kept codec s' := by
  have base := kept.base
  simp only [State.Steps, State.step?] at step
  split at step
  · cases step
  rename_i type
  split at step
  · cases step
  split at step
  · rename_i free
    cases step
    have notChange : rec.type ≠ .change := fun h => type (.inl h)
    have notCommit : rec.type ≠ .commit := fun h => type (.inr (.inl h))
    have between := between_of_undisturbed free undisturbed
    split
    · exact kept.put_other between
        { type := rec.type, txnID := rec.txnID, prevLSN := s.prev rec.txnID, body := rec.body,
          lsn := s.nextLSN } notChange
        (base.chain_other notChange notCommit) rfl rfl fun _ _ => rfl
    · exact kept.put_other between { rec with lsn := s.nextLSN } notChange
        (base.put_other notChange notCommit) rfl rfl fun _ _ => rfl
  · cases step

theorem Kept.beginSystem {locked : Bool} (kept : Kept codec s)
    (undisturbed : s.undisturbed (.beginSystem locked))
    (step : s.Steps codec (.beginSystem locked) s') : Kept codec s' := by
  have base := kept.base
  simp only [State.Steps, State.step?] at step
  split at step
  · rename_i free
    cases step
    have between := between_of_undisturbed free undisturbed
    have grown : Base codec (s.put { type := .begin, txnID := s.nextTxn }) :=
      base.put_other (by simp) (by simp)
    refine kept.put_other between
      { type := .begin, txnID := s.nextTxn, lsn := s.nextLSN } (by simp) ?_ rfl rfl fun _ _ => rfl
    refine { grown.bump with system := forall_mem_append.mpr ⟨grown.bump.system, ?_⟩ }
    refine forall_mem_singleton.mpr ⟨lt_add_one _, ?_, ?_⟩
    · by_contra isOpen
      exact absurd (base.active _ isOpen).2.1 (lt_irrefl _)
    · refine filterMap_eq_nil_iff.mpr fun r inLog => if_neg ?_
      rintro ⟨change, eq⟩
      exact absurd (grown.ids r inLog (.inl change)) (by rw [eq]; exact lt_irrefl _)
  · cases step

theorem Kept.commitSystem {locked : Bool} (kept : Kept codec s)
    (undisturbed : s.undisturbed (.commitSystem locked t))
    (step : s.Steps codec (.commitSystem locked t) s') : Kept codec s' := by
  have base := kept.base
  simp only [State.Steps, State.step?] at step
  split at step
  · rename_i ready
    cases step
    have between := between_of_undisturbed ready.1 undisturbed
    obtain ⟨lt, closed, none⟩ := base.system t ready.2
    have committed := base.put_commit lt (p := s.prev t) (.inl none) (by rw [none]; rfl : _ = [])
    rw [update_eq_self_iff.mpr closed.symm] at committed
    refine kept.put_other between
      { type := .commit, txnID := t, prevLSN := s.prev t, lsn := s.nextLSN } (by simp) ?_ rfl rfl
      fun _ _ => rfl
    exact { committed with
      system := fun t' member => committed.system t' (mem_of_mem_erase member) }
  · cases step

theorem Kept.rollback (kept : Kept codec s) (undisturbed : s.undisturbed (.rollback t))
    (step : s.Steps codec (.rollback t) s') : Kept codec s' := by
  have base := kept.base
  simp only [State.Steps, State.step?] at step
  split at step
  · cases step
  rename_i ready
  cases step
  have grown : Base codec (s.put { type := .abort, txnID := t, prevLSN := s.prev t }) :=
    base.put_other (by simp) (by simp)
  refine kept.put_other undisturbed
    { type := .abort, txnID := t, prevLSN := s.prev t, lsn := s.nextLSN } (by simp) ?_ rfl rfl
    fun t' taking => ?_
  · exact grown.close t
  · refine update_of_ne ?_ _ _
    rintro rfl
    exact ready (.inr taking)

theorem Kept.step {label : Label} (kept : Kept codec s) (undisturbed : s.undisturbed label)
    (step : s.Steps codec label s') : Kept codec s' := by
  have base := kept.base
  cases label with
  | work => exact kept.work step
  | fail => exact kept.fail step
  | finish keep => exact kept.finish step
  | crash last =>
    refine ⟨base.crash last s' step, ?_⟩
    cases step
    nofun
  | begin => exact kept.begin step
  | stage t c => exact kept.stage step
  | log locked rec => exact kept.logOther undisturbed step
  | beginSystem locked => exact kept.beginSystem undisturbed step
  | commitSystem locked t => exact kept.commitSystem undisturbed step
  | rollback t => exact kept.rollback undisturbed step
  | commit ts =>
    simp only [State.Steps, State.step?] at step
    split at step
    · cases step
    rename_i ready
    cases step
    refine ⟨base.work _, ?_⟩
    rintro _ ⟨⟩
    refine working_start ?_ undisturbed _
    by_contra some
    exact ready (.inr (.inr (.inr (.inr some))))
  | recycle oldest =>
    simp only [State.Steps, State.step?] at step
    split at step
    · cases step
      refine ⟨{ base with }, fun w member => ?_⟩
      cases kept.working w member with
      | quiet allocs none => exact .quiet allocs none
      | start staged none => exact .start staged none
      | body staged ends none => exact .body staged ends none
    · cases step

theorem kept_create (replicated : Bool) : Kept codec (State.create replicated) :=
  ⟨⟨.nil, .nil, nofun, Nat.one_pos, nofun, Nat.one_pos, fun _ isOpen => absurd rfl isOpen, nofun, rfl⟩,
    nofun⟩

/-! ## Subscriptions -/

theorem filterTransaction_summary (f : Filter) (tx : Transaction) :
    (filterTransaction f tx).map Transaction.summary = tx.summary.restrict f := by
  have same : (tx.events.map Event.change).filter f.admits =
      (tx.events.filter fun e => f.admits e.change).map Event.change := filter_map
  simp only [filterTransaction, Committed.restrict, Transaction.summary, same, map_eq_nil_iff]
  split <;> rfl

theorem Base.due_summary (base : Base codec s) (f : Filter) (token : LSN) :
    (due codec f token s.log).map Transaction.summary = s.due token f := by
  have late : (fun c : Committed => decide (token < c.commitLSN)) ∘ Transaction.summary =
      fun tx => decide (token < tx.commitLSN) := rfl
  have each : (fun tx => (filterTransaction f tx).map Transaction.summary) =
      Committed.restrict f ∘ Transaction.summary := funext (filterTransaction_summary f)
  rw [due, State.due, ← base.committed, filter_map, late, filterMap_map, map_filterMap, each]

variable {token : LSN}

theorem isToken_of_due {f : Filter} {tx : Transaction} (member : tx ∈ due codec f token s.log) :
    s.IsToken tx.token := by
  obtain ⟨whole, kept, chosen⟩ := mem_filterMap.mp member
  obtain ⟨rec, inLog, commit, lsn, same⟩ := committedIn_lsn (mem_filter.mp kept).1
  refine ⟨rec, inLog, commit, lsn.trans (same.symm.trans ?_)⟩
  unfold filterTransaction at chosen
  dsimp only at chosen
  split at chosen <;> cases chosen
  rfl

theorem Base.not_ends (base : Base codec s) (isToken : s.IsToken token ∨ token = 0) (t : TxnID)
    (lsn : LSN) : ¬ Ends (s.log.filter (·.lsn ≤ token)) t lsn := by
  rintro ⟨last, found, change, -⟩
  obtain ⟨front, whole⟩ := getLast?_eq_some_iff.mp found
  have member : last ∈ s.log.filter (·.lsn ≤ token) := by simp [whole]
  obtain ⟨inLog, le⟩ := mem_filter.mp member
  obtain ⟨rec, inLog', commit, rfl⟩ | rfl := isToken
  · have member' : rec ∈ s.log.filter (·.lsn ≤ rec.lsn) := mem_filter.mpr ⟨inLog', by simp⟩
    rw [whole] at member'
    obtain before | same := mem_append.mp member'
    · have sorted := base.sorted.filter (fun r : Record => decide (r.lsn ≤ rec.lsn))
      rw [whole] at sorted
      have := (pairwise_append.mp sorted).2.2 rec before last (by simp)
      lia
    · rw [← mem_singleton.mp same, commit] at change
      cases change
  · have := (base.numbered last inLog).1
    lia

/-- What a subscription reads, if nothing it needs has been recycled. -/
theorem filter_retained (retained : s.oldest ≤ token + 1) : (s.log.filter fun rec =>
      token < rec.lsn ∧ s.oldest ≤ rec.lsn) = s.log.filter (token < ·.lsn) := by
  refine filter_congr fun rec _ => ?_
  rw [decide_eq_decide]
  constructor
  · exact fun both => both.1
  · intro later
    exact ⟨later, retained.trans later⟩

theorem Base.read_delivers (base : Base codec s) (f : Filter) (limits : Limits)
    (isToken : s.IsToken token ∨ token = 0) : Delivers codec f token s.log
      (Subscription.drain codec ⟨f, newDecoder limits, token, token⟩
        (s.log.filter (token < ·.lsn))) := by
  have split := filter_le_append base.sorted token
  have tidy := base.tidy
  rw [split] at tidy
  have before : due codec f token (s.log.filter (·.lsn ≤ token)) = [] := by
    unfold due
    have none : (committedIn codec (s.log.filter (·.lsn ≤ token))).filter
        (token < ·.commitLSN) = [] := by
      refine filter_eq_nil_iff.mpr fun tx member => ?_
      obtain ⟨rec, inLog, -, lsn, -⟩ := committedIn_lsn member
      have := of_decide_eq_true (mem_filter.mp inLog).2
      simp only [decide_eq_true_eq]
      lia
    rw [none]
    rfl
  have delivered : Delivers codec f token
      (s.log.filter (·.lsn ≤ token) ++ s.log.filter (token < ·.lsn))
      (Subscription.drain codec ⟨f, newDecoder limits, token, token⟩
        (s.log.filter (token < ·.lsn))) :=
    drain_tidy rfl ⟨.inl ⟨rfl, rfl⟩, fun t lsn ends => absurd ends (base.not_ends isToken t lsn)⟩
      before tidy fun rec member => of_decide_eq_true (mem_filter.mp member).2
  rwa [← split] at delivered

namespace OneRow

/-- A change and a codec for it. -/
def change : Change := { operation := .insert, tableID := 1, table := "t", key := [7] }

def rowCodec : Codec where
  encodeChange c := if c = change then .ok [1] else .error ⟨.invalidArgument, "wal.Change", ""⟩
  decodeChange body :=
    if body = [1] then .ok change else .error ⟨.invalidFormat, "wal.DecodeChange", ""⟩
  decode_encode := by
    intro c body encodes
    split at encodes <;> cases encodes
    rename_i eq
    rw [if_pos rfl, eq]

def commit (t : TxnID) : List Label := [.stage t change, .commit [t], .work, .work, .finish true]

/-- Two transactions commit one after the other, with a rollback between them. -/
def inTurn : List Label := [.begin, .begin, .begin] ++ commit 1 ++ [.rollback 2] ++ commit 3

/-- A rollback appends its abort record between the change and the commit record. -/
def disturbed : List Label :=
  [.begin, .begin, .stage 1 change, .commit [1], .work, .work, .rollback 2, .finish true]

/-- Two transactions commit in one batch. -/
def batched : List Label :=
  [.begin, .begin, .stage 1 change, .stage 2 change, .commit [1, 2], .work, .work, .work, .work,
   .finish true]

/-- The segment with the change is recycled. -/
def recycled : List Label := [.begin] ++ commit 1 ++ [.recycle 4]

end OneRow

end NextSQL.Cdc
