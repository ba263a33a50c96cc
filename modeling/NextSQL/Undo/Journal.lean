import Mathlib.Data.List.Induction
import Mathlib.Data.List.Nodup
import NextSQL.Undo.Chain
import NextSQL.Lib.Run

/-!
# The undo log on disk and the reuse of transaction ids

The undo log (`internal/undo/log.go`) with its file, beside what of the
write-ahead log decides which transaction ids are handed out again after a
crash: the ids its records carry and the next id in its control file
(`internal/wal/log.go`, `internal/recovery/recover.go`).

Undo bytes are synced before any byte of the write-ahead log is written, so a
crash may leave undo records of a transaction of which the write-ahead log knows
nothing. Its id is then handed out again, and the first record of the new
transaction is linked to the stale ones: the log links a record without a
predecessor to the newest record it knows for the id. As long as the log knows
no record for an id when it hands it out (`Handed`), the chain of every running
transaction consists of the records it has logged itself, and a rollback finds
one record for each of its targets (`chain_ownership`).
-/

namespace NextSQL.Undo

open Function

open Row GuardedRuns List

/-- A running transaction: its newest record and the tree of each record, oldest
first. -/
structure Owner where
  lastUndo : UndoID
  liveTargets : List TreeID
  deriving DecidableEq, Repr

structure Journal where
  log : Log
  /-- The records appended to the undo file, oldest first. The last ones may
  still be buffered. -/
  file : List Record
  written : Nat
  synced : Nat
  /-- The next undo id in the control file of the undo log. -/
  controlID : UndoID
  /-- The transaction ids of the records in the write-ahead log from the redo
  boundary on. The last ones may still be buffered. -/
  wal : List TxnID
  walWritten : Nat
  walSynced : Nat
  nextTxn : TxnID
  /-- The next transaction id in the control file of the write-ahead log. -/
  controlTxn : TxnID
  running : TxnID → Option Owner
  /-- The records a running transaction has logged, newest first. -/
  logged : TxnID → List Record

/-- The steps. -/
inductive Journal.Op where
  | begin
  /-- A system transaction of a structure change: an id and its records. -/
  | system
  | logUndo (id : TxnID) (target : TreeID) (kind : Kind) (pageID : PageID) (key : Key)
      (old : Version)
  /-- The commit or abort record of a transaction. -/
  | finish (id : TxnID)
  /-- `ForgetTxn` of a transaction that has ended. -/
  | forget (id : TxnID)
  | vacuum
  | flush
  | sync
  /-- The undo log reserves nonces and writes its control file. -/
  | writeControl
  | walWrite
  | walSync
  /-- The write-ahead log writes its control file. -/
  | walControl
  /-- A checkpoint moves the redo boundary over the first `redo` records. -/
  | checkpoint (redo : Nat)
  /-- A crash and the next open: the records of the undo file and of the
  write-ahead log that have survived. -/
  | crash (survived walSurvived : Nat)
  deriving DecidableEq, Repr

namespace Log

/-- Read one record back. -/
def replayRecord (l : Log) (r : Record) : Log where
  nextID := if l.nextID ≤ r.id then r.id + 1 else l.nextID
  recs := update l.recs r.id (some r)
  byTxn := update l.byTxn r.txn r.id

/-- `Open`: the control file's next id, then every record of the file. -/
def replay (controlID : UndoID) (file : List Record) : Log :=
  file.foldl replayRecord { empty with nextID := if controlID = 0 then 1 else controlID }

/-- The records in memory in the order of their ids. -/
def retained (l : Log) : List Record := (List.range l.nextID).filterMap l.recs

end Log

namespace Journal

/-- A database that has just been created. -/
def create : Journal where
  log := .empty
  file := []
  written := 0
  synced := 0
  controlID := 1
  wal := []
  walWritten := 0
  walSynced := 0
  nextTxn := 1
  controlTxn := 1
  running _ := none
  logged _ := []

/-- The next transaction id after recovery: past every id in the surviving
write-ahead log, and not below the control file's. -/
def recoveredTxn (controlTxn : TxnID) (wal : List TxnID) : TxnID :=
  let nextTxn := wal.foldl max 0 + 1
  if controlTxn < nextTxn then nextTxn else controlTxn

/-- The state after a step, or nothing when the step cannot be taken. -/
def step? (j : Journal) : Op → Option Journal
  | .begin =>
    some { j with
      nextTxn := j.nextTxn + 1
      wal := j.wal ++ [j.nextTxn]
      running := update j.running j.nextTxn (some { lastUndo := 0, liveTargets := [] })
      logged := update j.logged j.nextTxn [] }
  | .system => some { j with nextTxn := j.nextTxn + 1, wal := j.wal ++ [j.nextTxn] }
  | .logUndo id target kind pageID key old =>
    match j.running id with
    | none => none
    | some owner =>
      let r : Record := { id := 0, txn := id, prev := owner.lastUndo, kind, pageID, key, old }
      let appended := j.log.append r
      some { j with
        log := appended.1
        file := j.file ++ [j.log.stored r]
        wal := j.wal ++ [id]
        running := update j.running id
          (some { lastUndo := appended.2, liveTargets := owner.liveTargets ++ [target] })
        logged := update j.logged id (j.log.stored r :: j.logged id) }
  | .finish id =>
    match j.running id with
    | none => none
    | some _ => some { j with wal := j.wal ++ [id], running := update j.running id none }
  | .forget id =>
    match j.running id with
    | none => some { j with log := j.log.forgetTxn id }
    | some _ => none
  | .vacuum =>
    let file := j.log.retained
    some { j with file, written := file.length, synced := file.length }
  | .flush => some { j with written := j.file.length }
  | .sync => some { j with written := j.file.length, synced := j.file.length }
  | .writeControl => some { j with controlID := j.log.nextID }
  | .walWrite =>
    some { j with
      written := j.file.length, synced := j.file.length, walWritten := j.wal.length }
  | .walSync => some { j with walSynced := j.walWritten }
  | .walControl => some { j with controlTxn := j.nextTxn }
  | .checkpoint redo =>
    if redo ≤ j.walSynced then
      some { j with
        wal := j.wal.drop redo
        walWritten := j.walWritten - redo
        walSynced := j.walSynced - redo
        controlTxn := j.nextTxn }
    else none
  | .crash survived walSurvived =>
    if j.synced ≤ survived ∧ survived ≤ j.written ∧ j.walSynced ≤ walSurvived ∧
        walSurvived ≤ j.walWritten then
      let file := j.file.take survived
      let wal := j.wal.take walSurvived
      some { j with
        log := .replay j.controlID file
        file
        written := survived
        synced := survived
        wal
        walWritten := walSurvived
        walSynced := walSurvived
        nextTxn := recoveredTxn j.controlTxn wal
        running := fun _ => none }
    else none

def Step (j : Journal) (op : Op) (j' : Journal) : Prop := j.step? op = some j'

/-- The undo log knows no record for a transaction id that is handed out. -/
def Handed (j : Journal) : Op → Prop
  | .begin => j.log.byTxn j.nextTxn = 0
  | _ => True

instance (j : Journal) : DecidablePred j.Handed
  | .begin => inferInstanceAs (Decidable (_ = _))
  | .system | .logUndo .. | .finish _ | .forget _ | .vacuum | .flush | .sync | .writeControl
  | .walWrite | .walSync | .walControl | .checkpoint _ | .crash .. => isTrue trivial

/-! ## The file -/

/-- The records of the file have growing ids, and a link leads to an older record
of the same transaction id. -/
structure Filed (file : List Record) : Prop where
  growing : file.Pairwise fun r p => r.id < p.id
  positive : ∀ r ∈ file, 0 < r.id
  prev : ∀ r ∈ file, r.prev < r.id
  owner : ∀ r ∈ file, ∀ p ∈ file, p.id = r.prev → p.txn = r.txn

variable {file : List Record}

theorem Filed.sublist {file' : List Record} (filed : Filed file) (part : file'.Sublist file) :
    Filed file' where
  growing := filed.growing.sublist part
  positive r member := filed.positive r (part.subset member)
  prev r member := filed.prev r (part.subset member)
  owner r member p member' := filed.owner r (part.subset member) p (part.subset member')

variable {r : Record}

/-- An id names one record of the file. -/
theorem Filed.unique (filed : Filed file) {p : Record} (member : r ∈ file) (member' : p ∈ file)
    (same : r.id = p.id) : r = p := by
  have distinct : (file.map Record.id).Nodup :=
    pairwise_map.mpr (filed.growing.imp ne_of_lt)
  exact inj_on_of_nodup_map distinct member member' same

/-- The log in memory and the file agree: what memory holds the file holds, and
the heads in memory are records of their transactions. -/
structure Matches (l : Log) (file : List Record) : Prop where
  linked : l.WellLinked
  below : ∀ r ∈ file, r.id < l.nextID
  memory : ∀ {u r}, l.recs u = some r → r ∈ file ∧ r.id = u
  heads : ∀ r ∈ file, ∀ txn, l.byTxn txn = r.id → r.txn = txn

/-! ### Reading the file back -/

/-- What reading records back leaves in memory. -/
structure Replayed (l : Log) (file : List Record) : Prop where
  positive : 0 < l.nextID
  below : ∀ r ∈ file, r.id < l.nextID
  memory : ∀ {u r}, l.recs u = some r → r ∈ file ∧ r.id = u
  stored : ∀ r ∈ file, l.recs r.id = some r
  heads : ∀ txn, l.byTxn txn = 0 ∨ ∃ r ∈ file, r.txn = txn ∧ l.byTxn txn = r.id

theorem Replayed.snoc {l : Log} (replayed : Replayed l file) (newest : ∀ p ∈ file, p.id < r.id) :
    Replayed (l.replayRecord r) (file ++ [r]) := by
  have keep : l.nextID ≤ (l.replayRecord r).nextID ∧ r.id < (l.replayRecord r).nextID := by
    dsimp only [Log.replayRecord]
    split <;> lia
  refine ⟨replayed.positive.trans_le keep.1, ?_, ?_, ?_, ?_⟩
  · refine forall_mem_append.mpr ⟨fun p old => (replayed.below p old).trans_le keep.1, ?_⟩
    exact forall_mem_singleton.mpr keep.2
  · intro u p found
    obtain ⟨same, found⟩ | ⟨_, found⟩ := update_cases found
    · cases found
      exact ⟨mem_append_right _ (mem_singleton_self r), same.symm⟩
    · obtain ⟨member, isID⟩ := replayed.memory found
      exact ⟨mem_append_left _ member, isID⟩
  · intro p member
    dsimp only [Log.replayRecord]
    obtain old | new := mem_append.mp member
    · rw [update_of_ne (ne_of_lt (newest p old))]
      exact replayed.stored p old
    · rw [mem_singleton.mp new, update_self]
  intro txn
  dsimp only [Log.replayRecord]
  by_cases same : txn = r.txn
  · right
    exact ⟨r, mem_append_right _ (mem_singleton_self r), same.symm, by rw [same, update_self]⟩
  · rw [update_of_ne same]
    exact (replayed.heads txn).imp_right fun ⟨p, member, rest⟩ =>
      ⟨p, mem_append_left _ member, rest⟩

theorem replayed_replay (controlID : UndoID) (file : List Record) (filed : Filed file) :
    Replayed (Log.replay controlID file) file := by
  induction file using reverseRecOn with
  | nil =>
    refine ⟨?_, fun _ nothing => ?_, fun nothing => ?_, fun _ nothing => ?_, fun _ => .inl rfl⟩
    · dsimp only [Log.replay, foldl_nil]
      split <;> lia
    · cases nothing
    · cases nothing
    · cases nothing
  | append_singleton file r ih =>
    have before := ih (filed.sublist (sublist_append_left file [r]))
    have newest : ∀ p ∈ file, p.id < r.id := fun p member =>
      (pairwise_append.mp filed.growing).2.2 p member r (mem_singleton_self r)
    have snoc : Log.replay controlID (file ++ [r]) =
        (Log.replay controlID file).replayRecord r := by
      simp only [Log.replay, foldl_append, foldl_cons, foldl_nil]
    rw [snoc]
    exact before.snoc newest

theorem Filed.matches_replay (filed : Filed file) (controlID : UndoID) :
    Matches (Log.replay controlID file) file := by
  have replayed := replayed_replay controlID file filed
  have heads : ∀ r ∈ file, ∀ txn, (Log.replay controlID file).byTxn txn = r.id → r.txn = txn := by
    intro r member txn isHead
    obtain zero | ⟨p, member', owner, isHead'⟩ := replayed.heads txn
    · have := filed.positive r member
      lia
    · rw [filed.unique member member' (isHead.symm.trans isHead')]
      exact owner
  refine ⟨⟨replayed.positive, ?_, ?_, ?_, ?_, ?_, ?_⟩, replayed.below, replayed.memory, heads⟩
  · intro u r found
    obtain ⟨member, rfl⟩ := replayed.memory found
    exact replayed.below r member
  · cases found : (Log.replay controlID file).recs 0 with
    | none => rfl
    | some r =>
      obtain ⟨member, zero⟩ := replayed.memory found
      have := filed.positive r member
      lia
  · intro u r found
    obtain ⟨member, rfl⟩ := replayed.memory found
    exact filed.prev r member
  · intro u r p found found'
    obtain ⟨member, _⟩ := replayed.memory found
    obtain ⟨member', isPrev⟩ := replayed.memory found'
    exact filed.owner r member p member' isPrev
  · intro txn
    obtain zero | ⟨p, member, _, isHead⟩ := replayed.heads txn
    · rw [zero]
      exact replayed.positive
    · rw [isHead]
      exact replayed.below p member
  · intro txn r found
    obtain ⟨member, isHead⟩ := replayed.memory found
    exact heads r member txn isHead.symm

/-! ### Appending, forgetting and vacuum -/

variable {l : Log} {file : List Record}

/-- The record that a transaction logs goes on from its newest one. -/
theorem stored_prev (head : l.byTxn r.txn = r.prev) : (l.stored r).prev = l.byTxn r.txn := by
  unfold Log.stored
  split
  · rfl
  · exact head.symm

theorem Filed.append (filed : Filed file) (agree : Matches l file) (head : l.byTxn r.txn = r.prev) :
    Filed (file ++ [l.stored r]) := by
  have isPrev := stored_prev head
  have below := agree.linked.head r.txn
  have number : (l.stored r).id = l.nextID := rfl
  refine ⟨?_, ?_, ?_, ?_⟩
  · refine pairwise_append.mpr ⟨filed.growing, pairwise_singleton _ _, ?_⟩
    intro p member q isNew
    rw [mem_singleton.mp isNew]
    exact agree.below p member
  · exact forall_mem_append.mpr ⟨filed.positive, forall_mem_singleton.mpr agree.linked.positive⟩
  · intro p member
    obtain old | new := mem_append.mp member
    · exact filed.prev p old
    · rw [mem_singleton.mp new, isPrev]
      exact below
  intro p member q member' isLink
  obtain old | new := mem_append.mp member
  · obtain old' | new' := mem_append.mp member'
    · exact filed.owner p old q old' isLink
    -- nothing links to the new record
    rw [mem_singleton.mp new'] at isLink
    have := filed.prev p old
    have := agree.below p old
    lia
  rw [mem_singleton.mp new] at isLink ⊢
  rw [isPrev] at isLink
  obtain old' | new' := mem_append.mp member'
  · exact agree.heads q old' r.txn isLink.symm
  · rw [mem_singleton.mp new'] at isLink
    lia

theorem Matches.append (agree : Matches l file) (head : l.byTxn r.txn = r.prev) :
    Matches (l.append r).1 (file ++ [l.stored r]) := by
  have linked := agree.linked.append (.inr head.symm)
  rw [Log.append_eq] at linked ⊢
  refine ⟨linked, ?_, ?_, ?_⟩
  all_goals dsimp only
  · refine forall_mem_append.mpr ⟨fun p old => Nat.lt_succ_of_lt (agree.below p old), ?_⟩
    exact forall_mem_singleton.mpr (lt_add_one _)
  · intro u p found
    obtain ⟨same, found⟩ | ⟨_, found⟩ := update_cases found
    · cases found
      exact ⟨mem_append_right _ (mem_singleton_self _), same.symm⟩
    · obtain ⟨member, isID⟩ := agree.memory found
      exact ⟨mem_append_left _ member, isID⟩
  intro p member txn isHead
  obtain ⟨same, isHead⟩ | ⟨_, isHead⟩ := update_cases isHead
  · obtain old | new := mem_append.mp member
    · have := agree.below p old
      lia
    · rw [mem_singleton.mp new, same]
      rfl
  obtain old | new := mem_append.mp member
  · exact agree.heads p old txn isHead
  rw [mem_singleton.mp new] at isHead
  have := agree.linked.head txn
  have number : (l.stored r).id = l.nextID := rfl
  lia

theorem Matches.forgetTxn (agree : Matches l file) (filed : Filed file) (txn : TxnID) :
    Matches (l.forgetTxn txn) file := by
  refine ⟨agree.linked.forgetTxn txn, ?_, ?_, ?_⟩
  · rw [l.forgetTxn_nextID]
    exact agree.below
  · exact fun found => agree.memory (agree.linked.forgetTxn_older found)
  intro r member other isHead
  obtain same | zero := l.forgetTxn_byTxn txn other
  · rw [same] at isHead
    exact agree.heads r member other isHead
  · have := filed.positive r member
    lia

theorem mem_retained (linked : l.WellLinked) : r ∈ l.retained ↔ ∃ u, l.recs u = some r := by
  unfold Log.retained
  rw [mem_filterMap]
  constructor
  · rintro ⟨u, _, found⟩
    exact ⟨u, found⟩
  · rintro ⟨u, found⟩
    exact ⟨u, mem_range.mpr (linked.below found), found⟩

/-- Vacuum rewrites the file with what memory holds. -/
theorem Filed.vacuum (filed : Filed file) (agree : Matches l file) :
    Filed l.retained ∧ Matches l l.retained := by
  have part : ∀ {r}, r ∈ l.retained → r ∈ file := by
    intro r member
    obtain ⟨u, found⟩ := (mem_retained agree.linked).mp member
    exact (agree.memory found).1
  refine ⟨⟨?_, fun r member => filed.positive r (part member),
    fun r member => filed.prev r (part member),
    fun r member p member' => filed.owner r (part member) p (part member')⟩, ?_⟩
  · refine List.Pairwise.filterMap _ ?_ pairwise_lt_range
    intro u u' smaller r found p found'
    rw [(agree.memory found).2, (agree.memory found').2]
    exact smaller
  · exact ⟨agree.linked, fun r member => agree.below r (part member),
      fun found => ⟨(mem_retained agree.linked).mpr ⟨_, found⟩, (agree.memory found).2⟩,
      fun r member => agree.heads r (part member)⟩

/-! ## Running transactions -/

/-- The newest records of a running transaction are what it has logged, one for
each target. -/
structure Owns (j : Journal) (id : TxnID) (owner : Owner) : Prop where
  handed : id < j.nextTxn
  head : j.log.byTxn id = owner.lastUndo
  chain : Linked j.log.recs owner.lastUndo (j.logged id)
  own : ∀ r ∈ j.logged id, r.txn = id
  targets : (j.logged id).length = owner.liveTargets.length

structure Sound (j : Journal) : Prop where
  filed : Filed j.file
  agree : Matches j.log j.file
  owns : ∀ {id owner}, j.running id = some owner → j.Owns id owner

variable {j j' : Journal}

theorem create_sound : create.Sound where
  filed := by
    refine ⟨List.Pairwise.nil, ?_, ?_, ?_⟩
    · rintro r ⟨⟩
    · rintro r ⟨⟩
    · rintro r ⟨⟩
  agree := by
    refine ⟨⟨by decide, ?_, rfl, ?_, ?_, fun _ => Nat.zero_lt_one, ?_⟩, ?_, ?_, ?_⟩
    · rintro u r ⟨⟩
    · rintro u r ⟨⟩
    · rintro u r p ⟨⟩
    · rintro txn r ⟨⟩
    · rintro r ⟨⟩
    · rintro u r ⟨⟩
    · rintro r ⟨⟩
  owns := by rintro id owner ⟨⟩

variable {id : TxnID}

/-- What a transaction owns depends on the log in memory and its own records. -/
theorem Owns.congr {owner : Owner} (owns : j.Owns id owner) (log : j'.log = j.log)
    (next : j.nextTxn ≤ j'.nextTxn) (logged : j'.logged = j.logged) : j'.Owns id owner := by
  refine ⟨owns.handed.trans_le next, ?_, ?_, ?_, ?_⟩
  · rw [log]
    exact owns.head
  · rw [log, logged]
    exact owns.chain
  · rw [logged]
    exact owns.own
  · rw [logged]
    exact owns.targets

theorem Sound.congr (sound : j.Sound) (log : j'.log = j.log) (file : j'.file = j.file)
    (next : j.nextTxn ≤ j'.nextTxn) (logged : j'.logged = j.logged)
    (running : ∀ {id owner}, j'.running id = some owner → j.running id = some owner) :
    j'.Sound := by
  refine ⟨by rw [file]; exact sound.filed, by rw [file, log]; exact sound.agree, ?_⟩
  intro id owner isRunning
  exact (sound.owns (running isRunning)).congr log next logged

theorem Sound.begin (sound : j.Sound) (unknown : j.log.byTxn j.nextTxn = 0) (wal : List TxnID) :
    Sound { j with
      nextTxn := j.nextTxn + 1
      wal := wal
      running := update j.running j.nextTxn (some { lastUndo := 0, liveTargets := [] })
      logged := update j.logged j.nextTxn [] } := by
  refine ⟨sound.filed, sound.agree, ?_⟩
  intro id owner isRunning
  dsimp only at isRunning
  by_cases same : id = j.nextTxn
  · subst same
    rw [update_self] at isRunning
    cases isRunning
    refine ⟨lt_add_one _, unknown, ?_, ?_, ?_⟩
    all_goals dsimp only
    all_goals rw [update_self]
    · rfl
    · intro r nothing
      cases nothing
    · rfl
  rw [update_of_ne same] at isRunning
  obtain ⟨handed, head, chain, own, targets⟩ := sound.owns isRunning
  refine ⟨Nat.lt_succ_of_lt handed, head, ?_, ?_, ?_⟩
  all_goals dsimp only
  all_goals rw [update_of_ne same]
  · exact chain
  · exact own
  · exact targets

theorem Sound.logUndo (sound : j.Sound) {owner : Owner} {target : TreeID}
    (isRunning : j.running id = some owner) (isTxn : r.txn = id) (isPrev : r.prev = owner.lastUndo)
    (wal : List TxnID) :
    Sound { j with
      log := (j.log.append r).1
      file := j.file ++ [j.log.stored r]
      wal := wal
      running := update j.running id
        (some { lastUndo := (j.log.append r).2, liveTargets := owner.liveTargets ++ [target] })
      logged := update j.logged id (j.log.stored r :: j.logged id) } := by
  have owns := sound.owns isRunning
  have head : j.log.byTxn r.txn = r.prev := by
    rw [isTxn, isPrev]
    exact owns.head
  -- the new record leaves the chains that were there alone
  have kept : ∀ {u records}, Linked j.log.recs u records →
      Linked (update j.log.recs j.log.nextID (some (j.log.stored r))) u records := by
    intro u records linked
    refine linked.mono fun u' r' _ found => ?_
    rw [update_of_ne (ne_of_lt (sound.agree.linked.below found))]
    exact found
  refine ⟨sound.filed.append sound.agree head, sound.agree.append head, ?_⟩
  intro other owner' isRunning'
  rw [Log.append_eq] at isRunning' ⊢
  dsimp only at isRunning'
  by_cases same : other = id
  · subst same
    rw [update_self] at isRunning'
    cases isRunning'
    refine ⟨owns.handed, ?_, ?_, ?_, ?_⟩
    all_goals dsimp only
    · rw [isTxn, update_self]
    · rw [update_self]
      refine ⟨Nat.pos_iff_ne_zero.mp sound.agree.linked.positive, update_self .., ?_⟩
      rw [stored_prev head, isTxn, owns.head]
      exact kept owns.chain
    · rw [update_self]
      intro r' member
      obtain rfl | old := mem_cons.mp member
      · exact isTxn
      · exact owns.own r' old
    · rw [update_self, length_cons, length_append, owns.targets]
      rfl
  rw [update_of_ne same] at isRunning'
  obtain ⟨handed, head', chain, own, targets⟩ := sound.owns isRunning'
  refine ⟨handed, ?_, ?_, ?_, ?_⟩
  all_goals dsimp only
  · rw [isTxn, update_of_ne same]
    exact head'
  · rw [update_of_ne same]
    exact kept chain
  · rw [update_of_ne same]
    exact own
  · rw [update_of_ne same]
    exact targets

theorem Sound.forget (sound : j.Sound) (ended : j.running id = none) :
    Sound { j with log := j.log.forgetTxn id } := by
  refine ⟨sound.filed, sound.agree.forgetTxn sound.filed id, ?_⟩
  intro other owner isRunning
  have isRunning' : j.running other = some owner := isRunning
  have differ : other ≠ id := by
    rintro rfl
    rw [ended] at isRunning'
    cases isRunning'
  obtain ⟨handed, head, chain, own, targets⟩ := sound.owns isRunning'
  refine ⟨handed, ?_, ?_, own, targets⟩
  · rw [Log.forgetTxn_byTxn_of_ne _ differ]
    exact head
  refine chain.mono fun u r member found => ?_
  obtain same | ⟨_, r', found', owner'⟩ := sound.agree.linked.forgetTxn_dropped id u
  · rw [same]
    exact found
  · rw [found] at found'
    cases found'
    exact absurd ((own r member).symm.trans owner') differ

/-- **Soundness** is kept by every step, if the log knows no record for an id
that is handed out. -/
theorem Sound.step {op : Op} (sound : j.Sound) (handed : j.Handed op) (taken : j.Step op j') :
    j'.Sound := by
  unfold Step at taken
  cases op with
  | begin =>
    cases taken
    exact sound.begin handed _
  | system =>
    cases taken
    exact sound.congr rfl rfl (Nat.le_succ _) rfl id
  | logUndo id target kind pageID key old =>
    simp only [step?] at taken
    split at taken
    · cases taken
    next owner isRunning =>
      cases taken
      exact sound.logUndo isRunning rfl rfl _
  | finish id =>
    simp only [step?] at taken
    split at taken
    · cases taken
    cases taken
    refine sound.congr rfl rfl le_rfl rfl ?_
    intro other owner isRunning
    obtain ⟨_, isRunning⟩ | ⟨_, isRunning⟩ := update_cases isRunning
    · cases isRunning
    · exact isRunning
  | forget id =>
    simp only [step?] at taken
    split at taken
    next ended =>
      cases taken
      exact sound.forget ended
    next => cases taken
  | vacuum =>
    cases taken
    obtain ⟨filed, agree⟩ := sound.filed.vacuum sound.agree
    exact ⟨filed, agree, fun isRunning => (sound.owns isRunning).congr rfl le_rfl rfl⟩
  | flush | sync | writeControl | walWrite | walSync | walControl =>
    cases taken
    exact sound.congr rfl rfl le_rfl rfl id
  | checkpoint redo =>
    simp only [step?] at taken
    split at taken
    · cases taken
      exact sound.congr rfl rfl le_rfl rfl id
    · cases taken
  | crash survived walSurvived =>
    simp only [step?] at taken
    split at taken
    next =>
      cases taken
      have filed := sound.filed.sublist (take_sublist survived j.file)
      exact ⟨filed, filed.matches_replay j.controlID, nofun⟩
    next => cases taken

/-- **Chain ownership.** In every run in which the log knows no record for an id
that is handed out, over crashes and reopens, the chain of a running transaction
is what it has logged, newest first, and a rollback finds one record for each
target. -/
theorem chain_ownership {ops : List Op} (run : Run Step Handed create ops j) {id : TxnID}
    {owner : Owner} (isRunning : j.running id = some owner) :
    j.log.chain owner.lastUndo = j.logged id ∧ (j.logged id).length = owner.liveTargets.length ∧
      j.log.undoWork owner.lastUndo owner.liveTargets =
        some (owner.liveTargets.reverse.zip (j.logged id)) := by
  have sound : j.Sound := run.invariant Sound create_sound fun sound handed taken =>
    sound.step handed taken
  have linked := sound.agree.linked
  have owns := sound.owns isRunning
  have below : owner.lastUndo < j.log.nextID := by
    rw [← owns.head]
    exact linked.head id
  exact ⟨chainFrom_of_linked linked.prev owns.chain below, owns.targets,
    Log.undoWork_of_linked linked.prev owns.chain below owns.targets⟩

/-- A transaction logs a record, the database crashes with everything synced, and
the next transaction logs two: its chain is its own. -/
theorem chain_ownership_after_crash :
    ∃ j, Run Step Handed create [.begin, .logUndo 1 1 .insert 1 [7] (.bare []), .walWrite, .walSync,
        .crash 1 2, .begin, .logUndo 2 1 .insert 1 [8] (.bare []),
        .logUndo 2 1 .update 1 [8] ⟨2, 0, 2, [1]⟩] j ∧
      (j.log.chain 3).map Record.id = [3, 2] ∧ j.log.chain 3 = j.logged 2 := by
  refine exists_run_that step? (fun j op => decide (j.Handed op)) of_decide_eq_true
    (fun j => (j.log.chain 3).map Record.id = [3, 2] ∧ j.running 2 = some ⟨3, [1, 1]⟩)
    (by decide +kernel) fun j run ⟨ids, isRunning⟩ => ?_
  exact ⟨ids, (chain_ownership run isRunning).1⟩

/-- The undo log is synced, and the database crashes before the write-ahead log
is written. The id is handed out again, and the chain of the second transaction
goes on into the record of the first: a rollback finds too many records. -/
theorem chain_inherits_stale_record :
    ∃ j, Run Step unguarded create [.begin, .logUndo 1 1 .insert 1 [7] (.bare []), .sync,
        .crash 1 0, .begin, .logUndo 1 1 .insert 1 [8] (.bare [])] j ∧
      j.running 1 = some ⟨2, [1]⟩ ∧ (j.logged 1).map Record.id = [2] ∧
      (j.log.chain 2).map Record.id = [2, 1] ∧ j.log.undoWork 2 [1] = none :=
  exists_run_of_exec step? (fun _ _ => true) (fun _ => trivial) (by decide +kernel)

end Journal

end NextSQL.Undo
