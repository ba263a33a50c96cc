import NextSQL.Mvcc.Writes
import NextSQL.Mvcc.Ownership
import NextSQL.Undo.Chain

/-!
# The versioned store behind the engine

`World.store` forgets what the store does not have: locks, handles, the plain
form of old rows, the link structure of the undo log. The registries of the
engine agree with each other (`Registry`) and the undo log holds what the
running transactions have logged (`Logged`). Under these invariants the engine
reads what the store reads (`Invariants.lookup`), and the steps that take
snapshots or change locks are steps of the store or change nothing there.
-/

namespace NextSQL.Mvcc

open Function

open Row Undo Txn GuardedRuns Option

namespace World

/-- A record of a tree with the cell it is for. -/
def located (e : TreeID × Record) : Cell × Record := ((e.1, e.2.key), e.2)

def undoingOf (writer : Option Writer) : Option (List (Cell × Record) × Bool) :=
  writer.bind fun w => w.undoing.map fun u => (u.pending.map located, u.full)

def isForgetting : Option Cleanup → Bool
  | some (.forget _) => true
  | _ => false

/-- The versioned store behind a state of the engine. -/
def store (w : World) : Store where
  next := w.db.tm.next
  fate x := w.db.tm.status.lookup x
  captures := w.captures
  commits := w.commits
  rows c := (w.db.rows c).map Stored.version
  recs := w.db.undo.recs
  nextID := w.db.undo.nextID
  trail id := (w.trail id).map located
  undoing id := undoingOf (w.db.writers id)
  forgetting id := isForgetting (w.db.finishing id)
  origin id c := (w.origin id c).map fun found => found.map Stored.version

/-- The rows the next step of a goroutine after a commit may remove. -/
def cleanupLabel : Option Cleanup → Store.Label
  | some (.purge tree batch _ _) => .purge (batch.map fun key => (tree, key))
  | _ => .other

/-- What a step of the engine does to rows. -/
def label (w : World) : Op → Store.Label
  | .write id tree _ key action _ => .write id (tree, key) (action == .delete)
  | .insertBatch id tree rows => .bulk id (rows.map fun row => (tree, row.1)) true
  | .patchVisible id tree rows _ => .bulk id (rows.map fun row => (tree, row.1)) false
  | .undoNext id => .undo id
  | .cleanup id => cleanupLabel (w.db.finishing id)
  | _ => .other

/-- The transaction is registered as running. -/
def Running (w : World) (id : TxnID) : Prop := w.db.tm.status.lookup id = some .inProgress

instance (w : World) (id : TxnID) : Decidable (w.Running id) :=
  inferInstanceAs (Decidable (_ = _))

/-- The registries of the engine agree on what runs and which snapshots are
held. -/
structure Registry (w : World) : Prop where
  active : ∀ id, (w.db.tm.active.lookup id).isSome ↔ w.Running id
  writer : ∀ id, (w.db.writers id).isSome ↔ w.Running id
  reader : ∀ c ∈ w.captures, c.reader = true → (w.db.tm.readers.lookup c.holder).isSome
  finished : ∀ id, (w.db.finishing id).isSome → w.db.tm.status.lookup id = some .committed

/-- The undo log holds, for each running transaction, the records it has logged,
linked newest to oldest. -/
structure Logged (w : World) : Prop where
  linked : w.db.undo.WellLinked
  fresh : ∀ txn, w.db.tm.next ≤ txn → w.db.undo.byTxn txn = 0
  head : ∀ {id writer}, w.db.writers id = some writer → w.db.undo.byTxn id = writer.lastUndo
  chain : ∀ {id writer}, w.db.writers id = some writer →
    Linked w.db.undo.recs writer.lastUndo ((w.trail id).map Prod.snd)
  targets : ∀ {id writer}, w.db.writers id = some writer →
    writer.liveTargets.reverse = (w.trail id).map Prod.fst
  owner : ∀ {id}, w.Running id → ∀ e ∈ w.trail id, e.2.txn = id

/-- The invariants of the engine. -/
structure Invariants (w : World) : Prop where
  ids : w.store.Ids
  owned : w.store.Owned
  registry : w.Registry
  logged : w.Logged

variable {w w' : World}

/-! ## Statuses and visibility -/

theorem Invariants.statusOf (inv : w.Invariants) (x : TxnID) :
    w.db.tm.statusOf x = w.store.status x := by
  unfold Manager.statusOf Store.status
  by_cases zero : x = 0
  · have unknown : w.store.fate 0 = none := inv.ids.zero
    rw [if_pos zero, zero, unknown]
    rfl
  rw [if_neg zero]
  cases found : w.db.tm.status.lookup x with
  | some status =>
    have recorded : w.store.fate x = some status := found
    rw [recorded]
    rfl
  | none =>
    have unknown : w.store.fate x = none := found
    have notActive : ¬ (w.db.tm.active.lookup x).isSome := by
      rw [inv.registry.active x, Running, found]
      simp
    rw [unknown]
    rw [if_neg notActive]
    rfl

theorem Invariants.sees (inv : w.Invariants) (snap : Snapshot) (x : TxnID) :
    w.db.sees snap x = w.store.sees snap x := by
  have same : w.db.tm.statusOf = w.store.status := funext inv.statusOf
  rw [Engine.sees, Store.sees, same]

/-- Reading a leaf value is reading the version it stands for. -/
theorem Invariants.visiblePayload (inv : w.Invariants) (raw : Stored) (snap : Snapshot) :
    w.db.visiblePayload raw snap = view w.store.recs (w.store.sees snap) raw.version := by
  have same : w.db.sees snap = w.store.sees snap := funext (inv.sees snap)
  cases raw with
  | plain payload =>
    have seen : w.store.sees snap 0 := Store.sees_zero
    rw [view_of_seen seen]
    rfl
  | versioned version =>
    rw [Engine.visiblePayload, same]
    rfl

theorem Invariants.lookup (inv : w.Invariants) (cell : Cell) (snap : Snapshot) :
    w.db.lookup cell snap = viewRow w.store.recs (w.store.sees snap) (w.store.rows cell) := by
  have row : w.store.rows cell = (w.db.rows cell).map Stored.version := rfl
  rw [Engine.lookup, viewRow, row]
  cases w.db.rows cell with
  | none => rfl
  | some raw => exact inv.visiblePayload raw snap

/-! ## The work of a reversal -/

theorem zip_fst_snd {α β : Type} : ∀ work : List (α × β),
    (work.map Prod.fst).zip (work.map Prod.snd) = work
  | [] => rfl
  | (a, b) :: rest => by rw [List.map_cons, List.map_cons, List.zip_cons_cons, zip_fst_snd rest]

variable {id : TxnID} {writer : Writer}

/-- What a reversal has to visit is what the transaction has logged: the chain
never fails to match the recorded targets. -/
theorem Logged.undoWork (logged : w.Logged) (found : w.db.writers id = some writer) :
    w.db.undoWork writer = some (w.trail id) := by
  have head : writer.lastUndo < w.db.undo.nextID := by
    rw [← logged.head found]
    exact logged.linked.head id
  have targets := logged.targets found
  have lengths : ((w.trail id).map Prod.snd).length = writer.liveTargets.length := by
    simpa using (congrArg List.length targets).symm
  rw [Engine.undoWork, Log.undoWork_of_linked logged.linked.prev (logged.chain found) head lengths,
    targets, zip_fst_snd]

/-! ## Steps that the store does not see -/

/-- A step that changes neither the log nor the history, and of the writers only
what the log does not depend on. -/
theorem Logged.congr (logged : w.Logged) (undo : w'.db.undo = w.db.undo)
    (next : w.db.tm.next ≤ w'.db.tm.next) (trail : w'.trail = w.trail)
    (running : ∀ {id}, w'.Running id → w.Running id)
    (writers : ∀ {id writer'}, w'.db.writers id = some writer' → ∃ writer,
      w.db.writers id = some writer ∧ writer'.lastUndo = writer.lastUndo ∧
        writer'.liveTargets = writer.liveTargets) : w'.Logged := by
  refine ⟨undo ▸ logged.linked, ?_, ?_, ?_, ?_, ?_⟩
  · intro txn fresh
    rw [undo]
    exact logged.fresh txn (next.trans fresh)
  · intro id writer' found
    obtain ⟨writer, old, lastUndo, _⟩ := writers found
    rw [undo, lastUndo]
    exact logged.head old
  · intro id writer' found
    obtain ⟨writer, old, lastUndo, _⟩ := writers found
    rw [undo, lastUndo, trail]
    exact logged.chain old
  · intro id writer' found
    obtain ⟨writer, old, _, liveTargets⟩ := writers found
    rw [liveTargets, trail]
    exact logged.targets old
  · intro id runs
    rw [trail]
    exact logged.owner (running runs)

/-- A change of one writer that the log does not depend on. -/
theorem writers_update {writers : TxnID → Option Writer} {new : Writer}
    (found : writers id = some writer)
    (same : new.lastUndo = writer.lastUndo ∧ new.liveTargets = writer.liveTargets) :
    ∀ {other writer'}, update writers id (some new) other = some writer' → ∃ old,
      writers other = some old ∧ writer'.lastUndo = old.lastUndo ∧
        writer'.liveTargets = old.liveTargets := by
  intro other writer' found'
  by_cases equal : other = id
  · subst equal
    rw [update_self] at found'
    cases found'
    exact ⟨writer, found, same⟩
  · rw [update_of_ne equal] at found'
    exact ⟨writer', found', rfl, rfl⟩

theorem isSome_update {β : Type} {f : TxnID → Option β} {old new : β} (found : f id = some old)
    (other : TxnID) : (update f id (some new) other).isSome = (f other).isSome := by
  by_cases same : other = id
  · rw [same, update_self, found]
    rfl
  · rw [update_of_ne same]

theorem undoingOf_update {writers : TxnID → Option Writer} (new : Option Writer) :
    (fun other => undoingOf (update writers id new other)) =
      update (fun other => undoingOf (writers other)) id (undoingOf new) :=
  Function.comp_update undoingOf writers id new

theorem update_same {β : Type} {f : TxnID → β} {value : β} (same : f id = value) :
    update f id value = f := by
  rw [← same, update_eq_self]

theorem idle_eq (idle : w.idle id = some writer) :
    w.db.writers id = some writer ∧ writer.undoing = none := by
  unfold World.idle at idle
  rw [filter_eq_some_iff] at idle
  exact ⟨idle.1, by simpa using idle.2⟩

theorem Registry.running (registry : w.Registry) (found : w.db.writers id = some writer) :
    w.Running id :=
  (registry.writer id).mp (by rw [found, isSome_some])

/-- What one step of the engine amounts to. -/
structure Refined (w : World) (label : Store.Label) (w' : World) : Prop where
  step : Store.Step w.store label w'.store
  registry : w'.Registry
  logged : w'.Logged

/-! ## Handles and snapshots -/

theorem mem_capture_active {m : Manager} {tid x : TxnID} :
    x ∈ (m.capture tid).active ↔ (m.active.lookup x).isSome ∧ x ≠ tid := by
  unfold Manager.capture
  rw [List.mem_filter, ← AList.mem_keys, ← AList.lookup_isSome]
  simp

theorem Invariants.current (inv : w.Invariants) (tid : TxnID) :
    w.store.Current (w.db.tm.capture tid) := by
  refine ⟨rfl, fun x => ?_⟩
  rw [mem_capture_active, inv.registry.active x]
  rfl

theorem refined_begin (inv : w.Invariants) {iso : Isolation} (proper : id ≠ 0)
    (fresh : w.db.tm.next ≤ id) (taken : w.step? (.begin id iso) = some w') :
    Refined w .other w' := by
  simp only [step?, if_pos (And.intro proper fresh), Option.some.injEq] at taken
  subst taken
  have notRunning : ¬ w.Running id := by
    intro runs
    have := inv.ids.running_lt runs
    exact absurd this (not_lt.mpr fresh)
  have lookup : ∀ x, (w.db.tm.attach id iso).status.lookup x =
      if x = id then some .inProgress else w.db.tm.status.lookup x :=
    fun x => AList.lookup_insert_if _ _ _ _
  have active : ∀ x, ((w.db.tm.attach id iso).active.lookup x).isSome ↔
      x = id ∨ (w.db.tm.active.lookup x).isSome := by
    intro x
    simp only [Manager.attach, AList.lookup_insert_if]
    by_cases same : x = id <;> simp [same]
  have next : (w.db.tm.attach id iso).next = id + 1 := by
    simp [Manager.attach, fresh]
  refine ⟨?_, ⟨?_, ?_, ?_, ?_⟩, ?_⟩
  · have begun := Store.IdStep.begin (s := w.store) id
      { holder := id, reader := false, snap := (w.db.tm.attach id iso).capture id
        taken := w.commits.length } fresh proper ⟨rfl, rfl, rfl⟩ next ?_ rfl
    · refine .ids ?_
      convert begun using 1
      refine Store.ext next ?_ rfl rfl rfl rfl rfl ?_ ?_ rfl ?_
      all_goals dsimp only [store, note]
      · funext x
        rw [lookup, update_apply]
      · exact comp_update (List.map located) _ _ _
      · exact undoingOf_update _
      · exact comp_update (Option.map (Option.map Stored.version) ∘ ·) _ _ _
    intro x
    rw [mem_capture_active, active x, inv.registry.active x]
    constructor
    · rintro ⟨same | runs, differ⟩
      · exact absurd same differ
      · exact ⟨runs, differ⟩
    · rintro ⟨runs, differ⟩
      exact ⟨.inr runs, differ⟩
  · intro x
    have := active x
    simp only [Running, note, lookup] at this ⊢
    rw [this, inv.registry.active x]
    by_cases same : x = id <;> simp [same, Running]
  · intro x
    simp only [Running, note, lookup]
    by_cases same : x = id
    · simp [same]
    · rw [update_of_ne same, if_neg same]
      exact inv.registry.writer x
  · intro c member reader
    obtain rfl | old := List.mem_cons.mp member
    · cases reader
    · exact inv.registry.reader c old reader
  · intro x finishing
    have committed := inv.registry.finished x finishing
    have differ : x ≠ id := by
      rintro rfl
      have := inv.ids.known x (by rw [store]; simp [committed])
      exact absurd this (not_lt.mpr fresh)
    simp only [note, lookup, if_neg differ]
    exact committed
  have noWriter : w.db.writers id = none := by
    rw [← not_isSome_iff_eq_none, inv.registry.writer id]
    exact notRunning
  have logged := inv.logged
  refine ⟨logged.linked, ?_, ?_, ?_, ?_, ?_⟩
  · intro txn above
    simp only [note, next] at above
    exact logged.fresh txn (by lia)
  · intro x writer found
    simp only [note] at found ⊢
    obtain ⟨same, found⟩ | ⟨_, found⟩ := update_cases found
    · cases found
      rw [same]
      exact logged.fresh id fresh
    · exact logged.head found
  · intro x writer found
    simp only [note] at found ⊢
    by_cases same : x = id
    · rw [same, update_self] at found ⊢
      cases found
      rfl
    · rw [update_of_ne same] at found ⊢
      exact logged.chain found
  · intro x writer found
    simp only [note] at found ⊢
    by_cases same : x = id
    · rw [same, update_self] at found ⊢
      cases found
      rfl
    · rw [update_of_ne same] at found ⊢
      exact logged.targets found
  intro x runs e member
  simp only [Running, note, lookup] at runs member
  by_cases same : x = id
  · rw [same, update_self] at member
    cases member
  · rw [if_neg same] at runs
    rw [update_of_ne same] at member
    exact logged.owner runs e member

theorem Registry.congr (registry : w.Registry) (status : w'.db.tm.status = w.db.tm.status)
    (active : ∀ id, (w'.db.tm.active.lookup id).isSome = (w.db.tm.active.lookup id).isSome)
    (writers : ∀ id, (w'.db.writers id).isSome = (w.db.writers id).isSome)
    (readers : ∀ c ∈ w'.captures, c.reader → (w'.db.tm.readers.lookup c.holder).isSome)
    (finishing : ∀ id, (w'.db.finishing id).isSome → (w.db.finishing id).isSome) :
    w'.Registry := by
  refine ⟨fun id => ?_, fun id => ?_, readers, fun id phase => ?_⟩
  · rw [active, Running, status]
    exact registry.active id
  · rw [writers, Running, status]
    exact registry.writer id
  · rw [status]
    exact registry.finished id (finishing id phase)

/-- A snapshot is taken; the registry keeps what it knows. -/
theorem refined_note (inv : w.Invariants) {tm : Manager} {holder : TxnID} {reader : Bool}
    {snap : Snapshot} (next : tm.next = w.db.tm.next) (status : tm.status = w.db.tm.status)
    (active : ∀ id, (tm.active.lookup id).isSome = (w.db.tm.active.lookup id).isSome)
    (readers : ∀ id, (w.db.tm.readers.lookup id).isSome → (tm.readers.lookup id).isSome)
    (current : w.store.Current snap) (reads : reader → (tm.readers.lookup holder).isSome)
    (writes : reader = false → snap.tid = holder ∧ w.Running holder) :
    Refined w .other ({ w with db := { w.db with tm := tm } }.note holder reader snap) := by
  have noted := Store.IdStep.capture (s := w.store)
    { holder, reader, snap, taken := w.commits.length } current writes rfl
  refine ⟨.ids ?_, ?_, ?_⟩
  · convert noted using 1
    refine Store.ext next ?_ rfl rfl rfl rfl rfl rfl rfl rfl rfl
    dsimp only [store, note]
    rw [status]
  · refine inv.registry.congr status active (fun _ => rfl) ?_ (fun _ phase => phase)
    intro c member isReader
    obtain rfl | old := List.mem_cons.mp member
    · exact reads isReader
    · exact readers _ (inv.registry.reader c old isReader)
  · refine inv.logged.congr rfl next.ge rfl ?_ (fun found => ⟨_, found, rfl, rfl⟩)
    intro id runs
    rw [Running] at runs ⊢
    rw [← status]
    exact runs

theorem isSome_lookup_insert {β : Type} {s : AList fun _ : TxnID => β} {old : β}
    (found : s.lookup id = some old) (new : β) (other : TxnID) :
    ((s.insert id new).lookup other).isSome = (s.lookup other).isSome := by
  rw [AList.lookup_insert_if]
  by_cases same : other = id
  · rw [if_pos same, same, found]
    rfl
  · rw [if_neg same]

section

variable (inv : w.Invariants)

include inv

theorem refined_refresh (taken : w.step? (.refresh id) = some w') : Refined w .other w' := by
  simp only [step?] at taken
  split at taken
  · cases taken
  next h found =>
  cases taken
  have running : w.Running id := (inv.registry.active id).mp (by rw [found, isSome_some])
  have refreshed : w.db.tm.refresh id = { w.db.tm with
        active := w.db.tm.active.insert id { h with snap := w.db.tm.capture id } } := by
    unfold Manager.refresh
    rw [found]
  rw [refreshed]
  exact refined_note inv rfl rfl (isSome_lookup_insert found _) (fun _ known => known)
    (inv.current id) (nofun) fun _ => ⟨rfl, running⟩

theorem refined_capture (taken : w.step? (.capture id) = some w') : Refined w .other w' := by
  simp only [step?] at taken
  split at taken
  · cases taken
  next h found =>
  cases taken
  have running : w.Running id := (inv.registry.active id).mp (by rw [found, isSome_some])
  exact refined_note inv rfl rfl (fun _ => rfl) (fun _ known => known) (inv.current id)
    (nofun) fun _ => ⟨rfl, running⟩

theorem refined_beginRead {iso : Isolation} (taken : w.step? (.beginRead iso) = some w') :
    Refined w .other w' := by
  cases taken
  refine refined_note inv rfl rfl (fun _ => rfl) ?_ (inv.current 0) ?_ (nofun)
  · intro id known
    simp only [Manager.beginRead, AList.lookup_insert_if]
    split
    · rfl
    · exact known
  · intro _
    simp only [Manager.beginRead, AList.lookup_insert_if, if_true]
    rfl

theorem refined_refreshRead (taken : w.step? (.refreshRead id) = some w') : Refined w .other w' := by
  simp only [step?] at taken
  cases found : w.db.tm.active.lookup id with
  | some h =>
    rw [found] at taken
    cases taken
  | none =>
    cases reading : w.db.tm.readers.lookup id with
    | none =>
      rw [found, reading] at taken
      cases taken
    | some h =>
      rw [found, reading] at taken
      cases taken
      have refreshed : w.db.tm.refresh id = { w.db.tm with
            readers := w.db.tm.readers.insert id { h with snap := w.db.tm.capture id } } := by
        unfold Manager.refresh
        rw [found, reading]
      rw [refreshed]
      refine refined_note inv rfl rfl (fun _ => rfl) ?_ (inv.current id) ?_
        (nofun)
      · intro other known
        rw [isSome_lookup_insert reading]
        exact known
      · intro _
        rw [isSome_lookup_insert reading, reading]
        rfl

theorem refined_endRead (taken : w.step? (.endRead id) = some w') : Refined w .other w' := by
  simp only [step?] at taken
  split at taken
  · cases taken
  next h reading =>
  cases taken
  refine ⟨.ids (.release id), ?_, ?_⟩
  · refine inv.registry.congr rfl (fun _ => rfl) (fun _ => rfl) ?_ (fun _ phase => phase)
    intro c member isReader
    obtain ⟨old, other⟩ := Store.mem_without (s := w.store) member
    have differ : c.holder ≠ id := other.resolve_right (by simp [isReader])
    simp only [forgetCaptures, Manager.endRead, AList.lookup_erase_if, if_neg differ]
    exact inv.registry.reader c old isReader
  · exact inv.logged.congr rfl le_rfl rfl (fun runs => runs) (fun found => ⟨_, found, rfl, rfl⟩)

end

/-! ## Steps that change locks and flags only -/

variable {label : Store.Label}

section

variable (inv : w.Invariants)

include inv

/-- A step that leaves all that the store sees as it was. -/
theorem refined_quiet {db : Engine} (next : db.tm.next = w.db.tm.next)
    (status : db.tm.status = w.db.tm.status) (active : db.tm.active = w.db.tm.active)
    (readers : db.tm.readers = w.db.tm.readers) (undo : db.undo = w.db.undo)
    (rows : db.rows = w.db.rows)
    (forgetting : ∀ id, isForgetting (db.finishing id) = isForgetting (w.db.finishing id))
    (finishing : ∀ id, (db.finishing id).isSome → (w.db.finishing id).isSome)
    (isWriter : ∀ id, (db.writers id).isSome = (w.db.writers id).isSome)
    (writers : ∀ {id writer'}, db.writers id = some writer' → ∃ writer,
      w.db.writers id = some writer ∧ writer'.lastUndo = writer.lastUndo ∧
        writer'.liveTargets = writer.liveTargets)
    (undoing : ∀ id, undoingOf (db.writers id) = undoingOf (w.db.writers id)) :
    Refined w label { w with db := db } := by
  refine ⟨?_, ?_, ?_⟩
  · have same : ({ w with db := db } : World).store = w.store := by
      refine Store.ext next ?_ rfl rfl ?_ ?_ ?_ rfl (funext undoing) (funext forgetting) rfl
      all_goals dsimp only [store]
      · rw [status]
      · rw [rows]
      · rw [undo]
      · rw [undo]
    rw [same]
    exact .quiet
  · refine inv.registry.congr status (fun id => by rw [active]) isWriter ?_ finishing
    intro c member isReader
    rw [readers]
    exact inv.registry.reader c member isReader
  · refine inv.logged.congr undo next.ge rfl ?_ writers
    intro id runs
    rw [Running] at runs ⊢
    rw [← status]
    exact runs

/-- A step that changes one writer in what neither the store nor the log sees. -/
theorem refined_flag {new : Writer} (found : w.db.writers id = some writer)
    (lastUndo : new.lastUndo = writer.lastUndo) (liveTargets : new.liveTargets = writer.liveTargets)
    (undoing : new.undoing = writer.undoing) :
    Refined w label { w with
      db := { w.db with writers := update w.db.writers id (some new) } } := by
  refine refined_quiet inv rfl rfl rfl rfl rfl rfl (fun _ => rfl) (fun _ phase => phase)
    (isSome_update found) (writers_update found ⟨lastUndo, liveTargets⟩) ?_
  intro other
  have updated := congrFun (@undoingOf_update id w.db.writers (some new)) other
  rw [updated]
  by_cases same : other = id
  · rw [same, update_self, found, undoingOf, undoingOf, bind_some, bind_some, undoing]
  · rw [update_of_ne same]

theorem refined_locks (locks : LockManager) :
    Refined w .other { w with db := { w.db with tm := { w.db.tm with locks := locks } } } :=
  refined_quiet inv rfl rfl rfl rfl rfl rfl (fun _ => rfl) (fun _ phase => phase) (fun _ => rfl)
    (fun found => ⟨_, found, rfl, rfl⟩) (fun _ => rfl)

theorem refined_same : Refined w label w :=
  ⟨.quiet, inv.registry, inv.logged⟩

theorem refined_clearPass (id : TxnID) : Refined w label { w with db := w.db.clearPass id } := by
  unfold Engine.clearPass
  cases found : w.db.writers id with
  | none => exact refined_same inv
  | some writer => exact refined_flag inv found rfl rfl rfl

theorem refined_lockWrite (id : TxnID) (key : Key) (tag : String) :
    Refined w .other { w with db := w.db.lockWrite id key tag } := by
  unfold Engine.lockWrite
  cases w.db.tm.active.lookup id with
  | none => exact refined_same inv
  | some h =>
    cases found : w.db.writers id with
    | none => exact refined_same inv
    | some writer =>
      dsimp only
      split
      · exact refined_flag inv found rfl rfl rfl
      · exact refined_locks inv _

end

end World

end NextSQL.Mvcc
