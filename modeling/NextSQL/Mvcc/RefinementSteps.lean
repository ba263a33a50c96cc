import NextSQL.Mvcc.Refinement

/-!
# The engine refines the versioned store

Row writes, bulk writes, reversals, the ends of transactions and the cleaning
up after them are steps of the store. With the steps of the previous module
this gives the refinement: every step of the engine keeps its invariants and is
a step of the store, or changes nothing there (`Invariants.step`). A run from an
opened database keeps the invariants (`run_invariants`).
-/

namespace NextSQL.Mvcc

open Function

open Row Undo Txn GuardedRuns List Option

namespace World

variable {w w' : World}

/-! ## Row writes -/

variable {id : TxnID} {cell : Cell} {snap : Snapshot} {action : Engine.Action} {v : Version}
  {r : Record}

theorem Invariants.writes (inv : w.Invariants) {kind : Kind} {old : Version} {c : Capture}
    (held : c ∈ w.captures) (mine : c.snap = snap ∧ c.holder = id ∧ c.reader = false)
    (replaced : w.db.Replaced id cell snap action kind old v) (number : r.id = w.db.undo.nextID)
    (owner : r.txn = id) (isKind : r.kind = kind) (isOld : r.old = old) :
    w.store.Writes id cell r v := by
  have tid : snap.tid = id := by
    have := (inv.ids.owner c held mine.2.2).1
    rw [mine.1, mine.2.1] at this
    exact this
  have free : ∀ {raw : Stored}, w.db.Unopposed id snap raw →
      raw.version.xmin = id ∨ ¬ w.store.Running raw.version.xmin := by
    intro raw unopposed
    by_cases own : raw.version.xmin = id
    · exact .inl own
    right
    intro runs
    have calm := unopposed.1
    have proper := inv.ids.running_ne_zero runs
    have status : w.db.tm.statusOf raw.version.xmin = .inProgress := by
      rw [inv.statusOf]
      exact Store.status_of_running runs
    cases raw with
    | plain payload => exact proper rfl
    | versioned version =>
      simp only [Engine.conflictsWithLiveWriter, Stored.has, Bool.true_and, status] at calm
      simp [proper, own] at calm
  have visible : ∀ {raw : Stored}, (w.db.visiblePayload raw snap).isSome →
      (view w.store.recs (w.store.sees snap) raw.version).isSome := by
    intro raw isVisible
    rw [← inv.visiblePayload]
    exact isVisible
  have row : ∀ {raw : Stored}, w.db.rows cell = some raw →
      w.store.rows cell = some raw.version := by
    intro raw found
    dsimp only [store]
    rw [found, map_some]
  obtain ⟨_, _, _, _, _, _, _⟩ := r
  subst number owner isKind isOld
  cases replaced with
  | fresh absent =>
    refine ⟨rfl, rfl, ?_, fun _ => rfl, absurd rfl, rfl, .inl ⟨rfl, rfl⟩⟩
    dsimp only [store]
    rw [target, if_pos rfl, absent, map_none]
  | overwrite found _ unopposed | update found _ unopposed =>
    exact ⟨rfl, rfl, (row found).symm, (fun insert => by cases insert), fun _ => free unopposed,
      rfl, .inl ⟨rfl, rfl⟩⟩
  | delete found isVisible unopposed =>
    exact ⟨rfl, rfl, (row found).symm, (fun insert => by cases insert), fun _ => free unopposed,
      rfl, .inr ⟨by simp, rfl, rfl, rfl, snap, tid, visible isVisible⟩⟩

theorem holds_iff : w.holds id snap ↔
    ∃ c ∈ w.captures, c.snap = snap ∧ c.holder = id ∧ c.reader = false := by
  unfold holds
  rw [List.any_eq_true]
  refine exists_congr fun c => and_congr_right fun _ => ?_
  simp only [Bool.and_eq_true, beq_iff_eq, Bool.not_eq_true']
  constructor
  · rintro ⟨⟨holder, reader⟩, snap⟩
    exact ⟨snap, holder, reader⟩
  · rintro ⟨snap, holder, reader⟩
    exact ⟨⟨holder, reader⟩, snap⟩

/-- The state after a successful row write. -/
def written (w : World) (id : TxnID) (cell : Cell) (writer : Writer) (deleted : List Cell)
    (r : Record) (v : Version) : World :=
  { (w.noteOrigin id cell).noteTrail id cell.1 (some (w.db.undo.stored r)) with
    db := (w.db.wrote id cell writer deleted r v).clearPass id }

variable {db : Engine} {writer : Writer} {deleted : List Cell}

theorem wrote_clearPass : (db.wrote id cell writer deleted r v).clearPass id = { db with
        undo := (db.undo.append r).1
        rows := update db.rows cell (some (.versioned v))
        writers := update db.writers id (some { writer with
            lastUndo := db.undo.nextID, liveTargets := writer.liveTargets ++ [cell.1], deleted
            pass := none }) } := by
  simp only [Engine.clearPass, Engine.wrote, update_self, update_idem]

/-- The log gains the record at the head of its transaction's chain. -/
theorem logged_written (inv : w.Invariants) (found : w.db.writers id = some writer)
    (owner : r.txn = id) (prev : r.prev = writer.lastUndo) :
    (w.written id cell writer deleted r v).Logged := by
  have logged := inv.logged
  have head := logged.head found
  have stored : (w.db.undo.stored r).prev = writer.lastUndo := by
    unfold Log.stored
    split
    · rw [owner, head]
    · exact prev
  have below : ∀ {other writer'}, w.db.writers other = some writer' →
      Linked (update w.db.undo.recs w.db.undo.nextID (some (w.db.undo.stored r)))
        writer'.lastUndo ((w.trail other).map Prod.snd) := by
    intro other writer' found'
    refine (logged.chain found').mono ?_
    intro u r' _ old
    rw [update_of_ne (ne_of_lt (logged.linked.below old))]
    exact old
  have nextIs : (w.written id cell writer deleted r v).db.undo = (w.db.undo.append r).1 := by
    dsimp only [written]
    rw [wrote_clearPass]
  have writersIs : (w.written id cell writer deleted r v).db.writers =
      update w.db.writers id (some { writer with
        lastUndo := w.db.undo.nextID, liveTargets := writer.liveTargets ++ [cell.1], deleted
        pass := none }) := by
    dsimp only [written]
    rw [wrote_clearPass]
  have trailIs : (w.written id cell writer deleted r v).trail =
      update w.trail id ((cell.1, w.db.undo.stored r) :: w.trail id) := rfl
  have tmIs : (w.written id cell writer deleted r v).db.tm = w.db.tm := by
    dsimp only [written]
    rw [wrote_clearPass]
  refine ⟨?_, ?_, ?_, ?_, ?_, ?_⟩
  · rw [nextIs]
    refine logged.linked.append ?_
    rw [owner, head]
    exact .inr prev
  · intro txn fresh
    rw [tmIs] at fresh
    have differ : txn ≠ r.txn := by
      rintro rfl
      have running := inv.registry.running found
      have := inv.ids.running_lt running
      rw [owner] at fresh
      exact absurd this (not_lt.mpr fresh)
    rw [nextIs, Log.append_eq]
    dsimp only
    rw [update_of_ne differ]
    exact logged.fresh txn fresh
  · intro other writer' found'
    rw [writersIs] at found'
    rw [nextIs, Log.append_eq]
    dsimp only
    by_cases same : other = id
    · rw [same, update_self] at found'
      cases found'
      rw [same, ← owner, update_self]
    · rw [update_of_ne same] at found'
      rw [update_of_ne (by rw [owner]; exact same)]
      exact logged.head found'
  · intro other writer' found'
    rw [writersIs] at found'
    rw [nextIs, trailIs, Log.append_eq]
    dsimp only
    by_cases same : other = id
    · subst same
      rw [update_self] at found' ⊢
      cases found'
      refine ⟨Nat.pos_iff_ne_zero.mp logged.linked.positive, by rw [update_self], ?_⟩
      rw [stored]
      exact below found
    · rw [update_of_ne same] at found' ⊢
      exact below found'
  · intro other writer' found'
    rw [writersIs] at found'
    rw [trailIs]
    by_cases same : other = id
    · subst same
      rw [update_self] at found' ⊢
      cases found'
      rw [reverse_append, logged.targets found]
      rfl
    · rw [update_of_ne same] at found' ⊢
      exact logged.targets found'
  intro other runs e member
  rw [Running, tmIs] at runs
  rw [trailIs] at member
  by_cases same : other = id
  · subst same
    rw [update_self, mem_cons] at member
    obtain rfl | old := member
    · exact owner
    · exact logged.owner runs e old
  · rw [update_of_ne same] at member
    exact logged.owner runs e member

theorem refined_written (inv : w.Invariants) (found : w.db.writers id = some writer)
    (ready : writer.undoing = none) (held : w.holds id snap) (owner : r.txn = id)
    (prev : r.prev = writer.lastUndo) (key : r.key = cell.2)
    (replaced : w.db.Replaced id cell snap action r.kind r.old v) :
    Refined w (.write id cell (action == .delete)) (w.written id cell writer deleted r v) := by
  have running := inv.registry.running found
  obtain ⟨c, member, mine⟩ := holds_iff.mp held
  have writes : w.store.Writes id cell (w.db.undo.stored r) v :=
    inv.writes member mine replaced rfl owner rfl rfl
  have wrote := Store.DataStep.write (s := w.store) id cell (action == .delete)
    (w.db.undo.stored r) v running
    (by dsimp only [store, undoingOf]; rw [found, bind_some, ready, map_none]) writes
    (replaced.marks)
  refine ⟨.data ?_, ?_, logged_written inv found owner prev⟩
  · convert wrote using 1
    dsimp only [written]
    rw [wrote_clearPass]
    refine Store.ext rfl rfl rfl rfl ?_ rfl rfl ?_ ?_ rfl ?_
    all_goals dsimp only [store, noteTrail, noteOrigin]
    · exact comp_update (Option.map Stored.version) _ _ _
    · refine (comp_update (map located) _ _ _).trans (congrArg (update _ id) ?_)
      have keyIs : (w.db.undo.stored r).key = cell.2 := key
      rw [map_cons, located, keyIs]
    · refine (undoingOf_update _).trans (update_same ?_)
      rw [undoingOf, found, undoingOf, bind_some, bind_some]
    funext other c
    by_cases same : other = id
    · rw [same, update_self, update_self]
      by_cases same' : c = cell
      · rw [same', update_self, update_self]
        cases w.origin id cell <;> rfl
      · rw [update_of_ne same', update_of_ne same']
    · rw [update_of_ne same, update_of_ne same]
  · dsimp only [written]
    rw [wrote_clearPass]
    exact inv.registry.congr rfl (fun _ => rfl) (isSome_update found) inv.registry.reader
      (fun _ phase => phase)

theorem refined_write (inv : w.Invariants) {tree : TreeID} {leaf : PageID} {key : Key}
    (taken : w.step? (.write id tree leaf key action snap) = some w') :
    Refined w (.write id (tree, key) (action == .delete)) w' := by
  simp only [step?] at taken
  cases idle : w.idle id with
  | none =>
    rw [idle] at taken
    cases taken
  | some writer =>
    obtain ⟨found, ready⟩ := idle_eq idle
    rw [idle] at taken
    dsimp only at taken
    split at taken
    next allowed =>
      cases result : w.db.write id tree leaf key action snap with
      | error e =>
        rw [result] at taken
        cases taken
        exact refined_clearPass inv id
      | ok db =>
        obtain ⟨kind, old, v, deleted, replaced, rfl⟩ := Engine.write_ok found result
        rw [result] at taken
        have logged : (w.db.wrote id (tree, key) writer deleted
            (Engine.entry id leaf key writer kind old) v).undo.get w.db.undo.nextID =
            some (w.db.undo.stored (Engine.entry id leaf key writer kind old)) := by
          simp only [Engine.wrote, Log.append_eq, Log.get, update_self]
        simp only [logged, Option.some.injEq] at taken
        subst taken
        exact refined_written inv found ready allowed.2 rfl rfl rfl replaced
    next => cases taken

/-! ## Bulk writes -/

/-- What a bulk write does to the rows: some of the listed cells get a bare row,
in a `fresh` write only where nothing was. -/
def BareRows (id : TxnID) (cells : List Cell) (fresh : Bool) (db db' : Engine) : Prop :=
  ∀ c, db'.rows c = db.rows c ∨ (c ∈ cells ∧ (fresh = true → db.rows c = none) ∧ ∃ payload,
    db'.rows c = some (.versioned { xmin := id, xmax := 0, undo := 0, payload }))

variable {cells : List Cell} {fresh : Bool} {db' : Engine}

theorem BareRows.cons {payload : Bytes} (absent : fresh → db.rows cell = none)
    (bare : BareRows id cells fresh (db.put cell { xmin := id, xmax := 0, undo := 0, payload }) db') :
    BareRows id (cell :: cells) fresh db db' := by
  intro c
  have here := bare c
  dsimp only [Engine.put] at here
  by_cases same : c = cell
  · right
    subst same
    rw [update_self] at here
    refine ⟨mem_cons_self, absent, ?_⟩
    obtain kept | ⟨_, _, new⟩ := here
    · exact ⟨payload, kept⟩
    · exact new
  · rw [update_of_ne same] at here
    exact here.imp_right fun ⟨member, rest⟩ => ⟨mem_cons_of_mem _ member, rest⟩

theorem BareRows.skip (bare : BareRows id cells fresh db db') :
    BareRows id (cell :: cells) fresh db db' :=
  fun c => (bare c).imp_right fun ⟨member, rest⟩ => ⟨mem_cons_of_mem _ member, rest⟩

/-- Bulk writes change rows only. -/
structure RowsOnly (db db' : Engine) : Prop where
  tm : db'.tm = db.tm
  undo : db'.undo = db.undo
  writers : db'.writers = db.writers
  finishing : db'.finishing = db.finishing

theorem RowsOnly.trans {db'' : Engine} (first : RowsOnly db db') (second : RowsOnly db' db'') :
    RowsOnly db db'' :=
  ⟨second.tm.trans first.tm, second.undo.trans first.undo, second.writers.trans first.writers,
    second.finishing.trans first.finishing⟩

theorem put_rowsOnly (db : Engine) (cell : Cell) (v : Version) : RowsOnly db (db.put cell v) :=
  ⟨rfl, rfl, rfl, rfl⟩

theorem insertBatch_rows (id : TxnID) (tree : TreeID) :
    ∀ (rows : List (Key × Bytes)) (db : Engine), RowsOnly db (db.insertBatch id tree rows) ∧
      BareRows id (rows.map fun row => (tree, row.1)) true db (db.insertBatch id tree rows)
  | [], db => ⟨⟨rfl, rfl, rfl, rfl⟩, fun _ => .inl rfl⟩
  | (key, value) :: more, db => by
    rw [Engine.insertBatch]
    split
    · exact ⟨⟨rfl, rfl, rfl, rfl⟩, fun _ => .inl rfl⟩
    next absent =>
    obtain ⟨only, bare⟩ := insertBatch_rows id tree more
      (db.put (tree, key) { xmin := id, xmax := 0, undo := 0, payload := value })
    exact ⟨(put_rowsOnly db _ _).trans only, bare.cons fun _ => by simpa using absent⟩

theorem patchVisible_rows (id : TxnID) (tree : TreeID) (snap : Snapshot) :
    ∀ (rows : List (Key × Bytes)) (db : Engine), RowsOnly db (db.patchVisible id tree snap rows) ∧
      BareRows id (rows.map fun row => (tree, row.1)) false db (db.patchVisible id tree snap rows)
  | [], db => ⟨⟨rfl, rfl, rfl, rfl⟩, fun _ => .inl rfl⟩
  | (key, value) :: more, db => by
    rw [Engine.patchVisible]
    split
    · obtain ⟨only, bare⟩ := patchVisible_rows id tree snap more
        (db.put (tree, key) { xmin := id, xmax := 0, undo := 0, payload := value })
      exact ⟨(put_rowsOnly db _ _).trans only, bare.cons fun fresh => by cases fresh⟩
    · obtain ⟨only, bare⟩ := patchVisible_rows id tree snap more db
      exact ⟨only, bare.skip⟩

/-- The history of a bulk write differs in the first finds of its transaction. -/
theorem noteChanged_eq (w : World) (id : TxnID) (db : Engine) (cells : List Cell) :
    ∃ origin, w.noteChanged id db cells = { w with origin := origin } ∧
      ∀ other, other ≠ id → origin other = w.origin other := by
  suffices fold : ∀ (cells : List Cell) (acc : World),
      (∃ origin, acc = { w with origin := origin } ∧
        ∀ other, other ≠ id → origin other = w.origin other) →
      ∃ origin, cells.foldl (fun acc cell => if w.db.rows cell = db.rows cell then acc
        else acc.noteOrigin id cell) acc = { w with origin := origin } ∧
        ∀ other, other ≠ id → origin other = w.origin other from
    fold cells w ⟨w.origin, rfl, fun _ _ => rfl⟩
  intro cells
  induction cells with
  | nil => exact fun acc start => start
  | cons cell cells ih =>
    rintro acc ⟨origin, rfl, others⟩
    refine ih _ ?_
    beta_reduce
    by_cases same : w.db.rows cell = db.rows cell
    · rw [if_pos same]
      exact ⟨origin, rfl, others⟩
    rw [if_neg same]
    refine ⟨_, rfl, fun other differ => ?_⟩
    rw [update_of_ne differ]
    exact others other differ

theorem refined_bulk (inv : w.Invariants) (idle : w.idle id = some writer) (only : RowsOnly w.db db)
    (bare : BareRows id cells fresh w.db db) :
    Refined w (.bulk id cells fresh) { w.noteChanged id db cells with db := db } := by
  obtain ⟨found, ready⟩ := idle_eq idle
  obtain ⟨origin, changed, others⟩ := noteChanged_eq w id db cells
  rw [changed]
  have bulk := Store.DataStep.bulk (s := w.store) id cells fresh (fun c => (db.rows c).map Stored.version)
    (fun other c => (origin other c).map fun found => found.map Stored.version)
    (inv.registry.running found)
    (by dsimp only [store, undoingOf]; rw [found, bind_some, ready, map_none])
    (fun c => by
      obtain same | ⟨member, absent, payload, new⟩ := bare c
      · left
        dsimp only [store]
        rw [same]
      right
      refine ⟨member, fun isFresh => ?_, payload, by rw [new]; rfl⟩
      dsimp only [store]
      rw [absent isFresh, map_none])
    (fun other differ => by
      funext c
      dsimp only [store]
      rw [others other differ])
  refine ⟨.data ?_, ?_, ?_⟩
  · convert bulk using 1
    refine Store.ext ?_ ?_ rfl rfl rfl ?_ ?_ rfl ?_ ?_ rfl
    all_goals dsimp only [store]
    · rw [only.tm]
    · rw [only.tm]
    · rw [only.undo]
    · rw [only.undo]
    · rw [only.writers]
    · rw [only.finishing]
  · refine inv.registry.congr (by dsimp only; rw [only.tm]) ?_ ?_ ?_ ?_
    all_goals dsimp only
    · rw [only.tm]
      exact fun _ => rfl
    · rw [only.writers]
      exact fun _ => rfl
    · rw [only.tm]
      exact inv.registry.reader
    · rw [only.finishing]
      exact fun _ phase => phase
  refine inv.logged.congr only.undo (by dsimp only; rw [only.tm]) rfl ?_ ?_
  · intro other runs
    rw [Running] at runs ⊢
    rw [← only.tm]
    exact runs
  · intro other writer' found'
    rw [only.writers] at found'
    exact ⟨writer', found', rfl, rfl⟩

/-! ## Reversals -/

/-- A change of the reversal a transaction is in, with a change of the rows. -/
theorem refined_undoing (inv : w.Invariants) {label : Store.Label} {u : Option Undoing}
    {rows : Cell → Option Stored} (found : w.db.writers id = some writer)
    (step : Store.Step w.store label { w.store with
      rows := fun c => (rows c).map Stored.version
      undoing := update w.store.undoing id (u.map fun u => (u.pending.map located, u.full)) }) :
    Refined w label { w with db := { w.db with rows := rows }.setUndoing id writer u } := by
  refine ⟨?_, ?_, ?_⟩
  · convert step using 1
    refine Store.ext rfl rfl rfl rfl rfl rfl rfl rfl ?_ rfl rfl
    exact undoingOf_update _
  · exact inv.registry.congr rfl (fun _ => rfl) (isSome_update found) inv.registry.reader
      (fun _ phase => phase)
  · exact inv.logged.congr rfl le_rfl rfl (fun runs => runs)
      (@writers_update id writer w.db.writers { writer with undoing := u } found ⟨rfl, rfl⟩)

theorem undoing_eq (found : w.db.writers id = some writer) :
    w.store.undoing id = writer.undoing.map fun u => (u.pending.map located, u.full) := by
  dsimp only [store, undoingOf]
  rw [found, bind_some]

theorem refined_startUndo (inv : w.Invariants) {pending rest : List (TreeID × Record)} {full : Bool}
    (found : w.db.writers id = some writer) (ready : writer.undoing = none)
    (newest : w.trail id = pending ++ rest) (whole : full → rest = []) :
    Refined w .other { w with db := w.db.setUndoing id writer (some { pending, full }) } := by
  refine refined_undoing inv found (.data (.startUndo id (pending.map located) (rest.map located)
    full (inv.registry.running found) ?_ ?_ ?_))
  · rw [undoing_eq found, ready, map_none]
  · dsimp only [store]
    rw [newest, map_append]
  · intro isFull
    rw [whole isFull, map_nil]

theorem refined_rollback (inv : w.Invariants) (idle : w.idle id = some writer) :
    Refined w .other { w with db := w.db.startRollback id writer } := by
  obtain ⟨found, ready⟩ := idle_eq idle
  unfold Engine.startRollback
  rw [inv.logged.undoWork found, getD_some]
  exact refined_startUndo inv found ready (append_nil _).symm (fun _ => rfl)

theorem refined_rollbackTo (inv : w.Invariants) (undoLen : Nat) (idle : w.idle id = some writer) :
    Refined w .other { w with db := w.db.startRollbackTo id writer undoLen } := by
  obtain ⟨found, ready⟩ := idle_eq idle
  unfold Engine.startRollbackTo
  dsimp only
  split
  · exact refined_same inv
  · rw [inv.logged.undoWork found]
    exact refined_startUndo inv found ready (take_append_drop _ _).symm
      (nofun)

theorem refined_undoNext (inv : w.Invariants) (taken : w.step? (.undoNext id) = some w') :
    Refined w (.undo id) w' := by
  simp only [step?] at taken
  split at taken
  · cases taken
  next writer found =>
  split at taken
  next tree r rest full undoing =>
    cases taken
    refine refined_undoing inv found ?_
    have next := Store.DataStep.undoNext (s := w.store) id (tree, r.key) r
      (rest.map located) full (inv.registry.running found)
      (by rw [undoing_eq found, undoing]; rfl)
    convert Store.Step.data next using 1
    refine Store.ext rfl rfl rfl rfl ?_ rfl rfl rfl rfl rfl rfl
    refine (comp_update (Option.map Stored.version) _ _ _).trans ?_
    unfold Engine.restored target
    cases r.kind <;> rfl
  next => cases taken

theorem refined_undone (inv : w.Invariants) (taken : w.step? (.undone id) = some w') :
    Refined w .other w' := by
  simp only [step?] at taken
  split at taken
  · cases taken
  next writer found =>
  split at taken
  next undoing =>
    cases taken
    refine refined_undoing inv found ?_
    exact .data (.endUndo id (inv.registry.running found)
      (by rw [undoing_eq found, undoing]; rfl))
  next => cases taken

/-! ## Ends -/

theorem finished_invariants (inv : w.Invariants) (outcome : Status)
    (finishing : TxnID → Option Cleanup) (commits : List TxnID) (ended : outcome ≠ .inProgress)
    (phases : ∀ other, other ≠ id → (finishing other).isSome → (w.db.finishing other).isSome)
    (phase : (finishing id).isSome → outcome = .committed) :
    (World.forgetCaptures { w with
        db := { w.db with
          tm := w.db.tm.finish id outcome
          writers := update w.db.writers id none
          finishing := finishing }
        commits := commits } id false).Registry ∧
    (World.forgetCaptures { w with
        db := { w.db with
          tm := w.db.tm.finish id outcome
          writers := update w.db.writers id none
          finishing := finishing }
        commits := commits } id false).Logged := by
  have lookup : ∀ x, (w.db.tm.finish id outcome).status.lookup x =
      if x = id then some outcome else w.db.tm.status.lookup x :=
    fun x => AList.lookup_insert_if _ _ _ _
  have still : ∀ {x}, (w.db.tm.finish id outcome).status.lookup x = some .inProgress →
      x ≠ id ∧ w.Running x := by
    intro x runs
    rw [lookup] at runs
    split at runs
    · cases runs
      exact absurd rfl ended
    · exact ⟨by assumption, runs⟩
  refine ⟨⟨?_, ?_, ?_, ?_⟩, ?_⟩
  · intro x
    simp only [forgetCaptures, Running, Manager.finish, AList.lookup_erase_if,
      AList.lookup_insert_if]
    by_cases same : x = id
    · simp [same, ended]
    · rw [if_neg same, if_neg same]
      exact inv.registry.active x
  · intro x
    simp only [forgetCaptures, Running, lookup]
    by_cases same : x = id
    · simp [same, ended]
    · rw [update_of_ne same, if_neg same]
      exact inv.registry.writer x
  · intro c member isReader
    exact inv.registry.reader c (Store.mem_without (s := w.store) member).1 isReader
  · intro x isPhase
    simp only [forgetCaptures, lookup] at isPhase ⊢
    by_cases same : x = id
    · rw [if_pos same, phase (same ▸ isPhase)]
    · rw [if_neg same]
      exact inv.registry.finished x (phases x same isPhase)
  refine inv.logged.congr rfl le_rfl rfl (fun runs => (still runs).2) ?_
  intro x writer' found'
  simp only [forgetCaptures] at found'
  by_cases same : x = id
  · rw [same, update_self] at found'
    cases found'
  · rw [update_of_ne same] at found'
    exact ⟨writer', found', rfl, rfl⟩

theorem fate_finish (m : Manager) (id : TxnID) (outcome : Status) :
    (fun x => (m.finish id outcome).status.lookup x) =
      update (fun x => m.status.lookup x) id (some outcome) := by
  funext x
  rw [update_apply]
  exact AList.lookup_insert_if _ _ _ _

theorem refined_abort (inv : w.Invariants) (taken : w.step? (.abort id) = some w') :
    Refined w .other w' := by
  simp only [step?] at taken
  split at taken
  · cases taken
  next writer found =>
  split at taken
  next undoing =>
    cases taken
    have notFinishing : ¬ (w.db.finishing id).isSome := by
      intro phase
      have := inv.registry.running found
      rw [Running, inv.registry.finished id phase] at this
      cases this
    obtain ⟨registry, logged⟩ := finished_invariants inv .aborted w.db.finishing w.commits
      (by decide) (fun _ _ phase => phase) (fun phase => absurd phase notFinishing)
    refine ⟨.ids ?_, registry, logged⟩
    have aborted := Store.IdStep.abort (s := w.store) id (inv.registry.running found)
      (by rw [undoing_eq found, undoing]; rfl)
    convert aborted using 1
    refine Store.ext rfl ?_ rfl rfl rfl rfl rfl rfl ?_ rfl rfl
    · exact fate_finish _ _ _
    · exact undoingOf_update _
  next => cases taken

theorem refined_commit (inv : w.Invariants) (taken : w.step? (.commit id) = some w') :
    Refined w .other w' := by
  simp only [step?] at taken
  split at taken
  · cases taken
  next writer idle =>
  obtain ⟨found, ready⟩ := idle_eq idle
  cases taken
  obtain ⟨registry, logged⟩ := finished_invariants inv .committed
    (update w.db.finishing id (some (.checkForget writer.deleted))) (w.commits ++ [id]) (by decide)
    (fun other differ phase => by rwa [update_of_ne differ] at phase) (fun _ => rfl)
  refine ⟨.ids ?_, registry, logged⟩
  have notUndoing : w.store.undoing id = none := by
    rw [undoing_eq found, ready, map_none]
  have committed := Store.IdStep.commit (s := w.store) id (inv.registry.running found) notUndoing
  convert committed using 1
  refine Store.ext rfl ?_ rfl rfl rfl rfl rfl rfl ?_ ?_ rfl
  · exact fate_finish _ _ _
  · exact (undoingOf_update none).trans (update_same notUndoing)
  · exact comp_update isForgetting _ _ _

end World

end NextSQL.Mvcc
