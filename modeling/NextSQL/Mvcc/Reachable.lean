import NextSQL.Mvcc.RefinementSteps

/-!
# Every run of the engine is a run of the store

The steps that clean up after a commit, and with them all steps: each is a step
of the store or changes nothing there (`Invariants.refined`). The invariants
hold in a database that has just been opened and in every state reached from it
(`run_invariants`).
-/

namespace NextSQL.Mvcc

open Function

open Row Undo Txn GuardedRuns List Option

namespace World

variable {w w' : World}

/-! ## Cleaning up -/

/-- Without a live handle nothing runs and no snapshot is held. -/
theorem Invariants.idle (inv : w.Invariants) (none : w.db.tm.liveSnapshots = 0) : w.store.Idle := by
  have noEntries : ∀ {s : AList fun _ : TxnID => Handle}, s.entries.length = 0 →
      ∀ id, ¬ (s.lookup id).isSome := by
    intro s empty id found
    rw [AList.lookup_isSome, AList.mem_keys, AList.keys, length_eq_zero_iff.mp empty] at found
    cases found
  have counts : w.db.tm.active.entries.length = 0 ∧ w.db.tm.readers.entries.length = 0 := by
    unfold Manager.liveSnapshots at none
    lia
  have noRunning : ∀ x, ¬ w.store.Running x := by
    intro x runs
    exact noEntries counts.1 x ((inv.registry.active x).mpr runs)
  refine ⟨?_, noRunning⟩
  rw [eq_nil_iff_forall_not_mem]
  intro c member
  cases reader : c.reader with
  | true => exact noEntries counts.2 c.holder (inv.registry.reader c member reader)
  | false => exact noRunning c.holder (inv.ids.owner c member reader).2

variable {id : TxnID} {phase : Cleanup}

/-- A phase of a goroutine that the store does not see. -/
theorem refined_phase (inv : w.Invariants) {next : Option Cleanup}
    (found : w.db.finishing id = some phase) (before : isForgetting (some phase) = false)
    (after : isForgetting next = false) :
    Refined w .other { w with db := w.db.setCleanup id next } := by
  refine refined_quiet inv rfl rfl rfl rfl rfl rfl ?_ ?_ (fun _ => rfl)
    (fun found => ⟨_, found, rfl, rfl⟩) (fun _ => rfl)
  · intro other
    dsimp only [Engine.setCleanup]
    by_cases same : other = id
    · rw [same, update_self, after, found, before]
    · rw [update_of_ne same]
  intro other isPhase
  dsimp only [Engine.setCleanup] at isPhase
  by_cases same : other = id
  · rw [same, found]
    rfl
  · rwa [update_of_ne same] at isPhase

variable {finishing : TxnID → Option Cleanup}

theorem forgetting_update (next : Option Cleanup) :
    (fun other => isForgetting (update finishing id next other)) =
      update (fun other => isForgetting (finishing other)) id (isForgetting next) :=
  Function.comp_update isForgetting finishing id next

theorem finishing_isSome {next : Option Cleanup} (found : finishing id = some phase) (other : TxnID)
    (isPhase : (update finishing id next other).isSome) : (finishing other).isSome := by
  by_cases same : other = id
  · rw [same, found]
    rfl
  · rwa [update_of_ne same] at isPhase

/-- The log keeps the records of running transactions when others are dropped. -/
theorem Logged.drop (logged : w.Logged) {undo : Log} (linked : undo.WellLinked)
    (heads : ∀ id, w.Running id → undo.byTxn id = w.db.undo.byTxn id)
    (fresh : ∀ id, w.db.undo.byTxn id = 0 → undo.byTxn id = 0)
    (kept : ∀ {u r}, w.db.undo.recs u = some r → w.Running r.txn → undo.recs u = some r)
    (running : ∀ {id writer}, w.db.writers id = some writer → w.Running id)
    {rows : Cell → Option Stored} :
    Logged { w with db := { w.db with undo := undo, rows := rows, finishing := finishing } } := by
  refine ⟨linked, fun id above => fresh id (logged.fresh id above), ?_, ?_, logged.targets,
    logged.owner⟩
  · intro id writer found
    rw [heads id (running found)]
    exact logged.head found
  intro id writer found
  refine (logged.chain found).mono ?_
  intro u r member old
  obtain ⟨e, inTrail, rfl⟩ := mem_map.mp member
  refine kept old ?_
  rw [logged.owner (running found) e inTrail]
  exact running found

theorem refined_forget (inv : w.Invariants) {deleted : List Cell} {next : Cleanup}
    (found : w.db.finishing id = some (.forget deleted)) (after : isForgetting (some next) = false) :
    Refined w .other { w with
      db := { w.db with undo := w.db.undo.forgetTxn id }.setCleanup id (some next) } := by
  have committed := inv.registry.finished id (by rw [found]; rfl)
  have linked := inv.logged.linked
  have ended : ∀ {x}, w.Running x → x ≠ id := by
    rintro x runs rfl
    rw [Running, committed] at runs
    cases runs
  have forgot := Store.DataStep.forget (s := w.store) id (w.db.undo.forgetTxn id).recs
    (by dsimp only [store]; rw [found]; rfl) (linked.forgetTxn_dropped id)
  refine ⟨.data ?_, ?_, ?_⟩
  · convert forgot using 1
    refine Store.ext rfl rfl rfl rfl rfl rfl ?_ rfl rfl ?_ rfl
    · exact Log.forgetTxn_nextID _ _
    · dsimp only [store, Engine.setCleanup]
      rw [forgetting_update, after]
  · exact inv.registry.congr rfl (fun _ => rfl) (fun _ => rfl) inv.registry.reader
      (finishing_isSome found)
  refine inv.logged.drop (linked.forgetTxn id) ?_ ?_ ?_ inv.registry.running
  · exact fun other runs => Log.forgetTxn_byTxn_of_ne _ (ended runs)
  · intro other zero
    obtain same | zero' := Log.forgetTxn_byTxn w.db.undo id other
    · rw [same, zero]
    · exact zero'
  intro u r old runs
  obtain same | ⟨_, r', old', gone⟩ := linked.forgetTxn_dropped id u
  · rw [same]
    exact old
  · rw [old] at old'
    cases old'
    exact absurd gone (ended runs)

theorem purgeCommittedBatch_rows (tree : TreeID) :
    ∀ (keys : List Key) (db : Engine), RowsOnly db (db.purgeCommittedBatch tree keys) ∧
      ∀ c, (db.purgeCommittedBatch tree keys).rows c = db.rows c ∨
        ((db.purgeCommittedBatch tree keys).rows c = none ∧ c ∈ keys.map (fun key => (tree, key)) ∧
          ∃ raw, db.rows c = some raw ∧ db.dead raw = true)
  | [], db => ⟨⟨rfl, rfl, rfl, rfl⟩, fun _ => .inl rfl⟩
  | key :: more, db => by
    rw [Engine.purgeCommittedBatch]
    have later : ∀ {c}, c ∈ more.map (fun key => (tree, key)) →
        c ∈ (key :: more).map fun key => (tree, key) :=
      (mem_cons_of_mem _)
    cases found : db.rows (tree, key) with
    | none => exact (purgeCommittedBatch_rows tree more db).imp_right fun rest c =>
      (rest c).imp_right fun ⟨gone, member, dead⟩ => ⟨gone, later member, dead⟩
    | some raw =>
      dsimp only
      split
      next isDead =>
        obtain ⟨only, rest⟩ := purgeCommittedBatch_rows tree more
          { db with rows := update db.rows (tree, key) none }
        refine ⟨{ only with }, fun c => ?_⟩
        by_cases same : c = (tree, key)
        · right
          subst same
          refine ⟨?_, mem_cons_self, raw, found, isDead⟩
          obtain equal | ⟨gone, _⟩ := rest (tree, key)
          · rw [equal]
            exact update_self ..
          · exact gone
        · have here := rest c
          dsimp only at here
          rw [update_of_ne same] at here
          exact here.imp_right fun ⟨gone, member, dead⟩ => ⟨gone, later member, dead⟩
      next => exact (purgeCommittedBatch_rows tree more db).imp_right fun rest c =>
        (rest c).imp_right fun ⟨gone, member, dead⟩ => ⟨gone, later member, dead⟩

theorem dead_iff (inv : w.Invariants) {raw : Stored} (isDead : w.db.dead raw) :
    raw.version.xmax ≠ 0 ∧ w.store.status raw.version.xmax = .committed := by
  rw [← inv.statusOf]
  simp only [Engine.dead, Bool.and_eq_true, bne_iff_ne, beq_iff_eq] at isDead
  exact ⟨isDead.1.2, isDead.2⟩

theorem purged_batch (inv : w.Invariants) (tree : TreeID) (keys : List Key) :
    w.store.Purged fun c => ((w.db.purgeCommittedBatch tree keys).rows c).map Stored.version := by
  intro c
  obtain same | ⟨gone, _, raw, found, isDead⟩ := (purgeCommittedBatch_rows tree keys w.db).2 c
  · left
    dsimp only [store]
    rw [same]
  right
  refine ⟨map_eq_none_iff.mpr gone, raw.version, ?_, dead_iff inv isDead⟩
  dsimp only [store]
  rw [found, map_some]

theorem RowsOnly.eq {db db' : Engine} (only : RowsOnly db db') :
    db' = { db with rows := db'.rows } := by
  obtain ⟨tm, undo, writers, finishing⟩ := only
  cases db'
  simp only at tm undo writers finishing
  subst tm undo writers finishing
  rfl

theorem refined_purge (inv : w.Invariants) {next : Cleanup} (tree : TreeID) (batch : List Key)
    (found : w.db.finishing id = some phase) (before : isForgetting (some phase) = false)
    (after : isForgetting (some next) = false) :
    Refined w (.purge (batch.map fun key => (tree, key))) { w with
      db := (w.db.purgeCommittedBatch tree batch).setCleanup id (some next) } := by
  obtain ⟨only, rest⟩ := purgeCommittedBatch_rows tree batch w.db
  have purged := purged_batch inv tree batch
  have elsewhere : ∀ c, c ∉ batch.map (fun key => (tree, key)) →
      ((w.db.purgeCommittedBatch tree batch).rows c).map Stored.version = w.store.rows c := by
    intro c absent
    obtain same | ⟨_, member, _⟩ := rest c
    · rw [same]
      rfl
    · exact absurd member absent
  rw [only.eq]
  refine ⟨.data ?_, ?_, ?_⟩
  · convert Store.DataStep.purge _ _ purged elsewhere using 1
    refine Store.ext rfl rfl rfl rfl rfl rfl rfl rfl rfl ?_ rfl
    dsimp only [store, Engine.setCleanup]
    rw [forgetting_update, after]
    exact update_same (by rw [found, before])
  · exact inv.registry.congr rfl (fun _ => rfl) (fun _ => rfl) inv.registry.reader
      (finishing_isSome found)
  · exact inv.logged.congr rfl le_rfl rfl (fun runs => runs) (fun found => ⟨_, found, rfl, rfl⟩)

theorem refined_cleanup (inv : w.Invariants) (found : w.db.finishing id = some phase) :
    Refined w (cleanupLabel (some phase)) { w with db := w.db.cleanup id phase } := by
  cases phase with
  | checkForget deleted =>
    simp only [Engine.cleanup]
    split
    next none =>
      have committed := inv.registry.finished id (by rw [found]; rfl)
      have checked := Store.DataStep.check (s := w.store) id
        (by rw [Store.status]; dsimp only [store]; rw [committed]; rfl)
        (inv.ids.known id (by dsimp only [store]; rw [committed]; rfl)) (inv.idle none)
      simp only [cleanupLabel]
      refine ⟨.data ?_, ?_, ?_⟩
      · convert checked using 1
        refine Store.ext rfl rfl rfl rfl rfl rfl rfl rfl rfl ?_ rfl
        exact forgetting_update _
      · exact inv.registry.congr rfl (fun _ => rfl) (fun _ => rfl) inv.registry.reader
          (finishing_isSome found)
      · exact inv.logged.congr rfl le_rfl rfl (fun runs => runs) (fun found => ⟨_, found, rfl, rfl⟩)
    next => exact refined_phase inv found rfl rfl
  | forget deleted => exact refined_forget inv found rfl
  | checkPurge parts =>
    cases parts with
    | nil => exact refined_phase inv found rfl rfl
    | cons part parts =>
      obtain ⟨tree, keys⟩ := part
      cases keys with
      | nil => exact refined_phase inv found rfl rfl
      | cons key keys =>
        simp only [Engine.cleanup]
        split
        · exact refined_phase inv found rfl rfl
        · exact refined_phase inv found rfl rfl
  | purge tree batch rest parts => exact refined_purge inv tree batch found rfl rfl

/-- Maintenance forgets deleters that have committed. -/
theorem deadTxns_committed (inv : w.Invariants) {tree : TreeID} {keys : List Key} {x : TxnID}
    (member : x ∈ w.db.deadTxns tree keys) :
    x ≠ 0 ∧ w.store.status x = .committed ∧ x < w.store.next := by
  obtain ⟨key, _, isDead⟩ := mem_filterMap.mp member
  split at isDead
  · cases isDead
  next raw found =>
  split at isDead
  next dead =>
    cases isDead
    obtain ⟨proper, committed⟩ := dead_iff inv dead
    have row : w.store.rows (tree, key) = some raw.version := by
      dsimp only [store]
      rw [found, map_some]
    obtain zero | ⟨below, _⟩ := (inv.owned.rowMark row).2
    · exact absurd zero proper
    · exact ⟨proper, committed, below⟩
  next => cases isDead

theorem foldl_forgetTxn : ∀ (txns : List TxnID) (l : Log), l.WellLinked →
    (txns.foldl Log.forgetTxn l).WellLinked ∧ (txns.foldl Log.forgetTxn l).nextID = l.nextID ∧
      (∀ id, id ∉ txns → (txns.foldl Log.forgetTxn l).byTxn id = l.byTxn id) ∧
      (∀ id, l.byTxn id = 0 → (txns.foldl Log.forgetTxn l).byTxn id = 0) ∧
      ∀ u, (txns.foldl Log.forgetTxn l).recs u = l.recs u ∨
        ((txns.foldl Log.forgetTxn l).recs u = none ∧ ∃ r, l.recs u = some r ∧ r.txn ∈ txns)
  | [], l, linked => ⟨linked, rfl, fun _ _ => rfl, fun _ zero => zero, fun _ => .inl rfl⟩
  | txn :: txns, l, linked => by
    obtain ⟨linked', nextID, heads, fresh, dropped⟩ :=
      foldl_forgetTxn txns (l.forgetTxn txn) (linked.forgetTxn txn)
    rw [foldl_cons]
    refine ⟨linked', nextID.trans (l.forgetTxn_nextID txn), ?_, ?_, ?_⟩
    · intro id other
      rw [mem_cons, not_or] at other
      rw [heads id other.2, l.forgetTxn_byTxn_of_ne other.1]
    · intro id zero
      refine fresh id ?_
      obtain same | zero' := l.forgetTxn_byTxn txn id
      · rw [same, zero]
      · exact zero'
    intro u
    obtain same | ⟨gone, r, found, member⟩ := dropped u
    · rw [same]
      obtain same' | ⟨gone, r, found, owner⟩ := linked.forgetTxn_dropped txn u
      · exact .inl same'
      · exact .inr ⟨gone, r, found, by rw [owner]; exact mem_cons_self⟩
    · right
      exact ⟨gone, r, linked.forgetTxn_older found, mem_cons_of_mem _ member⟩

theorem refined_purgeDead (inv : w.Invariants) (tree : TreeID) (keys : List Key) :
    Refined w .other { w with db := w.db.purgeDead tree keys } := by
  unfold Engine.purgeDead
  split
  · exact refined_same inv
  next live =>
  have idle := inv.idle (by simpa using live)
  have only := (purgeCommittedBatch_rows tree keys w.db).1
  have purged := purged_batch inv tree keys
  rw [only.eq]
  obtain ⟨linked, nextID, heads, fresh, dropped⟩ :=
    foldl_forgetTxn (w.db.deadTxns tree keys) w.db.undo inv.logged.linked
  have notRunning : ∀ {x}, w.Running x → x ∉ w.db.deadTxns tree keys :=
    fun runs => absurd runs (idle.2 _)
  have swept := Store.DataStep.sweep (s := w.store) _
    ((w.db.deadTxns tree keys).foldl Log.forgetTxn w.db.undo).recs idle purged
    (fun u => by
      obtain same | ⟨gone, r, found, member⟩ := dropped u
      · exact .inl same
      · exact .inr ⟨gone, r, found, (deadTxns_committed inv member).2⟩)
  refine ⟨.data ?_, ?_, ?_⟩
  · convert swept using 1
    exact Store.ext rfl rfl rfl rfl rfl rfl nextID rfl rfl rfl rfl
  · exact inv.registry.congr rfl (fun _ => rfl) (fun _ => rfl) inv.registry.reader
      (fun _ phase => phase)
  refine inv.logged.drop linked (fun id runs => heads id (notRunning runs)) fresh ?_
    inv.registry.running
  intro u r found runs
  exact absurd runs (idle.2 _)

/-! ## All steps -/

/-- **Refinement.** Every step of the engine is a step of the store, or changes
nothing there, and keeps the registry and the log. -/
theorem Invariants.refined (inv : w.Invariants) {op : Op} (taken : w.Step op w') :
    Refined w (w.label op) w' := by
  unfold Step at taken
  cases op with
  | begin id iso =>
    by_cases fresh : id ≠ 0 ∧ w.db.tm.next ≤ id
    · exact refined_begin inv fresh.1 fresh.2 taken
    · simp only [step?, if_neg fresh] at taken
      cases taken
  | refresh id => exact refined_refresh inv taken
  | capture id => exact refined_capture inv taken
  | beginRead iso => exact refined_beginRead inv taken
  | refreshRead id => exact refined_refreshRead inv taken
  | endRead id => exact refined_endRead inv taken
  | onlineBuild starts =>
    cases taken
    exact refined_quiet inv rfl rfl rfl rfl rfl rfl (fun _ => rfl) (fun _ phase => phase)
      (fun _ => rfl) (fun found => ⟨_, found, rfl, rfl⟩) (fun _ => rfl)
  | lockWrite id key tag =>
    simp only [step?] at taken
    split at taken
    · cases taken
    · cases taken
      exact refined_lockWrite inv id key tag
  | lock id op =>
    simp only [step?] at taken
    split at taken
    · cases taken
    split at taken
    · cases taken
      exact refined_locks inv _
    · cases taken
  | write id tree leaf key action snap => exact refined_write inv taken
  | insertBatch id tree rows =>
    simp only [step?] at taken
    split at taken
    · cases taken
    next writer idle =>
    cases taken
    exact refined_bulk inv idle (insertBatch_rows id tree rows w.db).1
      (insertBatch_rows id tree rows w.db).2
  | patchVisible id tree rows snap =>
    simp only [step?] at taken
    split at taken
    · cases taken
    next writer idle =>
    split at taken
    · cases taken
      exact refined_bulk inv idle (patchVisible_rows id tree snap rows w.db).1
        (patchVisible_rows id tree snap rows w.db).2
    · cases taken
  | rollbackTo id undoLen =>
    simp only [step?] at taken
    split at taken
    · cases taken
    next writer idle =>
      cases taken
      exact refined_rollbackTo inv undoLen idle
  | rollback id =>
    simp only [step?] at taken
    split at taken
    · cases taken
    next writer idle =>
      cases taken
      exact refined_rollback inv idle
  | undoNext id => exact refined_undoNext inv taken
  | undone id => exact refined_undone inv taken
  | abort id => exact refined_abort inv taken
  | commit id => exact refined_commit inv taken
  | cleanup id =>
    simp only [step?] at taken
    split at taken
    · cases taken
    next phase found =>
    cases taken
    rw [label, found]
    exact refined_cleanup inv found
  | purgeDead tree keys =>
    cases taken
    exact refined_purgeDead inv tree keys

/-- **The invariants of the engine** are kept by every step. -/
theorem Invariants.step (inv : w.Invariants) {op : Op} (taken : w.Step op w') : w'.Invariants := by
  have refined := inv.refined taken
  exact ⟨inv.ids.step refined.step, inv.owned.step inv.ids refined.step, refined.registry,
    refined.logged⟩

/-- A database that has just been opened: nothing runs, no snapshot is held, and
what the rows and records carry is of the past. -/
structure Opened (w : World) : Prop where
  next : 0 < w.db.tm.next
  active : w.db.tm.active = ∅
  statuses : ∀ x, w.db.tm.status.lookup x = none ∨ w.db.tm.status.lookup x = some .committed ∨
    w.db.tm.status.lookup x = some .aborted
  zero : w.db.tm.status.lookup 0 = none
  known : ∀ x, (w.db.tm.status.lookup x).isSome → x < w.db.tm.next
  writers : ∀ x, w.db.writers x = none
  finishing : ∀ x, w.db.finishing x = none
  captures : w.captures = []
  commits : w.commits = []
  linked : w.db.undo.WellLinked
  fresh : ∀ txn, w.db.tm.next ≤ txn → w.db.undo.byTxn txn = 0
  descending : Descending w.db.undo.recs
  rows : ∀ {c raw}, w.db.rows c = some raw → raw.version.xmin < w.db.tm.next ∧
    raw.version.xmax < w.db.tm.next ∧ raw.version.undo < w.db.undo.nextID ∧
    (w.db.tm.status.lookup raw.version.xmin = some .aborted → Store.Bulk raw.version)
  records : ∀ {u r}, w.db.undo.recs u = some r → r.old.xmin < w.db.tm.next ∧
    (w.db.tm.status.lookup r.old.xmin = some .aborted → Store.Bulk r.old)

theorem Opened.invariants (opened : w.Opened) : w.Invariants := by
  have idle : ∀ {x} {p : Prop}, w.store.Running x → p := by
    intro x p runs
    rcases opened.statuses x with same | same | same <;> cases same.symm.trans runs
  have noCapture : ∀ {p : Capture → Prop}, ∀ c ∈ w.store.captures, p c := by
    intro p c member
    have : c ∈ w.captures := member
    rw [opened.captures] at this
    cases this
  have noWriter : ∀ {x writer} {p : Prop}, w.db.writers x = some writer → p := by
    intro x writer p found
    rw [opened.writers] at found
    cases found
  refine ⟨⟨opened.zero, opened.next, opened.known, ?_, noCapture, noCapture, noCapture, noCapture,
      noCapture, ?_⟩,
    ⟨opened.linked.positive, ?_, opened.descending, ?_, ?_, idle, idle, ?_, fun _ => idle, idle, idle,
      idle⟩,
    ⟨fun x => ?_, fun x => ?_, noCapture, ?_⟩,
    ⟨opened.linked, opened.fresh, noWriter, noWriter, noWriter, idle⟩⟩
  · intro x unknown
    rcases opened.statuses x with same | same | same <;> cases same.symm.trans unknown
  · intro x member
    have : x ∈ w.commits := member
    rw [opened.commits] at this
    cases this
  · intro u r found
    refine ⟨?_, opened.linked.below found⟩
    rintro rfl
    have found' : w.db.undo.recs 0 = some r := found
    rw [opened.linked.nonzero] at found'
    cases found'
  · intro c v found
    obtain ⟨raw, row, rfl⟩ := map_eq_some_iff.mp found
    exact (opened.rows row).2.2.1
  · intro c v found
    obtain ⟨raw, row, rfl⟩ := map_eq_some_iff.mp found
    obtain ⟨xmin, xmax, _⟩ := opened.rows row
    exact ⟨.inr ⟨xmin, .inr noCapture⟩, .inr ⟨xmax, .inr noCapture⟩⟩
  · intro c v found
    obtain ⟨raw, row, rfl⟩ := map_eq_some_iff.mp found
    right
    have bulk := (opened.rows row).2.2.2
    unfold Store.Sound Store.status
    dsimp only [store]
    obtain none | committed | aborted := opened.statuses raw.version.xmin
    · rw [none]
      exact .inl rfl
    · rw [committed]
      exact .inl rfl
    · rw [aborted]
      exact .inr ⟨rfl, bulk aborted⟩
  · rw [opened.active]
    exact ⟨nofun, idle⟩
  · rw [opened.writers]
    exact ⟨nofun, idle⟩
  · intro x phase
    rw [opened.finishing] at phase
    cases phase

theorem empty_opened : empty.Opened where
  next := by decide
  active := rfl
  statuses _ := .inl rfl
  zero := rfl
  known _ recorded := by cases recorded
  writers _ := rfl
  finishing _ := rfl
  captures := rfl
  commits := rfl
  linked := by
    refine ⟨by decide, ?_, rfl, ?_, ?_, fun _ => Nat.zero_lt_one, ?_⟩
    · rintro u r ⟨⟩
    · rintro u r ⟨⟩
    · rintro u r p ⟨⟩
    · rintro txn r ⟨⟩
  fresh _ _ := rfl
  descending := by rintro u r ⟨⟩
  rows := by rintro c raw ⟨⟩
  records := by rintro u r ⟨⟩

/-- Every run from an opened database keeps the invariants. -/
theorem run_invariants {start : World} {guard : World → Op → Prop} {ops : List Op}
    (opened : start.Opened) (run : Run Step guard start ops w) : w.Invariants :=
  run.invariant Invariants opened.invariants fun inv _ taken => inv.step taken

end World

end NextSQL.Mvcc
