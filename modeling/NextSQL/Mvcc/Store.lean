import NextSQL.Mvcc.Chains

/-!
# A versioned store under concurrent transactions

What the engine is for, in its own terms: transactions begin, take snapshots,
replace versions, reverse their writes and end; the log of replaced versions is
trimmed when nobody can need it. The store has no lock table, no page and no
file, and its steps say only what every write, reversal or clean-up of the
engine guarantees.

The identifiers (`IdStep`) and the data (`DataStep`) change in different steps.
This module proves what holds of identifiers and snapshots in every run: a
snapshot never sees a transaction that was running when it was taken or that
began later, and the commits it does not see are exactly those after it
(`Ids`).
-/

namespace NextSQL.Mvcc

open Function

open Row Undo Txn List

/-- A snapshot held by a live handle. `taken` is the number of commits before
it. -/
structure Capture where
  holder : TxnID
  reader : Bool
  snap : Snapshot
  taken : Nat
  deriving DecidableEq, Repr

@[ext]
structure Store where
  next : TxnID
  /-- What became of the transactions that began since the store was opened. -/
  fate : TxnID → Option Status
  captures : List Capture
  commits : List TxnID
  rows : Cell → Option Version
  recs : UndoID → Option Record
  nextID : UndoID
  /-- The records of a transaction with the cells they are for, newest first. -/
  trail : TxnID → List (Cell × Record)
  /-- The records a reversal has still to visit, and whether it ends the
  transaction. -/
  undoing : TxnID → Option (List (Cell × Record) × Bool)
  /-- The transactions whose records are about to be dropped. -/
  forgetting : TxnID → Bool
  /-- What a transaction found at its first write to a cell. -/
  origin : TxnID → Cell → Option (Option Version)

namespace Store

def Running (s : Store) (id : TxnID) : Prop := s.fate id = some .inProgress

/-- An id that is not on record has committed. -/
def status (s : Store) (id : TxnID) : Status := (s.fate id).getD .committed

def sees (s : Store) (snap : Snapshot) (xid : TxnID) : Bool := snap.sees xid s.status

/-- No transaction runs and no snapshot is held. -/
def Idle (s : Store) : Prop := s.captures = [] ∧ ∀ x, ¬ s.Running x

/-- A snapshot of this moment for the handle `tid`. -/
structure Current (s : Store) (snap : Snapshot) : Prop where
  xmax : snap.xmax = s.next
  active : ∀ x, x ∈ snap.active ↔ s.Running x ∧ x ≠ snap.tid

/-- The captures that are not of the given handle. -/
def without (s : Store) (holder : TxnID) (reader : Bool) : List Capture :=
  s.captures.filter fun c => c.holder != holder || c.reader != reader

/-- The steps that change who runs and which snapshots are held. -/
inductive IdStep (s : Store) : Store → Prop where
  | begin (id : TxnID) (c : Capture) (fresh : s.next ≤ id) (proper : id ≠ 0)
      (own : c.holder = id ∧ c.snap.tid = id ∧ c.reader = false)
      (horizon : c.snap.xmax = id + 1)
      (active : ∀ x, x ∈ c.snap.active ↔ s.Running x ∧ x ≠ id)
      (now : c.taken = s.commits.length) :
      IdStep s { s with
        next := id + 1
        fate := update s.fate id (some .inProgress)
        captures := c :: s.captures
        trail := update s.trail id []
        undoing := update s.undoing id none
        origin := update s.origin id fun _ => none }
  | capture (c : Capture) (current : s.Current c.snap)
      (own : c.reader = false → c.snap.tid = c.holder ∧ s.Running c.holder)
      (now : c.taken = s.commits.length) :
      IdStep s { s with captures := c :: s.captures }
  | release (holder : TxnID) : IdStep s { s with captures := s.without holder true }
  | abort (id : TxnID) (running : s.Running id) (reversed : s.undoing id = some ([], true)) :
      IdStep s { s with
        fate := update s.fate id (some .aborted)
        captures := s.without id false
        undoing := update s.undoing id none }
  | commit (id : TxnID) (running : s.Running id) (settled : s.undoing id = none) : IdStep s { s with
        fate := update s.fate id (some .committed)
        commits := s.commits ++ [id]
        captures := s.without id false
        forgetting := update s.forgetting id false }

/-- What a row write guarantees: the record holds what it replaces, whose
creator is not another running transaction, and the new version is linked to the
record. A deletion keeps the creator of a version its snapshot can read. -/
structure Writes (s : Store) (id : TxnID) (cell : Cell) (r : Record) (v : Version) : Prop where
  number : r.id = s.nextID
  owner : r.txn = id
  found : target r = s.rows cell
  blank : r.kind = .insert → r.old = .bare []
  settled : r.kind ≠ .insert → r.old.xmin = id ∨ ¬ s.Running r.old.xmin
  linked : v.undo = s.nextID
  shape : (v.xmin = id ∧ v.xmax = 0) ∨
    (r.kind ≠ .insert ∧ v.xmin = r.old.xmin ∧ v.xmax = id ∧ v.payload = r.old.payload ∧
      ∃ snap : Snapshot, snap.tid = id ∧ (view s.recs (s.sees snap) r.old).isSome)

/-- The store after a row write. -/
abbrev written (s : Store) (id : TxnID) (cell : Cell) (r : Record) (v : Version)
    (origin : TxnID → Cell → Option (Option Version)) : Store :=
  { s with
    rows := update s.rows cell (some v)
    recs := update s.recs s.nextID (some r)
    nextID := s.nextID + 1
    trail := update s.trail id ((cell, r) :: s.trail id)
    origin := origin }

section Written

variable {s : Store} {id other : TxnID} {cell c : Cell} {r r' : Record} {v w : Version}
  {origin : TxnID → Cell → Option (Option Version)} {u : UndoID} {e : Cell × Record}

theorem row_of_written (found : (s.written id cell r v origin).rows c = some w) :
    (c = cell ∧ w = v) ∨ (c ≠ cell ∧ s.rows c = some w) := by
  obtain ⟨same, found⟩ | ⟨same, found⟩ := update_cases found
  · exact .inl ⟨same, (Option.some.inj found).symm⟩
  · exact .inr ⟨same, found⟩

theorem rec_of_written (found : (s.written id cell r v origin).recs u = some r') :
    (u = s.nextID ∧ r' = r) ∨ s.recs u = some r' := by
  obtain ⟨same, found⟩ | ⟨_, found⟩ := update_cases found
  · exact .inl ⟨same, (Option.some.inj found).symm⟩
  · exact .inr found

theorem mem_trail_written_iff : e ∈ (s.written id cell r v origin).trail other ↔
    (other = id ∧ e = (cell, r)) ∨ e ∈ s.trail other := by
  dsimp only
  by_cases same : other = id
  · rw [same, update_self, mem_cons, and_iff_right rfl]
  · rw [update_of_ne same, or_iff_right fun ⟨isId, _⟩ => same isId]

end Written

/-- A row was removed, or is as before. -/
def Purged (s : Store) (rows : Cell → Option Version) : Prop :=
  ∀ c, rows c = s.rows c ∨
    (rows c = none ∧ ∃ v, s.rows c = some v ∧ v.xmax ≠ 0 ∧ s.status v.xmax = .committed)

/-- Records of the transactions in `dropped` may be gone, the others are as
before. -/
def Dropped (s : Store) (dropped : TxnID → Prop) (recs : UndoID → Option Record) : Prop :=
  ∀ u, recs u = s.recs u ∨ (recs u = none ∧ ∃ r, s.recs u = some r ∧ dropped r.txn)

/-- What a step does to rows, for whom and where. -/
inductive Label where
  | write (id : TxnID) (cell : Cell) (deletes : Bool)
  /-- Rows written without records; `fresh` when they replace nothing. -/
  | bulk (id : TxnID) (cells : List Cell) (fresh : Bool)
  | undo (id : TxnID)
  | purge (cells : List Cell)
  | other
  deriving DecidableEq, Repr

/-- The steps that change rows and records. -/
inductive DataStep (s : Store) : Label → Store → Prop where
  | write (id : TxnID) (cell : Cell) (deletes : Bool) (r : Record) (v : Version)
      (running : s.Running id) (ready : s.undoing id = none) (writes : s.Writes id cell r v)
      (marks : v.xmax ≠ 0 → deletes = true) :
      DataStep s (.write id cell deletes) { s with
        rows := update s.rows cell (some v)
        recs := update s.recs s.nextID (some r)
        nextID := s.nextID + 1
        trail := update s.trail id ((cell, r) :: s.trail id)
        origin := update s.origin id (update (s.origin id) cell
          (some ((s.origin id cell).getD (s.rows cell)))) }
  | bulk (id : TxnID) (cells : List Cell) (fresh : Bool) (rows : Cell → Option Version)
      (origin : TxnID → Cell → Option (Option Version)) (running : s.Running id)
      (ready : s.undoing id = none)
      (bare : ∀ c, rows c = s.rows c ∨ (c ∈ cells ∧ (fresh = true → s.rows c = none) ∧
        ∃ payload, rows c = some { xmin := id, xmax := 0, undo := 0, payload }))
      (others : ∀ other, other ≠ id → origin other = s.origin other) :
      DataStep s (.bulk id cells fresh) { s with rows := rows, origin := origin }
  | startUndo (id : TxnID) (pending rest : List (Cell × Record)) (full : Bool)
      (running : s.Running id) (ready : s.undoing id = none)
      (newest : s.trail id = pending ++ rest) (whole : full = true → rest = []) :
      DataStep s .other { s with undoing := update s.undoing id (some (pending, full)) }
  | undoNext (id : TxnID) (cell : Cell) (r : Record) (rest : List (Cell × Record)) (full : Bool)
      (running : s.Running id) (pending : s.undoing id = some ((cell, r) :: rest, full)) :
      DataStep s (.undo id) { s with
        rows := update s.rows cell (target r)
        undoing := update s.undoing id (some (rest, full)) }
  | endUndo (id : TxnID) (running : s.Running id) (reversed : s.undoing id = some ([], false)) :
      DataStep s .other { s with undoing := update s.undoing id none }
  | check (id : TxnID) (committed : s.status id = .committed) (known : id < s.next)
      (idle : s.Idle) :
      DataStep s .other { s with forgetting := update s.forgetting id true }
  | forget (id : TxnID) (recs : UndoID → Option Record) (checked : s.forgetting id = true)
      (dropped : s.Dropped (· = id) recs) :
      DataStep s .other { s with recs := recs, forgetting := update s.forgetting id false }
  | purge (cells : List Cell) (rows : Cell → Option Version) (purged : s.Purged rows)
      (only : ∀ c, c ∉ cells → rows c = s.rows c) :
      DataStep s (.purge cells) { s with rows := rows }
  | sweep (rows : Cell → Option Version) (recs : UndoID → Option Record) (idle : s.Idle)
      (purged : s.Purged rows)
      (dropped : s.Dropped (fun x => s.status x = .committed ∧ x < s.next) recs) :
      DataStep s .other { s with rows := rows, recs := recs }

/-- One step, or none. -/
inductive Step (s : Store) : Label → Store → Prop where
  | quiet {label : Label} : Step s label s
  | ids {s' : Store} (step : IdStep s s') : Step s .other s'
  | data {label : Label} {s' : Store} (step : DataStep s label s') : Step s label s'

variable {s s' : Store} {label : Label}

/-- The data steps leave the identifiers alone. -/
theorem DataStep.ids_eq (step : DataStep s label s') :
    s'.next = s.next ∧ s'.fate = s.fate ∧ s'.captures = s.captures ∧ s'.commits = s.commits := by
  cases step <;> exact ⟨rfl, rfl, rfl, rfl⟩

/-! ## Identifiers and snapshots -/

/-- The snapshot was taken while `x` was running or before it began. -/
def Hides (snap : Snapshot) (x : TxnID) : Prop := x ∈ snap.active ∨ snap.xmax ≤ x

/-- What holds of identifiers and snapshots in every state. -/
structure Ids (s : Store) : Prop where
  zero : s.fate 0 = none
  positive : 0 < s.next
  known : ∀ x, (s.fate x).isSome → x < s.next
  fates : ∀ x, s.fate x ≠ some .unknown
  bound : ∀ c ∈ s.captures, 0 < c.snap.xmax ∧ c.snap.xmax ≤ s.next ∧ c.taken ≤ s.commits.length
  owner : ∀ c ∈ s.captures, c.reader = false → c.snap.tid = c.holder ∧ s.Running c.holder
  hides : ∀ c ∈ s.captures, ∀ x, s.Running x → x ≠ c.snap.tid → Hides c.snap x
  later : ∀ c ∈ s.captures, ∀ x ∈ s.commits.drop c.taken, x ≠ c.snap.tid → Hides c.snap x
  hidden : ∀ c ∈ s.captures, ∀ x, Hides c.snap x → s.fate x = some .committed →
    x ∈ s.commits.drop c.taken
  listed : ∀ x ∈ s.commits, s.fate x = some .committed

variable {snap : Snapshot} {status : TxnID → Status} {x : TxnID}

/-- A snapshot sees the committed transactions it does not hide. -/
theorem sees_iff (proper : x ≠ 0) (foreign : x ≠ snap.tid) (positive : 0 < snap.xmax) :
    snap.sees x status ↔ status x ≠ .aborted ∧ status x ≠ .inProgress ∧ ¬ Hides snap x := by
  have nonzero : snap.xmax ≠ 0 := Nat.pos_iff_ne_zero.mp positive
  unfold Snapshot.sees Hides
  rw [if_neg (by simp [proper, foreign])]
  cases status x <;> by_cases above : snap.xmax ≤ x <;> simp [nonzero, above]

theorem sees_zero : snap.sees 0 status := by
  simp [Snapshot.sees]

theorem sees_self : snap.sees snap.tid status := by
  simp [Snapshot.sees]

theorem Ids.running_ne_zero (ids : s.Ids) (running : s.Running x) : x ≠ 0 := by
  rintro rfl
  rw [Running, ids.zero] at running
  cases running

theorem Ids.running_lt (ids : s.Ids) (running : s.Running x) : x < s.next :=
  ids.known x (by rw [running, Option.isSome_some])

/-- A running transaction is seen by its own snapshots only. -/
theorem Ids.unseen (ids : s.Ids) {c : Capture} (member : c ∈ s.captures) (running : s.Running x)
    (foreign : x ≠ c.snap.tid) : s.sees c.snap x = false := by
  rw [Bool.eq_false_iff, sees, ne_eq, sees_iff (ids.running_ne_zero running) foreign
    (ids.bound c member).1]
  exact fun seen => seen.2.1 (by rw [status, running, Option.getD_some])

theorem mem_without {holder : TxnID} {reader : Bool} {c : Capture}
    (member : c ∈ s.without holder reader) :
    c ∈ s.captures ∧ (c.holder ≠ holder ∨ c.reader ≠ reader) := by
  simpa [without] using member

/-- The end of a transaction: what `commit` and `abort` have in common. -/
theorem Ids.finish (ids : s.Ids) {id : TxnID} {outcome : Status} (running : s.Running id)
    (ended : outcome ≠ .inProgress) (proper : outcome ≠ .unknown) (next : s'.next = s.next)
    (fate : s'.fate = update s.fate id (some outcome))
    (captures : s'.captures = s.without id false)
    (commits : s'.commits = s.commits ++ if outcome = .committed then [id] else []) : s'.Ids := by
  have stillRunning : ∀ {x}, s'.Running x → x ≠ id ∧ s.Running x := by
    intro x running'
    rw [Running, fate, update_apply] at running'
    split at running'
    · cases running'
      exact absurd rfl ended
    · exact ⟨by assumption, running'⟩
  have older : ∀ {c}, c ∈ s'.captures → c ∈ s.captures ∧ (c.reader = false → c.holder ≠ id) := by
    intro c member
    rw [captures] at member
    obtain ⟨member, other⟩ := mem_without member
    exact ⟨member, fun writer => other.resolve_right (by simp [writer])⟩
  have new : ∀ {x}, x ∈ (if outcome = .committed then [id] else []) ↔
      outcome = .committed ∧ x = id := by
    split <;> simp [*]
  have dropped : ∀ {c x}, c ∈ s.captures → (x ∈ s'.commits.drop c.taken ↔
      x ∈ s.commits.drop c.taken ∨ outcome = .committed ∧ x = id) := by
    intro c x member
    rw [commits, drop_append_of_le_length (ids.bound c member).2.2, mem_append, new]
  refine ⟨?_, by rw [next]; exact ids.positive, ?_, ?_, ?_, ?_, ?_, ?_, ?_, ?_⟩
  · rw [fate, update_of_ne (ids.running_ne_zero running).symm]
    exact ids.zero
  · intro x recorded
    rw [next]
    by_cases same : x = id
    · rw [same]
      exact ids.running_lt running
    · rw [fate, update_of_ne same] at recorded
      exact ids.known x recorded
  · intro x unknown
    by_cases same : x = id
    · rw [fate, same, update_self] at unknown
      exact proper (Option.some.inj unknown)
    · rw [fate, update_of_ne same] at unknown
      exact ids.fates x unknown
  · intro c member
    obtain ⟨positive, below, taken⟩ := ids.bound c (older member).1
    refine ⟨positive, by rw [next]; exact below, ?_⟩
    rw [commits, length_append]
    exact Nat.le_add_right_of_le taken
  · intro c member writer
    obtain ⟨old, other⟩ := older member
    obtain ⟨tid, running'⟩ := ids.owner c old writer
    refine ⟨tid, ?_⟩
    rw [Running, fate, update_of_ne (other writer)]
    exact running'
  · intro c member x running' foreign
    exact ids.hides c (older member).1 x (stillRunning running').2 foreign
  · intro c member x isLater foreign
    have old := (older member).1
    obtain before | ⟨-, rfl⟩ := (dropped old).mp isLater
    · exact ids.later c old x before foreign
    · exact ids.hides c old x running foreign
  · intro c member x hides committed
    have old := (older member).1
    refine (dropped old).mpr ?_
    rw [fate] at committed
    obtain ⟨same, committed⟩ | ⟨_, committed⟩ := update_cases committed
    · exact .inr ⟨Option.some.inj committed, same⟩
    · exact .inl (ids.hidden c old x hides committed)
  intro x member
  rw [commits, mem_append, new] at member
  obtain old | ⟨committed, same⟩ := member
  · have before := ids.listed x old
    have differ : x ≠ id := by
      rintro rfl
      cases running.symm.trans before
    rw [fate, update_of_ne differ, before]
  · rw [fate, same, update_self, committed]

theorem Ids.start (ids : s.Ids) {id : TxnID} (fresh : s.next ≤ id) (proper : id ≠ 0)
    (next : s'.next = id + 1) (fate : s'.fate = update s.fate id (some .inProgress))
    (captures : s'.captures = s.captures) (commits : s'.commits = s.commits) : s'.Ids := by
  have older : ∀ {x}, s.Running x → x ≠ id := by
    rintro x running rfl
    exact absurd (ids.running_lt running) (not_lt.mpr fresh)
  refine ⟨?_, next ▸ Nat.succ_pos id, ?_, ?_, ?_, ?_, ?_, ?_, ?_, ?_⟩
  all_goals simp only [Running, next, fate, captures, commits]
  · rw [update_of_ne proper.symm]
    exact ids.zero
  · intro x recorded
    by_cases same : x = id
    · exact same ▸ Nat.lt_succ_self id
    · rw [update_of_ne same] at recorded
      have := ids.known x recorded
      lia
  · intro x unknown
    obtain ⟨_, unknown⟩ | ⟨_, unknown⟩ := update_cases unknown
    · cases unknown
    · exact ids.fates x unknown
  · intro c member
    obtain ⟨positive, below, taken⟩ := ids.bound c member
    exact ⟨positive, by lia, taken⟩
  · intro c member writer
    obtain ⟨tid, running⟩ := ids.owner c member writer
    refine ⟨tid, ?_⟩
    rw [update_of_ne (older running)]
    exact running
  · intro c member x running foreign
    by_cases same : x = id
    · right
      rw [same]
      exact (ids.bound c member).2.1.trans fresh
    · rw [update_of_ne same] at running
      exact ids.hides c member x running foreign
  · exact ids.later
  · intro c member x hides committed
    obtain ⟨_, committed⟩ | ⟨_, committed⟩ := update_cases committed
    · cases committed
    · exact ids.hidden c member x hides committed
  · intro x member
    have committed := ids.listed x member
    have below := ids.known x (by rw [committed, Option.isSome_some])
    rw [update_of_ne (by lia)]
    exact committed

theorem Ids.capture (ids : s.Ids) {c : Capture} (current : s.Current c.snap)
    (own : c.reader = false → c.snap.tid = c.holder ∧ s.Running c.holder)
    (now : c.taken = s.commits.length) : Ids { s with captures := c :: s.captures } := by
  refine { ids with bound := ?_, owner := ?_, hides := ?_, later := ?_, hidden := ?_ }
  · intro c' member
    obtain rfl | old := mem_cons.mp member
    · exact ⟨current.xmax ▸ ids.positive, current.xmax.le, now.le⟩
    · exact ids.bound c' old
  · intro c' member writer
    obtain rfl | old := mem_cons.mp member
    · exact own writer
    · exact ids.owner c' old writer
  · intro c' member x running foreign
    obtain rfl | old := mem_cons.mp member
    · exact .inl ((current.active x).mpr ⟨running, foreign⟩)
    · exact ids.hides c' old x running foreign
  · intro c' member x isLater foreign
    obtain rfl | old := mem_cons.mp member
    · rw [now, drop_length] at isLater
      cases isLater
    · exact ids.later c' old x isLater foreign
  intro c' member x hides committed
  obtain rfl | old := mem_cons.mp member
  · obtain running | above := hides
    · have := ((current.active x).mp running).1
      rw [Running, committed] at this
      cases this
    · have := ids.known x (by rw [committed, Option.isSome_some])
      rw [current.xmax] at above
      lia
  · exact ids.hidden c' old x hides committed

/-- **Identifiers and snapshots** stay consistent in every step. -/
theorem Ids.idStep (ids : s.Ids) (step : IdStep s s') : s'.Ids := by
  cases step with
  | begin id c fresh proper own horizon active now =>
    obtain ⟨holder, tid, -⟩ := own
    -- the transaction runs before its snapshot is taken
    have started : Ids { s with
        next := id + 1
        fate := update s.fate id (some .inProgress)
        trail := update s.trail id []
        undoing := update s.undoing id none
        origin := update s.origin id fun _ => none } := ids.start fresh proper rfl rfl rfl rfl
    refine started.capture ⟨horizon, fun x => (active x).trans ?_⟩
      (fun _ => ⟨tid.trans holder.symm, ?_⟩) now
    · rw [tid]
      refine and_congr_left fun differ => ?_
      dsimp only [Running]
      rw [update_of_ne differ]
    · rw [holder]
      exact update_self ..
  | capture c current own now => exact ids.capture current own now
  | release holder =>
    have older : ∀ {c}, c ∈ s.without holder true → c ∈ s.captures :=
      fun member => (mem_without member).1
    exact { ids with
      bound := fun c member => ids.bound c (older member)
      owner := fun c member => ids.owner c (older member)
      hides := fun c member => ids.hides c (older member)
      later := fun c member => ids.later c (older member)
      hidden := fun c member => ids.hidden c (older member) }
  | abort id running reversed =>
    exact ids.finish running (by decide) (by decide) rfl rfl rfl (append_nil _).symm
  | commit id running settled =>
    exact ids.finish running (by decide) (by decide) rfl rfl rfl rfl

theorem Ids.dataStep (ids : s.Ids) (step : DataStep s label s') : s'.Ids := by
  obtain ⟨next, fate, captures, commits⟩ := step.ids_eq
  have same : ∀ x, s'.Running x ↔ s.Running x := fun x => by rw [Running, Running, fate]
  refine ⟨by rw [fate]; exact ids.zero, by rw [next]; exact ids.positive, ?_, ?_, ?_, ?_, ?_, ?_, ?_, ?_⟩
  · rw [fate, next]
    exact ids.known
  · rw [fate]
    exact ids.fates
  · rw [captures, next, commits]
    exact ids.bound
  · rw [captures]
    exact fun c member writer => (ids.owner c member writer).imp_right (same _).mpr
  · rw [captures]
    exact fun c member x running => ids.hides c member x ((same x).mp running)
  · rw [captures, commits]
    exact ids.later
  · rw [captures, commits, fate]
    exact ids.hidden
  · rw [commits, fate]
    exact ids.listed

theorem Ids.step (ids : s.Ids) (step : Step s label s') : s'.Ids := by
  cases step with
  | quiet => exact ids
  | ids step => exact ids.idStep step
  | data step => exact ids.dataStep step

end Store

end NextSQL.Mvcc
