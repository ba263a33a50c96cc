import NextSQL.Mvcc.Store

/-!
# Who wrote the versions of a row

In every state the creator of a current version is running, or it has committed,
or it has aborted and the version is a bulk row, which is linked to no record
and which nobody has deleted (`Owned.row`). A running transaction has a record
for every row it created one by one, and the oldest of its records for a cell
restores a version that is not its own, so that a completed reversal leaves none
of its versions behind.

None of this depends on how transactions interleave.
-/

namespace NextSQL.Mvcc

open Function

open Row Undo Txn List Option

namespace Store

/-- A version without a link and without a deleter. -/
def Bulk (v : Version) : Prop := v.xmax = 0 ∧ v.undo = 0

/-- The creator of the version has ended, and if it has aborted the version is a
bulk row. -/
def Sound (s : Store) (v : Version) : Prop :=
  s.status v.xmin = .committed ∨ (s.status v.xmin = .aborted ∧ Bulk v)

/-- An id that marks versions: it began since the store was opened, or no held
snapshot hides it. -/
def Mark (s : Store) (x : TxnID) : Prop :=
  x = 0 ∨ (x < s.next ∧ ((s.fate x).isSome ∨ ∀ c ∈ s.captures, ¬ Hides c.snap x))

structure Owned (s : Store) : Prop where
  positive : 0 < s.nextID
  number : ∀ {u r}, s.recs u = some r → u ≠ 0 ∧ u < s.nextID
  descending : Descending s.recs
  rowUndo : ∀ {c v}, s.rows c = some v → v.undo < s.nextID
  rowMark : ∀ {c v}, s.rows c = some v → s.Mark v.xmin ∧ s.Mark v.xmax
  trailUndo : ∀ {id c r}, s.Running id → (c, r) ∈ s.trail id → r.old.undo < s.nextID
  trailMark : ∀ {id c r}, s.Running id → (c, r) ∈ s.trail id → s.Mark r.old.xmin ∧ s.Mark r.old.xmax
  row : ∀ {c v}, s.rows c = some v → s.Running v.xmin ∨ s.Sound v
  own : ∀ {c v}, s.rows c = some v → s.Running v.xmin → (∃ r, (c, r) ∈ s.trail v.xmin) ∨ Bulk v
  logged : ∀ {id c r}, s.Running id → (c, r) ∈ s.trail id → r.kind ≠ .insert →
    r.old.xmin ≠ id → s.Sound r.old
  oldest : ∀ {id newer c r older}, s.Running id → s.trail id = newer ++ (c, r) :: older →
    (∀ r', (c, r') ∉ older) → r.kind ≠ .insert → r.old.xmin = id → Bulk r.old
  pending : ∀ {id work full}, s.Running id → s.undoing id = some (work, full) →
    (∀ e ∈ work, e ∈ s.trail id) ∧
    (full = true → ∃ reversed, s.trail id = reversed ++ work ∧
      ∀ {c v}, s.rows c = some v → v.xmin = id → (∃ r, (c, r) ∈ work) ∨ Bulk v)

variable {s : Store} {x : TxnID}

theorem status_of_running (running : s.Running x) : s.status x = .inProgress := by
  rw [status, running, getD_some]

variable {v : Version}

/-- A sound version's creator is not running. -/
theorem Sound.not_running (sound : s.Sound v) : ¬ s.Running v.xmin := by
  intro running
  rw [Sound, status_of_running running] at sound
  obtain committed | ⟨aborted, _⟩ := sound
  · cases committed
  · cases aborted

variable {s' : Store}

theorem Sound.congr (sound : s.Sound v) (same : s'.fate v.xmin = s.fate v.xmin) : s'.Sound v := by
  unfold Sound status at *
  rw [same]
  exact sound

theorem Mark.mono (mark : s.Mark x) (next : s.next ≤ s'.next)
    (fate : (s.fate x).isSome → (s'.fate x).isSome)
    (captures : ∀ c ∈ s'.captures, c ∈ s.captures ∨ (Hides c.snap x → (s'.fate x).isSome)) :
    s'.Mark x := by
  obtain rfl | ⟨below, known⟩ := mark
  · exact .inl rfl
  right
  refine ⟨lt_of_lt_of_le below next, ?_⟩
  by_cases recorded : (s'.fate x).isSome
  · exact .inl recorded
  right
  intro c member hides
  obtain old | new := captures c member
  · obtain recorded' | unhidden := known
    · exact recorded (fate recorded')
    · exact unhidden c old hides
  · exact recorded (new hides)

theorem Mark.of_running (ids : s.Ids) (running : s.Running x) : s.Mark x :=
  .inr ⟨ids.running_lt running, .inl (by rw [running, isSome_some])⟩

variable {id : TxnID} {cell : Cell} {r : Record}

/-- The row that a record replaces is sound, or it is the transaction's own. -/
theorem Writes.old_row (writes : s.Writes id cell r v) (changes : r.kind ≠ .insert) :
    s.rows cell = some r.old := by
  rw [← writes.found, target, if_neg changes]

theorem Dropped.older {recs : UndoID → Option Record} {dropped : TxnID → Prop} {u : UndoID}
    (less : s.Dropped dropped recs) (found : recs u = some r) : s.recs u = some r := by
  obtain same | ⟨gone, _⟩ := less u
  · exact same ▸ found
  · rw [gone] at found
    cases found

section

variable (owned : s.Owned)

include owned

/-- A deletion leaves a version whose creator has not aborted. -/
theorem Owned.deleted_creator (ids : s.Ids) (running : s.Running id) (found : s.rows cell = some v)
    {snap : Snapshot} (own : snap.tid = id) (visible : (view s.recs (s.sees snap) v).isSome) :
    s.Running v.xmin ∨ s.status v.xmin = .committed := by
  obtain runs | committed | ⟨aborted, bulk⟩ := owned.row found
  · exact .inl runs
  · exact .inr committed
  have proper : v.xmin ≠ 0 := by
    intro zero
    rw [zero, status, ids.zero, getD_none] at aborted
    cases aborted
  have foreign : v.xmin ≠ snap.tid := by
    intro same
    rw [same, own, status_of_running running] at aborted
    cases aborted
  have unseen : s.sees snap v.xmin = false := by
    unfold sees Snapshot.sees
    rw [if_neg (by simp [proper, foreign]), aborted]
  rw [view_of_unlinked unseen bulk.2] at visible
  cases visible

/-! ## Row writes -/

theorem Writes.descends (writes : s.Writes id cell r v) : r.old.undo < s.nextID := by
  by_cases inserted : r.kind = .insert
  · rw [writes.blank inserted]
    exact owned.positive
  · exact owned.rowUndo (writes.old_row inserted)

/-- The new version is the writer's own, or a deletion of a version that is the
writer's own or has a committed creator. -/
theorem Writes.origin (ids : s.Ids) (running : s.Running id) (writes : s.Writes id cell r v) :
    v.xmin = id ∨ (v.xmax = id ∧ v.xmin = r.old.xmin ∧ s.rows cell = some r.old ∧
      s.status v.xmin = .committed) := by
  obtain ⟨own, _⟩ | ⟨changes, same, deleter, _, snap, tid, visible⟩ := writes.shape
  · exact .inl own
  by_cases own : v.xmin = id
  · exact .inl own
  have found := writes.old_row changes
  refine .inr ⟨deleter, same, found, ?_⟩
  rw [same] at own ⊢
  obtain runs | committed := owned.deleted_creator ids running found tid visible
  · exact absurd runs ((writes.settled changes).resolve_left own)
  · exact committed

/-- The reversal of a transaction goes on over a change of the rows that leaves
every version of the transaction as it was. -/
theorem Owned.pending_rows {work : List (Cell × Record)} {full : Bool}
    {rows : Cell → Option Version} (running : s.Running id) (undoing : s.undoing id = some (work, full))
    (older : ∀ {c v}, rows c = some v → v.xmin = id → s.rows c = some v) :
    (∀ e ∈ work, e ∈ s.trail id) ∧
      (full → ∃ reversed, s.trail id = reversed ++ work ∧
        ∀ {c v}, rows c = some v → v.xmin = id → (∃ r, (c, r) ∈ work) ∨ Bulk v) := by
  obtain ⟨members, whole⟩ := owned.pending running undoing
  refine ⟨members, fun isFull => ?_⟩
  obtain ⟨reversed, split, covered⟩ := whole isFull
  exact ⟨reversed, split, fun found mine => covered (older found mine) mine⟩

theorem Owned.write (ids : s.Ids) (running : s.Running id) (ready : s.undoing id = none)
    (writes : s.Writes id cell r v) (origin : TxnID → Cell → Option (Option Version)) :
    Owned (s.written id cell r v origin) := by
  have oldUndo := writes.descends owned
  have creator := writes.origin owned ids running
  have oldMark : s.Mark r.old.xmin ∧ s.Mark r.old.xmax := by
    by_cases inserted : r.kind = .insert
    · rw [writes.blank inserted]
      exact ⟨.inl rfl, .inl rfl⟩
    · exact owned.rowMark (writes.old_row inserted)
  have newMark : s.Mark v.xmin ∧ s.Mark v.xmax := by
    have self := Mark.of_running ids running
    obtain ⟨own, alive⟩ | ⟨_, same, deleter, _⟩ := writes.shape
    · rw [own, alive]
      exact ⟨self, .inl rfl⟩
    · rw [same, deleter]
      exact ⟨oldMark.1, self⟩
  constructor
  · exact Nat.succ_pos _
  · intro u r' found
    obtain ⟨rfl, rfl⟩ | old := rec_of_written found
    · exact ⟨Nat.pos_iff_ne_zero.mp owned.positive, lt_add_one _⟩
    · exact ⟨(owned.number old).1, Nat.lt_succ_of_lt (owned.number old).2⟩
  · intro u r' found
    obtain ⟨rfl, rfl⟩ | old := rec_of_written found
    · exact oldUndo
    · exact owned.descending old
  · intro c w found
    obtain ⟨_, rfl⟩ | ⟨_, old⟩ := row_of_written found
    · rw [writes.linked]
      exact lt_add_one _
    · exact Nat.lt_succ_of_lt (owned.rowUndo old)
  · intro c w found
    obtain ⟨_, rfl⟩ | ⟨_, old⟩ := row_of_written found
    · exact newMark
    · exact owned.rowMark old
  · intro other c r' runs member
    obtain ⟨_, new⟩ | old := mem_trail_written_iff.mp member
    · cases new
      exact Nat.lt_succ_of_lt oldUndo
    · exact Nat.lt_succ_of_lt (owned.trailUndo runs old)
  · intro other c r' runs member
    obtain ⟨_, new⟩ | old := mem_trail_written_iff.mp member
    · cases new
      exact oldMark
    · exact owned.trailMark runs old
  · intro c w found
    obtain ⟨_, rfl⟩ | ⟨_, old⟩ := row_of_written found
    · obtain own | ⟨_, _, _, committed⟩ := creator
      · rw [own]
        exact .inl running
      · exact .inr (.inl committed)
    · exact owned.row old
  · intro c w found runs
    obtain ⟨rfl, rfl⟩ | ⟨_, old⟩ := row_of_written found
    · obtain own | ⟨_, _, _, committed⟩ := creator
      · exact .inl ⟨r, mem_trail_written_iff.mpr (.inl ⟨own, rfl⟩)⟩
      · have := status_of_running (s := s) runs
        rw [committed] at this
        cases this
    · obtain ⟨r', member⟩ | bulk := owned.own old runs
      · exact .inl ⟨r', mem_trail_written_iff.mpr (.inr member)⟩
      · exact .inr bulk
  · intro other c r' runs member changes foreign
    obtain ⟨rfl, new⟩ | old := mem_trail_written_iff.mp member
    · cases new
      have settled := (writes.settled changes).resolve_left foreign
      exact (owned.row (writes.old_row changes)).resolve_left settled
    · exact owned.logged runs old changes foreign
  · intro other newer c r' older runs split last changes own
    obtain ⟨rfl, split⟩ | ⟨_, split⟩ := update_cases split
    · cases newer with
      | nil =>
        simp only [nil_append, cons.injEq, Prod.mk.injEq] at split
        obtain ⟨⟨rfl, rfl⟩, rfl⟩ := split
        have found := writes.old_row changes
        rw [← own] at last runs
        obtain ⟨r', member⟩ | bulk := owned.own found runs
        · exact absurd member (last r')
        · exact bulk
      | cons e newer =>
        simp only [cons_append, cons.injEq] at split
        exact owned.oldest runs split.2 last changes own
    · exact owned.oldest runs split last changes own
  intro other work full runs undoing
  by_cases same : other = id
  · rw [same, ready] at undoing
    cases undoing
  have trail : (s.written id cell r v origin).trail other = s.trail other :=
    update_of_ne same _ _
  rw [trail]
  refine owned.pending_rows runs undoing fun found mine => ?_
  obtain ⟨_, rfl⟩ | ⟨_, old⟩ := row_of_written found
  · obtain own | ⟨_, _, _, committed⟩ := creator
    · exact absurd (mine.symm.trans own) same
    · have := status_of_running (s := s) runs
      rw [← mine, committed] at this
      cases this
  · exact old

/-! ## Reversals -/

/-- Only a transaction's own records restore a version it created. -/
theorem Owned.restored_own {other : TxnID} (running : s.Running id)
    (member : (cell, r) ∈ s.trail id) (changes : r.kind ≠ .insert) (runs : s.Running other)
    (mine : r.old.xmin = other) : other = id := by
  by_contra differ
  have sound := owned.logged running member changes (by rw [mine]; exact differ)
  rw [← mine] at runs
  exact sound.not_running runs

variable {rest : List (Cell × Record)} {full : Bool}

theorem Owned.undoNext (running : s.Running id)
    (pending : s.undoing id = some ((cell, r) :: rest, full)) :
    Owned { s with
      rows := update s.rows cell (target r)
      undoing := update s.undoing id (some (rest, full)) } := by
  obtain ⟨members, whole⟩ := owned.pending running pending
  have member : (cell, r) ∈ s.trail id := members _ mem_cons_self
  have row' : ∀ {c w}, update s.rows cell (target r) c = some w →
      (c = cell ∧ r.kind ≠ .insert ∧ w = r.old) ∨ (c ≠ cell ∧ s.rows c = some w) := by
    intro c w found
    by_cases same : c = cell
    · rw [same, update_self, target] at found
      split at found
      · cases found
      · exact .inl ⟨same, by assumption, (Option.some.inj found).symm⟩
    · rw [update_of_ne same] at found
      exact .inr ⟨same, found⟩
  refine { owned with rowUndo := ?_, rowMark := ?_, row := ?_, own := ?_, pending := ?_ }
  all_goals dsimp only
  · intro c w found
    obtain ⟨_, _, rfl⟩ | ⟨_, old⟩ := row' found
    · exact owned.trailUndo running member
    · exact owned.rowUndo old
  · intro c w found
    obtain ⟨_, _, rfl⟩ | ⟨_, old⟩ := row' found
    · exact owned.trailMark running member
    · exact owned.rowMark old
  · intro c w found
    obtain ⟨_, changes, rfl⟩ | ⟨_, old⟩ := row' found
    · by_cases own : r.old.xmin = id
      · rw [own]
        exact .inl running
      · exact .inr (owned.logged running member changes own)
    · exact owned.row old
  · intro c w found runs
    obtain ⟨rfl, changes, rfl⟩ | ⟨_, old⟩ := row' found
    · have mine := owned.restored_own running member changes runs rfl
      rw [mine]
      exact .inl ⟨r, member⟩
    · exact owned.own old runs
  intro other work full' runs undoing
  by_cases same : other = id
  · subst same
    rw [update_self] at undoing
    cases undoing
    refine ⟨fun e later => members e (mem_cons_of_mem _ later), fun isFull => ?_⟩
    obtain ⟨reversed, split, covered⟩ := whole isFull
    refine ⟨reversed ++ [(cell, r)], by rw [split]; simp, ?_⟩
    intro c w found mine
    obtain ⟨rfl, changes, rfl⟩ | ⟨differ, old⟩ := row' found
    · -- the cell is done when no older record for it is left
      by_cases older : ∃ r', (c, r') ∈ rest
      · exact .inl older
      · right
        exact owned.oldest running split (fun r' later => older ⟨r', later⟩) changes mine
    obtain ⟨r', later⟩ | bulk := covered old mine
    · obtain first | later := mem_cons.mp later
      · cases first
        exact absurd rfl differ
      · exact .inl ⟨r', later⟩
    · exact .inr bulk
  · rw [update_of_ne same] at undoing
    refine owned.pending_rows runs undoing fun found mine => ?_
    obtain ⟨_, changes, rfl⟩ | ⟨_, old⟩ := row' found
    · exact absurd (owned.restored_own running member changes runs mine) same
    · exact old

/-- A change of the rows that removes some of them and puts bulk rows of a
running transaction in place of others. -/
theorem Owned.replaceRows (ids : s.Ids) {rows : Cell → Option Version}
    {origin : TxnID → Cell → Option (Option Version)}
    (replaced : ∀ {c v}, rows c = some v → s.rows c = some v ∨
      (s.Running v.xmin ∧ s.undoing v.xmin = none ∧ Bulk v)) :
    Owned { s with rows := rows, origin := origin } := by
  refine { owned with rowUndo := ?_, rowMark := ?_, row := ?_, own := ?_, pending := ?_ }
  all_goals dsimp only
  · intro c v found
    obtain old | ⟨_, _, bulk⟩ := replaced found
    · exact owned.rowUndo old
    · rw [bulk.2]
      exact owned.positive
  · intro c v found
    obtain old | ⟨runs, _, bulk⟩ := replaced found
    · exact owned.rowMark old
    have mark := Mark.of_running ids runs
    refine ⟨mark, ?_⟩
    rw [bulk.1]
    exact .inl rfl
  · intro c v found
    obtain old | ⟨runs, _, _⟩ := replaced found
    · exact owned.row old
    · exact .inl runs
  · intro c v found runs
    obtain old | ⟨_, _, bulk⟩ := replaced found
    · exact owned.own old runs
    · exact .inr bulk
  intro id work full runs undoing
  refine owned.pending_rows runs undoing fun found mine => ?_
  obtain old | ⟨_, ready, _⟩ := replaced found
  · exact old
  · rw [mine, undoing] at ready
    cases ready

theorem Owned.startUndo {work : List (Cell × Record)} (newest : s.trail id = work ++ rest)
    (whole : full → rest = []) :
    Owned { s with undoing := update s.undoing id (some (work, full)) } := by
  refine { owned with pending := ?_ }
  intro other work' full' runs undoing
  dsimp only at undoing ⊢
  by_cases same : other = id
  · subst same
    rw [update_self] at undoing
    cases undoing
    refine ⟨fun e member => by rw [newest]; exact mem_append_left _ member, fun isFull => ?_⟩
    have all : s.trail other = work := by rw [newest, whole isFull, append_nil]
    refine ⟨[], all, ?_⟩
    rintro c v found rfl
    rw [← all]
    exact owned.own found runs
  · rw [update_of_ne same] at undoing
    exact owned.pending runs undoing

theorem Owned.endUndo (id : TxnID) : Owned { s with undoing := update s.undoing id none } := by
  refine { owned with pending := ?_ }
  intro other work full runs undoing
  obtain ⟨_, undoing⟩ | ⟨_, undoing⟩ := update_cases undoing
  · cases undoing
  · exact owned.pending runs undoing

theorem Owned.dropRecords {recs : UndoID → Option Record} {dropped : TxnID → Prop}
    {forgetting : TxnID → Bool} (less : s.Dropped dropped recs) :
    Owned { s with recs := recs, forgetting := forgetting } := by
  exact { owned with
    number := fun found => owned.number (less.older found)
    descending := fun u r found => owned.descending (less.older found) }

end

theorem Purged.older {rows : Cell → Option Version} (purged : s.Purged rows) {c : Cell}
    (found : rows c = some v) : s.rows c = some v := by
  obtain same | ⟨gone, _⟩ := purged c
  · exact same ▸ found
  · rw [gone] at found
    cases found

variable {label : Label}

theorem Owned.dataStep (owned : s.Owned) (ids : s.Ids) (step : DataStep s label s') : s'.Owned := by
  cases step with
  | write id cell deletes r v running ready writes marks => exact owned.write ids running ready writes _
  | bulk id cells fresh rows origin running ready bare others =>
    refine owned.replaceRows ids ?_
    intro c v found
    obtain same | ⟨_, _, payload, new⟩ := bare c
    · exact .inl (same ▸ found)
    · rw [new] at found
      cases found
      exact .inr ⟨running, ready, rfl, rfl⟩
  | startUndo id work rest full running ready newest whole => exact owned.startUndo newest whole
  | undoNext id cell r rest full running pending => exact owned.undoNext running pending
  | endUndo id running reversed => exact owned.endUndo id
  | check id committed known idle =>
    exact { owned with }
  | forget id recs checked dropped => exact owned.dropRecords dropped
  | purge cells rows purged only =>
    exact owned.replaceRows ids fun found => .inl (purged.older found)
  | sweep rows recs idle purged dropped =>
    have swept : Owned { s with rows := rows } :=
      owned.replaceRows ids fun found => .inl (purged.older found)
    have less : Dropped { s with rows := rows }
      (fun x => s.status x = .committed ∧ x < s.next) recs := dropped
    exact swept.dropRecords less

/-! ## Beginnings and ends -/

/-- A change of the identifiers that keeps the running transactions, except that
one of them may have ended without leaving versions that are not sound. -/
theorem Owned.reidentify (owned : s.Owned)
    (data : s'.rows = s.rows ∧ s'.recs = s.recs ∧ s'.nextID = s.nextID)
    (trail : ∀ {id}, s'.Running id → s.Running id → s'.trail id = s.trail id)
    (undoing : ∀ {id}, s'.Running id → s.Running id → s'.undoing id = s.undoing id)
    (mark : ∀ {x}, s.Mark x → s'.Mark x) (begun : ∀ {id}, s'.Running id → ¬ s.Running id →
      s'.trail id = [] ∧ s'.undoing id = none ∧ ∀ {c v}, s.rows c = some v → v.xmin ≠ id)
    (ended : ∀ {c v}, s.rows c = some v → s.Running v.xmin → s'.Running v.xmin ∨ s'.Sound v)
    (sound : ∀ {v}, s.Mark v.xmin → s.Sound v → s'.Sound v) : s'.Owned := by
  obtain ⟨rows, recs, nextID⟩ := data
  have older : ∀ {id e}, s'.Running id → e ∈ s'.trail id → s.Running id ∧ e ∈ s.trail id := by
    intro id e runs member
    by_cases before : s.Running id
    · rw [trail runs before] at member
      exact ⟨before, member⟩
    · rw [(begun runs before).1] at member
      cases member
  refine ⟨by rw [nextID]; exact owned.positive, ?_, ?_, ?_, ?_, ?_, ?_, ?_, ?_, ?_, ?_, ?_⟩
  · rw [recs, nextID]
    exact owned.number
  · rw [recs]
    exact owned.descending
  · rw [rows, nextID]
    exact owned.rowUndo
  · rw [rows]
    exact fun found => (owned.rowMark found).imp mark mark
  · intro id c r runs member
    rw [nextID]
    exact owned.trailUndo (older runs member).1 (older runs member).2
  · intro id c r runs member
    exact (owned.trailMark (older runs member).1 (older runs member).2).imp mark mark
  · intro c v found
    rw [rows] at found
    obtain runs | isSound := owned.row found
    · exact ended found runs
    · exact .inr (sound (owned.rowMark found).1 isSound)
  · intro c v found runs
    rw [rows] at found
    by_cases before : s.Running v.xmin
    · rw [trail runs before]
      exact owned.own found before
    · exact absurd rfl ((begun runs before).2.2 found)
  · intro id c r runs member changes foreign
    obtain ⟨before, member⟩ := older runs member
    exact sound (owned.trailMark before member).1 (owned.logged before member changes foreign)
  · intro id newer c r rest runs split last changes mine
    obtain ⟨before, _⟩ := older runs (by rw [split]; exact mem_append_right _ mem_cons_self)
    rw [trail runs before] at split
    exact owned.oldest before split last changes mine
  intro id work full runs isUndoing
  by_cases before : s.Running id
  · rw [undoing runs before] at isUndoing
    rw [trail runs before, rows]
    exact owned.pending before isUndoing
  · rw [(begun runs before).2.1] at isUndoing
    cases isUndoing

theorem Owned.finish (owned : s.Owned) {outcome : Status} (ended : outcome ≠ .inProgress)
    (running : s.Running id) (fate : s'.fate = update s.fate id (some outcome))
    (next : s'.next = s.next) (captures : s'.captures = s.without id false)
    (data : s'.rows = s.rows ∧ s'.recs = s.recs ∧ s'.nextID = s.nextID) (trail : s'.trail = s.trail)
    (undoing : ∀ {other}, other ≠ id → s'.undoing other = s.undoing other)
    (left : ∀ {c v}, s.rows c = some v → v.xmin = id → s'.Sound v) : s'.Owned := by
  have still : ∀ {x}, s'.Running x → x ≠ id ∧ s.Running x := by
    intro x runs
    rw [Running, fate, update_apply] at runs
    split at runs
    · cases runs
      exact absurd rfl ended
    · exact ⟨by assumption, runs⟩
  have other : ∀ {x}, x ≠ id → s'.fate x = s.fate x := by
    intro x differ
    rw [fate, update_of_ne differ]
  refine owned.reidentify data (fun _ _ => by rw [trail]) (fun runs _ => undoing (still runs).1)
    ?_ (fun runs before => absurd (still runs).2 before) ?_ ?_
  · intro x mark
    refine mark.mono next.ge ?_ ?_
    · intro recorded
      by_cases same : x = id
      · rw [fate, same, update_self, isSome_some]
      · rw [other same]
        exact recorded
    · intro c member
      rw [captures] at member
      exact .inl (mem_without member).1
  · intro c v found runs
    by_cases same : v.xmin = id
    · exact .inr (left found same)
    · left
      rw [Running, other same]
      exact runs
  · intro v _ isSound
    refine isSound.congr (other ?_)
    rintro same
    rw [← same] at running
    exact isSound.not_running running

theorem Owned.idStep (owned : s.Owned) (ids : s.Ids) (step : IdStep s s') : s'.Owned := by
  cases step with
  | begin id c fresh proper own horizon active now =>
    have differs : ∀ {x}, s.Mark x → x ≠ id := by
      rintro x (rfl | ⟨below, _⟩)
      · exact proper.symm
      · lia
    have before : ∀ {x}, s.Running x → x ≠ id := by
      intro x runs
      have := ids.running_lt runs
      lia
    refine owned.reidentify ⟨rfl, rfl, rfl⟩ ?_ ?_ ?_ ?_ ?_ ?_
    all_goals try dsimp only [Running]
    · intro x _ runs
      rw [update_of_ne (before runs)]
    · intro x _ runs
      rw [update_of_ne (before runs)]
    · intro x mark
      have differ := differs mark
      refine mark.mono ?_ ?_ ?_
      · exact Nat.le_succ_of_le fresh
      · dsimp only
        rw [update_of_ne differ]
        exact fun recorded => recorded
      intro c' member
      obtain rfl | old := mem_cons.mp member
      · right
        dsimp only
        rintro (runs | above)
        · rw [update_of_ne differ, ((active x).mp runs).1, isSome_some]
        · obtain rfl | ⟨below, _⟩ := mark
          · lia
          · lia
      · exact .inl old
    · intro x runs notBefore
      by_cases same : x = id
      · subst same
        rw [update_self, update_self]
        exact ⟨rfl, rfl, fun found => differs (owned.rowMark found).1⟩
      · rw [update_of_ne same] at runs
        exact absurd runs notBefore
    · intro c v found runs
      left
      rw [update_of_ne (before runs)]
      exact runs
    · intro v mark isSound
      refine isSound.congr ?_
      dsimp only
      rw [update_of_ne (differs mark)]
  | capture c current own' now =>
    refine owned.reidentify ⟨rfl, rfl, rfl⟩ (fun _ _ => rfl) (fun _ _ => rfl) ?_
      (absurd) (fun _ runs => .inl runs)
      (fun _ isSound => isSound.congr rfl)
    intro x mark
    refine mark.mono le_rfl id ?_
    intro c' member
    obtain rfl | old := mem_cons.mp member
    · right
      rintro (runs | above)
      · exact by rw [((current.active x).mp runs).1, isSome_some]
      obtain rfl | ⟨below, _⟩ := mark
      · have := ids.positive
        rw [current.xmax] at above
        lia
      · rw [current.xmax] at above
        lia
    · exact .inl old
  | release holder =>
    refine owned.reidentify ⟨rfl, rfl, rfl⟩ (fun _ _ => rfl) (fun _ _ => rfl) ?_
      (absurd) (fun _ runs => .inl runs)
      (fun _ isSound => isSound.congr rfl)
    intro x mark
    exact mark.mono le_rfl id fun c member => .inl (mem_without member).1
  | abort id running reversed =>
    refine owned.finish (by decide) running rfl rfl rfl ⟨rfl, rfl, rfl⟩ rfl
      (fun differ => update_of_ne differ _ _) ?_
    intro c v found mine
    obtain ⟨_, _, covered⟩ := (owned.pending running reversed).2 rfl
    obtain ⟨_, nothing⟩ | bulk := covered found mine
    · cases nothing
    right
    refine ⟨?_, bulk⟩
    rw [status, mine]
    simp
  | commit id running settled =>
    refine owned.finish (by decide) running rfl rfl rfl ⟨rfl, rfl, rfl⟩ rfl (fun _ => rfl) ?_
    intro c v found mine
    left
    rw [status, mine]
    simp

/-- **Ownership** holds in every state that any interleaving reaches. -/
theorem Owned.step (owned : s.Owned) (ids : s.Ids) (step : Step s label s') : s'.Owned := by
  cases step with
  | quiet => exact owned
  | ids step => exact owned.idStep ids step
  | data step => exact owned.dataStep ids step

end Store

end NextSQL.Mvcc
