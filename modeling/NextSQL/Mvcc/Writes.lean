import NextSQL.Lib.Result
import NextSQL.Mvcc.World

/-!
# What a row write does

One statement for the three row writes: what a successful write found under the
key, which tests it passed, and how the engine changed (`write_ok`). Every other
fact about writes is derived from it.
-/

namespace NextSQL.Mvcc

open Row Undo Txn

namespace Engine

/-- The tests every write that replaces a version has passed. -/
def Unopposed (db : Engine) (id : TxnID) (snap : Snapshot) (raw : Stored) : Prop :=
  db.conflictsWithLiveWriter id raw = false ∧ db.conflictsWithCommit id raw snap = false

/-- A successful write by `id`: its action, the kind and the old version of its
record, and the version it leaves. -/
inductive Replaced (db : Engine) (id : TxnID) (cell : Cell) (snap : Snapshot) :
    Action → Kind → Version → Version → Prop where
  | fresh {value : Bytes} (absent : db.rows cell = none) :
      Replaced db id cell snap (.insert value) .insert (.bare [])
        { xmin := id, xmax := 0, undo := db.undo.nextID, payload := value }
  | overwrite {value : Bytes} {raw : Stored} (found : db.rows cell = some raw)
      (hidden : db.visiblePayload raw snap = none) (unopposed : db.Unopposed id snap raw) :
      Replaced db id cell snap (.insert value) .update raw.version
        { xmin := id, xmax := 0, undo := db.undo.nextID, payload := value }
  | update {value : Bytes} {raw : Stored} (found : db.rows cell = some raw)
      (visible : (db.visiblePayload raw snap).isSome) (unopposed : db.Unopposed id snap raw) :
      Replaced db id cell snap (.update value) .update raw.version
        { xmin := id, xmax := 0, undo := db.undo.nextID, payload := value }
  | delete {raw : Stored} (found : db.rows cell = some raw)
      (visible : (db.visiblePayload raw snap).isSome) (unopposed : db.Unopposed id snap raw) :
      Replaced db id cell snap .delete .delete raw.version
        { xmin := raw.version.xmin, xmax := id, undo := db.undo.nextID
          payload := raw.version.payload }

/-- Only a deletion leaves a delete mark. -/
theorem Replaced.marks {db : Engine} {id : TxnID} {cell : Cell} {snap : Snapshot} {action : Action}
    {kind : Kind} {old v : Version} (replaced : db.Replaced id cell snap action kind old v)
    (marked : v.xmax ≠ 0) : (action == .delete) := by
  cases replaced with
  | fresh _ | overwrite _ _ _ | update _ _ _ => exact absurd rfl marked
  | delete _ _ _ => rfl

/-- The record a write logs. -/
def entry (id : TxnID) (leaf : PageID) (key : Key) (w : Writer) (kind : Kind) (old : Version) :
    Record :=
  { id := 0, txn := id, prev := w.lastUndo, kind, pageID := leaf, key, old }

/-- The engine after a successful write. -/
def wrote (db : Engine) (id : TxnID) (cell : Cell) (w : Writer) (deleted : List Cell)
    (r : Record) (v : Version) : Engine :=
  { db with
    undo := (db.undo.append r).1
    rows := Function.update db.rows cell (some (.versioned v))
    writers := Function.update db.writers id (some { w with
        lastUndo := db.undo.nextID, liveTargets := w.liveTargets ++ [cell.1], deleted }) }

theorem logUndo_eq {db : Engine} {id : TxnID} {w : Writer} (writer : db.writers id = some w)
    (tree : TreeID) (kind : Kind) (leaf : PageID) (key : Key) (old : Version) :
    db.logUndo id tree kind leaf key old = ({ db with
          undo := (db.undo.append (entry id leaf key w kind old)).1
          writers := Function.update db.writers id (some { w with
              lastUndo := db.undo.nextID, liveTargets := w.liveTargets ++ [tree] }) },
        db.undo.nextID) := by
  unfold logUndo
  rw [writer]
  rfl

variable {db db' : Engine} {id : TxnID} {tree : TreeID} {leaf : PageID} {key : Key} {value : Bytes}
variable {snap : Snapshot} {w : Writer}

section

variable (writer : db.writers id = some w)

include writer

theorem insertAt_ok (ok : db.insertAt id tree leaf key value snap = .ok db') :
    ∃ kind old v, db.Replaced id (tree, key) snap (.insert value) kind old v ∧
      db' = db.wrote id (tree, key) w w.deleted (entry id leaf key w kind old) v := by
  unfold insertAt at ok
  cases found : db.rows (tree, key) with
  | none =>
    rw [found] at ok
    simp only [logUndo_eq writer, Except.ok.injEq] at ok
    exact ⟨_, _, _, .fresh found, ok.symm⟩
  | some raw =>
    rw [found] at ok
    simp only [Except.ite_error_eq_ok_iff] at ok
    obtain ⟨visible, calm, calm', ok⟩ := ok
    have hidden : db.visiblePayload raw snap = none := by simpa using visible
    cases raw with
    | plain payload => cases hidden
    | versioned version =>
      simp only [Stored.has, if_true, logUndo_eq writer, Except.ok.injEq] at ok
      refine ⟨_, _, _, .overwrite found hidden ⟨?_, ?_⟩, ok.symm⟩
      · simpa using calm
      · simpa using calm'

theorem updateAt_ok (ok : db.updateAt id tree leaf key value snap = .ok db') :
    ∃ kind old v, db.Replaced id (tree, key) snap (.update value) kind old v ∧
      db' = db.wrote id (tree, key) w w.deleted (entry id leaf key w kind old) v := by
  unfold updateAt at ok
  split at ok
  · cases ok
  next raw found =>
  simp only [Except.ite_error_eq_ok_iff, logUndo_eq writer, Except.ok.injEq] at ok
  obtain ⟨hidden, calm, calm', ok⟩ := ok
  refine ⟨_, _, _, .update found ?_ ⟨?_, ?_⟩, ok.symm⟩
  · simpa [Option.isSome_iff_ne_none] using hidden
  · simpa using calm
  · simpa using calm'

theorem deleteAt_ok (ok : db.deleteAt id tree leaf key snap = .ok db') :
    ∃ kind old v, db.Replaced id (tree, key) snap .delete kind old v ∧
      db' = db.wrote id (tree, key) w (w.deleted ++ [(tree, key)])
        (entry id leaf key w kind old) v := by
  unfold deleteAt at ok
  split at ok
  · cases ok
  next raw found =>
  simp only [Except.ite_error_eq_ok_iff, logUndo_eq writer, noteDeleted, Function.update_self,
    Except.ok.injEq, Function.update_idem] at ok
  obtain ⟨hidden, calm, calm', ok⟩ := ok
  refine ⟨_, _, _, .delete found ?_ ⟨?_, ?_⟩, ok.symm⟩
  · simpa [Option.isSome_iff_ne_none] using hidden
  · simpa using calm
  · simpa using calm'

/-- **A successful row write.** -/
theorem write_ok {action : Action} (ok : db.write id tree leaf key action snap = .ok db') :
    ∃ kind old v deleted, db.Replaced id (tree, key) snap action kind old v ∧
      db' = db.wrote id (tree, key) w deleted (entry id leaf key w kind old) v := by
  cases action with
  | insert value =>
    obtain ⟨kind, old, v, replaced, result⟩ := insertAt_ok writer ok
    exact ⟨kind, old, v, _, replaced, result⟩
  | update value =>
    obtain ⟨kind, old, v, replaced, result⟩ := updateAt_ok writer ok
    exact ⟨kind, old, v, _, replaced, result⟩
  | delete =>
    obtain ⟨kind, old, v, replaced, result⟩ := deleteAt_ok writer ok
    exact ⟨kind, old, v, _, replaced, result⟩

end

end Engine

end NextSQL.Mvcc
