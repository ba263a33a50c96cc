import NextSQL.Mvcc.RollbackFrame

/-!
# What a held snapshot sees does not change

A reader walks from the current version of a row to older ones until it meets a
creator it sees. Other transactions meanwhile put versions in front, put old
ones back, and drop records. What keeps the walk stable is stated for every
visibility that sees what all held snapshots see (`Respects`), not only for the
snapshots that exist: a running transaction's changes to a cell are invisible to
whoever does not see the transaction (`Stable.shown`), and a record is gone only
where everybody sees the creator of the version that led to it (`Stable.link`).

The steps have to be calm (`Calm`): nobody writes a cell that another running
transaction has touched, a deletion marks a version without a delete mark, bulk
writes replace nothing, and a purge removes a row only if no held snapshot was
taken before its creator or its deleter committed. In calm runs a snapshot shows
the same under every key as long as it is held (`snapshot_stable`).

The rewriting of the undo file by maintenance is no step here: it changes nothing
in memory, where readers look.
-/

namespace NextSQL.Mvcc

open Function

open Row Undo Txn GuardedRuns

namespace Store

variable {s s' : Store}

/-! ## What everybody sees -/

/-- The transaction has committed. -/
def Done (s : Store) (x : TxnID) : Prop := x = 0 ∨ (x < s.next ∧ s.status x = .committed)

/-- Every held snapshot was taken after the transaction had committed. -/
def Common (s : Store) (x : TxnID) : Prop := s.Done x ∧ ∀ c ∈ s.captures, x = 0 ∨ ¬ Hides c.snap x

/-- A visibility that sees what every held snapshot sees. -/
def Respects (s : Store) (f : TxnID → Bool) : Prop := ∀ x, s.Common x → f x = true

theorem sees_respects (ids : s.Ids) {c : Capture} (member : c ∈ s.captures) :
    s.Respects (s.sees c.snap) := by
  rintro x ⟨done, shown⟩
  by_cases zero : x = 0
  · rw [zero]
    exact sees_zero
  by_cases self : x = c.snap.tid
  · rw [self]
    exact sees_self
  · obtain ⟨_, committed⟩ := done.resolve_left zero
    exact (sees_iff zero self (ids.bound c member).1).mpr
      ⟨by rw [committed]; simp, by rw [committed]; simp, (shown c member).resolve_left zero⟩

variable {x : TxnID}

theorem not_done_of_running (running : s.Running x) (ids : s.Ids) : ¬ s.Done x := by
  rintro (zero | ⟨_, committed⟩)
  · exact ids.running_ne_zero running zero
  · rw [status_of_running running] at committed
    cases committed

/-- Nothing is hidden from nobody. -/
theorem Done.common_of_idle (done : s.Done x) (idle : s.Idle) : s.Common x := by
  refine ⟨done, fun c member => ?_⟩
  rw [idle.1] at member
  cases member

/-! ## The versions a reader can meet -/

/-- The version is a current one, or a record holds it. -/
def Present (s : Store) (v : Version) : Prop :=
  (∃ c, s.rows c = some v) ∨
  (∃ id c r, s.Running id ∧ (c, r) ∈ s.trail id ∧ target r = some v) ∨
  ∃ u r, s.recs u = some r ∧ target r = some v

/-- The step is calm. -/
def Calm (s : Store) : Label → Prop
  | .write id cell deletes => (∀ other, other ≠ id → ¬ s.Touches other cell) ∧
      (deletes = true → ∀ v, s.rows cell = some v → v.xmax = 0)
  | .bulk id cells fresh => fresh = true ∧ ∀ c ∈ cells, ∀ other, other ≠ id → ¬ s.Touches other c
  | .purge cells => ∀ c ∈ cells, ∀ v, s.rows c = some v → v.xmax ≠ 0 →
      s.status v.xmax = .committed → ∀ h ∈ s.captures, ¬ Hides h.snap v.xmin ∧ ¬ Hides h.snap v.xmax
  | .undo _ => True
  | .other => True

/-- A version leads to a record of its creator or its deleter, unless everybody
sees its creator. -/
def Link (s : Store) (v : Version) : Prop :=
  v.undo ≠ 0 → s.Common v.xmin ∨ ∃ r, s.recs v.undo = some r ∧
    (r.txn = v.xmin ∨ (r.txn = v.xmax ∧ s.Done v.xmin))

structure Stable (s : Store) : Prop where
  apart : ∀ {x y c}, x ≠ y → s.Touches x c → ¬ s.Touches y c
  link : ∀ {v}, s.Present v → s.Link v
  /-- The creator of a deleted version is its deleter or has committed. -/
  marked : ∀ {v}, s.Present v → v.xmax ≠ 0 → v.xmin = v.xmax ∨ s.Done v.xmin
  /-- The records that are about to be dropped are not needed. -/
  forgets : ∀ {id}, s.forgetting id = true → s.Done id ∧ ∀ {v r}, s.Present v →
    s.recs v.undo = some r → r.txn = id → s.Common v.xmin
  /-- The changes of a running transaction are invisible to the others. -/
  shown : ∀ {id c r f}, s.Running id → (c, r) ∈ s.trail id → s.Respects f → f id = false →
    viewRow s.recs f (s.rows c) = viewRow s.recs f (target r)

variable {v : Version}

theorem Present.undo_lt (owned : s.Owned) (present : s.Present v) : v.undo < s.nextID := by
  have old : ∀ {r : Record}, target r = some v → r.old = v := by
    intro r isTarget
    rw [target] at isTarget
    split at isTarget
    · cases isTarget
    · exact Option.some.inj isTarget
  obtain ⟨c, found⟩ | ⟨id, c, r, running, member, isTarget⟩ | ⟨u, r, found, isTarget⟩ := present
  · exact owned.rowUndo found
  · rw [← old isTarget]
    exact owned.trailUndo running member
  rw [← old isTarget]
  have := owned.descending found
  have := (owned.number found).2
  lia

variable {r : Record}

/-- With no handle alive, the creator of a version whose record belongs to a
committed transaction is seen by everybody. -/
theorem Stable.common_of_idle (stable : s.Stable) (owned : s.Owned) (idle : s.Idle)
    (present : s.Present v) (found : s.recs v.undo = some r) (done : s.Done r.txn) :
    s.Common v.xmin := by
  obtain common | ⟨r', found', owner⟩ := stable.link present (owned.number found).1
  · exact common
  rw [found] at found'
  cases found'
  obtain same | ⟨_, done'⟩ := owner
  · rw [← same]
    exact done.common_of_idle idle
  · exact done'.common_of_idle idle

/-! ## Steps of identifiers -/

theorem Stable.reidentify (stable : s.Stable) (data : s'.rows = s.rows ∧ s'.recs = s.recs)
    (done : ∀ {x}, s.Done x → s'.Done x) (common : ∀ {x}, s.Common x → s'.Common x)
    (older : ∀ {id e}, s'.Running id → e ∈ s'.trail id → s.Running id ∧ e ∈ s.trail id)
    (forgetting : ∀ {id}, s'.forgetting id → s.forgetting id) : s'.Stable := by
  obtain ⟨rows, recs⟩ := data
  have touches : ∀ {x c}, s'.Touches x c → s.Touches x c := by
    rintro x c ⟨running, r, member⟩
    obtain ⟨running, member⟩ := older running member
    exact ⟨running, r, member⟩
  have present : ∀ {v}, s'.Present v → s.Present v := by
    rintro v (⟨c, found⟩ | ⟨id, c, r, running, member, isTarget⟩ | ⟨u, r, found, isTarget⟩)
    · exact .inl ⟨c, rows ▸ found⟩
    · obtain ⟨running, member⟩ := older running member
      exact .inr (.inl ⟨id, c, r, running, member, isTarget⟩)
    · exact .inr (.inr ⟨u, r, recs ▸ found, isTarget⟩)
  refine ⟨fun differ one two => stable.apart differ (touches one) (touches two), ?_, ?_, ?_, ?_⟩
  · intro v isPresent linked
    rw [recs]
    exact (stable.link (present isPresent) linked).imp common fun ⟨r, found, owner⟩ =>
      ⟨r, found, owner.imp_right fun ⟨same, isDone⟩ => ⟨same, done isDone⟩⟩
  · exact fun isPresent marked => (stable.marked (present isPresent) marked).imp_right done
  · intro id isForgetting
    obtain ⟨isDone, unneeded⟩ := stable.forgets (forgetting isForgetting)
    refine ⟨done isDone, fun isPresent found owner => ?_⟩
    rw [recs] at found
    exact common (unneeded (present isPresent) found owner)
  · intro id c r f running member respects unseen
    obtain ⟨running, member⟩ := older running member
    rw [rows, recs]
    exact stable.shown running member (fun x isCommon => respects x (common isCommon)) unseen

variable {id : TxnID}

theorem Stable.finish (stable : s.Stable) (ids : s.Ids) {outcome : Status}
    (ended : outcome ≠ .inProgress) (running : s.Running id)
    (fate : s'.fate = update s.fate id (some outcome)) (next : s'.next = s.next)
    (captures : s'.captures = s.without id false) (data : s'.rows = s.rows ∧ s'.recs = s.recs)
    (trail : s'.trail = s.trail)
    (forgetting : ∀ {id}, s'.forgetting id → s.forgetting id) : s'.Stable := by
  have done : ∀ {x}, s.Done x → s'.Done x := by
    intro x isDone
    have differ : x ≠ id := by
      rintro rfl
      exact not_done_of_running running ids isDone
    refine isDone.imp_right fun ⟨below, committed⟩ => ⟨next ▸ below, ?_⟩
    rw [status, fate, update_of_ne differ]
    exact committed
  refine stable.reidentify data done ?_ ?_ forgetting
  · rintro x ⟨isDone, shown⟩
    refine ⟨done isDone, fun c member => shown c ?_⟩
    rw [captures] at member
    exact (mem_without member).1
  intro x e runs member
  rw [Running, fate, update_apply] at runs
  rw [trail] at member
  split at runs
  · cases runs
    exact absurd rfl ended
  · exact ⟨runs, member⟩

/-- A snapshot of this moment hides no transaction that is done. -/
theorem Done.shown {snap : Snapshot} (isDone : s.Done x) (active : x ∈ snap.active → s.Running x)
    (horizon : s.next ≤ snap.xmax) : x = 0 ∨ ¬ (x ∈ snap.active ∨ snap.xmax ≤ x) := by
  obtain zero | ⟨below, committed⟩ := isDone
  · exact .inl zero
  right
  rintro (runs | above)
  · have inProgress := status_of_running (active runs)
    rw [committed] at inProgress
    cases inProgress
  · lia

theorem Stable.idStep (stable : s.Stable) (ids : s.Ids) (step : IdStep s s') : s'.Stable := by
  cases step with
  | begin id c fresh proper own horizon active now =>
    have differs : ∀ {x}, s.Done x → x ≠ id := by
      rintro x (rfl | ⟨below, _⟩)
      · exact proper.symm
      · lia
    have done : ∀ {x}, s.Done x → Done { s with
        next := id + 1
        fate := update s.fate id (some .inProgress)
        captures := c :: s.captures
        trail := update s.trail id []
        undoing := update s.undoing id none
        origin := update s.origin id fun _ => none } x := by
      intro x isDone
      refine isDone.imp_right fun ⟨below, committed⟩ => ⟨by dsimp only; lia, ?_⟩
      dsimp only [status]
      rw [update_of_ne (differs isDone)]
      exact committed
    refine stable.reidentify ⟨rfl, rfl⟩ done ?_ ?_ (fun isForgetting => isForgetting)
    · rintro x ⟨isDone, shown⟩
      refine ⟨done isDone, fun c' member => ?_⟩
      obtain rfl | old := List.mem_cons.mp member
      · exact isDone.shown (fun runs => ((active x).mp runs).1) (by lia)
      · exact shown c' old
    intro x e runs member
    dsimp only [Running] at runs member ⊢
    by_cases same : x = id
    · rw [same, update_self] at member
      cases member
    · rw [update_of_ne same] at runs member
      exact ⟨runs, member⟩
  | capture c current own now =>
    refine stable.reidentify ⟨rfl, rfl⟩ (fun isDone => isDone) ?_
      (fun runs member => ⟨runs, member⟩) (fun isForgetting => isForgetting)
    rintro x ⟨isDone, shown⟩
    refine ⟨isDone, fun c' member => ?_⟩
    obtain rfl | old := List.mem_cons.mp member
    · exact isDone.shown (fun runs => ((current.active x).mp runs).1) current.xmax.ge
    · exact shown c' old
  | release holder =>
    refine stable.reidentify ⟨rfl, rfl⟩ (fun isDone => isDone) ?_
      (fun runs member => ⟨runs, member⟩) (fun isForgetting => isForgetting)
    rintro x ⟨isDone, shown⟩
    exact ⟨isDone, fun c member => shown c (mem_without member).1⟩
  | abort id running reversed =>
    exact stable.finish ids (by decide) running rfl rfl rfl ⟨rfl, rfl⟩ rfl
      (fun isForgetting => isForgetting)
  | commit id running settled =>
    refine stable.finish ids (by decide) running rfl rfl rfl ⟨rfl, rfl⟩ rfl ?_
    intro x isForgetting
    obtain ⟨_, isForgetting⟩ | ⟨_, isForgetting⟩ := update_cases isForgetting
    · cases isForgetting
    · exact isForgetting

/-! ## Changes of the rows -/

variable {rows : Cell → Option Version}

/-- A change of the rows to versions that were there before, or to bulk rows,
such that the changes of running transactions stay invisible. -/
theorem Stable.replaceRows (stable : s.Stable) (owned : s.Owned)
    {undoing : TxnID → Option (List (Cell × Record) × Bool)}
    {origin : TxnID → Cell → Option (Option Version)}
    (replaced : ∀ {c v}, rows c = some v → s.Present v ∨ Bulk v)
    (shown : ∀ {id c r f}, s.Running id → (c, r) ∈ s.trail id → s.Respects f → f id = false →
      viewRow s.recs f (rows c) = viewRow s.recs f (target r)) :
    Stable { s with rows := rows, undoing := undoing, origin := origin } := by
  have present : ∀ {v}, Present { s with rows := rows, undoing := undoing, origin := origin } v →
      s.Present v ∨ Bulk v := by
    rintro v (⟨c, found⟩ | older)
    · exact replaced found
    · exact .inl (.inr older)
  refine ⟨stable.apart, ?_, ?_, ?_, shown⟩
  · intro v isPresent linked
    obtain before | bulk := present isPresent
    · exact stable.link before linked
    · exact absurd bulk.2 linked
  · intro v isPresent marked
    obtain before | bulk := present isPresent
    · exact stable.marked before marked
    · exact absurd bulk.1 marked
  intro id isForgetting
  obtain ⟨isDone, unneeded⟩ := stable.forgets isForgetting
  refine ⟨isDone, fun isPresent found owner => ?_⟩
  obtain before | bulk := present isPresent
  · exact unneeded before found owner
  · exact absurd bulk.2 (owned.number found).1

variable {c : Cell}

/-- What a running transaction's record restores was there before. -/
theorem present_of_trail (running : s.Running id) (member : (c, r) ∈ s.trail id)
    (isTarget : target r = some v) : s.Present v :=
  .inr (.inl ⟨id, c, r, running, member, isTarget⟩)

variable {recs : UndoID → Option Record} {f : TxnID → Bool}

/-- A bulk row is invisible to whoever does not see its creator. -/
theorem viewRow_bare {payload : Bytes} (unseen : f id = false) :
    viewRow recs f (some { xmin := id, xmax := 0, undo := 0, payload }) = none :=
  view_of_unlinked unseen rfl

/-- A row that a calm purge removes is visible to nobody. -/
theorem Stable.viewRow_purged (stable : s.Stable) (found : s.rows c = some v)
    (below : v.xmax < s.next) (deleted : v.xmax ≠ 0) (committed : s.status v.xmax = .committed)
    (shown : ∀ h ∈ s.captures, ¬ Hides h.snap v.xmin ∧ ¬ Hides h.snap v.xmax)
    (respects : s.Respects f) : viewRow s.recs f (s.rows c) = none := by
  have deleter : s.Common v.xmax :=
    ⟨.inr ⟨below, committed⟩, fun h member => .inr (shown h member).2⟩
  have creator : s.Common v.xmin := by
    obtain same | done := stable.marked (.inl ⟨c, found⟩) deleted
    · rw [same]
      exact deleter
    · exact ⟨done, fun h member => .inr (shown h member).1⟩
  rw [found]
  show view s.recs f v = none
  rw [view_of_seen (respects _ creator), if_neg]
  rintro (zero | unseen)
  · exact deleted zero
  · rw [respects _ deleter] at unseen
    cases unseen

/-! ## Dropping records -/

variable {gone : TxnID → Prop}

/-- Records are dropped that only lead on from versions everybody sees: readers
see what they saw. -/
theorem viewRow_drop (owned : s.Owned) (dropped : s.Dropped gone recs)
    (unneeded : ∀ {v r}, s.Present v → s.recs v.undo = some r → gone r.txn → s.Common v.xmin)
    (respects : s.Respects f) (row : Option Version) (present : ∀ {v}, row = some v → s.Present v) :
    viewRow recs f row = viewRow s.recs f row := by
  cases row with
  | none => rfl
  | some v =>
    refine view_drop owned.descending (fun u r found => owned.descending (dropped.older found))
      s.Present (fun _ found changes => .inr (.inr ⟨_, _, found, by rw [target, if_neg changes]⟩))
      ?_ ?_ (present rfl)
    · intro v r needed unseen found
      obtain same | ⟨_, r', found', isGone⟩ := dropped v.undo
      · rw [same]
        exact found
      rw [found] at found'
      cases found'
      rw [respects _ (unneeded needed found isGone)] at unseen
      cases unseen
    · intro u absent
      obtain same | ⟨none, _⟩ := dropped u
      · rw [same]
        exact absent
      · exact none

theorem Stable.dropRecords (stable : s.Stable) (owned : s.Owned) {forgetting : TxnID → Bool}
    (dropped : s.Dropped gone recs)
    (unneeded : ∀ {v r}, s.Present v → s.recs v.undo = some r → gone r.txn → s.Common v.xmin)
    (fewer : ∀ {id}, forgetting id → s.forgetting id) :
    Stable { s with recs := recs, forgetting := forgetting } := by
  have present : ∀ {v}, Present { s with recs := recs, forgetting := forgetting } v →
      s.Present v := by
    rintro v (row | trail | ⟨u, r, found, isTarget⟩)
    · exact .inl row
    · exact .inr (.inl trail)
    · exact .inr (.inr ⟨u, r, dropped.older found, isTarget⟩)
  refine ⟨stable.apart, ?_, fun isPresent => stable.marked (present isPresent), ?_, ?_⟩
  · intro v isPresent linked
    obtain common | ⟨r, found, owner⟩ := stable.link (present isPresent) linked
    · exact .inl common
    obtain same | ⟨_, r', found', isGone⟩ := dropped v.undo
    · exact .inr ⟨r, by dsimp only; rw [same]; exact found, owner⟩
    · rw [found] at found'
      cases found'
      exact .inl (unneeded (present isPresent) found isGone)
  · intro id isForgetting
    obtain ⟨isDone, unneeded⟩ := stable.forgets (fewer isForgetting)
    exact ⟨isDone, fun isPresent found owner =>
      unneeded (present isPresent) (dropped.older found) owner⟩
  intro id c r f running member respects unseen
  have shown := stable.shown running member respects unseen
  have atRow := viewRow_drop owned dropped unneeded respects (s.rows c)
    fun found => .inl ⟨c, found⟩
  have atTarget := viewRow_drop owned dropped unneeded respects (target r)
    (present_of_trail running member)
  rw [atRow, atTarget, shown]

/-! ## Row writes -/

theorem descending_append (owned : s.Owned) (descends : r.old.undo < s.nextID) :
    Descending (update s.recs s.nextID (some r)) := by
  intro u r' found
  obtain ⟨same, new⟩ | ⟨_, old⟩ := update_cases found
  · cases new
    rw [same]
    exact descends
  · exact owned.descending old

/-- A new record changes nothing for the versions that were there. -/
theorem viewRow_append (owned : s.Owned) (descends : r.old.undo < s.nextID) {row : Option Version}
    (below : ∀ {v}, row = some v → v.undo < s.nextID) :
    viewRow (update s.recs s.nextID (some r)) f row = viewRow s.recs f row := by
  cases row with
  | none => rfl
  | some v =>
    refine view_congr owned.descending (descending_append owned descends) ?_ (below rfl)
    intro u smaller
    rw [update_of_ne (ne_of_lt smaller)]

variable {cell : Cell}

/-- Who does not see the writer sees what was there before. -/
theorem Writes.shown (owned : s.Owned) (writes : s.Writes id cell r v)
    (unmarked : v.xmax ≠ 0 → ∀ old, s.rows cell = some old → old.xmax = 0) (proper : id ≠ 0)
    (unseen : f id = false) :
    viewRow (update s.recs s.nextID (some r)) f (some v) = viewRow s.recs f (s.rows cell) := by
  have descends := writes.descends owned
  have nonzero : s.nextID ≠ 0 := Nat.pos_iff_ne_zero.mp owned.positive
  have before : viewRow (update s.recs s.nextID (some r)) f (s.rows cell) =
      viewRow s.recs f (s.rows cell) := viewRow_append owned descends owned.rowUndo
  -- through the new record the walk comes to the version before
  have through : f v.xmin = false →
      viewRow (update s.recs s.nextID (some r)) f (some v) = viewRow s.recs f (s.rows cell) := by
    intro unseen'
    rw [← before, ← writes.found]
    rw [viewRow, Option.bind_some, view_eq (descending_append owned descends),
      if_neg (by simp [unseen']), writes.linked, if_neg nonzero, update_self, Option.bind_some]
  obtain ⟨own, _⟩ | ⟨changes, creator, deleter, payload, _⟩ := writes.shape
  · exact through (by rw [own]; exact unseen)
  cases seen : f v.xmin with
  | false => exact through seen
  | true =>
    have row := writes.old_row changes
    have alive := unmarked (by rw [deleter]; exact proper) r.old row
    rw [row]
    show view _ f v = view _ f r.old
    rw [view_of_seen seen, if_pos (.inr (by rw [deleter]; exact unseen)),
      view_of_seen (by rw [← creator]; exact seen), if_pos (.inl alive), payload]

/-- The creator of a version that a deletion marks is the deleter or has
committed. -/
theorem Writes.creator (owned : s.Owned) (ids : s.Ids) (running : s.Running id)
    (writes : s.Writes id cell r v) : v.xmin = id ∨ (v.xmax = id ∧ s.Done v.xmin) := by
  refine (writes.origin owned ids running).imp_right fun ⟨deleter, creator, row, committed⟩ => ?_
  rw [creator] at committed ⊢
  exact ⟨deleter, (owned.rowMark row).1.imp_right fun ⟨below, _⟩ => ⟨below, committed⟩⟩

theorem Stable.write (stable : s.Stable) (ids : s.Ids) (owned : s.Owned) (running : s.Running id)
    (writes : s.Writes id cell r v) (free : ∀ other, other ≠ id → ¬ s.Touches other cell)
    (unmarked : v.xmax ≠ 0 → ∀ old, s.rows cell = some old → old.xmax = 0)
    (origin : TxnID → Cell → Option (Option Version)) :
    Stable (s.written id cell r v origin) := by
  have descends := writes.descends owned
  have proper := ids.running_ne_zero running
  have replaced : ∀ {v'}, target r = some v' → s.Present v' := by
    intro v' isTarget
    rw [writes.found] at isTarget
    exact .inl ⟨cell, isTarget⟩
  have present : ∀ {v'}, Present (s.written id cell r v origin) v' → v' = v ∨ s.Present v' := by
    rintro v' (⟨c, found⟩ | ⟨x, c, r', runs, member, isTarget⟩ | ⟨u, r', found, isTarget⟩)
    · obtain ⟨_, new⟩ | ⟨_, old⟩ := row_of_written found
      · exact .inl new
      · exact .inr (.inl ⟨c, old⟩)
    · right
      obtain ⟨_, isNew⟩ | old := mem_trail_written_iff.mp member
      · cases isNew
        exact replaced isTarget
      · exact present_of_trail runs old isTarget
    · right
      obtain ⟨_, rfl⟩ | old := rec_of_written found
      · exact replaced isTarget
      · exact .inr (.inr ⟨u, r', old, isTarget⟩)
  have kept : ∀ {v'}, s.Present v' → update s.recs s.nextID (some r) v'.undo = s.recs v'.undo := by
    intro v' isPresent
    exact update_of_ne (ne_of_lt (isPresent.undo_lt owned)) _ _
  refine ⟨?_, ?_, ?_, ?_, ?_⟩
  · -- the new cell of the writer is nobody else's
    have touches : ∀ {x c}, Touches (s.written id cell r v origin) x c →
        (x = id ∧ c = cell) ∨ s.Touches x c := by
      rintro x c ⟨runs, r', member⟩
      obtain ⟨same, isNew⟩ | old := mem_trail_written_iff.mp member
      · cases isNew
        exact .inl ⟨same, rfl⟩
      · exact .inr ⟨runs, r', old⟩
    intro x y c differ one two
    obtain ⟨isId, isCell⟩ | before := touches one
    · obtain ⟨isId', _⟩ | before' := touches two
      · exact differ (isId.trans isId'.symm)
      · rw [isCell] at before'
        exact free y (fun same => differ (isId.trans same.symm)) before'
    · obtain ⟨isId, isCell⟩ | before' := touches two
      · rw [isCell] at before
        exact free x (fun same => differ (same.trans isId.symm)) before
      · exact stable.apart differ before before'
  · intro v' isPresent linked
    obtain rfl | before := present isPresent
    · right
      refine ⟨r, by dsimp only; rw [writes.linked, update_self], ?_⟩
      rw [writes.owner]
      exact (writes.creator owned ids running).imp Eq.symm fun ⟨deleter, done⟩ =>
        ⟨deleter.symm, done⟩
    · dsimp only
      rw [kept before]
      exact stable.link before linked
  · intro v' isPresent marked
    obtain rfl | before := present isPresent
    · obtain ⟨_, alive⟩ | ⟨_, _, deleter, _⟩ := writes.shape
      · exact absurd alive marked
      · obtain own | ⟨_, done⟩ := writes.creator owned ids running
        · exact .inl (own.trans deleter.symm)
        · exact .inr done
    · exact stable.marked before marked
  · intro x isForgetting
    obtain ⟨isDone, unneeded⟩ := stable.forgets isForgetting
    refine ⟨isDone, fun {v' r'} isPresent found owner => ?_⟩
    dsimp only at found
    obtain rfl | before := present isPresent
    · -- the new version leads to the new record, whose transaction is running
      rw [writes.linked, update_self] at found
      cases found
      rw [← owner, writes.owner] at isDone
      exact absurd isDone (not_done_of_running running ids)
    · rw [kept before] at found
      exact unneeded before found owner
  intro x c r' f runs member respects unseen
  dsimp only at member ⊢
  have new := fun isOwn : f id = false => writes.shown owned unmarked proper isOwn
  have atTarget : ∀ {y c r'}, s.Running y → (c, r') ∈ s.trail y →
      viewRow (update s.recs s.nextID (some r)) f (target r') =
        viewRow s.recs f (target r') := fun runs' member' =>
    viewRow_append owned descends fun isTarget =>
      (present_of_trail runs' member' isTarget).undo_lt owned
  by_cases same : x = id
  · subst same
    rw [update_self] at member
    obtain isNew | old := List.mem_cons.mp member
    · cases isNew
      rw [update_self, new unseen, ← writes.found]
      exact (viewRow_append owned descends fun isTarget => (replaced isTarget).undo_lt owned).symm
    rw [atTarget runs old, ← stable.shown runs old respects unseen]
    by_cases here : c = cell
    · rw [here, update_self, new unseen]
    · rw [update_of_ne here]
      exact viewRow_append owned descends owned.rowUndo
  rw [update_of_ne same] at member
  have elsewhere : c ≠ cell := by
    rintro rfl
    exact free x same ⟨runs, r', member⟩
  rw [update_of_ne elsewhere, atTarget runs member, ← stable.shown runs member respects unseen]
  exact viewRow_append owned descends owned.rowUndo

/-! ## All steps -/

/-- The changes that a calm purge makes are invisible. -/
theorem Stable.shown_purged (stable : s.Stable) (owned : s.Owned) {cells : List Cell}
    (purged : s.Purged rows) (only : ∀ c, c ∉ cells → rows c = s.rows c)
    (calm : s.Calm (.purge cells)) (respects : s.Respects f) (c : Cell) :
    viewRow s.recs f (rows c) = viewRow s.recs f (s.rows c) := by
  obtain same | ⟨gone, v, found, deleted, committed⟩ := purged c
  · rw [same]
  have member : c ∈ cells := by
    by_contra absent
    have same := only c absent
    rw [gone, found] at same
    cases same
  have below := ((owned.rowMark found).2.resolve_left deleted).1
  rw [stable.viewRow_purged found below deleted committed (calm c member v found deleted committed)
    respects, gone]
  rfl

theorem Purged.present (purged : s.Purged rows) (found : rows c = some v) : s.Present v :=
  .inl ⟨c, purged.older found⟩

variable {label : Label}

theorem Stable.dataStep (stable : s.Stable) (ids : s.Ids) (owned : s.Owned) (calm : s.Calm label)
    (step : DataStep s label s') : s'.Stable := by
  cases step with
  | write id cell deletes r v running ready writes marks =>
    exact stable.write ids owned running writes calm.1
      (fun marked old found => calm.2 (marks marked) old found) _
  | bulk id cells fresh rows origin running ready bare others =>
    refine stable.replaceRows owned ?_ ?_
    · intro c v found
      obtain same | ⟨_, _, payload, new⟩ := bare c
      · rw [same] at found
        exact .inl (.inl ⟨c, found⟩)
      · rw [new] at found
        cases found
        exact .inr ⟨rfl, rfl⟩
    intro x c r f runs member respects unseen
    rw [← stable.shown runs member respects unseen]
    obtain same | ⟨isCell, absent, payload, new⟩ := bare c
    · rw [same]
    have own : x = id := by
      by_contra differ
      exact calm.2 c isCell x differ ⟨runs, r, member⟩
    rw [new, viewRow_bare (own ▸ unseen), absent calm.1]
    rfl
  | startUndo id work rest full running ready newest whole =>
    exact stable.replaceRows owned (fun found => .inl (.inl ⟨_, found⟩)) stable.shown
  | undoNext id cell r rest full running pending =>
    have member := (owned.pending running pending).1 _ List.mem_cons_self
    refine stable.replaceRows owned ?_ ?_
    · intro c v found
      left
      obtain ⟨_, found⟩ | ⟨_, found⟩ := update_cases found
      · exact present_of_trail running member found
      · exact .inl ⟨c, found⟩
    intro x c r' f runs member' respects unseen
    by_cases same : c = cell
    · subst same
      have own : x = id := by
        by_contra differ
        exact stable.apart differ ⟨runs, r', member'⟩ ⟨running, r, member⟩
      subst own
      rw [update_self, ← stable.shown runs member respects unseen]
      exact stable.shown runs member' respects unseen
    · rw [update_of_ne same]
      exact stable.shown runs member' respects unseen
  | endUndo id running reversed =>
    exact stable.replaceRows owned (fun found => .inl (.inl ⟨_, found⟩)) stable.shown
  | check id committed known idle =>
    refine { stable with forgets := ?_ }
    intro x isForgetting
    dsimp only at isForgetting
    by_cases same : x = id
    · have done : s.Done x := .inr (same ▸ ⟨known, committed⟩)
      exact ⟨done, fun isPresent found owner =>
        stable.common_of_idle owned idle isPresent found (owner ▸ done)⟩
    · rw [update_of_ne same] at isForgetting
      exact stable.forgets isForgetting
  | forget id recs checked dropped =>
    obtain ⟨_, unneeded⟩ := stable.forgets checked
    refine stable.dropRecords owned dropped (fun isPresent found owner =>
      unneeded isPresent found owner) ?_
    intro x isForgetting
    obtain ⟨_, isForgetting⟩ | ⟨_, isForgetting⟩ := update_cases isForgetting
    · cases isForgetting
    · exact isForgetting
  | purge cells rows purged only =>
    refine stable.replaceRows owned (fun found => .inl (purged.present found)) ?_
    intro id c r f runs member respects unseen
    rw [stable.shown_purged owned purged only calm respects,
      stable.shown runs member respects unseen]
  | sweep rows recs idle purged dropped =>
    have fewer : Stable { s with rows := rows } :=
      stable.replaceRows owned (fun found => .inl (purged.present found))
        fun runs => absurd runs (idle.2 _)
    have owned' : Owned { s with rows := rows } :=
      owned.replaceRows ids fun found => .inl (purged.older found)
    have dropped' : Dropped { s with rows := rows }
      (fun x => s.status x = .committed ∧ x < s.next) recs := dropped
    exact fewer.dropRecords owned' dropped' (fun isPresent found isDone =>
      fewer.common_of_idle owned' idle isPresent found (.inr ⟨isDone.2, isDone.1⟩))
      fun isForgetting => isForgetting

theorem Stable.step (stable : s.Stable) (ids : s.Ids) (owned : s.Owned) (calm : s.Calm label)
    (step : Step s label s') : s'.Stable := by
  cases step with
  | quiet => exact stable
  | ids step => exact stable.idStep ids step
  | data step => exact stable.dataStep ids owned calm step

/-! ## What a snapshot sees -/

variable {h : Capture}

/-- The beginning or the end of another transaction does not change what a held
snapshot sees. -/
theorem IdStep.sees_eq (ids : s.Ids) (member : h ∈ s.captures) (step : IdStep s s') :
    s'.sees h.snap = s.sees h.snap := by
  have positive := (ids.bound h member).1
  -- one transaction has a new status, and the snapshot sees it neither before nor after
  have changed : ∀ {s' : Store} {id : TxnID} {outcome : Status},
      s'.fate = update s.fate id (some outcome) → id ≠ 0 →
      (id ≠ h.snap.tid → s.sees h.snap id = false ∧ (outcome = .aborted ∨ outcome = .inProgress ∨
        Hides h.snap id)) → s'.sees h.snap = s.sees h.snap := by
    intro s' id outcome fate proper unseen
    funext x
    by_cases self : x = h.snap.tid
    · rw [self, sees, sees, sees_self, sees_self]
    by_cases same : x = id
    · subst same
      obtain ⟨before, after⟩ := unseen self
      rw [before, Bool.eq_false_iff, sees, ne_eq, sees_iff proper self positive, status, fate,
        update_self, Option.getD_some]
      rintro ⟨live, ended, shown⟩
      obtain aborted | inProgress | hides := after
      · exact live aborted
      · exact ended inProgress
      · exact shown hides
    · have statusOf : s'.status x = s.status x := by
        rw [status, status, fate, update_of_ne same]
      unfold sees Snapshot.sees
      rw [statusOf]
  cases step with
  | begin id c fresh proper own horizon active now =>
    refine changed rfl proper fun foreign => ⟨?_, .inr (.inl rfl)⟩
    have above : Hides h.snap id := .inr ((ids.bound h member).2.1.trans fresh)
    rw [Bool.eq_false_iff, sees, ne_eq, sees_iff proper foreign positive]
    exact fun seen => seen.2.2 above
  | capture c current own now => rfl
  | release holder => rfl
  | abort id running reversed =>
    exact changed rfl (ids.running_ne_zero running) fun foreign =>
      ⟨ids.unseen member running foreign, .inl rfl⟩
  | commit id running settled =>
    exact changed rfl (ids.running_ne_zero running) fun foreign =>
      ⟨ids.unseen member running foreign, .inr (.inr (ids.hides h member id running foreign))⟩

/-- The transaction whose write or reversal a step is. -/
def Label.writer : Label → Option TxnID
  | .write id _ _ => some id
  | .bulk id _ _ => some id
  | .undo id => some id
  | .purge _ => none
  | .other => none

/-- **One step.** A calm step that is not the holder's own write shows a held
snapshot what it showed before. -/
theorem Stable.viewRow_step (stable : s.Stable) (ids : s.Ids) (owned : s.Owned)
    (member : h ∈ s.captures) (calm : s.Calm label) (foreign : label.writer ≠ some h.snap.tid)
    (step : Step s label s') (c : Cell) :
    viewRow s'.recs (s'.sees h.snap) (s'.rows c) = viewRow s.recs (s.sees h.snap) (s.rows c) := by
  have respects := sees_respects ids member
  have unseen : ∀ {id}, s.Running id → some id ≠ some h.snap.tid → s.sees h.snap id = false :=
    fun running differ => ids.unseen member running fun same => differ (congrArg some same)
  cases step with
  | quiet => rfl
  | ids step =>
    rw [step.sees_eq ids member]
    cases step <;> rfl
  | data step =>
    have notIdle : ¬ s.Idle := by
      rintro ⟨nothing, _⟩
      rw [nothing] at member
      cases member
    cases step with
    | write id cell deletes r v running ready writes marks =>
      have hidden := unseen running foreign
      show viewRow (update s.recs s.nextID (some r)) (s.sees h.snap)
        (update s.rows cell (some v) c) = _
      by_cases same : c = cell
      · rw [same, update_self]
        exact writes.shown owned (fun marked old found => calm.2 (marks marked) old found)
          (ids.running_ne_zero running) hidden
      · rw [update_of_ne same]
        exact viewRow_append owned (writes.descends owned) owned.rowUndo
    | bulk id cells fresh rows origin running ready bare others =>
      have hidden := unseen running foreign
      show viewRow s.recs (s.sees h.snap) (rows c) = _
      obtain same | ⟨_, absent, payload, new⟩ := bare c
      · rw [same]
      · rw [new, viewRow_bare hidden, absent calm.1]
        rfl
    | startUndo id work rest full running ready newest whole => rfl
    | undoNext id cell r rest full running pending =>
      have isRecord := (owned.pending running pending).1 _ List.mem_cons_self
      have hidden := unseen running foreign
      show viewRow s.recs (s.sees h.snap) (update s.rows cell (target r) c) = _
      by_cases same : c = cell
      · rw [same, update_self]
        exact (stable.shown running isRecord respects hidden).symm
      · rw [update_of_ne same]
    | endUndo id running reversed => rfl
    | check id committed known idle => rfl
    | forget id recs checked dropped =>
      obtain ⟨_, unneeded⟩ := stable.forgets checked
      exact viewRow_drop owned dropped
        (unneeded) respects _
        fun found => .inl ⟨c, found⟩
    | purge cells rows purged only => exact stable.shown_purged owned purged only calm respects c
    | sweep rows recs idle purged dropped => exact absurd idle notIdle

end Store

end NextSQL.Mvcc
