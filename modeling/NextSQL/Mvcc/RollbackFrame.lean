import NextSQL.Mvcc.Reachable

/-!
# What a rollback restores

Undo records are replayed whatever is under their key, and records that a
rollback to a savepoint has reversed are replayed once more by the full
rollback. So a rollback restores what it should only as long as nobody else
writes the cells the transaction has records for. `Store.Apart` states this for
the steps of a run. Under it the cells a transaction has touched stay its own
until it ends (`Framed`), and a full rollback leaves every one of them as the
transaction first found it, and every other cell alone (`rollback_frame`).
-/

namespace NextSQL.Mvcc

open Function

open Row Undo Txn GuardedRuns List

namespace Store

/-- A running transaction has a record for the cell. -/
def Touches (s : Store) (id : TxnID) (c : Cell) : Prop := s.Running id ∧ ∃ r, (c, r) ∈ s.trail id

/-- The step keeps the cells of `id` apart from those of the others: `id` writes
no cell that another transaction has touched, nobody else writes or purges one
that `id` has touched, and `id` itself writes nothing in bulk. -/
def Apart (s : Store) (id : TxnID) : Label → Prop
  | .write x cell _ =>
    (x = id → ∀ other, other ≠ id → ¬ s.Touches other cell) ∧ (x ≠ id → ¬ s.Touches id cell)
  | .bulk x cells _ => x ≠ id ∧ ∀ c ∈ cells, ¬ s.Touches id c
  | .purge cells => ∀ c ∈ cells, ¬ s.Touches id c
  | .undo _ => True
  | .other => True

/-- The cells a transaction has touched are its own: what is under them, and
what its records restore, is what it wrote or what it first found. -/
structure Framed (s : Store) (id : TxnID) : Prop where
  apart : ∀ {x c}, x ≠ id → s.Touches id c → ¬ s.Touches x c
  first : ∀ {newer c r older}, s.Running id → s.trail id = newer ++ (c, r) :: older →
    (∀ r', (c, r') ∉ older) → s.origin id c = some (target r)
  known : ∀ {c found}, s.Running id → s.origin id c = some found → s.Touches id c
  row : ∀ {c}, s.Touches id c →
    (∃ v, s.rows c = some v ∧ v.writer = id) ∨ s.origin id c = some (s.rows c)
  old : ∀ {c r}, s.Running id → (c, r) ∈ s.trail id →
    (∃ v, target r = some v ∧ v.writer = id) ∨ s.origin id c = some (target r)
  done : ∀ {work}, s.undoing id = some (work, true) → ∀ {c}, s.Touches id c →
    (∃ r, (c, r) ∈ work) ∨ s.origin id c = some (s.rows c)

variable {s s' : Store} {id : TxnID}

theorem Framed.of_not_running (ended : ¬ s.Running id) : s.Framed id where
  apart _ touched := absurd touched.1 ended
  first running := absurd running ended
  known running := absurd running ended
  row touched := absurd touched.1 ended
  old running := absurd running ended
  done _ _ touched := absurd touched.1 ended

/-- A step that leaves the history of the transaction alone, and the rows it has
touched, keeps the frame. -/
theorem Framed.congr (framed : s.Framed id) (running : s'.Running id → s.Running id)
    (trail : s'.trail id = s.trail id) (origin : s'.origin id = s.origin id)
    (undoing : ∀ {work}, s'.undoing id = some (work, true) → s.undoing id = some (work, true) ∨
      s.trail id = work)
    (rows : ∀ {c}, s.Touches id c → s'.rows c = s.rows c)
    (others : ∀ {x c}, x ≠ id → s'.Touches x c → s.Touches id c → s.Touches x c) :
    s'.Framed id := by
  have touches : ∀ {c}, s'.Touches id c → s.Touches id c := by
    rintro c ⟨runs, r, member⟩
    exact ⟨running runs, r, trail ▸ member⟩
  refine ⟨?_, ?_, ?_, ?_, ?_, ?_⟩
  · intro x c differ touched touched'
    exact framed.apart differ (touches touched) (others differ touched' (touches touched))
  · intro newer c r older runs split last
    rw [trail] at split
    rw [origin]
    exact framed.first (running runs) split last
  · intro c found runs isOrigin
    rw [origin] at isOrigin
    obtain ⟨_, r, member⟩ := framed.known (running runs) isOrigin
    exact ⟨runs, r, by rw [trail]; exact member⟩
  · intro c touched
    rw [rows (touches touched), origin]
    exact framed.row (touches touched)
  · intro c r runs member
    rw [trail] at member
    rw [origin]
    exact framed.old (running runs) member
  intro work full c touched
  rw [rows (touches touched), origin]
  obtain before | whole := undoing full
  · exact framed.done before (touches touched)
  · left
    obtain ⟨_, r, member⟩ := touches touched
    exact ⟨r, by rw [← whole]; exact member⟩

variable {cell : Cell} {r : Record}

theorem Writes.writer {v : Version} (writes : s.Writes id cell r v) (proper : id ≠ 0) :
    v.writer = id := by
  obtain ⟨xmin, xmax⟩ | ⟨_, _, xmax, _⟩ := writes.shape
  · rw [Version.writer, if_pos xmax, xmin]
  · rw [Version.writer, if_neg (by rw [xmax]; exact proper), xmax]

theorem Framed.write (framed : s.Framed id) (ids : s.Ids) {v : Version} (running : s.Running id)
    (ready : s.undoing id = none) (writes : s.Writes id cell r v)
    (free : ∀ other, other ≠ id → ¬ s.Touches other cell) :
    Framed (s.written id cell r v (update s.origin id (update (s.origin id) cell
      (some ((s.origin id cell).getD (s.rows cell)))))) id := by
  -- what was first found under a cell stays
  have kept : ∀ {c found}, s.origin id c = some found →
      update (s.origin id) cell (some ((s.origin id cell).getD (s.rows cell))) c = some found := by
    intro c found isOrigin
    by_cases same : c = cell
    · subst same
      rw [update_self, isOrigin, Option.getD_some]
    · rw [update_of_ne same]
      exact isOrigin
  have unknown : (∀ r', (cell, r') ∉ s.trail id) → s.origin id cell = none := by
    intro untouched
    cases isOrigin : s.origin id cell with
    | none => rfl
    | some found =>
      obtain ⟨_, r', member⟩ := framed.known running isOrigin
      exact absurd member (untouched r')
  have fresh : (∀ r', (cell, r') ∉ s.trail id) →
      update (s.origin id) cell (some ((s.origin id cell).getD (s.rows cell))) cell =
        some (target r) := by
    intro untouched
    rw [update_self, unknown untouched, Option.getD_none, writes.found]
  refine ⟨?_, ?_, ?_, ?_, ?_, ?_⟩
  all_goals dsimp only [Touches, Running]
  all_goals simp only [update_self]
  · rintro x c differ ⟨_, r', member⟩ ⟨runs, r'', member'⟩
    rw [update_of_ne differ] at member'
    obtain isNew | old := mem_cons.mp member
    · cases isNew
      exact free x differ ⟨runs, r'', member'⟩
    · exact framed.apart differ ⟨running, r', old⟩ ⟨runs, r'', member'⟩
  · intro newer c r' older _ split last
    cases newer with
    | nil =>
      simp only [nil_append, cons.injEq, Prod.mk.injEq] at split
      obtain ⟨⟨rfl, rfl⟩, rfl⟩ := split
      exact fresh last
    | cons e newer =>
      rw [cons_append, cons.injEq] at split
      exact kept (framed.first running split.2 last)
  · intro c found _ isOrigin
    refine ⟨running, ?_⟩
    by_cases same : c = cell
    · exact ⟨r, by rw [same]; exact mem_cons_self⟩
    · rw [update_of_ne same] at isOrigin
      obtain ⟨_, r', member⟩ := framed.known running isOrigin
      exact ⟨r', mem_cons_of_mem _ member⟩
  · rintro c ⟨_, r', member⟩
    by_cases same : c = cell
    · left
      exact ⟨v, by rw [same, update_self], writes.writer (ids.running_ne_zero running)⟩
    rw [update_of_ne same]
    obtain isNew | old := mem_cons.mp member
    · cases isNew
      exact absurd rfl same
    · exact (framed.row ⟨running, r', old⟩).imp_right kept
  · intro c r' _ member
    obtain isNew | old := mem_cons.mp member
    · cases isNew
      rw [writes.found]
      by_cases touched : ∃ r', (cell, r') ∈ s.trail id
      · exact (framed.row ⟨running, touched⟩).imp_right kept
      · right
        rw [fresh (not_exists.mp touched), writes.found]
    · exact (framed.old running old).imp_right kept
  · intro work full
    rw [ready] at full
    cases full

theorem Framed.undoNext (framed : s.Framed id) (owned : s.Owned) {rest : List (Cell × Record)}
    {full : Bool} (running : s.Running id) (pending : s.undoing id = some ((cell, r) :: rest, full)) :
    Framed { s with
      rows := update s.rows cell (target r)
      undoing := update s.undoing id (some (rest, full)) } id := by
  obtain ⟨within, whole⟩ := owned.pending running pending
  have member : (cell, r) ∈ s.trail id := within _ mem_cons_self
  refine { framed with row := ?_, done := ?_ }
  all_goals dsimp only [Touches, Running]
  · rintro c ⟨_, touched⟩
    by_cases same : c = cell
    · rw [same, update_self]
      exact framed.old running member
    · rw [update_of_ne same]
      exact framed.row ⟨running, touched⟩
  rintro work isFull c ⟨_, touched⟩
  rw [update_self] at isFull
  cases isFull
  by_cases same : c = cell
  · subst same
    by_cases later : ∃ r', (c, r') ∈ rest
    · exact .inl later
    right
    obtain ⟨reversed, split, _⟩ := whole rfl
    rw [update_self]
    exact framed.first running split (not_exists.mp later)
  rw [update_of_ne same]
  obtain ⟨r', isPending⟩ | restored := framed.done pending ⟨running, touched⟩
  · obtain isNow | later := mem_cons.mp isPending
    · cases isNow
      exact absurd rfl same
    · exact .inl ⟨r', later⟩
  · exact .inr restored

variable {label : Label}

theorem Framed.dataStep (framed : s.Framed id) (ids : s.Ids) (owned : s.Owned)
    (apart : s.Apart id label) (step : DataStep s label s') : s'.Framed id := by
  cases step with
  | write x cell deletes r v running ready writes marks =>
    by_cases own : x = id
    · subst own
      exact framed.write ids running ready writes (apart.1 rfl)
    have free := apart.2 own
    refine framed.congr (fun runs => runs) ?_ ?_ .inl ?_ ?_
    all_goals try dsimp only
    · rw [update_of_ne (Ne.symm own)]
    · rw [update_of_ne (Ne.symm own)]
    · intro c touched
      refine update_of_ne ?_ _ _
      rintro rfl
      exact free touched
    rintro y c differ ⟨runs, r', member⟩ touched
    refine ⟨runs, r', ?_⟩
    dsimp only at member
    by_cases same : y = x
    · subst same
      rw [update_self] at member
      obtain isNew | old := mem_cons.mp member
      · cases isNew
        exact absurd touched free
      · exact old
    · rwa [update_of_ne same] at member
  | bulk x cells fresh rows origin running ready bare others =>
    refine framed.congr (fun runs => runs) rfl (others id (Ne.symm apart.1)) .inl ?_
      (fun _ touched _ => touched)
    intro c touched
    obtain same | ⟨member, _⟩ := bare c
    · exact same
    · exact absurd touched (apart.2 c member)
  | startUndo x work rest full running ready newest whole =>
    refine framed.congr (fun runs => runs) rfl rfl ?_ (fun _ => rfl) (fun _ touched _ => touched)
    intro work' isFull
    dsimp only at isFull
    by_cases same : id = x
    · subst same
      rw [update_self] at isFull
      cases isFull
      right
      rw [newest, whole rfl, append_nil]
    · rw [update_of_ne same] at isFull
      exact .inl isFull
  | undoNext x cell r rest full running pending =>
    by_cases own : x = id
    · subst own
      exact framed.undoNext owned running pending
    have member := (owned.pending running pending).1 _ mem_cons_self
    refine framed.congr (fun runs => runs) rfl rfl ?_ ?_ (fun _ touched _ => touched)
    · intro work isFull
      dsimp only at isFull
      rw [update_of_ne (Ne.symm own)] at isFull
      exact .inl isFull
    · intro c touched
      refine update_of_ne ?_ _ _
      rintro rfl
      exact framed.apart own touched ⟨running, r, member⟩
  | endUndo x running reversed =>
    refine framed.congr (fun runs => runs) rfl rfl ?_ (fun _ => rfl) (fun _ touched _ => touched)
    intro work isFull
    obtain ⟨_, isFull⟩ | ⟨_, isFull⟩ := update_cases isFull
    · cases isFull
    · exact .inl isFull
  | check x committed known idle | forget x recs checked dropped =>
    exact framed.congr (fun runs => runs) rfl rfl .inl (fun _ => rfl) (fun _ touched _ => touched)
  | purge cells rows purged only =>
    refine framed.congr (fun runs => runs) rfl rfl .inl ?_ (fun _ touched _ => touched)
    intro c touched
    exact only c fun member => apart c member touched
  | sweep rows recs idle purged dropped => exact Framed.of_not_running (idle.2 id)

theorem Framed.idStep (framed : s.Framed id) (step : IdStep s s') : s'.Framed id := by
  -- the end of a transaction takes cells from nobody else
  have finish : ∀ (x : TxnID) (outcome : Status) {s' : Store}, outcome ≠ .inProgress →
      s'.fate = update s.fate x (some outcome) → s'.trail = s.trail →
      s'.origin = s.origin → s'.rows = s.rows →
      (∀ {work}, s'.undoing id = some (work, true) → s.undoing id = some (work, true)) →
      s'.Framed id := by
    intro x outcome s' ended fate trail origin rows undoing
    have still : ∀ {y}, s'.Running y → s.Running y := by
      intro y runs
      rw [Running, fate, update_apply] at runs
      split at runs
      · cases runs
        exact absurd rfl ended
      · exact runs
    refine framed.congr still (by rw [trail]) (by rw [origin]) (fun full => .inl (undoing full))
      (fun _ => by rw [rows]) ?_
    rintro y c _ ⟨runs, r, member⟩ _
    exact ⟨still runs, r, trail ▸ member⟩
  cases step with
  | begin x c fresh proper own horizon active now =>
    by_cases same : id = x
    · subst same
      refine ⟨?_, ?_, ?_, ?_, ?_, ?_⟩
      all_goals dsimp only [Touches, Running]
      all_goals simp only [update_self]
      · rintro x c _ ⟨_, r, nothing⟩
        cases nothing
      · intro newer c r older _ split
        cases newer <;> cases split
      · intro c found _ nothing
        cases nothing
      · rintro c ⟨_, r, nothing⟩
        cases nothing
      · intro c r _ nothing
        cases nothing
      · intro work nothing
        cases nothing
    refine framed.congr ?_ ?_ ?_ ?_ (fun _ => rfl) ?_
    all_goals dsimp only [Touches, Running]
    · rw [update_of_ne same]
      exact fun runs => runs
    · rw [update_of_ne same]
    · rw [update_of_ne same]
    · intro work full
      rw [update_of_ne same] at full
      exact .inl full
    rintro y c _ ⟨runs, r, member⟩ _
    by_cases isNew : y = x
    · rw [isNew, update_self] at member
      cases member
    · rw [update_of_ne isNew] at runs member
      exact ⟨runs, r, member⟩
  | capture c current own now | release holder =>
    exact framed.congr (fun runs => runs) rfl rfl .inl (fun _ => rfl) (fun _ touched _ => touched)
  | abort x running reversed =>
    refine finish x .aborted (by decide) rfl rfl rfl rfl ?_
    intro work full
    obtain ⟨_, full⟩ | ⟨_, full⟩ := update_cases full
    · cases full
    · exact full
  | commit x running settled =>
    exact finish x .committed (by decide) rfl rfl rfl rfl fun full => full

/-- **Frames** are kept by every step that keeps the cells apart. -/
theorem Framed.step (framed : s.Framed id) (ids : s.Ids) (owned : s.Owned)
    (apart : s.Apart id label) (step : Step s label s') : s'.Framed id := by
  cases step with
  | quiet => exact framed
  | ids step => exact framed.idStep step
  | data step => exact framed.dataStep ids owned apart step

/-! ## A full reversal -/

/-- The transaction is in the middle of its last reversal, with the given
history, or it has ended. -/
structure Reverses (s : Store) (id : TxnID) (trail : List (Cell × Record))
    (origin : Cell → Option (Option Version)) : Prop where
  known : id < s.next
  history : s.Running id → s.trail id = trail ∧ s.origin id = origin ∧
    ∃ work, s.undoing id = some (work, true)

variable {trail : List (Cell × Record)} {origin : Cell → Option (Option Version)}

section

variable (reverses : s.Reverses id trail origin)

include reverses

theorem Reverses.dataStep (step : DataStep s label s') : s'.Reverses id trail origin := by
  obtain ⟨next, fate, _⟩ := step.ids_eq
  refine ⟨by rw [next]; exact reverses.known, fun running => ?_⟩
  rw [Running, fate] at running
  have history := reverses.history running
  obtain ⟨isTrail, isOrigin, work, pending⟩ := history
  -- a transaction that is ready, or at the end of a partial reversal, is another one
  have other : ∀ {x : TxnID}, s.undoing x = none ∨ s.undoing x = some ([], false) → id ≠ x := by
    rintro x idle rfl
    rw [pending] at idle
    simp at idle
  cases step with
  | write x cell deletes r v _ ready writes marks =>
    have differ := other (.inl ready)
    dsimp only
    rw [update_of_ne differ, update_of_ne differ]
    exact ⟨isTrail, isOrigin, work, pending⟩
  | bulk x cells fresh rows origin _ ready bare others =>
    exact ⟨isTrail, (others id (other (.inl ready))).trans isOrigin, work, pending⟩
  | startUndo x work' rest full _ ready newest whole =>
    dsimp only
    rw [update_of_ne (other (.inl ready))]
    exact ⟨isTrail, isOrigin, work, pending⟩
  | undoNext x cell r rest full _ pending' =>
    refine ⟨isTrail, isOrigin, ?_⟩
    dsimp only
    by_cases same : id = x
    · subst same
      rw [pending] at pending'
      cases pending'
      exact ⟨rest, update_self ..⟩
    · rw [update_of_ne same]
      exact ⟨work, pending⟩
  | endUndo x _ reversed =>
    dsimp only
    rw [update_of_ne (other (.inr reversed))]
    exact ⟨isTrail, isOrigin, work, pending⟩
  | check x committed known idle | forget x recs checked dropped | purge cells rows purged only
  | sweep rows recs idle purged dropped => exact ⟨isTrail, isOrigin, work, pending⟩

theorem Reverses.idStep (step : IdStep s s') : s'.Reverses id trail origin := by
  have known := reverses.known
  cases step with
  | begin x c fresh proper own horizon active now =>
    have differ : id ≠ x := by lia
    refine ⟨by dsimp only; lia, ?_⟩
    dsimp only [Running]
    rw [update_of_ne differ, update_of_ne differ, update_of_ne differ, update_of_ne differ]
    exact reverses.history
  | capture c current own now | release holder => exact ⟨known, reverses.history⟩
  | abort x running reversed =>
    refine ⟨known, fun runs => ?_⟩
    obtain ⟨_, runs⟩ | ⟨differ, runs⟩ := update_cases runs
    · cases runs
    · dsimp only
      rw [update_of_ne differ]
      exact reverses.history runs
  | commit x running settled =>
    refine ⟨known, fun runs => ?_⟩
    obtain ⟨_, runs⟩ | ⟨_, runs⟩ := update_cases runs
    · cases runs
    · exact reverses.history runs

theorem Reverses.step (step : Step s label s') : s'.Reverses id trail origin := by
  cases step with
  | quiet => exact reverses
  | ids step => exact reverses.idStep step
  | data step => exact reverses.dataStep step

/-- A reversal changes only cells of the history. -/
theorem Reverses.rows (owned : s.Owned) {c : Cell} (untouched : ∀ r, (c, r) ∉ trail)
    (step : Step s (.undo id) s') : s'.rows c = s.rows c := by
  cases step with
  | quiet => rfl
  | data step =>
    cases step with
    | undoNext _ cell r rest full running pending =>
      have member := (owned.pending running pending).1 _ mem_cons_self
      rw [(reverses.history running).1] at member
      refine update_of_ne ?_ _ _
      rintro rfl
      exact untouched r member

end

end Store

namespace World

variable {w w' : World}

/-- The step keeps the cells of the transaction apart. -/
def KeepsApart (id : TxnID) (w : World) (op : Op) : Prop := w.store.Apart id (w.label op)

/-- The transaction is running and has a record for the cell. -/
def touches (w : World) (id : TxnID) (c : Cell) : Bool :=
  decide (w.Running id) && (w.trail id).any fun e => decide ((located e).1 = c)

variable {id : TxnID}

theorem touches_of_store {c : Cell} (touched : w.store.Touches id c) : w.touches id c := by
  obtain ⟨running, r, member⟩ := touched
  obtain ⟨e, inTrail, isLocated⟩ := mem_map.mp member
  have runs : w.Running id := running
  simp only [touches, runs, decide_true, Bool.true_and, any_eq_true, decide_eq_true_eq]
  exact ⟨e, inTrail, by rw [isLocated]⟩

/-- No other transaction has touched the cell. Only transactions on record can
run. -/
def free (w : World) (id : TxnID) (cell : Cell) : Bool :=
  w.db.tm.status.keys.all fun other => decide (other = id) || !w.touches other cell

theorem free_sound {cell : Cell} (isFree : w.free id cell) (other : TxnID)
    (differ : other ≠ id) : ¬ w.store.Touches other cell := by
  intro touched
  have onRecord : other ∈ w.db.tm.status.keys := by
    have running : w.db.tm.status.lookup other = some .inProgress := touched.1
    rw [← AList.mem_keys, ← AList.lookup_isSome, running]
    rfl
  have untouched := all_eq_true.mp isFree other onRecord
  rw [touches_of_store touched] at untouched
  simp [differ] at untouched

/-- `KeepsApart` as a test. -/
def keepsApart (id : TxnID) (w : World) (op : Op) : Bool :=
  match w.label op with
  | .write x cell _ => if x = id then w.free id cell else !w.touches id cell
  | .bulk x cells _ => decide (x ≠ id) && cells.all fun c => !w.touches id c
  | .purge cells => cells.all fun c => !w.touches id c
  | .undo _ => true
  | .other => true

theorem keepsApart_sound {op : Op} (allowed : keepsApart id w op) : KeepsApart id w op := by
  have untouched : ∀ {x c}, (!w.touches x c) → ¬ w.store.Touches x c := by
    intro x c isFree touched
    rw [touches_of_store touched] at isFree
    cases isFree
  unfold keepsApart at allowed
  unfold KeepsApart
  generalize w.label op = label at allowed ⊢
  cases label with
  | write x cell deletes =>
    simp only at allowed
    split at allowed
    next same =>
      exact ⟨fun _ other differ => free_sound allowed other differ, absurd same⟩
    next differ => exact ⟨fun same => absurd same differ, fun _ => untouched allowed⟩
  | bulk x cells fresh =>
    simp only [Bool.and_eq_true, decide_eq_true_eq, all_eq_true] at allowed
    exact ⟨allowed.1, fun c member => untouched (allowed.2 c member)⟩
  | purge cells =>
    simp only [all_eq_true] at allowed
    exact fun c member => untouched (allowed c member)
  | undo x | other => exact trivial

theorem run_framed {start : World} {ops : List Op} (opened : start.Opened)
    (run : Run Step (KeepsApart id) start ops w) : w.Invariants ∧ w.store.Framed id := by
  have inv := opened.invariants
  have ended : ¬ start.store.Running id := by
    intro runs
    obtain ⟨writer, found⟩ := Option.isSome_iff_exists.mp ((inv.registry.writer id).mpr runs)
    rw [opened.writers] at found
    cases found
  refine run.invariant (fun w => w.Invariants ∧ w.store.Framed id)
    ⟨inv, Store.Framed.of_not_running ended⟩ ?_
  rintro before op after ⟨inv, framed⟩ apart taken
  exact ⟨inv.step taken, framed.step inv.ids inv.owned apart (inv.refined taken).step⟩

/-- A rollback that starts keeps the history and reverses all of it. -/
theorem reverses_of_rollback (inv : w.Invariants) (taken : w.Step (.rollback id) w') :
    w'.store.Reverses id (w.store.trail id) (w.store.origin id) := by
  simp only [Step, step?] at taken
  split at taken
  · cases taken
  next writer idle =>
  obtain ⟨found, _⟩ := idle_eq idle
  cases taken
  refine ⟨inv.ids.running_lt (inv.registry.running found), fun _ => ⟨rfl, rfl, ?_⟩⟩
  dsimp only [store, Engine.startRollback, Engine.setUndoing]
  rw [update_self]
  exact ⟨_, rfl⟩

theorem reversed_of_abort (taken : w.Step (.abort id) w') :
    w.store.undoing id = some ([], true) ∧ (w.db.writers id).isSome ∧ w'.store.rows = w.store.rows := by
  simp only [Step, step?] at taken
  split at taken
  · cases taken
  next writer found =>
  split at taken
  next isDone =>
    cases taken
    refine ⟨?_, by rw [found]; rfl, rfl⟩
    dsimp only [store, undoingOf]
    rw [found, Option.bind_some, isDone]
    rfl
  next => cases taken

end World

end NextSQL.Mvcc
