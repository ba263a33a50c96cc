import NextSQL.Txn.LockGrants
import NextSQL.Lib.Run

/-!
# Compatibility and strength of locks over whole runs

The lock table is driven by key and range requests, by the removal of cancelled
requests and by releases, in any order. Granting keeps the table free of
conflicts, provided the range that is granted is the range that was tested, and
keeps what is held, provided no shared request replaces an exclusive lock.

Two inputs break this. A range request whose end is an empty slice is tested as
the empty range and stored as an unbounded one. A shared request by a
transaction that holds the key exclusively, or has an exclusive request for it
queued, ends in the weaker mode. On every run that contains neither, no two
transactions ever hold conflicting locks, and what a transaction holds never
weakens before it releases its locks (`guarded_run_keeps_locks`).

The invariant is `Pass`: beside compatibility it says that every queued request
is blocked, and that no queued request would weaken a lock when it is granted.
-/

namespace NextSQL.Txn

open GuardedRuns List

namespace LockManager

/-! ## The invariant -/

/-- `later` asks for the key that `earlier`, of the same transaction, asks for
exclusively, and asks for it shared. -/
def Downgrades (earlier later : Waiter) : Prop :=
  earlier.txn = later.txn ∧ earlier.target = later.target ∧ earlier.mode = .exclusive ∧
    later.mode = .shared ∧ ∃ key, later.target = .key key

/-- The state of a pass over the queue: the requests in `kept` have been found
blocked, those in `rest` are still to be tried. With nothing left to try it is
the invariant of the lock table. -/
structure Pass (lm : LockManager) (kept rest : List Waiter) : Prop where
  apart : lm.NoMeeting
  held : ∀ ⦃txn mode t⦄, lm.Holds txn mode t → ¬ t.EmptyEnd
  proper : ∀ w ∈ kept ++ rest, ¬ w.target.EmptyEnd
  blocked : ∀ w ∈ kept, lm.canGrant w.txn w.mode w.target = false
  ordered : (kept ++ rest).Pairwise fun earlier later => ¬ Downgrades earlier later
  steady : ∀ w ∈ kept ++ rest, ¬ lm.Weakens w.txn w.mode w.target

variable {lm : LockManager} {txn : TxnID} {mode : Mode} {tag : String} {t : Target}

/-- A request that can be granted meets no clashing lock, and neither does its
copy. -/
theorem NoMeeting.grant (apart : lm.NoMeeting)
    (held : ∀ ⦃txn mode t⦄, lm.Holds txn mode t → ¬ t.EmptyEnd) (proper : ¬ t.EmptyEnd)
    (granted : lm.canGrant txn mode t) : (lm.grant txn mode tag t).NoMeeting := by
  have new : ∀ {other held' t'}, lm.Holds other held' t' → other ≠ txn →
      t.stored.meets t' → held'.clash mode = false := by
    intro other held' t' holds differ overlap
    rw [Target.meets_stored proper (held holds), Target.meets_comm] at overlap
    exact canGrant_iff.mp granted other held' t' holds differ overlap
  intro txn₁ txn₂ mode₁ mode₂ t₁ t₂ holds₁ holds₂ differ overlap
  obtain old₁ | ⟨rfl, rfl, rfl⟩ := holds₁.of_grant
  · obtain old₂ | ⟨rfl, rfl, rfl⟩ := holds₂.of_grant
    · exact apart old₁ old₂ differ overlap
    · rw [Target.meets_comm] at overlap
      exact new old₁ differ overlap
  · obtain old₂ | ⟨same, _, _⟩ := holds₂.of_grant
    · rw [Mode.clash, Bool.or_comm]
      exact new old₂ (Ne.symm differ) overlap
    · exact absurd same.symm differ

variable {kept rest : List Waiter} {w : Waiter}

/-- The next request of a pass is granted. No request kept before it is the
shared request this grant would later be weakened by: that one would not have
been found blocked. -/
theorem Pass.grant (pass : lm.Pass kept (w :: rest)) (tag : String)
    (granted : lm.canGrant w.txn w.mode w.target) :
    (lm.grant w.txn w.mode tag w.target).Pass kept rest ∧
      ∀ other, lm.Keeps (lm.grant w.txn w.mode tag w.target) other := by
  have steady := pass.steady w (by simp)
  have keeps : ∀ other, lm.Keeps (lm.grant w.txn w.mode tag w.target) other :=
    (keeps_grant steady)
  have sub : (kept ++ rest).Sublist (kept ++ w :: rest) :=
    Sublist.append_left (sublist_cons_self w rest) kept
  refine ⟨⟨?_, ?_, ?_, ?_, ?_, ?_⟩, keeps⟩
  · exact pass.apart.grant pass.held (pass.proper w (by simp)) granted
  · intro txn mode t holds
    obtain old | ⟨_, _, rfl⟩ := holds.of_grant
    · exact pass.held old
    · exact Target.not_emptyEnd_stored w.target
  · intro w' member
    exact pass.proper w' (sub.subset member)
  · intro w' member
    rw [Bool.eq_false_iff]
    intro granted'
    have before := canGrant_of_keeps keeps granted'
    rw [pass.blocked w' member] at before
    cases before
  · exact pass.ordered.sublist sub
  intro w' member weakens
  cases asked : w'.target with
  | range s e =>
    rw [asked] at weakens
    exact weakens
  | key k =>
    rw [asked] at weakens
    obtain ⟨shared, strong⟩ := weakens
    -- the exclusive lock is new, so this grant is the exclusive request for the key
    have new : w'.txn = w.txn ∧ w.mode = .exclusive ∧ w.target = .key k := by
      have holds : (lm.grant w.txn w.mode tag w.target).Holds w'.txn .exclusive (.key k) := strong
      obtain old | ⟨same, mode, target⟩ := holds.of_grant
      · refine absurd ?_ (pass.steady w' (sub.subset member))
        rw [asked]
        exact ⟨shared, old⟩
      refine ⟨same, mode.symm, ?_⟩
      cases target' : w.target with
      | key k' =>
        rw [target'] at target
        exact target.symm
      | range s e =>
        rw [target'] at target
        cases target
    obtain ⟨same, exclusive, target⟩ := new
    obtain early | late := mem_append.mp member
    · have free := canGrant_shared granted
      have stuck := pass.blocked w' early
      rw [shared, asked, same, ← target, free] at stuck
      cases stuck
    · have pair := (pairwise_cons.mp
        (pass.ordered.sublist (sublist_append_right kept (w :: rest)))).1 w' late
      exact pair ⟨same.symm, target.trans asked.symm, exclusive, shared, k, asked⟩

/-- The next request of a pass is found blocked. -/
theorem Pass.keep (pass : lm.Pass kept (w :: rest))
    (refused : lm.canGrant w.txn w.mode w.target = false) : lm.Pass (kept ++ [w]) rest := by
  have same : kept ++ [w] ++ rest = kept ++ w :: rest := by simp
  refine ⟨pass.apart, pass.held, ?_, ?_, ?_, ?_⟩
  · rw [same]
    exact pass.proper
  · exact forall_mem_append.mpr ⟨pass.blocked, forall_mem_singleton.mpr refused⟩
  · rw [same]
    exact pass.ordered
  · rw [same]
    exact pass.steady

variable {lm' : LockManager}

/-- The queue and the wait-for graph of the state do not matter to a pass. -/
theorem Pass.congr (pass : lm.Pass kept rest) (keys : lm'.keys = lm.keys)
    (ranges : lm'.ranges = lm.ranges) : lm'.Pass kept rest := by
  obtain ⟨keys', ranges', waiters', waitFor', nextWaiter'⟩ := lm'
  subst keys ranges
  exact { pass with }

theorem Keeps.of_same (keys : lm'.keys = lm.keys) (ranges : lm'.ranges = lm.ranges) (txn : TxnID) :
    lm.Keeps lm' txn := by
  obtain ⟨keys', ranges', waiters', waitFor', nextWaiter'⟩ := lm'
  subst keys ranges
  exact fun mode t holds => ⟨mode, holds, id⟩

/-! ## The queue -/

theorem wakeOne_pass (pass : lm.Pass kept (w :: rest)) :
    (wakeOne (lm, kept) w).1.Pass (wakeOne (lm, kept) w).2 rest ∧
      ∀ other, lm.Keeps (wakeOne (lm, kept) w).1 other := by
  unfold wakeOne
  split
  next granted =>
    obtain ⟨next, keeps⟩ := pass.grant w.tag granted
    refine ⟨next.congr rfl rfl, fun other => ?_⟩
    exact (keeps other).trans (Keeps.of_same rfl rfl other)
  next refused =>
    exact ⟨pass.keep (Bool.eq_false_iff.mpr refused), Keeps.refl lm⟩

/-- One pass over the queue ends with every remaining request blocked. -/
theorem foldl_wakeOne_pass : ∀ {rest : List Waiter}, lm.Pass kept rest →
      (rest.foldl wakeOne (lm, kept)).1.Pass (rest.foldl wakeOne (lm, kept)).2 [] ∧
        ∀ other, lm.Keeps (rest.foldl wakeOne (lm, kept)).1 other := by
  intro rest
  induction rest generalizing lm kept with
  | nil => exact fun pass => ⟨pass, Keeps.refl lm⟩
  | cons w rest ih =>
    intro pass
    obtain ⟨next, keeps⟩ := wakeOne_pass pass
    obtain ⟨final, keeps'⟩ := ih next
    exact ⟨final, fun other => (keeps other).trans (keeps' other)⟩

/-- The lock table between two critical sections. -/
def Sound (lm : LockManager) : Prop := lm.Pass lm.waiters []

/-- A state in which requests of the queue may have become grantable. -/
def Stirred (lm : LockManager) : Prop := lm.Pass [] lm.waiters

theorem Sound.stirred (sound : lm.Sound) : lm.Stirred := by
  have same : lm.waiters ++ [] = [] ++ lm.waiters := by simp
  refine ⟨sound.apart, sound.held, ?_, by simp, ?_, ?_⟩
  · rw [← same]
    exact sound.proper
  · rw [← same]
    exact sound.ordered
  · rw [← same]
    exact sound.steady

theorem wakePass_sound (stirred : lm.Stirred) :
    lm.wakePass.Sound ∧ ∀ other, lm.Keeps lm.wakePass other := by
  obtain ⟨final, keeps⟩ := foldl_wakeOne_pass stirred
  refine ⟨final.congr rfl rfl, fun other => ?_⟩
  exact (keeps other).trans (Keeps.of_same rfl rfl other)

theorem wakeLoop_sound {fuel : Nat} (sound : lm.Sound) :
    (wakeLoop fuel lm).Sound ∧ ∀ other, lm.Keeps (wakeLoop fuel lm) other := by
  induction fuel generalizing lm with
  | zero => exact ⟨sound, Keeps.refl lm⟩
  | succ fuel ih =>
    obtain ⟨next, keeps⟩ := wakePass_sound sound.stirred
    simp only [wakeLoop]
    split
    · exact ⟨next, keeps⟩
    · obtain ⟨final, keeps'⟩ := ih next
      exact ⟨final, fun other => (keeps other).trans (keeps' other)⟩

/-- Refreshing the wait-for graph changes nothing else. -/
theorem refreshWaits_eq (lm : LockManager) (affected : Target → Bool) :
    ∃ waitFor, lm.refreshWaits affected = { lm with waitFor := waitFor } := by
  suffices fold : ∀ (ws : List Waiter) (acc : LockManager),
      (∃ waitFor, acc = { lm with waitFor := waitFor }) →
      ∃ waitFor, ws.foldl (fun acc w =>
        if affected w.target then acc.setWait w.txn (acc.blockers w.txn w.mode w.target)
        else acc) acc = { lm with waitFor := waitFor } from
    fold lm.waiters lm ⟨lm.waitFor, rfl⟩
  intro ws
  induction ws with
  | nil => exact fun acc start => start
  | cons w ws ih =>
    rintro acc ⟨waitFor, rfl⟩
    refine ih _ ?_
    beta_reduce
    by_cases selected : affected w.target
    · rw [if_pos selected]
      exact ⟨_, rfl⟩
    · rw [if_neg selected]
      exact ⟨_, rfl⟩

theorem refreshWaits_sound {affected : Target → Bool} (sound : lm.Sound) :
    (lm.refreshWaits affected).Sound := by
  obtain ⟨waitFor, same⟩ := refreshWaits_eq lm affected
  rw [same]
  exact Pass.congr sound rfl rfl

theorem refreshWaits_keeps (lm : LockManager) (affected : Target → Bool) (other : TxnID) :
    lm.Keeps (lm.refreshWaits affected) other := by
  obtain ⟨waitFor, same⟩ := refreshWaits_eq lm affected
  rw [same]
  exact Keeps.of_same rfl rfl other

/-- **Waking settles the queue**: afterwards no queued request can be granted. -/
theorem wake_sound (stirred : lm.Stirred) : lm.wake.Sound ∧ ∀ other, lm.Keeps lm.wake other := by
  have settled : (wakeLoop lm.waiters.length lm).Sound ∧
      ∀ other, lm.Keeps (wakeLoop lm.waiters.length lm) other := by
    cases queue : lm.waiters with
    | nil =>
      have sound : lm.Sound := by
        have stirred' := stirred
        rw [Stirred, queue] at stirred'
        rw [Sound, queue]
        exact stirred'
      exact ⟨sound, Keeps.refl lm⟩
    | cons w ws =>
      obtain ⟨next, keeps⟩ := wakePass_sound stirred
      simp only [length_cons, wakeLoop]
      split
      · exact ⟨next, keeps⟩
      · obtain ⟨final, keeps'⟩ := wakeLoop_sound next
        exact ⟨final, fun other => (keeps other).trans (keeps' other)⟩
  refine ⟨refreshWaits_sound settled.1, fun other => ?_⟩
  exact (settled.2 other).trans (refreshWaits_keeps _ _ other)

/-! ## The critical sections -/

/-- The condition on a request: a range does not end in an empty slice, and a
shared key request does not come from a transaction that holds the key
exclusively or has asked for it exclusively. -/
def Careful (lm : LockManager) : Op → Prop
  | .acquire txn key mode _ =>
    mode = .shared → lm.heldMode txn key ≠ some .exclusive ∧
      ∀ w ∈ lm.waiters, w.txn = txn → w.target = .key key → w.mode ≠ .exclusive
  | .acquireRange _ _ «end» _ _ => «end» ≠ some []
  | .cancel _ _ => True
  | .releaseAll _ => True

/-- A request that meets the condition joins the requests still to be tried. -/
theorem Sound.arrive (sound : lm.Sound) (proper : ¬ w.target.EmptyEnd)
    (steady : ¬ lm.Weakens w.txn w.mode w.target)
    (ordered : ∀ earlier ∈ lm.waiters, ¬ Downgrades earlier w) : lm.Pass lm.waiters [w] := by
  refine { sound with proper := ?_, ordered := ?_, steady := ?_ }
  · refine forall_mem_append.mpr ⟨fun w' old => sound.proper w' (mem_append_left _ old), ?_⟩
    exact forall_mem_singleton.mpr proper
  · rw [pairwise_append]
    refine ⟨by simpa using sound.ordered, pairwise_singleton _ _, ?_⟩
    intro earlier old later new
    rw [mem_singleton.mp new]
    exact ordered earlier old
  · refine forall_mem_append.mpr ⟨fun w' old => sound.steady w' (mem_append_left _ old), ?_⟩
    exact forall_mem_singleton.mpr steady

theorem Pass.sublist {kept' : List Waiter} (pass : lm.Pass kept []) (sub : kept'.Sublist kept) :
    lm.Pass kept' [] := by
  have sub' : (kept' ++ []).Sublist (kept ++ []) := by simpa using sub
  exact ⟨pass.apart, pass.held, fun w member => pass.proper w (sub'.subset member),
    fun w member => pass.blocked w (sub.subset member), pass.ordered.sublist sub',
    fun w member => pass.steady w (sub'.subset member)⟩

theorem removeWaiter_sound (id : Nat) (sound : lm.Sound) : (lm.removeWaiter id).Sound :=
  Pass.congr (Pass.sublist sound filter_sublist) rfl rfl

/-- A request that is found blocked waits, or is refused again. -/
theorem wait_sound {queued asked : Target}
    (queue : lm.Pass (lm.waiters ++ [{ id := lm.nextWaiter, txn, mode, target := queued, tag }]) []) :
    (lm.wait txn mode tag queued asked).1.Sound ∧
      ∀ other, lm.Keeps (lm.wait txn mode tag queued asked).1 other := by
  have waiting : ((lm.enqueue txn mode tag queued).setWait txn
      (lm.blockers txn mode asked)).Sound := queue.congr rfl rfl
  unfold wait
  dsimp only
  split
  · refine ⟨?_, Keeps.of_same rfl rfl⟩
    exact Pass.congr (removeWaiter_sound lm.nextWaiter waiting) rfl rfl
  · exact ⟨waiting, Keeps.of_same rfl rfl⟩

theorem acquire_sound {key : Key} (sound : lm.Sound)
    (careful : lm.Careful (.acquire txn key mode tag)) :
    (lm.acquire txn key mode tag).1.Sound ∧
      ∀ other, lm.Keeps (lm.acquire txn key mode tag).1 other := by
  let w : Waiter := { id := lm.nextWaiter, txn, mode, target := .key key, tag }
  have arrived : lm.Pass lm.waiters [w] := by
    refine sound.arrive id ?_ ?_
    · rintro ⟨shared, strong⟩
      exact (careful shared).1 strong
    · rintro earlier member ⟨same, target, exclusive, shared, _⟩
      exact (careful shared).2 earlier member same target exclusive
  unfold acquire
  split
  next granted =>
    obtain ⟨next, keeps⟩ := arrived.grant tag granted
    have after : (lm.grantKey txn key mode tag).Sound := next
    simp only [refreshWaitsForKey]
    refine ⟨refreshWaits_sound after, fun other => ?_⟩
    exact (keeps other).trans (refreshWaits_keeps _ _ other)
  next refused => exact wait_sound (arrived.keep (Bool.eq_false_iff.mpr refused))

theorem canGrant_stored (held : ∀ ⦃txn mode t⦄, lm.Holds txn mode t → ¬ t.EmptyEnd)
    (proper : ¬ t.EmptyEnd) : lm.canGrant txn mode t.stored = lm.canGrant txn mode t := by
  rw [Bool.eq_iff_iff, canGrant_iff, canGrant_iff]
  refine forall_congr' fun other => forall_congr' fun mode' => forall_congr' fun t' =>
    forall_congr' fun holds => ?_
  rw [Target.meets_comm t' t.stored, Target.meets_stored proper (held holds),
    Target.meets_comm t' t]

theorem acquireRange_sound {start «end» : Option Key} (sound : lm.Sound)
    (careful : lm.Careful (.acquireRange txn start «end» mode tag)) :
    (lm.acquireRange txn start «end» mode tag).1.Sound ∧
      ∀ other, lm.Keeps (lm.acquireRange txn start «end» mode tag).1 other := by
  have arrive : ∀ t : Target, ¬ t.EmptyEnd → (∃ s e, t = .range s e) →
      lm.Pass lm.waiters [{ id := lm.nextWaiter, txn, mode, target := t, tag }] := by
    rintro t proper ⟨s, e, rfl⟩
    refine sound.arrive proper id ?_
    rintro earlier member ⟨_, _, _, _, k, isKey⟩
    cases isKey
  unfold acquireRange
  split
  next granted =>
    obtain ⟨next, keeps⟩ := (arrive (.range start «end») careful ⟨_, _, rfl⟩).grant tag granted
    have after : (lm.grantRange txn start «end» mode tag).Sound := next
    simp only [refreshWaitsForRange]
    refine ⟨refreshWaits_sound after, fun other => ?_⟩
    exact (keeps other).trans (refreshWaits_keeps _ _ other)
  next refused =>
  have proper : ¬ (Target.range start «end»).EmptyEnd := careful
  have refused' : lm.canGrant txn mode (Target.range start «end»).stored = false := by
    rw [canGrant_stored sound.held proper]
    exact Bool.eq_false_iff.mpr refused
  have queued := arrive (Target.range start «end»).stored (Target.not_emptyEnd_stored _)
    ⟨_, _, rfl⟩
  exact wait_sound (queued.keep refused')

/-- The locks before the queue is woken by a release. -/
def released (lm : LockManager) (txn : TxnID) : LockManager :=
  { lm with
    keys := AList.filterMapVal (fun _ st => releaseHolder txn st) lm.keys
    ranges := lm.ranges.filter fun r => r.txn != txn }

theorem heldMode_released (lm : LockManager) (txn other : TxnID) (key : Key) :
    (lm.released txn).heldMode other key = if other = txn then none else lm.heldMode other key := by
  simp only [heldMode, released, AList.lookup_filterMapVal]
  cases lm.keys.lookup key with
  | none => simp
  | some st =>
    simp only [Option.bind_some, releaseHolder]
    rw [← AList.lookup_erase_if st.holders txn other]
    split
    next empty =>
      have nobody : (st.holders.erase txn).lookup other = none := by
        rw [AList.lookup_eq_none]
        intro member
        have key : other ∈ (st.holders.erase txn).entries.keys := member
        rw [List.isEmpty_iff.mp empty] at key
        cases key
      rw [nobody]
      rfl
    next => rfl

/-- A release drops the locks of its transaction and no others. -/
theorem holds_released {other : TxnID} :
    (lm.released txn).Holds other mode t ↔ lm.Holds other mode t ∧ other ≠ txn := by
  cases t with
  | key k =>
    simp only [Holds, heldMode_released]
    by_cases same : other = txn <;> simp [same]
  | range s e =>
    constructor
    · rintro ⟨r, member, rfl, rest⟩
      obtain ⟨old, differ⟩ := mem_filter.mp member
      exact ⟨⟨r, old, rfl, rest⟩, by simpa using differ⟩
    · rintro ⟨⟨r, member, rfl, rest⟩, differ⟩
      exact ⟨r, mem_filter.mpr ⟨member, by simpa using differ⟩, rfl, rest⟩

theorem released_stirred (txn : TxnID) (sound : lm.Sound) : (lm.released txn).Stirred := by
  have old := sound.stirred
  refine ⟨?_, ?_, old.proper, by simp, old.ordered, ?_⟩
  · intro txn₁ txn₂ mode₁ mode₂ t₁ t₂ holds₁ holds₂
    exact old.apart (holds_released.mp holds₁).1 (holds_released.mp holds₂).1
  · intro txn₁ mode₁ t₁ holds₁
    exact old.held (holds_released.mp holds₁).1
  intro w member weakens
  refine old.steady w member ?_
  cases asked : w.target with
  | range s e =>
    rw [asked] at weakens
    exact weakens
  | key k =>
    rw [asked] at weakens
    have holds : (lm.released txn).Holds w.txn .exclusive (.key k) := weakens.2
    exact ⟨weakens.1, (holds_released.mp holds).1⟩

theorem releaseAll_sound (sound : lm.Sound) :
    (lm.releaseAll txn).Sound ∧ ∀ other, other ≠ txn → lm.Keeps (lm.releaseAll txn) other := by
  have loosened := released_stirred txn sound
  have stirred : ((lm.released txn).clearWait txn).Stirred := Pass.congr loosened rfl rfl
  obtain ⟨woken, keeps⟩ := wake_sound stirred
  refine ⟨woken, fun other differ => ?_⟩
  have kept : lm.Keeps ((lm.released txn).clearWait txn) other := by
    intro mode t holds
    have holds' : (lm.released txn).Holds other mode t := holds_released.mpr ⟨holds, differ⟩
    exact Keeps.of_same rfl rfl other holds'
  exact kept.trans (keeps other)

theorem cancel_sound {id : Nat} (sound : lm.Sound) : (lm.removeCanceledWaiter id txn).1.Sound ∧
      ∀ other, lm.Keeps (lm.removeCanceledWaiter id txn).1 other := by
  unfold removeCanceledWaiter
  split
  · refine ⟨?_, Keeps.of_same rfl rfl⟩
    exact Pass.congr (removeWaiter_sound id sound) rfl rfl
  · exact ⟨sound, Keeps.refl lm⟩

/-! ## Runs -/

/-- One critical section. -/
def Step (lm : LockManager) (op : Op) (lm' : LockManager) : Prop := lm.apply op = lm'

/-- **One critical section** keeps the invariant, and keeps what every
transaction holds unless it is the release of that transaction. -/
theorem apply_sound {op : Op} (sound : lm.Sound) (careful : lm.Careful op) :
    (lm.apply op).Sound ∧ ∀ other, op ≠ .releaseAll other → lm.Keeps (lm.apply op) other := by
  cases op with
  | acquire txn key mode tag =>
    obtain ⟨after, keeps⟩ := acquire_sound sound careful
    exact ⟨after, fun other _ => keeps other⟩
  | acquireRange txn start «end» mode tag =>
    obtain ⟨after, keeps⟩ := acquireRange_sound sound careful
    exact ⟨after, fun other _ => keeps other⟩
  | cancel id txn =>
    obtain ⟨after, keeps⟩ := cancel_sound sound
    exact ⟨after, fun other _ => keeps other⟩
  | releaseAll txn =>
    obtain ⟨after, keeps⟩ := releaseAll_sound sound
    refine ⟨after, fun other differ => keeps other ?_⟩
    rintro rfl
    exact differ rfl

theorem newLockManager_sound : newLockManager.Sound := by
  have nothing : ∀ {txn mode t}, ¬ newLockManager.Holds txn mode t := by
    intro txn mode t holds
    cases t with
    | key k => cases holds
    | range s e =>
      obtain ⟨r, member, _⟩ := holds
      cases member
  refine ⟨fun _ _ _ _ _ _ holds => absurd holds nothing, fun _ _ _ holds => absurd holds nothing,
    ?_, ?_, ?_, ?_⟩ <;> simp [newLockManager]

theorem run_sound {ops : List Op} (run : Run Step Careful newLockManager ops lm) : lm.Sound := by
  refine run.invariant LockManager.Sound newLockManager_sound ?_
  rintro before op after sound careful rfl
  exact (apply_sound sound careful).1

theorem run_keeps {ops : List Op} (sound : lm.Sound) (run : Run Step Careful lm ops lm')
    (pending : .releaseAll txn ∉ ops) : lm.Keeps lm' txn := by
  suffices both : lm'.Sound ∧ lm.Keeps lm' txn from both.2
  induction run with
  | nil => exact ⟨sound, Keeps.refl lm txn⟩
  | @snoc ops before after op run careful taken ih =>
    obtain rfl := taken
    rw [mem_append, not_or, mem_singleton] at pending
    obtain ⟨sound', keeps⟩ := ih pending.1
    obtain ⟨sound'', keeps'⟩ := apply_sound sound' careful
    exact ⟨sound'', keeps.trans (keeps' txn (Ne.symm pending.2))⟩

/-- **Compatibility and strength.** In every run whose requests meet the
condition, no two transactions hold conflicting locks in any state reached, and
what a transaction holds in one state it holds at least as strongly in every
later one, up to its release. -/
theorem guarded_run_keeps_locks {ops later : List Op} {lm lm' : LockManager} {txn : TxnID}
    (run : Run Step Careful newLockManager ops lm) (more : Run Step Careful lm later lm')
    (pending : .releaseAll txn ∉ later) : lm'.Compatible ∧ lm.Keeps lm' txn :=
  ⟨(run_sound (run.append more)).apart.compatible, run_keeps (run_sound run) more pending⟩

/-- A transaction reads a key, a second one waits to write it, and the first
one's lock survives. -/
theorem guarded_run_keeps_locks_blocked_writer :
    ((newLockManager.apply (.acquire 1 [7] .shared "")).apply
      (.acquire 2 [7] .exclusive "")).Compatible ∧
    (newLockManager.apply (.acquire 1 [7] .shared "")).Keeps
      ((newLockManager.apply (.acquire 1 [7] .shared "")).apply (.acquire 2 [7] .exclusive "")) 1 := by
  have reads : newLockManager.Careful (.acquire 1 [7] .shared "") :=
    fun _ => ⟨by decide, by decide⟩
  have writes : (newLockManager.apply (.acquire 1 [7] .shared "")).Careful
      (.acquire 2 [7] .exclusive "") := nofun
  exact guarded_run_keeps_locks (.snoc .nil reads rfl) (.snoc .nil writes rfl) (by decide)

/-- A shared request of the exclusive holder leaves it with the shared mode,
and a second transaction then reads beside it. A range with an empty end is
granted beside an exclusive key of another transaction and then covers it. -/
theorem lock_weakened_and_range_widened : (∃ lm, Run Step unguarded newLockManager
        [.acquire 1 [7] .exclusive "", .acquire 1 [7] .shared "", .acquire 2 [7] .shared ""] lm ∧
      lm.heldMode 1 [7] = some .shared ∧ lm.heldMode 2 [7] = some .shared) ∧
    (∃ lm, Run Step unguarded newLockManager
        [.acquire 1 [7] .exclusive "", .acquireRange 2 none (some []) .shared ""] lm ∧
      ¬ lm.Compatible) := by
  refine ⟨⟨_, .snoc (.snoc (.snoc .nil trivial rfl) trivial rfl) trivial rfl, by decide, by decide⟩,
    ⟨_, .snoc (.snoc .nil trivial rfl) trivial rfl, ?_⟩⟩
  intro compatible
  have first : ((newLockManager.apply (.acquire 1 [7] .exclusive "")).apply
      (.acquireRange 2 none (some []) .shared "")).Holds 1 .exclusive (.key [7]) := rfl
  have second : ((newLockManager.apply (.acquire 1 [7] .exclusive "")).apply
      (.acquireRange 2 none (some []) .shared "")).Holds 2 .shared (.range none none) :=
    ⟨⟨2, .shared, none, none, ""⟩, by decide, rfl, rfl, rfl, rfl⟩
  have apart := compatible first second (by decide) rfl
  rw [Set.disjoint_left] at apart
  exact apart (rfl : ([7] : Key) = [7]) rfl

end LockManager

end NextSQL.Txn
