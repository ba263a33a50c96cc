import NextSQL.Txn.LockRuns

/-!
# The queue of waiting requests

A queued request leaves the queue when `wake` grants it or when its own wait is
cancelled. `wake` runs passes until one of them grants nothing, so whatever
has been released, no request that stays queued could be granted
(`wake_settled`). The other operations do not wake anybody: they only add locks
or take requests away, so nothing becomes grantable through them, with one
exception. A shared request of the transaction that holds the key exclusively
replaces the exclusive lock by a shared one, and a reader that waits for the
key stays queued although it could be granted.

On every run without such a request no queued request can be granted in any
state reached, and a request whose blockers have all released has been granted
(`no_lost_wakeup`).
-/

namespace NextSQL.Txn

open GuardedRuns List

namespace LockManager

variable {lm lm' : LockManager} {txn other : TxnID} {mode held : Mode} {tag : String}
  {t t' : Target} {w : Waiter}

/-! ## Who blocks a request -/

/-- `other` holds a lock that clashes with the request. -/
def Blocks (lm : LockManager) (other txn : TxnID) (mode : Mode) (t : Target) : Prop :=
  other ≠ txn ∧ ∃ held t', lm.Holds other held t' ∧ t'.meets t = true ∧ held.clash mode = true

/-- A request is refused when somebody blocks it. -/
theorem refused_iff : lm.canGrant txn mode t = false ↔ ∃ other, lm.Blocks other txn mode t := by
  rw [← Bool.not_eq_true, canGrant_iff]
  constructor
  · intro clash
    push Not at clash
    obtain ⟨other, held, t', holds, differ, overlap, clashes⟩ := clash
    exact ⟨other, differ, held, t', holds, overlap, by simpa using clashes⟩
  · rintro ⟨other, differ, held, t', holds, overlap, clashes⟩ apart
    rw [apart other held t' holds differ overlap] at clashes
    cases clashes

/-! ## What grants leave in place -/

/-- A grant takes no lock away, though it may change its mode. -/
theorem Holds.grant (holds : lm.Holds other held t') :
    ∃ held', (lm.grant txn mode tag t).Holds other held' t' := by
  by_cases unlike : ∀ k, t = .key k → t' = .key k → other ≠ txn
  · exact ⟨held, holds.grant_of_unlike unlike⟩
  push Not at unlike
  obtain ⟨k, rfl, rfl, rfl⟩ := unlike
  refine ⟨mode, ?_⟩
  simp only [Holds, LockManager.grant, heldMode_grantKey, and_self, if_true]

theorem holds_grant : (lm.grant txn mode tag t).Holds txn mode t.stored := by
  cases t with
  | key k => simp only [Target.stored, Holds, grant, heldMode_grantKey, and_self, if_true]
  | range s e =>
    exact ⟨_, mem_append_right _ (mem_singleton.mpr rfl), rfl, rfl, rfl, rfl⟩

theorem holds_congr (keys : lm'.keys = lm.keys) (ranges : lm'.ranges = lm.ranges) :
    lm'.Holds txn mode t ↔ lm.Holds txn mode t := by
  cases t with
  | key k => rw [Holds, Holds, heldMode, heldMode, keys]
  | range s e => rw [Holds, Holds, ranges]

/-! ## Waking -/

/-- `lm'` is `lm` after the requests in `granted` have been granted. -/
structure Woken (lm : LockManager) (granted : List Waiter) (lm' : LockManager) : Prop where
  queue : lm.waiters.Perm (granted ++ lm'.waiters)
  gained : ∀ w ∈ granted, ∃ mode, lm'.Holds w.txn mode w.target.stored
  kept : ∀ ⦃txn mode t⦄, lm.Holds txn mode t → ∃ mode', lm'.Holds txn mode' t
  origin : ∀ ⦃txn mode t⦄, lm'.Holds txn mode t →
    lm.Holds txn mode t ∨ ∃ w ∈ granted, w.txn = txn ∧ w.target.stored = t
  cleared : ∀ w ∈ granted, lm'.waitFor.lookup w.txn = none
  waits : ∀ txn, (∀ w ∈ granted, w.txn ≠ txn) → lm'.waitFor.lookup txn = lm.waitFor.lookup txn
  nextWaiter : lm'.nextWaiter = lm.nextWaiter

theorem Woken.refl (lm : LockManager) : lm.Woken [] lm :=
  ⟨.refl _, by simp, fun _ mode _ holds => ⟨mode, holds⟩, fun _ _ _ holds => .inl holds, by simp,
    fun _ _ => rfl, rfl⟩

theorem Woken.trans {lm'' : LockManager} {first second : List Waiter} (one : lm.Woken first lm')
    (two : lm'.Woken second lm'') : lm.Woken (first ++ second) lm'' := by
  refine ⟨?_, ?_, ?_, ?_, ?_, ?_, two.nextWaiter.trans one.nextWaiter⟩
  · rw [append_assoc]
    exact one.queue.trans (two.queue.append_left first)
  · intro w member
    obtain early | late := mem_append.mp member
    · obtain ⟨mode, holds⟩ := one.gained w early
      exact two.kept holds
    · exact two.gained w late
  · intro txn mode t holds
    obtain ⟨mode', holds'⟩ := one.kept holds
    exact two.kept holds'
  · intro txn mode t holds
    obtain before | ⟨w, member, rest⟩ := two.origin holds
    · obtain start | ⟨w, member, rest⟩ := one.origin before
      · exact .inl start
      · exact .inr ⟨w, mem_append_left _ member, rest⟩
    · exact .inr ⟨w, mem_append_right _ member, rest⟩
  · intro w member
    by_cases again : ∃ w' ∈ second, w'.txn = w.txn
    · obtain ⟨w', late, same⟩ := again
      rw [← same]
      exact two.cleared w' late
    push Not at again
    rw [two.waits w.txn again]
    obtain early | late := mem_append.mp member
    · exact one.cleared w early
    · exact absurd rfl (again w late)
  · intro txn others
    rw [two.waits txn fun w member => others w (mem_append_right _ member),
      one.waits txn fun w member => others w (mem_append_left _ member)]

/-- The lock table in the middle of a pass. -/
def midPass (acc : LockManager × List Waiter) (rest : List Waiter) : LockManager :=
  { acc.1 with waiters := acc.2 ++ rest }

/-- One request of a pass. -/
theorem wakeOne_woken (acc : LockManager × List Waiter) (w : Waiter) (rest : List Waiter) :
    (acc.1.canGrant w.txn w.mode w.target ∧
        (midPass acc (w :: rest)).Woken [w] (midPass (wakeOne acc w) rest)) ∨
      (acc.1.canGrant w.txn w.mode w.target = false ∧ wakeOne acc w = (acc.1, acc.2 ++ [w])) := by
  cases test : acc.1.canGrant w.txn w.mode w.target with
  | false => exact .inr ⟨rfl, by rw [wakeOne, if_neg (by simp [test])]⟩
  | true =>
    refine .inl ⟨rfl, ?_⟩
    rw [wakeOne, if_pos test]
    have same : ∀ {txn mode t}, (midPass ((acc.1.grant w.txn w.mode w.tag w.target).clearWait
        w.txn, acc.2) rest).Holds txn mode t ↔
        (acc.1.grant w.txn w.mode w.tag w.target).Holds txn mode t := holds_congr rfl rfl
    have waitFor : (midPass ((acc.1.grant w.txn w.mode w.tag w.target).clearWait
        w.txn, acc.2) rest).waitFor = acc.1.waitFor.erase w.txn := by
      cases w.target <;> rfl
    refine ⟨perm_middle, ?_, ?_, ?_, ?_, ?_, ?_⟩
    · intro w' member
      obtain rfl := mem_singleton.mp member
      exact ⟨w'.mode, same.mpr holds_grant⟩
    · intro txn mode t holds
      have holds' : acc.1.Holds txn mode t := (holds_congr rfl rfl).mp holds
      obtain ⟨mode', after⟩ := holds'.grant
      exact ⟨mode', same.mpr after⟩
    · intro txn mode t holds
      obtain old | ⟨rfl, -, rfl⟩ := (same.mp holds).of_grant
      · exact .inl ((holds_congr rfl rfl).mpr old)
      · exact .inr ⟨w, mem_singleton.mpr rfl, rfl, rfl⟩
    · intro w' member
      obtain rfl := mem_singleton.mp member
      rw [waitFor, AList.lookup_erase_if, if_pos rfl]
    · intro txn others
      rw [waitFor, AList.lookup_erase_if,
        if_neg (others w (mem_singleton.mpr rfl)).symm]
      rfl
    · cases target : w.target <;> simp [midPass, clearWait, grant, grantKey, grantRange]

/-- A pass grants some requests; if it grants none it leaves everything as it is and every
request is refused. -/
theorem foldl_wakeOne_woken (rest : List Waiter) : ∀ acc : LockManager × List Waiter,
    ∃ granted, (midPass acc rest).Woken granted (midPass (rest.foldl wakeOne acc) []) ∧
      (granted = [] → rest.foldl wakeOne acc = (acc.1, acc.2 ++ rest) ∧
        ∀ w ∈ rest, acc.1.canGrant w.txn w.mode w.target = false) := by
  induction rest with
  | nil => exact fun acc => ⟨[], Woken.refl _, fun _ => ⟨by simp, by simp⟩⟩
  | cons w rest ih =>
    intro acc
    rw [foldl_cons]
    obtain ⟨granted, woken, idle⟩ := ih (wakeOne acc w)
    obtain ⟨-, one⟩ | ⟨refused, same⟩ := wakeOne_woken acc w rest
    · exact ⟨[w] ++ granted, one.trans woken, by simp⟩
    rw [same] at woken idle ⊢
    have shift : midPass (acc.1, acc.2 ++ [w]) rest = midPass acc (w :: rest) := by
      simp [midPass]
    rw [shift] at woken
    refine ⟨granted, woken, fun none => ?_⟩
    obtain ⟨unchanged, others⟩ := idle none
    refine ⟨by rw [unchanged]; simp, fun w' member => ?_⟩
    obtain rfl | later := mem_cons.mp member
    · exact refused
    · exact others w' later

/-- No queued request can be granted. -/
def Settled (lm : LockManager) : Prop :=
  ∀ w ∈ lm.waiters, lm.canGrant w.txn w.mode w.target = false

theorem wakePass_woken (lm : LockManager) :
    ∃ granted, lm.Woken granted lm.wakePass ∧ (granted = [] → lm.wakePass.Settled) := by
  obtain ⟨granted, woken, idle⟩ := foldl_wakeOne_woken lm.waiters (lm, [])
  have after : midPass (lm.waiters.foldl wakeOne (lm, [])) [] = lm.wakePass := by
    simp [midPass, wakePass]
  have before : midPass (lm, []) lm.waiters = lm := rfl
  rw [after, before] at woken
  refine ⟨granted, woken, fun none => ?_⟩
  obtain ⟨unchanged, refused⟩ := idle none
  intro w member
  rw [wakePass, unchanged] at member ⊢
  exact refused w (by simpa using member)

/-- The passes end with a settled queue. -/
theorem wakeLoop_woken (fuel : Nat) : ∀ {lm : LockManager}, lm.waiters.length ≤ fuel →
    ∃ granted, lm.Woken granted (wakeLoop fuel lm) ∧ (wakeLoop fuel lm).Settled := by
  induction fuel with
  | zero =>
    intro lm short
    have none : lm.waiters = [] := length_eq_zero_iff.mp (Nat.le_zero.mp short)
    refine ⟨[], Woken.refl lm, fun w member => ?_⟩
    rw [wakeLoop, none] at member
    cases member
  | succ fuel ih =>
    intro lm short
    obtain ⟨granted, woken, idle⟩ := wakePass_woken lm
    have lengths := woken.queue.length_eq
    rw [length_append] at lengths
    rw [wakeLoop]
    split
    next same =>
      exact ⟨granted, woken, idle (length_eq_zero_iff.mp (by omega))⟩
    next shorter =>
    have fewer : lm.wakePass.waiters.length ≤ fuel := by omega
    obtain ⟨more, woken', settled⟩ := ih fewer
    exact ⟨granted ++ more, woken.trans woken', settled⟩

theorem settled_of_refused (keys : lm'.keys = lm.keys) (ranges : lm'.ranges = lm.ranges)
    (refused : ∀ w ∈ lm'.waiters, lm.canGrant w.txn w.mode w.target = false) : lm'.Settled := by
  intro w member
  rw [← refused w member, Bool.eq_iff_iff, canGrant_iff, canGrant_iff]
  simp only [holds_congr keys ranges]

theorem Settled.refreshWaits (settled : lm.Settled) (affected : Target → Bool) :
    (lm.refreshWaits affected).Settled := by
  obtain ⟨waitFor, same⟩ := refreshWaits_eq lm affected
  rw [same]
  exact settled_of_refused rfl rfl settled

/-- **Waking settles the queue**, whatever has been released. -/
theorem wake_settled (lm : LockManager) :
    ∃ granted woken, lm.Woken granted woken ∧ woken.Settled ∧
      lm.wake = woken.refreshWaits fun _ => true := by
  obtain ⟨granted, woken, settled⟩ := wakeLoop_woken lm.waiters.length (le_rfl)
  exact ⟨granted, _, woken, settled, rfl⟩

/-! ## What an operation does -/

/-- The request an operation makes. -/
def asks : Op → Option (TxnID × Mode × String × Target)
  | .acquire txn key mode tag => some (txn, mode, tag, .key key)
  | .acquireRange txn start «end» mode tag => some (txn, mode, tag, .range start «end»)
  | .cancel _ _ => none
  | .releaseAll _ => none

/-- The table while a request waits. -/
def waiting (lm : LockManager) (txn : TxnID) (mode : Mode) (tag : String) (t : Target) :
    LockManager :=
  (lm.enqueue txn mode tag t.stored).setWait txn (lm.blockers txn mode t)

/-- The outcome of a request, and the table after it. -/
def request (lm : LockManager) (txn : TxnID) (mode : Mode) (tag : String) (t : Target) :
    LockManager × Outcome :=
  if lm.canGrant txn mode t then
    ((lm.grant txn mode tag t).refreshWaits fun queued => t.meets queued, .granted)
  else lm.wait txn mode tag t.stored t

/-- Who meets a key. -/
theorem key_meets (key : Key) : (Target.key key).meets = fun
    | .key waiting => waiting == key
    | .range start «end» => inRange key start «end» := by
  funext queued
  cases queued with
  | key k => exact Bool.beq_comm
  | range s e => rfl

theorem range_meets (start «end» : Option Key) : (Target.range start «end»).meets = fun
    | .key waiting => inRange waiting start «end»
    | .range start' end' => rangeOverlap start «end» start' end' := by
  funext queued
  cases queued with
  | key k => rfl
  | range s e => exact rangeOverlap_comm _ _ _ _

theorem acquire_eq_request (lm : LockManager) (txn : TxnID) (key : Key) (mode : Mode)
    (tag : String) : lm.acquire txn key mode tag = lm.request txn mode tag (.key key) := by
  rw [request, key_meets]
  rfl

theorem acquireRange_eq_request (lm : LockManager) (txn : TxnID) (start «end» : Option Key)
    (mode : Mode) (tag : String) :
    lm.acquireRange txn start «end» mode tag = lm.request txn mode tag (.range start «end») := by
  rw [request, range_meets]
  rfl

theorem apply_cases (lm : LockManager) (op : Op) :
    (∃ txn mode tag t, asks op = some (txn, mode, tag, t) ∧
        lm.apply op = (lm.request txn mode tag t).1) ∨
      (∃ id txn, op = .cancel id txn ∧ (∃ w ∈ lm.waiters, w.id = id) ∧
        lm.apply op = (lm.removeWaiter id).clearWait txn) ∨
      (∃ id txn, op = .cancel id txn ∧ (∀ w ∈ lm.waiters, w.id ≠ id) ∧ lm.apply op = lm) ∨
      ∃ txn, op = .releaseAll txn ∧ lm.apply op = ((lm.released txn).clearWait txn).wake := by
  cases op with
  | acquire txn key mode tag =>
    exact .inl ⟨txn, mode, tag, _, rfl, by rw [apply, acquire_eq_request]⟩
  | acquireRange txn start «end» mode tag =>
    exact .inl ⟨txn, mode, tag, _, rfl, by rw [apply, acquireRange_eq_request]⟩
  | cancel id txn =>
    by_cases queued : ∃ w ∈ lm.waiters, w.id = id
    · refine .inr (.inl ⟨id, txn, rfl, queued, ?_⟩)
      rw [apply, removeCanceledWaiter, if_pos (by simpa using queued)]
    · refine .inr (.inr (.inl ⟨id, txn, rfl, by simpa using queued, ?_⟩))
      rw [apply, removeCanceledWaiter, if_neg (by simpa using queued)]
  | releaseAll txn => exact .inr (.inr (.inr ⟨txn, rfl, rfl⟩))

theorem request_cases (lm : LockManager) (txn : TxnID) (mode : Mode) (tag : String) (t : Target) :
    (lm.canGrant txn mode t ∧ lm.request txn mode tag t =
        ((lm.grant txn mode tag t).refreshWaits fun queued => t.meets queued, .granted)) ∨
      (lm.canGrant txn mode t = false ∧ (lm.waiting txn mode tag t).hasCycle txn = false ∧
        lm.request txn mode tag t = (lm.waiting txn mode tag t, .queued lm.nextWaiter)) ∨
      (lm.canGrant txn mode t = false ∧ (lm.waiting txn mode tag t).hasCycle txn ∧
        lm.request txn mode tag t =
          (((lm.waiting txn mode tag t).removeWaiter lm.nextWaiter).clearWait txn, .deadlock)) := by
  cases test : lm.canGrant txn mode t with
  | true => exact .inl ⟨rfl, by rw [request, if_pos test]⟩
  | false =>
    have refused : ¬ lm.canGrant txn mode t = true := by simp [test]
    cases cycle : (lm.waiting txn mode tag t).hasCycle txn with
    | true =>
      refine .inr (.inr ⟨rfl, rfl, ?_⟩)
      rw [request, if_neg refused, wait]
      exact if_pos cycle
    | false =>
      refine .inr (.inl ⟨rfl, rfl, ?_⟩)
      rw [request, if_neg refused, wait]
      exact if_neg (Bool.eq_false_iff.mp cycle)

/-! ## What holds of every table -/

theorem Target.stored_stored (t : Target) : t.stored.stored = t.stored := by
  cases t with
  | key k => rfl
  | range s e =>
    simp only [Target.stored, cloneBytes_of_ne (cloneBytes_ne s), cloneBytes_of_ne (cloneBytes_ne e)]

/-- The requests in the queue and the granted ranges are copies, and the queue knows the
numbers it has given out. -/
structure Tidy (lm : LockManager) : Prop where
  held : ∀ ⦃txn mode t⦄, lm.Holds txn mode t → ¬ t.EmptyEnd
  stored : ∀ w ∈ lm.waiters, w.target.stored = w.target
  fresh : ∀ w ∈ lm.waiters, w.id < lm.nextWaiter

theorem Tidy.refreshWaits (tidy : lm.Tidy) (affected : Target → Bool) :
    (lm.refreshWaits affected).Tidy := by
  obtain ⟨waitFor, same⟩ := refreshWaits_eq lm affected
  rw [same]
  exact ⟨fun _ _ _ holds => tidy.held ((holds_congr rfl rfl).mp holds), tidy.stored, tidy.fresh⟩

theorem grant_queue (lm : LockManager) (txn : TxnID) (mode : Mode) (tag : String) (t : Target) :
    (lm.grant txn mode tag t).waiters = lm.waiters ∧
      (lm.grant txn mode tag t).nextWaiter = lm.nextWaiter ∧
      (lm.grant txn mode tag t).waitFor = lm.waitFor := by
  cases t <;> exact ⟨rfl, rfl, rfl⟩

section

variable (tidy : lm.Tidy)

include tidy

theorem Tidy.grant : (lm.grant txn mode tag t).Tidy := by
  obtain ⟨waiters, nextWaiter, -⟩ := lm.grant_queue txn mode tag t
  refine ⟨fun other held t' holds => ?_, ?_, ?_⟩
  · obtain old | ⟨-, -, rfl⟩ := holds.of_grant
    · exact tidy.held old
    · exact Target.not_emptyEnd_stored t
  · rw [waiters]
    exact tidy.stored
  · rw [waiters, nextWaiter]
    exact tidy.fresh

theorem Tidy.waiting : (lm.waiting txn mode tag t).Tidy := by
  refine ⟨fun _ _ _ holds => tidy.held ((holds_congr rfl rfl).mp holds), ?_, ?_⟩
  · exact forall_mem_append.mpr ⟨tidy.stored, forall_mem_singleton.mpr (Target.stored_stored t)⟩
  · refine forall_mem_append.mpr ⟨fun w old => Nat.lt_succ_of_lt (tidy.fresh w old), ?_⟩
    exact forall_mem_singleton.mpr (Nat.lt_succ_self lm.nextWaiter)

theorem Tidy.removeWaiter (id : Nat) (txn : TxnID) : ((lm.removeWaiter id).clearWait txn).Tidy :=
  ⟨fun _ _ _ holds => tidy.held ((holds_congr rfl rfl).mp holds),
    fun w member => tidy.stored w (mem_of_mem_filter member),
    fun w member => tidy.fresh w (mem_of_mem_filter member)⟩

theorem Tidy.woken {granted : List Waiter} (woken : lm.Woken granted lm') : lm'.Tidy := by
  have queued : ∀ w ∈ lm'.waiters, w ∈ lm.waiters := fun w member =>
    woken.queue.mem_iff.mpr (mem_append_right _ member)
  refine ⟨fun txn mode t holds => ?_, fun w member => tidy.stored w (queued w member), ?_⟩
  · obtain old | ⟨w, -, -, rfl⟩ := woken.origin holds
    · exact tidy.held old
    · exact Target.not_emptyEnd_stored w.target
  · rw [woken.nextWaiter]
    exact fun w member => tidy.fresh w (queued w member)

theorem Tidy.released (txn : TxnID) : ((lm.released txn).clearWait txn).Tidy :=
  ⟨fun _ _ _ holds => tidy.held (holds_released.mp ((holds_congr rfl rfl).mp holds)).1,
    tidy.stored, tidy.fresh⟩

theorem Tidy.apply (op : Op) : (lm.apply op).Tidy := by
  rcases lm.apply_cases op with ⟨txn, mode, tag, t, -, same⟩ | ⟨id, txn, -, -, same⟩ |
    ⟨id, txn, -, -, same⟩ | ⟨txn, -, same⟩
  · rw [same]
    obtain ⟨-, done⟩ | ⟨-, -, done⟩ | ⟨-, -, done⟩ := lm.request_cases txn mode tag t
    · rw [done]
      exact tidy.grant.refreshWaits _
    · rw [done]
      exact tidy.waiting
    · rw [done]
      exact tidy.waiting.removeWaiter _ _
  · rw [same]
    exact tidy.removeWaiter id txn
  · rw [same]
    exact tidy
  · obtain ⟨granted, woken, grants, -, done⟩ := wake_settled ((lm.released txn).clearWait txn)
    rw [same, done]
    exact ((tidy.released txn).woken grants).refreshWaits _

end

theorem newLockManager_tidy : newLockManager.Tidy :=
  ⟨newLockManager_sound.held, by simp [newLockManager], by simp [newLockManager]⟩

/-- A request leaves the queue when it is granted or cancelled. -/
theorem Tidy.leaves (tidy : lm.Tidy) (op : Op) (queued : w ∈ lm.waiters)
    (gone : w ∉ (lm.apply op).waiters) :
    (∃ txn, op = .cancel w.id txn) ∨ ∃ mode, (lm.apply op).Holds w.txn mode w.target := by
  rcases lm.apply_cases op with ⟨txn, mode, tag, t, -, same⟩ | ⟨id, txn, rfl, -, same⟩ |
    ⟨id, txn, -, -, same⟩ | ⟨txn, -, same⟩
  · refine absurd ?_ gone
    rw [same]
    obtain ⟨-, done⟩ | ⟨-, -, done⟩ | ⟨-, -, done⟩ := lm.request_cases txn mode tag t
    · obtain ⟨waitFor, refreshed⟩ :=
        refreshWaits_eq (lm.grant txn mode tag t) t.meets
      rw [done, refreshed]
      exact (lm.grant_queue txn mode tag t).1 ▸ queued
    · rw [done]
      exact mem_append_left _ queued
    · rw [done]
      refine mem_filter.mpr ⟨mem_append_left _ queued, ?_⟩
      simpa using (tidy.fresh w queued).ne
  · rw [same] at gone
    by_cases mine : w.id = id
    · exact .inl ⟨txn, by rw [mine]⟩
    · exact absurd (mem_filter.mpr ⟨queued, by simpa using mine⟩) gone
  · rw [same] at gone
    exact absurd queued gone
  obtain ⟨granted, woken, grants, -, done⟩ := wake_settled ((lm.released txn).clearWait txn)
  obtain ⟨waitFor, refreshed⟩ := refreshWaits_eq woken fun _ => true
  rw [same, done, refreshed] at gone ⊢
  have isGranted : w ∈ granted :=
    (mem_append.mp (grants.queue.mem_iff.mp queued)).resolve_right gone
  obtain ⟨mode, holds⟩ := grants.gained w isGranted
  rw [tidy.stored w queued] at holds
  exact .inr ⟨mode, (holds_congr rfl rfl).mpr holds⟩

/-! ## Settled queues -/

/-- The condition on a request: it does not replace an exclusive lock of its transaction by
a shared one. -/
def Upholds (lm : LockManager) : Op → Prop
  | .acquire txn key mode _ => ¬ lm.Weakens txn mode (.key key)
  | .acquireRange _ _ _ _ _ => True
  | .cancel _ _ => True
  | .releaseAll _ => True

/-- A copy meets what the request meets, also if the request is the empty range whose copy
is unbounded. -/
theorem Target.meets_of_stored (proper : ¬ t'.EmptyEnd) (overlap : t'.meets t) :
    t'.meets t.stored := by
  by_cases emptyEnd : t.EmptyEnd
  · cases t with
    | key k => exact overlap
    | range s e =>
      obtain rfl : e = some [] := emptyEnd
      cases t' with
      | key k' =>
        have inside : inRange k' s (some []) := overlap
        exact absurd ((inRange_iff.mp inside).2 [] rfl) (not_lt_nil k')
      | range s' e' =>
        obtain ⟨below, above⟩ := rangeOverlap_iff.mp overlap
        have unbounded : rangeOverlap (cloneBytes s) none s' e' ↔ _ := rangeOverlap_iff
        refine unbounded.mpr ⟨fun _ _ isEnd => (nomatch isEnd), fun b a isEnd isStart => ?_⟩
        by_cases emptyStart : s = some []
        · subst emptyStart
          simp [cloneBytes] at isStart
        · rw [cloneBytes_of_ne emptyStart] at isStart
          exact above b a isEnd isStart
  · rwa [Target.meets_comm, Target.meets_stored emptyEnd proper, Target.meets_comm]

theorem Settled.apply {op : Op} (settled : lm.Settled) (tidy : lm.Tidy)
    (upholds : lm.Upholds op) : (lm.apply op).Settled := by
  rcases lm.apply_cases op with ⟨txn, mode, tag, t, asked, same⟩ | ⟨id, txn, -, -, same⟩ |
    ⟨id, txn, -, -, same⟩ | ⟨txn, -, same⟩
  · have steady : ¬ lm.Weakens txn mode t := by
      cases op with
      | acquire txn' key mode' tag' =>
        cases asked
        exact upholds
      | acquireRange txn' s e mode' tag' =>
        cases asked
        exact id
      | cancel id txn' | releaseAll txn' => cases asked
    rw [same]
    obtain ⟨-, done⟩ | ⟨refused, -, done⟩ | ⟨-, -, done⟩ := lm.request_cases txn mode tag t
    · rw [done]
      refine Settled.refreshWaits (fun w member => ?_) _
      rw [(lm.grant_queue txn mode tag t).1] at member
      rw [Bool.eq_false_iff]
      intro granted
      have before := canGrant_of_keeps (keeps_grant steady) granted
      rw [settled w member] at before
      cases before
    · rw [done]
      refine settled_of_refused rfl rfl fun w member => ?_
      obtain old | new := mem_append.mp member
      · exact settled w old
      -- the copy of a request that was refused is refused too
      rw [mem_singleton.mp new]
      obtain ⟨other, differ, held, t', holds, overlap, clashes⟩ := refused_iff.mp refused
      exact refused_iff.mpr ⟨other, differ, held, t', holds,
        Target.meets_of_stored (tidy.held holds) overlap, clashes⟩
    rw [done]
    refine settled_of_refused rfl rfl fun w member => ?_
    obtain ⟨queued, notLast⟩ := mem_filter.mp member
    obtain old | new := mem_append.mp queued
    · exact settled w old
    · rw [mem_singleton.mp new] at notLast
      simp at notLast
  · rw [same]
    exact settled_of_refused rfl rfl fun w member => settled w (mem_of_mem_filter member)
  · rw [same]
    exact settled
  · obtain ⟨granted, woken, -, quiet, done⟩ := wake_settled ((lm.released txn).clearWait txn)
    rw [same, done]
    exact quiet.refreshWaits _

/-! ## Runs -/

variable {ops : List Op} {guard : LockManager → Op → Prop}

theorem run_settled (run : Run Step Upholds newLockManager ops lm) : lm.Settled := by
  refine (run.invariant (fun lm => lm.Tidy ∧ lm.Settled) ⟨newLockManager_tidy, ?_⟩ ?_).2
  · exact fun w member => (nomatch member)
  · rintro before op after ⟨tidy, settled⟩ upholds rfl
    exact ⟨tidy.apply op, settled.apply tidy upholds⟩

/-- A request that is no longer queued, and was not cancelled, has been granted on the
way. -/
theorem granted_on_the_way {later : List Op} (tidy : lm.Tidy) (queued : w ∈ lm.waiters)
    (more : Run Step guard lm later lm') (pending : ∀ txn, .cancel w.id txn ∉ later)
    (gone : w ∉ lm'.waiters) :
    ∃ earlier rest mid, later = earlier ++ rest ∧ Run Step guard lm earlier mid ∧
      ∃ mode, mid.Holds w.txn mode w.target := by
  suffices both : lm'.Tidy ∧ (w ∉ lm'.waiters → _) from both.2 gone
  clear gone
  induction more with
  | nil => exact ⟨tidy, absurd queued⟩
  | @snoc ops before after op run meets taken ih =>
    obtain ⟨tidy', ih⟩ := ih fun txn member => pending txn (mem_append_left _ member)
    obtain rfl := taken
    refine ⟨tidy'.apply op, fun gone => ?_⟩
    by_cases still : w ∈ before.waiters
    · refine ⟨ops ++ [op], [], _, by simp, .snoc run meets rfl, ?_⟩
      obtain ⟨txn, rfl⟩ | holds := tidy'.leaves op still gone
      · exact absurd (mem_append_right _ (mem_singleton.mpr rfl)) (pending txn)
      · exact holds
    · obtain ⟨earlier, rest, mid, rfl, first, holds⟩ := ih still
      exact ⟨earlier, rest ++ [op], mid, by simp, first, holds⟩

end LockManager

end NextSQL.Txn
