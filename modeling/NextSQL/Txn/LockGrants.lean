import Mathlib.Data.Set.BooleanAlgebra
import Mathlib.Order.CompletePartialOrder
import NextSQL.Txn.Lock

/-!
# What the grant tests decide

What a lock covers is a set of keys. Two locks of different transactions
conflict when one of them is exclusive and a key lies in both. The grant tests
refuse exactly the requests that would meet a clashing lock (`canGrant_iff`),
and a grant adds the request as it is stored (`Holds.of_grant`).

Two details of the code matter for what follows. The stored request is a copy,
and the copy of an empty slice is nil, so a range whose end is empty is stored
as an unbounded one (`Target.stored`, `Target.EmptyEnd`). The mode a grant
records is always the mode asked for (`grantedMode_eq`), so a shared request
replaces an exclusive lock of the same transaction (`Weakens`).
-/

namespace NextSQL.Txn

/-! ## Modes -/

/-- `a` is no stronger than `b`. -/
def Mode.AtMost (a b : Mode) : Prop := a = .exclusive → b = .exclusive

theorem Mode.AtMost.no_clash {a b want : Mode} (le : a.AtMost b) (apart : b.clash want = false) :
    a.clash want = false := by
  cases a with
  | shared => cases b <;> cases want <;> first | rfl | cases apart
  | exclusive =>
    rw [le rfl] at apart
    exact apart

/-! ## What a lock covers -/

/-- The keys a request covers. -/
def Target.keys : Target → Set Key
  | .key k => {k}
  | .range start «end» => { k | inRange k start «end» = true }

/-- The test the grant functions make before they compare modes. -/
def Target.meets : Target → Target → Bool
  | .key held, .key asked => held == asked
  | .key held, .range start «end» => inRange held start «end»
  | .range start «end», .key asked => inRange asked start «end»
  | .range start «end», .range start' end' => rangeOverlap start' end' start «end»

theorem inRange_iff {key : Key} {start «end» : Option Key} : inRange key start «end» ↔
      (∀ s, start = some s → s ≤ key) ∧ (∀ e, «end» = some e → key < e) := by
  unfold inRange
  cases start <;> cases «end» <;> simp

theorem rangeOverlap_iff {a0 a1 b0 b1 : Option Key} : rangeOverlap a0 a1 b0 b1 ↔
      (∀ a b, a1 = some a → b0 = some b → b < a) ∧ (∀ b a, b1 = some b → a0 = some a → a < b) := by
  unfold rangeOverlap
  cases a0 <;> cases a1 <;> cases b0 <;> cases b1 <;> simp

theorem rangeOverlap_comm (a0 a1 b0 b1 : Option Key) :
    rangeOverlap a0 a1 b0 b1 = rangeOverlap b0 b1 a0 a1 := by
  rw [Bool.eq_iff_iff, rangeOverlap_iff, rangeOverlap_iff]
  exact and_comm

/-- The overlap test is symmetric. -/
theorem Target.meets_comm (t t' : Target) : t.meets t' = t'.meets t := by
  cases t with
  | key k =>
    cases t' with
    | key k' => exact Bool.beq_comm
    | range s e => rfl
  | range s e =>
    cases t' with
    | key k' => rfl
    | range s' e' => exact rangeOverlap_comm _ _ _ _

variable {t t' : Target}

theorem Target.meets_of_mem {shared : Key} (left : shared ∈ t.keys) (right : shared ∈ t'.keys) :
    t.meets t' := by
  cases t with
  | key k =>
    cases t' with
    | key k' =>
      simp only [Target.keys, Set.mem_singleton_iff] at left right
      simp [Target.meets, ← left, ← right]
    | range s e =>
      simp only [Target.keys, Set.mem_singleton_iff] at left
      subst left
      exact right
  | range s e =>
    cases t' with
    | key k' =>
      simp only [Target.keys, Set.mem_singleton_iff] at right
      subst right
      exact left
    | range s' e' =>
      obtain ⟨aboveStart, belowEnd⟩ := inRange_iff.mp left
      obtain ⟨aboveStart', belowEnd'⟩ := inRange_iff.mp right
      refine rangeOverlap_iff.mpr ⟨?_, ?_⟩
      · intro a b isEnd isStart
        exact lt_of_le_of_lt (aboveStart b isStart) (belowEnd' a isEnd)
      · intro b a isEnd isStart
        exact lt_of_le_of_lt (aboveStart' a isStart) (belowEnd b isEnd)

/-- The request as the queue and the granted ranges store it. -/
def Target.stored : Target → Target
  | .key k => .key k
  | .range start «end» => .range (cloneBytes start) (cloneBytes «end»)

/-- A range request whose end is an empty slice that is not nil. -/
def Target.EmptyEnd : Target → Prop
  | .key _ => False
  | .range _ «end» => «end» = some []

theorem cloneBytes_ne (b : Option Key) : cloneBytes b ≠ some [] := by
  unfold cloneBytes
  split
  · simp
  · assumption

theorem cloneBytes_of_ne {b : Option Key} (notEmpty : b ≠ some []) : cloneBytes b = b := by
  unfold cloneBytes
  split
  · exact absurd rfl notEmpty
  · rfl

theorem Target.not_emptyEnd_stored (t : Target) : ¬ t.stored.EmptyEnd := by
  cases t with
  | key k => exact id
  | range s e => exact cloneBytes_ne e

/-- A copy meets the same requests: nothing sorts below the empty key, so an
empty start and a nil start bound nothing. -/
theorem Target.meets_stored (proper : ¬ t.EmptyEnd) (proper' : ¬ t'.EmptyEnd) :
    t.stored.meets t' = t.meets t' := by
  cases t with
  | key k => rfl
  | range s e =>
    have sameEnd : cloneBytes e = e := cloneBytes_of_ne proper
    by_cases emptyStart : s = some []
    · subst emptyStart
      simp only [Target.stored, sameEnd]
      cases t' with
      | key k' =>
        have least : ([] : Key) ≤ k' := not_lt.mp (List.not_lt_nil k')
        simp [Target.meets, inRange, cloneBytes, least]
      | range s' e' =>
        cases e' with
        | none => simp [Target.meets, rangeOverlap]
        | some e' =>
          have positive : ([] : Key) < e' := by
            cases e' with
            | nil => exact absurd rfl proper'
            | cons x xs => exact List.nil_lt_cons x xs
          simp [Target.meets, rangeOverlap, cloneBytes, positive]
    · simp only [Target.stored, sameEnd, cloneBytes_of_ne emptyStart]

namespace LockManager

/-! ## Held locks -/

/-- `txn` holds a lock in `mode` on what the request `t` covers. -/
def Holds (lm : LockManager) (txn : TxnID) (mode : Mode) : Target → Prop
  | .key key => lm.heldMode txn key = some mode
  | .range start «end» =>
    ∃ r ∈ lm.ranges, r.txn = txn ∧ r.mode = mode ∧ r.start = start ∧ r.end = «end»

/-- No two transactions hold conflicting locks: where one of two locks is
exclusive, no key lies in both. -/
def Compatible (lm : LockManager) : Prop :=
  ∀ ⦃txn txn' : TxnID⦄ ⦃mode mode' : Mode⦄ ⦃t t' : Target⦄, lm.Holds txn mode t →
    lm.Holds txn' mode' t' → txn ≠ txn' → mode.clash mode' = true → Disjoint t.keys t'.keys

/-- The form of compatibility the grant tests maintain. -/
def NoMeeting (lm : LockManager) : Prop :=
  ∀ ⦃txn txn' : TxnID⦄ ⦃mode mode' : Mode⦄ ⦃t t' : Target⦄, lm.Holds txn mode t →
    lm.Holds txn' mode' t' → txn ≠ txn' → t.meets t' = true → mode.clash mode' = false

variable {lm : LockManager}

theorem NoMeeting.compatible (none : lm.NoMeeting) : lm.Compatible := by
  intro txn txn' mode mode' t t' holds holds' differ clash
  rw [Set.disjoint_left]
  intro key left right
  have apart := none holds holds' differ (Target.meets_of_mem left right)
  rw [apart] at clash
  cases clash

variable {txn : TxnID} {mode : Mode}

theorem holdersAllow_iff {holders : AList fun _ : TxnID => Mode} :
    holdersAllow holders txn mode ↔
      ∀ other held, holders.lookup other = some held → other ≠ txn → held.clash mode = false := by
  rw [holdersAllow, AList.all_entries_iff holders fun id held => id == txn || !held.clash mode]
  constructor
  · intro allowed other held found differ
    simpa [differ] using allowed other held found
  intro apart other held found
  by_cases same : other = txn
  · simp [same]
  · simp [apart other held found same]

theorem holds_key {key : Key} : lm.Holds txn mode (.key key) ↔
      ∃ st, lm.keys.lookup key = some st ∧ st.holders.lookup txn = some mode := by
  simp only [Holds, heldMode, Option.bind_eq_some_iff]

variable {t : Target}

/-- **The grant tests are exact**: a request is granted when no other
transaction holds a clashing lock that it meets. -/
theorem canGrant_iff : lm.canGrant txn mode t ↔
      ∀ other held t', lm.Holds other held t' → other ≠ txn → t'.meets t →
        held.clash mode = false := by
  have ranges : ∀ test : HeldRange → Bool,
      (lm.ranges.all fun r => r.txn == txn || !test r || !r.mode.clash mode) = true ↔
        ∀ r ∈ lm.ranges, r.txn ≠ txn → test r → r.mode.clash mode = false := by
    intro test
    rw [List.all_eq_true]
    refine forall₂_congr fun r _ => ?_
    by_cases same : r.txn = txn <;> cases test r <;> simp [same]
  cases t with
  | key key =>
    rw [canGrant, canGrantKey, Bool.and_eq_true, ranges]
    constructor
    · rintro ⟨holders, others⟩ other held t' holds differ overlap
      cases t' with
      | key key' =>
        obtain rfl : key' = key := by simpa [Target.meets] using overlap
        obtain ⟨st, found, holder⟩ := holds_key.mp holds
        rw [found] at holders
        exact holdersAllow_iff.mp holders other held holder differ
      | range start «end» =>
        obtain ⟨r, member, rfl, rfl, rfl, rfl⟩ := holds
        exact others r member differ overlap
    intro apart
    refine ⟨?_, ?_⟩
    · cases found : lm.keys.lookup key with
      | none => rfl
      | some st =>
        refine holdersAllow_iff.mpr fun other held holder differ => ?_
        exact apart other held (.key key) (holds_key.mpr ⟨st, found, holder⟩) differ
          (by simp [Target.meets])
    · intro r member differ overlap
      exact apart r.txn r.mode (.range r.start r.end) ⟨r, member, rfl, rfl, rfl, rfl⟩ differ
        overlap
  | range start «end» =>
    rw [canGrant, canGrantRange, Bool.and_eq_true, ranges,
      AList.all_entries_iff lm.keys fun key st =>
        !inRange key start «end» || holdersAllow st.holders txn mode]
    constructor
    · rintro ⟨holders, others⟩ other held t' holds differ overlap
      cases t' with
      | key key' =>
        obtain ⟨st, found, holder⟩ := holds_key.mp holds
        have allowed := holders key' st found
        have inside : inRange key' start «end» := overlap
        rw [inside] at allowed
        exact holdersAllow_iff.mp (by simpa using allowed) other held holder differ
      | range start' end' =>
        obtain ⟨r, member, rfl, rfl, rfl, rfl⟩ := holds
        exact others r member differ overlap
    intro apart
    refine ⟨?_, ?_⟩
    · intro key st found
      cases inside : inRange key start «end» with
      | false => rfl
      | true =>
        refine holdersAllow_iff.mpr fun other held holder differ => ?_
        exact apart other held (.key key) (holds_key.mpr ⟨st, found, holder⟩) differ inside
    · intro r member differ overlap
      exact apart r.txn r.mode (.range r.start r.end) ⟨r, member, rfl, rfl, rfl, rfl⟩ differ
        overlap

/-! ## What a grant changes -/

/-- The mode recorded is the mode asked for, also over a stronger one. -/
theorem grantedMode_eq (held : Option Mode) (mode : Mode) : grantedMode held mode = mode := by
  cases held with
  | none => rfl
  | some held => cases held <;> cases mode <;> rfl

theorem heldMode_grantKey (lm : LockManager) (txn other : TxnID) (key key' : Key) (mode : Mode)
    (tag : String) :
    (lm.grantKey txn key mode tag).heldMode other key' =
      if other = txn ∧ key' = key then some mode else lm.heldMode other key' := by
  unfold heldMode grantKey
  rw [AList.lookup_insert_if]
  by_cases same : key' = key
  · subst same
    rw [if_pos rfl, Option.bind_some, AList.lookup_insert_if, grantedMode_eq]
    cases lm.keys.lookup key' <;> simp
  · simp [same]

variable {tag : String} {other : TxnID} {held : Mode} {t' : Target}

/-- A grant adds the request as it is stored, and nothing else. -/
theorem Holds.of_grant (holds : (lm.grant txn mode tag t).Holds other held t') :
    lm.Holds other held t' ∨ (other = txn ∧ held = mode ∧ t' = t.stored) := by
  cases t with
  | key k =>
    cases t' with
    | key k' =>
      simp only [Holds, grant, heldMode_grantKey] at holds
      split at holds
      next same =>
        obtain ⟨rfl, rfl⟩ := same
        cases holds
        exact .inr ⟨rfl, rfl, rfl⟩
      next => exact .inl holds
    | range s e => exact .inl holds
  | range s e =>
    cases t' with
    | key k' => exact .inl holds
    | range s' e' =>
      obtain ⟨r, member, rfl, rfl, rfl, rfl⟩ := holds
      obtain old | new := List.mem_append.mp member
      · exact .inl ⟨r, old, rfl, rfl, rfl, rfl⟩
      · obtain rfl := List.mem_singleton.mp new
        exact .inr ⟨rfl, rfl, rfl⟩

/-- A grant changes no lock but the one of its transaction on its key. -/
theorem Holds.grant_of_unlike (holds : lm.Holds other held t')
    (unlike : ∀ k, t = .key k → t' = .key k → other ≠ txn) :
    (lm.grant txn mode tag t).Holds other held t' := by
  cases t with
  | key k =>
    cases t' with
    | key k' =>
      have differ : ¬ (other = txn ∧ k' = k) := by
        rintro ⟨own, rfl⟩
        exact unlike k' rfl rfl own
      simpa only [Holds, grant, heldMode_grantKey, differ, if_false] using holds
    | range s e => exact holds
  | range s e =>
    cases t' with
    | key k' => exact holds
    | range s' e' =>
      obtain ⟨r, member, rest⟩ := holds
      exact ⟨r, List.mem_append_left _ member, rest⟩

theorem canGrant_shared (granted : lm.canGrant txn mode t) :
    lm.canGrant txn .shared t := by
  refine canGrant_iff.mpr fun other held t' holds differ overlap => ?_
  have apart := canGrant_iff.mp granted other held t' holds differ overlap
  cases held with
  | shared => rfl
  | exclusive => cases apart

/-! ## Strength -/

/-- What `txn` holds in `lm` it holds in `lm'`, at least as strongly. -/
def Keeps (lm lm' : LockManager) (txn : TxnID) : Prop :=
  ∀ ⦃mode : Mode⦄ ⦃t : Target⦄, lm.Holds txn mode t →
    ∃ mode', lm'.Holds txn mode' t ∧ mode.AtMost mode'

theorem Keeps.refl (lm : LockManager) (txn : TxnID) : lm.Keeps lm txn :=
  fun mode _ holds => ⟨mode, holds, id⟩

variable {lm' : LockManager}

theorem Keeps.trans {lm'' : LockManager} (first : lm.Keeps lm' txn) (second : lm'.Keeps lm'' txn) :
    lm.Keeps lm'' txn := by
  intro mode t holds
  obtain ⟨mode', holds', le⟩ := first holds
  obtain ⟨mode'', holds'', le'⟩ := second holds'
  exact ⟨mode'', holds'', fun strong => le' (le strong)⟩

/-- The request would replace an exclusive lock of its transaction by a shared
one. -/
def Weakens (lm : LockManager) (txn : TxnID) (mode : Mode) : Target → Prop
  | .key key => mode = .shared ∧ lm.heldMode txn key = some .exclusive
  | .range _ _ => False

theorem keeps_grant (steady : ¬ lm.Weakens txn mode t) (other : TxnID) :
    lm.Keeps (lm.grant txn mode tag t) other := by
  intro held t' holds
  by_cases unlike : ∀ k, t = .key k → t' = .key k → other ≠ txn
  · exact ⟨held, holds.grant_of_unlike unlike, id⟩
  push Not at unlike
  obtain ⟨k, rfl, rfl, rfl⟩ := unlike
  refine ⟨mode, ?_, ?_⟩
  · simp only [Holds, grant, heldMode_grantKey, and_self, if_true]
  rintro rfl
  cases mode with
  | exclusive => rfl
  | shared => exact absurd ⟨rfl, holds⟩ steady

/-- Stronger locks grant less. -/
theorem canGrant_of_keeps (keeps : ∀ other, lm.Keeps lm' other)
    (granted : lm'.canGrant txn mode t) : lm.canGrant txn mode t := by
  refine canGrant_iff.mpr fun other held t' holds differ overlap => ?_
  obtain ⟨held', holds', le⟩ := keeps other holds
  exact le.no_clash (canGrant_iff.mp granted other held' t' holds' differ overlap)

end LockManager

end NextSQL.Txn
