import NextSQL.Undo.Log

/-!
# Chains of undo records

`Linked` says that a head leads through a given list of records. When links
lead to smaller ids, the chain the log computes from a head is the linked list
(`chainFrom_of_linked`), appending a record extends the list of its transaction
and no other, and forgetting a transaction drops only its own records
(`forgetTxn_dropped`).
-/

namespace NextSQL.Undo

open Function

/-- The records from `head` on are the given ones. -/
def Linked (recs : UndoID → Option Record) : UndoID → List Record → Prop
  | head, [] => head = 0
  | head, r :: rest => head ≠ 0 ∧ recs head = some r ∧ Linked recs r.prev rest

/-- What holds of the records and heads of a log. -/
structure Log.WellLinked (l : Log) : Prop where
  positive : 0 < l.nextID
  below : ∀ {u r}, l.recs u = some r → u < l.nextID
  nonzero : l.recs 0 = none
  prev : ∀ {u r}, l.recs u = some r → r.prev < u
  owner : ∀ {u r p}, l.recs u = some r → l.recs r.prev = some p → p.txn = r.txn
  head : ∀ txn, l.byTxn txn < l.nextID
  headOwner : ∀ {txn r}, l.recs (l.byTxn txn) = some r → r.txn = txn

variable {recs recs' : UndoID → Option Record}

/-- With enough fuel the chain is the linked list. -/
theorem chainFrom_of_linked (prev : ∀ {u r}, recs u = some r → r.prev < u) :
    ∀ {records : List Record} {head : UndoID} {fuel : Nat}, Linked recs head records →
      head < fuel → Log.chainFrom recs fuel head = records := by
  intro records
  induction records with
  | nil =>
    intro head fuel linked enough
    obtain ⟨fuel, rfl⟩ : ∃ n, fuel = n + 1 := ⟨fuel - 1, by lia⟩
    have zero : head = 0 := linked
    rw [Log.chainFrom, if_pos zero]
  | cons r rest ih =>
    intro head fuel linked enough
    obtain ⟨nonzero, found, linked⟩ := linked
    obtain ⟨fuel, rfl⟩ : ∃ n, fuel = n + 1 := ⟨fuel - 1, by lia⟩
    have smaller := prev found
    rw [Log.chainFrom, if_neg nonzero, found]
    dsimp only
    rw [ih linked (by lia)]

theorem Linked.mono : ∀ {records : List Record} {head : UndoID}, Linked recs head records →
    (∀ u r, r ∈ records → recs u = some r → recs' u = some r) → Linked recs' head records
  | [], _, linked, _ => linked
  | r :: _, head, ⟨nonzero, found, linked⟩, kept =>
    ⟨nonzero, kept head r List.mem_cons_self found,
      linked.mono fun u r' member => kept u r' (List.mem_cons_of_mem _ member)⟩

/-- What a rollback has to reverse is what was logged, if the records from the
last one on are the logged ones and the targets are theirs. -/
theorem Log.undoWork_of_linked {l : Log} (prev : ∀ {u r}, l.recs u = some r → r.prev < u)
    {lastUndo : UndoID} {targets : List TreeID} {records : List Record}
    (linked : Linked l.recs lastUndo records) (below : lastUndo < l.nextID)
    (lengths : records.length = targets.length) :
    l.undoWork lastUndo targets = some (targets.reverse.zip records) := by
  have chain : l.chain lastUndo = records := chainFrom_of_linked prev linked below
  unfold Log.undoWork
  rw [chain, if_pos lengths]

/-! ## Appending -/

/-- The record as the log stores it. -/
def Log.stored (l : Log) (r : Record) : Record :=
  { r with id := l.nextID, prev := if r.prev = 0 then l.byTxn r.txn else r.prev }

theorem Log.append_eq (l : Log) (r : Record) :
    l.append r = ({ nextID := l.nextID + 1
                    recs := update l.recs l.nextID (some (l.stored r))
                    byTxn := update l.byTxn r.txn l.nextID }, l.nextID) :=
  rfl

theorem Log.WellLinked.append {l : Log} (linked : l.WellLinked) {r : Record}
    (head : r.prev = 0 ∨ r.prev = l.byTxn r.txn) : (l.append r).1.WellLinked := by
  have stored : (l.stored r).prev = l.byTxn r.txn := by
    unfold Log.stored
    obtain zero | same := head
    · simp [zero]
    · by_cases zero : r.prev = 0
      · simp [zero]
      · simp [same]
  have below := linked.head r.txn
  rw [Log.append_eq]
  constructor
  all_goals dsimp only
  · exact Nat.succ_pos _
  · intro u r' found
    by_cases same : u = l.nextID
    · rw [same]
      exact lt_add_one _
    · rw [update_of_ne same] at found
      exact Nat.lt_succ_of_lt (linked.below found)
  · rw [update_of_ne (ne_of_lt linked.positive)]
    exact linked.nonzero
  · intro u r' found
    obtain ⟨same, found⟩ | ⟨_, found⟩ := update_cases found
    · cases found
      rw [stored, same]
      exact below
    · exact linked.prev found
  · intro u r' p found found'
    have old : r'.prev ≠ l.nextID := by
      obtain ⟨_, found⟩ | ⟨_, found⟩ := update_cases found
      · cases found
        rw [stored]
        exact ne_of_lt below
      · have := linked.prev found
        have := linked.below found
        lia
    rw [update_of_ne old] at found'
    obtain ⟨_, found⟩ | ⟨_, found⟩ := update_cases found
    · cases found
      rw [stored] at found'
      exact linked.headOwner found'
    · exact linked.owner found found'
  · intro txn
    by_cases same : txn = r.txn
    · rw [same, update_self]
      exact lt_add_one _
    · rw [update_of_ne same]
      exact Nat.lt_succ_of_lt (linked.head txn)
  intro txn r' found
  by_cases same : txn = r.txn
  · rw [same, update_self, update_self] at found
    cases found
    exact same.symm
  rw [update_of_ne same] at found
  have := linked.head txn
  rw [update_of_ne (by lia)] at found
  exact linked.headOwner found

/-! ## Forgetting -/

theorem dropFrom_dropped {txn : TxnID} :
    ∀ {fuel : Nat} {recs : UndoID → Option Record} {head : UndoID},
      (∀ {u r p}, recs u = some r → recs r.prev = some p → p.txn = r.txn) →
      (∀ {r}, recs head = some r → r.txn = txn) →
      ∀ u, Log.dropFrom fuel recs head u = recs u ∨
        (Log.dropFrom fuel recs head u = none ∧ ∃ r, recs u = some r ∧ r.txn = txn) := by
  intro fuel
  induction fuel with
  | zero => exact fun _ _ u => .inl rfl
  | succ fuel ih =>
    intro recs head owner headOwner u
    rw [Log.dropFrom]
    split
    · exact .inl rfl
    cases found : recs head with
    | none => exact .inl rfl
    | some r =>
      dsimp only
      have older : ∀ {u r'}, update recs head none u = some r' →
          recs u = some r' := by
        intro u r' found'
        by_cases same : u = head
        · rw [same, update_self] at found'
          cases found'
        · rwa [update_of_ne same] at found'
      have rest := @ih (update recs head none) r.prev
        (fun found' found'' => owner (older found') (older found''))
        (fun found' => (owner found (older found')).trans (headOwner found)) u
      have here : recs head = some r ∧ r.txn = txn := ⟨found, headOwner found⟩
      by_cases same : u = head
      · subst same
        right
        refine ⟨?_, r, here⟩
        obtain equal | ⟨gone, _⟩ := rest
        · rw [equal, update_self]
        · exact gone
      · rw [update_of_ne same] at rest
        exact rest

/-- Forgetting a transaction drops records of its own. -/
theorem Log.WellLinked.forgetTxn_dropped {l : Log} (linked : l.WellLinked) (txn : TxnID) (u : UndoID) :
    (l.forgetTxn txn).recs u = l.recs u ∨
      ((l.forgetTxn txn).recs u = none ∧ ∃ r, l.recs u = some r ∧ r.txn = txn) := by
  unfold Log.forgetTxn
  split
  · exact .inl rfl
  · exact dropFrom_dropped linked.owner linked.headOwner u

theorem Log.WellLinked.forgetTxn_older {l : Log} (linked : l.WellLinked) {txn : TxnID} {u : UndoID}
    {r : Record} (found : (l.forgetTxn txn).recs u = some r) : l.recs u = some r := by
  obtain same | ⟨gone, _⟩ := linked.forgetTxn_dropped txn u
  · rwa [same] at found
  · rw [gone] at found
    cases found

theorem Log.forgetTxn_nextID (l : Log) (txn : TxnID) : (l.forgetTxn txn).nextID = l.nextID := by
  unfold Log.forgetTxn
  split <;> rfl

theorem Log.forgetTxn_byTxn (l : Log) (txn other : TxnID) :
    (l.forgetTxn txn).byTxn other = l.byTxn other ∨ (l.forgetTxn txn).byTxn other = 0 := by
  unfold Log.forgetTxn
  split
  · exact .inl rfl
  by_cases same : other = txn
  · right
    dsimp only
    rw [same, update_self]
  · left
    dsimp only
    rw [update_of_ne same]

theorem Log.forgetTxn_byTxn_of_ne (l : Log) {txn other : TxnID} (differ : other ≠ txn) :
    (l.forgetTxn txn).byTxn other = l.byTxn other := by
  unfold Log.forgetTxn
  split
  · rfl
  · dsimp only
    rw [update_of_ne differ]

theorem Log.WellLinked.forgetTxn {l : Log} (linked : l.WellLinked) (txn : TxnID) :
    (l.forgetTxn txn).WellLinked := by
  refine ⟨by rw [l.forgetTxn_nextID]; exact linked.positive, ?_, ?_,
    fun found => linked.prev (linked.forgetTxn_older found),
    fun found found' => linked.owner (linked.forgetTxn_older found) (linked.forgetTxn_older found'),
    ?_, ?_⟩
  · intro u r found
    rw [l.forgetTxn_nextID]
    exact linked.below (linked.forgetTxn_older found)
  · obtain same | ⟨gone, _⟩ := linked.forgetTxn_dropped txn 0
    · rw [same]
      exact linked.nonzero
    · exact gone
  · intro other
    rw [l.forgetTxn_nextID]
    obtain same | zero := l.forgetTxn_byTxn txn other
    · rw [same]
      exact linked.head other
    · rw [zero]
      exact linked.positive
  intro other r found
  have found' := linked.forgetTxn_older found
  obtain same | zero := l.forgetTxn_byTxn txn other
  · rw [same] at found'
    exact linked.headOwner found'
  · rw [zero, linked.nonzero] at found'
    cases found'

end NextSQL.Undo
