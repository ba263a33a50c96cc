import Mathlib.Data.List.Dedup
import NextSQL.Lib.Acyclic
import NextSQL.Txn.LockQueue

/-!
# Deadlock detection

The wait-for graph has an edge from a queued transaction to each transaction
that blocks its request. A request that would have to wait is refused when the
depth-first search of `hasCycle` comes back to a transaction under visit. The
search is exact: it finds a cycle only where there is one (`cycle_of_hasCycle`),
and a start it clears lies on none (`not_cycle_of_hasCycle`).

The edges stay exact as long as every change of the locks refreshes all
requests it can block. Two things break that. A range request with an empty end
is stored as an unbounded range, and the requests this range blocks are not
refreshed. A transaction that makes a request while another of its requests is
queued is granted without a search, which can close a cycle, and loses the
edges of the queued request if the new one is refused.

On every run without such requests the edges are exact, the graph has no cycle
in any state reached, and a request is refused as a deadlock exactly when its
wait would close a cycle (`deadlock_detection_exact`).
-/

namespace NextSQL.Txn

open GuardedRuns Graphs Relation List

namespace LockManager

variable {lm lm' : LockManager} {txn other : TxnID} {mode : Mode} {tag : String} {t : Target}
  {w : Waiter}

/-- An edge of the wait-for graph. -/
def Waits (lm : LockManager) (a b : TxnID) : Prop := b ∈ (lm.waitFor.lookup a).getD []

instance (lm : LockManager) (a b : TxnID) : Decidable (lm.Waits a b) :=
  inferInstanceAs (Decidable (_ ∈ _))

/-! ## The search -/

section Search

variable {seen : AList fun _ : TxnID => Colour} {id : TxnID} {fuel : Nat}

/-- The step of the loop over the edges of a transaction. -/
def visit (lm : LockManager) (fuel : Nat) (acc : Bool × AList fun _ : TxnID => Colour)
    (next : TxnID) : Bool × AList fun _ : TxnID => Colour :=
  if acc.1 then acc else lm.dfs fuel acc.2 next

theorem dfs_of_unseen (unseen : seen.lookup id = none) : lm.dfs (fuel + 1) seen id =
      let visited := ((lm.waitFor.lookup id).getD []).foldl (lm.visit fuel)
        (false, seen.insert id .visiting)
      if visited.1 then visited else (false, visited.2.insert id .done) := by
  rw [dfs, unseen]
  rfl

/-- A search without result began at a transaction that was done, or its loop over the edges
had none. -/
theorem dfs_quiet (quiet : (lm.dfs (fuel + 1) seen id).1 = false) :
    seen.lookup id = some .done ∧ lm.dfs (fuel + 1) seen id = (false, seen) ∨
      seen.lookup id = none ∧ ∃ visited, ((lm.waitFor.lookup id).getD []).foldl (lm.visit fuel)
        (false, seen.insert id .visiting) = (false, visited) ∧
        lm.dfs (fuel + 1) seen id = (false, visited.insert id .done) := by
  cases colour : seen.lookup id with
  | some c =>
    rw [dfs, colour] at quiet ⊢
    cases c with
    | visiting => cases quiet
    | done => exact .inl ⟨rfl, rfl⟩
  | none =>
    rw [dfs_of_unseen colour] at quiet ⊢
    generalize ((lm.waitFor.lookup id).getD []).foldl (lm.visit fuel) _ = loop at quiet ⊢
    rcases loop with ⟨_ | _, visited⟩
    · exact .inr ⟨rfl, visited, rfl, rfl⟩
    · cases quiet

theorem foldl_visit_true (lm : LockManager) (fuel : Nat) (nexts : List TxnID)
    (seen : AList fun _ : TxnID => Colour) :
    nexts.foldl (lm.visit fuel) (true, seen) = (true, seen) := by
  induction nexts with
  | nil => rfl
  | cons next nexts ih =>
    rw [foldl_cons]
    exact ih

/-- A loop without result goes on after its first step, which has none either. -/
theorem foldl_visit_cons {next : TxnID} {nexts : List TxnID}
    (quiet : ((next :: nexts).foldl (lm.visit fuel) (false, seen)).1 = false) :
    ∃ seen', lm.dfs fuel seen next = (false, seen') ∧
      (next :: nexts).foldl (lm.visit fuel) (false, seen) =
        nexts.foldl (lm.visit fuel) (false, seen') := by
  rw [foldl_cons] at quiet ⊢
  have taken : lm.visit fuel (false, seen) next = lm.dfs fuel seen next := rfl
  rw [taken] at quiet ⊢
  rcases result : lm.dfs fuel seen next with ⟨_ | _, seen'⟩
  · exact ⟨seen', rfl, rfl⟩
  · rw [result, foldl_visit_true] at quiet
    cases quiet

/-- What a search without result adds to the colours: what was coloured stays so, and nothing
new is left under visit. -/
structure Extends (seen seen' : AList fun _ : TxnID => Colour) : Prop where
  keeps : ∀ {v c}, seen.lookup v = some c → seen'.lookup v = some c
  visiting : ∀ {v}, seen'.lookup v = some .visiting → seen.lookup v = some .visiting

variable {seen' : AList fun _ : TxnID => Colour}

theorem Extends.trans {seen'' : AList fun _ : TxnID => Colour} (first : Extends seen seen')
    (second : Extends seen' seen'') : Extends seen seen'' :=
  ⟨fun found => second.keeps (first.keeps found),
    fun found => first.visiting (second.visiting found)⟩

/-- A loop whose steps extend the colours extends them. -/
theorem foldl_visit_extends (step : ∀ seen next, (lm.dfs fuel seen next).1 = false →
      Extends seen (lm.dfs fuel seen next).2) (nexts : List TxnID) :
    ∀ {seen}, (nexts.foldl (lm.visit fuel) (false, seen)).1 = false →
      Extends seen (nexts.foldl (lm.visit fuel) (false, seen)).2 := by
  induction nexts with
  | nil => exact fun _ => ⟨id, id⟩
  | cons next nexts ih =>
    intro seen quiet
    obtain ⟨seen', result, later⟩ := foldl_visit_cons quiet
    have one := step seen next (by rw [result])
    rw [later] at quiet ⊢
    rw [result] at one
    exact one.trans (ih quiet)

theorem dfs_extends (fuel : Nat) : ∀ seen id, (lm.dfs fuel seen id).1 = false →
    Extends seen (lm.dfs fuel seen id).2 := by
  induction fuel with
  | zero => exact fun _ _ _ => ⟨fun found => found, fun found => found⟩
  | succ fuel ih =>
    intro seen id quiet
    obtain ⟨-, result⟩ | ⟨colour, visited, loop, result⟩ := dfs_quiet quiet
    · rw [result]
      exact ⟨fun found => found, fun found => found⟩
    rw [result]
    have inner := foldl_visit_extends ih _ (congrArg Prod.fst loop)
    rw [loop] at inner
    constructor
    · intro v c found
      have differ : v ≠ id := by
        rintro rfl
        rw [colour] at found
        cases found
      rw [AList.lookup_insert_if, if_neg differ]
      refine inner.keeps ?_
      rw [AList.lookup_insert_if, if_neg differ, found]
    intro v found
    rw [AList.lookup_insert_if] at found
    split at found
    · cases found
    next differ =>
      have before := inner.visiting found
      rwa [AList.lookup_insert_if, if_neg differ] at before

/-- A search that comes back to a transaction under visit has found a cycle. Everything under
visit leads to the transaction the search is at. -/
theorem dfs_true (fuel : Nat) : ∀ {seen id},
    (∀ v, seen.lookup v = some .visiting → TransGen lm.Waits v id) →
    (lm.dfs fuel seen id).1 → ∃ v, TransGen lm.Waits v v := by
  induction fuel with
  | zero => exact fun _ found => (nomatch found)
  | succ fuel ih =>
    intro seen id leads found
    cases colour : seen.lookup id with
    | some c =>
      rw [dfs, colour] at found
      cases c with
      | visiting => exact ⟨id, leads id colour⟩
      | done => cases found
    | none =>
      rw [dfs_of_unseen colour] at found
      dsimp only at found
      -- over the edges not yet followed, with the colours the loop has reached
      have loop : ∀ nexts : List TxnID, (∀ next ∈ nexts, lm.Waits id next) →
          ∀ {seen'}, (∀ v, seen'.lookup v = some .visiting → ReflTransGen lm.Waits v id) →
          (nexts.foldl (lm.visit fuel) (false, seen')).1 →
          ∃ v, TransGen lm.Waits v v := by
        intro nexts
        induction nexts with
        | nil => exact fun _ _ _ found => (nomatch found)
        | cons next nexts ihNexts =>
          intro edges seen' leads' found
          rw [foldl_cons] at found
          have taken : lm.visit fuel (false, seen') next = lm.dfs fuel seen' next := rfl
          rw [taken] at found
          rcases result : lm.dfs fuel seen' next with ⟨_ | _, seen''⟩
          · rw [result] at found
            refine ihNexts (fun n member => edges n (mem_cons_of_mem next member)) ?_ found
            intro v visiting
            have extended := lm.dfs_extends fuel seen' next (by rw [result])
            rw [result] at extended
            exact leads' v (extended.visiting visiting)
          · refine ih (fun v visiting => ?_) (congrArg Prod.fst result)
            exact .tail' (leads' v visiting) (edges next mem_cons_self)
      have start : ∀ v, (seen.insert id .visiting).lookup v = some .visiting →
          ReflTransGen lm.Waits v id := by
        intro v visiting
        rw [AList.lookup_insert_if] at visiting
        split at visiting
        next same => rw [same]
        next => exact (leads v visiting).to_reflTransGen
      split at found
      next cycle => exact loop _ (fun _ member => member) start cycle
      next => cases found

/-- What is done leads to nothing but what is done, and lies on no cycle. -/
def Finished (lm : LockManager) (seen : AList fun _ : TxnID => Colour) : Prop :=
  ∀ d, seen.lookup d = some .done →
    (∀ n, lm.Waits d n → seen.lookup n = some .done) ∧ ¬ TransGen lm.Waits d d

theorem Finished.reaches (finished : lm.Finished seen) {d v : TxnID}
    (walk : ReflTransGen lm.Waits d v) (isDone : seen.lookup d = some .done) :
    seen.lookup v = some .done := by
  induction walk with
  | refl => exact isDone
  | tail _ edge ih => exact (finished _ ih).1 _ edge

/-- A transaction comes under visit. -/
theorem Finished.start (finished : lm.Finished seen) (unseen : seen.lookup id = none) :
    lm.Finished (seen.insert id .visiting) := by
  intro d isDone
  rw [AList.lookup_insert_if] at isDone
  split at isDone
  · cases isDone
  refine ⟨fun n edge => ?_, (finished d isDone).2⟩
  have before := (finished d isDone).1 n edge
  have differ : n ≠ id := by
    rintro rfl
    rw [unseen] at before
    cases before
  rw [AList.lookup_insert_if, if_neg differ, before]

/-- A transaction under visit whose edges all lead to what is done is done itself: a cycle
through it would come back to it along transactions that are done. -/
theorem Finished.finish (finished : lm.Finished seen) (visiting : seen.lookup id = some .visiting)
    (edges : ∀ n, lm.Waits id n → seen.lookup n = some .done) :
    lm.Finished (seen.insert id .done) := by
  have mark : ∀ {n}, seen.lookup n = some .done → (seen.insert id .done).lookup n = some .done := by
    intro n found
    rw [AList.lookup_insert_if]
    split
    · rfl
    · exact found
  intro d isDone
  rw [AList.lookup_insert_if] at isDone
  split at isDone
  next same =>
    subst same
    refine ⟨fun n edge => mark (edges n edge), fun cycle => ?_⟩
    obtain ⟨n, first, back⟩ := TransGen.head'_iff.mp cycle
    have again := finished.reaches back (edges n first)
    rw [visiting] at again
    cases again
  next => exact ⟨fun n edge => mark ((finished d isDone).1 n edge), (finished d isDone).2⟩

/-- The transactions with edges that the search has not reached. -/
def unreached (lm : LockManager) (seen : AList fun _ : TxnID => Colour) : Nat :=
  lm.waitFor.keys.countP fun v => (seen.lookup v).isNone

theorem unreached_le (extended : Extends seen seen') : lm.unreached seen' ≤ lm.unreached seen := by
  refine countP_mono_left fun v _ isNew => ?_
  cases colour : seen.lookup v with
  | none => rfl
  | some c =>
    rw [extended.keeps colour] at isNew
    cases isNew

/-- Reaching a transaction with edges leaves fewer to reach. -/
theorem unreached_insert (unseen : seen.lookup id = none) (edges : id ∈ lm.waitFor) :
    lm.unreached (seen.insert id .visiting) < lm.unreached seen := by
  have member : id ∈ lm.waitFor.keys := AList.mem_keys.mp edges
  obtain ⟨before, after, split⟩ := append_of_mem member
  have less : ∀ vs : List TxnID, vs.countP (fun v => ((seen.insert id .visiting).lookup v).isNone) ≤
        vs.countP fun v => (seen.lookup v).isNone := by
    refine fun vs => countP_mono_left fun v _ isNew => ?_
    rw [AList.lookup_insert_if] at isNew
    split at isNew
    · cases isNew
    · exact isNew
  have lessBefore := less before
  have lessAfter := less after
  rw [unreached, unreached, split, countP_append, countP_append,
    countP_cons_of_neg (by simp), countP_cons_of_pos (by simp [unseen])]
  omega

/-- A loop whose steps are done with the transaction they began at. -/
theorem foldl_visit_false (step : ∀ {seen id}, lm.unreached seen < fuel → lm.Finished seen →
      (lm.dfs fuel seen id).1 = false →
      (lm.dfs fuel seen id).2.lookup id = some .done ∧ lm.Finished (lm.dfs fuel seen id).2)
    (nexts : List TxnID) : ∀ {seen}, lm.unreached seen < fuel → lm.Finished seen →
      (nexts.foldl (lm.visit fuel) (false, seen)).1 = false →
      (∀ next ∈ nexts, (nexts.foldl (lm.visit fuel) (false, seen)).2.lookup next = some .done) ∧
      lm.Finished (nexts.foldl (lm.visit fuel) (false, seen)).2 := by
  induction nexts with
  | nil => exact fun _ finished _ => ⟨fun _ member => (nomatch member), finished⟩
  | cons next nexts ih =>
    intro seen enough finished quiet
    obtain ⟨seen', result, next_eq⟩ := foldl_visit_cons quiet
    rw [next_eq] at quiet ⊢
    have one := step enough finished (congrArg Prod.fst result)
    have extended := lm.dfs_extends fuel seen next (congrArg Prod.fst result)
    rw [result] at one extended
    have rest := ih ((unreached_le extended).trans_lt enough) one.2 quiet
    refine ⟨fun n member => ?_, rest.2⟩
    obtain rfl | later := mem_cons.mp member
    · exact (foldl_visit_extends (lm.dfs_extends fuel) nexts quiet).keeps one.1
    · exact rest.1 n later

/-- With fuel for every transaction not yet reached, a search without result is done with the
transaction it began at. -/
theorem dfs_false (fuel : Nat) : ∀ {seen id}, lm.unreached seen < fuel → lm.Finished seen →
    (lm.dfs fuel seen id).1 = false →
    (lm.dfs fuel seen id).2.lookup id = some .done ∧ lm.Finished (lm.dfs fuel seen id).2 := by
  induction fuel with
  | zero => exact fun short => absurd short (Nat.not_lt_zero _)
  | succ fuel ih =>
    intro seen id enough finished quiet
    obtain ⟨colour, result⟩ | ⟨colour, visited, loop, result⟩ := dfs_quiet quiet
    · rw [result]
      exact ⟨colour, finished⟩
    rw [result]
    have nothing := congrArg Prod.fst loop
    have visiting := (foldl_visit_extends (lm.dfs_extends fuel) _ nothing).keeps
      (AList.lookup_insert seen)
    rw [loop] at visiting
    refine ⟨AList.lookup_insert _, ?_⟩
    by_cases edges : id ∈ lm.waitFor
    · have fewer := unreached_insert colour edges
      obtain ⟨successors, finished'⟩ :=
        foldl_visit_false ih _ (by omega) (finished.start colour) nothing
      rw [loop] at successors finished'
      exact finished'.finish visiting successors
    · have none : lm.waitFor.lookup id = none := AList.lookup_eq_none.mpr edges
      rw [none] at loop
      cases loop
      refine (finished.start colour).finish visiting fun n edge => ?_
      rw [Waits, none] at edge
      cases edge

variable {start : TxnID}

theorem cycle_of_hasCycle (found : lm.hasCycle start) : ∃ v, TransGen lm.Waits v v := by
  refine dfs_true _ (fun v visiting => ?_) found
  rw [AList.lookup_empty] at visiting
  cases visiting

theorem not_cycle_of_hasCycle (nothing : lm.hasCycle start = false) :
    ¬ TransGen lm.Waits start start := by
  have enough : lm.unreached ∅ < lm.waitFor.entries.length + 2 := by
    have all : lm.unreached ∅ ≤ lm.waitFor.keys.length := countP_le_length
    rw [AList.keys, List.keys, length_map] at all
    omega
  obtain ⟨isDone, finished⟩ := dfs_false _ enough (fun d isDone => (nomatch isDone)) nothing
  exact (finished start isDone).2

end Search

/-! ## The edges -/

theorem mem_clashingHolders {holders : AList fun _ : TxnID => Mode} :
    other ∈ clashingHolders holders txn mode ↔
      other ≠ txn ∧ ∃ held, holders.lookup other = some held ∧ held.clash mode := by
  simp only [clashingHolders, mem_map, mem_filter, Bool.and_eq_true, bne_iff_ne]
  constructor
  · rintro ⟨⟨id, held⟩, ⟨member, clashes, differ⟩, rfl⟩
    exact ⟨differ, held, AList.mem_lookup_iff.mpr member, clashes⟩
  · rintro ⟨differ, held, found, clashes⟩
    exact ⟨⟨other, held⟩, ⟨AList.mem_lookup_iff.mp found, clashes, differ⟩, rfl⟩

/-- A request is blocked by a key that is held or by a range that is held. -/
theorem blocks_iff : lm.Blocks other txn mode t ↔
    (other ≠ txn ∧ ∃ key held, lm.Holds other held (.key key) ∧
      (Target.key key).meets t ∧ held.clash mode = true) ∨
    other ∈ (lm.ranges.filter fun r =>
      (Target.range r.start r.end).meets t && r.mode.clash mode && r.txn != txn).map (·.txn) := by
  simp only [mem_map, mem_filter, Bool.and_eq_true, bne_iff_ne]
  constructor
  · rintro ⟨differ, held, key | ⟨start, «end»⟩, holds, overlap, clashes⟩
    · exact .inl ⟨differ, key, held, holds, overlap, clashes⟩
    · obtain ⟨r, member, rfl, rfl, rfl, rfl⟩ := holds
      exact .inr ⟨r, ⟨member, ⟨overlap, clashes⟩, differ⟩, rfl⟩
  · rintro (⟨differ, key, held, rest⟩ | ⟨r, ⟨member, ⟨overlap, clashes⟩, differ⟩, rfl⟩)
    · exact ⟨differ, held, .key key, rest⟩
    · exact ⟨differ, r.mode, .range r.start r.end, ⟨r, member, rfl, rfl, rfl, rfl⟩, overlap,
        clashes⟩

/-- The blockers that the code collects are those that block the request. -/
theorem mem_blockers : other ∈ lm.blockers txn mode t ↔ lm.Blocks other txn mode t := by
  cases t with
  | key key =>
    rw [blockers, blockersKey, mem_dedup, mem_append, blocks_iff]
    refine or_congr_left ⟨fun holder => ?_, ?_⟩
    · cases found : lm.keys.lookup key with
      | none =>
        rw [found] at holder
        cases holder
      | some st =>
        rw [found] at holder
        obtain ⟨differ, held, holds, clashes⟩ := mem_clashingHolders.mp holder
        exact ⟨differ, key, held, holds_key.mpr ⟨st, found, holds⟩, by simp [Target.meets], clashes⟩
    · rintro ⟨differ, key', held, holds, overlap, clashes⟩
      obtain rfl : key' = key := by simpa [Target.meets] using overlap
      obtain ⟨st, found, holder⟩ := holds_key.mp holds
      rw [found]
      exact mem_clashingHolders.mpr ⟨differ, held, holder, clashes⟩
  | range start «end» =>
    rw [blockers, blockersRange, mem_dedup, mem_append, blocks_iff, mem_flatMap]
    refine or_congr_left ⟨?_, ?_⟩
    · rintro ⟨⟨key, st⟩, member, holder⟩
      obtain ⟨inKeys, inside⟩ := mem_filter.mp member
      obtain ⟨differ, held, holds, clashes⟩ := mem_clashingHolders.mp holder
      exact ⟨differ, key, held, holds_key.mpr ⟨st, AList.mem_lookup_iff.mpr inKeys, holds⟩, inside,
        clashes⟩
    · rintro ⟨differ, key, held, holds, overlap, clashes⟩
      obtain ⟨st, found, holder⟩ := holds_key.mp holds
      refine ⟨⟨key, st⟩, ?_, mem_clashingHolders.mpr ⟨differ, held, holder, clashes⟩⟩
      exact mem_filter.mpr ⟨AList.mem_lookup_iff.mp found, overlap⟩

theorem blocks_congr (keys : lm'.keys = lm.keys) (ranges : lm'.ranges = lm.ranges) :
    lm'.Blocks other txn mode t ↔ lm.Blocks other txn mode t := by
  simp only [Blocks, holds_congr keys ranges]

theorem blockers_congr (keys : lm'.keys = lm.keys) (ranges : lm'.ranges = lm.ranges) :
    lm'.blockers txn mode t = lm.blockers txn mode t := by
  cases t with
  | key k => rw [blockers, blockers, blockersKey, blockersKey, keys, ranges]
  | range s e => rw [blockers, blockers, blockersRange, blockersRange, keys, ranges]

/-- Refreshing rebuilds the edges of the requests selected and leaves the others. -/
theorem lookup_refreshWaits (one : (lm.waiters.map Waiter.txn).Nodup) (affected : Target → Bool) :
    (∀ w ∈ lm.waiters, affected w.target →
      (lm.refreshWaits affected).waitFor.lookup w.txn = some (lm.blockers w.txn w.mode w.target)) ∧
    ∀ txn, (∀ w ∈ lm.waiters, affected w.target → w.txn ≠ txn) →
      (lm.refreshWaits affected).waitFor.lookup txn = lm.waitFor.lookup txn := by
  suffices fold : ∀ (ws : List Waiter) (acc : LockManager), (ws.map Waiter.txn).Nodup →
      acc.keys = lm.keys → acc.ranges = lm.ranges →
      (∀ w ∈ ws, affected w.target → (ws.foldl (fun acc w =>
        if affected w.target then acc.setWait w.txn (acc.blockers w.txn w.mode w.target)
        else acc) acc).waitFor.lookup w.txn = some (lm.blockers w.txn w.mode w.target)) ∧
      ∀ txn, (∀ w ∈ ws, affected w.target → w.txn ≠ txn) → (ws.foldl (fun acc w =>
        if affected w.target then acc.setWait w.txn (acc.blockers w.txn w.mode w.target)
        else acc) acc).waitFor.lookup txn = acc.waitFor.lookup txn from
    fold lm.waiters lm one rfl rfl
  intro ws
  induction ws with
  | nil => exact fun acc _ _ _ => ⟨fun _ member => (nomatch member), fun _ _ => rfl⟩
  | cons w ws ih =>
    intro acc one keys ranges
    rw [map_cons, nodup_cons] at one
    rw [foldl_cons]
    by_cases selected : affected w.target
    · rw [if_pos selected]
      obtain ⟨rebuilt, left⟩ := ih (acc.setWait w.txn (acc.blockers w.txn w.mode w.target))
        one.2 keys ranges
      refine ⟨fun w' member chosen => ?_, fun txn others => ?_⟩
      · obtain rfl | later := mem_cons.mp member
        · rw [left w'.txn fun w'' member _ same => one.1 (same ▸ mem_map_of_mem member),
            setWait, AList.lookup_insert, blockers_congr keys ranges]
        · exact rebuilt w' later chosen
      · rw [left txn fun w' member => others w' (mem_cons_of_mem w member), setWait,
          AList.lookup_insert_if, if_neg (others w mem_cons_self selected).symm]
    rw [if_neg selected]
    obtain ⟨rebuilt, left⟩ := ih acc one.2 keys ranges
    refine ⟨fun w' member chosen => ?_, fun txn others => ?_⟩
    · obtain rfl | later := mem_cons.mp member
      · exact absurd chosen selected
      · exact rebuilt w' later chosen
    · exact left txn fun w' member => others w' (mem_cons_of_mem w member)

/-! ## The invariant -/

/-- The wait-for graph is as it should be. -/
structure Exact (lm : LockManager) : Prop where
  one : (lm.waiters.map Waiter.txn).Nodup
  edges : ∀ w ∈ lm.waiters, ∃ bs, lm.waitFor.lookup w.txn = some bs ∧
    ∀ b, b ∈ bs ↔ lm.Blocks b w.txn w.mode w.target
  idle : ∀ txn, (∀ w ∈ lm.waiters, w.txn ≠ txn) → lm.waitFor.lookup txn = none
  acyclic : Acyclic lm.Waits

variable {a b : TxnID}

/-- An edge comes from a queued request that its end blocks. -/
theorem Exact.waits_iff (exact_ : lm.Exact) :
    lm.Waits a b ↔ ∃ w ∈ lm.waiters, w.txn = a ∧ lm.Blocks b w.txn w.mode w.target := by
  constructor
  · intro edge
    by_cases queued : ∃ w ∈ lm.waiters, w.txn = a
    · obtain ⟨w, member, rfl⟩ := queued
      obtain ⟨bs, found, same⟩ := exact_.edges w member
      rw [Waits, found] at edge
      exact ⟨w, member, rfl, (same b).mp edge⟩
    · push Not at queued
      rw [Waits, exact_.idle a queued] at edge
      cases edge
  · rintro ⟨w, member, rfl, blocks⟩
    obtain ⟨bs, found, same⟩ := exact_.edges w member
    rw [Waits, found]
    exact (same b).mpr blocks

/-- The graph is acyclic if every edge is an old one or leads to a transaction that is not
queued. -/
theorem Exact.of_origin (before : lm.Exact) (one : (lm'.waiters.map Waiter.txn).Nodup)
    (edges : ∀ w ∈ lm'.waiters, ∃ bs, lm'.waitFor.lookup w.txn = some bs ∧
      ∀ b, b ∈ bs ↔ lm'.Blocks b w.txn w.mode w.target)
    (idle : ∀ txn, (∀ w ∈ lm'.waiters, w.txn ≠ txn) → lm'.waitFor.lookup txn = none)
    (queue : ∀ w ∈ lm'.waiters, w ∈ lm.waiters)
    (origin : ∀ w ∈ lm'.waiters, ∀ b, lm'.Blocks b w.txn w.mode w.target →
      lm.Blocks b w.txn w.mode w.target ∨ ∀ w' ∈ lm'.waiters, w'.txn ≠ b) : lm'.Exact := by
  refine ⟨one, edges, idle, before.acyclic.of_sinks fun {a b} edge => ?_⟩
  by_cases queued : ∃ w ∈ lm'.waiters, w.txn = a
  · obtain ⟨w, member, rfl⟩ := queued
    obtain ⟨bs, found, same⟩ := edges w member
    rw [Waits, found] at edge
    obtain old | notQueued := origin w member b ((same b).mp edge)
    · exact .inl (before.waits_iff.mpr ⟨w, queue w member, rfl, old⟩)
    · refine .inr fun c next => ?_
      rw [Waits, idle b notQueued] at next
      cases next
  · push Not at queued
    rw [Waits, idle a queued] at edge
    cases edge

/-- A table with the same locks, the same queue and the same edges. -/
theorem Exact.congr (before : lm.Exact) (keys : lm'.keys = lm.keys)
    (ranges : lm'.ranges = lm.ranges) (waiters : lm'.waiters = lm.waiters)
    (waitFor : ∀ txn, lm'.waitFor.lookup txn = lm.waitFor.lookup txn) : lm'.Exact := by
  have waits : lm'.Waits = lm.Waits := by
    funext a b
    rw [Waits, Waits, waitFor]
  refine ⟨by rw [waiters]; exact before.one, ?_, ?_, by rw [waits]; exact before.acyclic⟩
  · rw [waiters]
    intro w member
    simp only [waitFor, blocks_congr keys ranges]
    exact before.edges w member
  · rw [waiters]
    intro txn others
    rw [waitFor]
    exact before.idle txn others

/-! ## Requests -/

/-- A grant changes nothing for a request it does not meet. -/
theorem blocks_grant_of_apart {asked : Mode} {asker : TxnID} {queued : Target}
    (proper : ¬ t.EmptyEnd) (proper' : ¬ queued.EmptyEnd) (apart : t.meets queued = false) :
    (lm.grant txn mode tag t).Blocks other asker asked queued ↔
      lm.Blocks other asker asked queued := by
  have notStored : ∀ {t' : Target}, t'.meets queued → t' ≠ t.stored := by
    rintro _ overlap rfl
    rw [Target.meets_stored proper proper', apart] at overlap
    cases overlap
  constructor
  · rintro ⟨differ, held, t', holds, overlap, clashes⟩
    obtain old | ⟨-, -, same⟩ := holds.of_grant
    · exact ⟨differ, held, t', old, overlap, clashes⟩
    · exact absurd same (notStored overlap)
  · rintro ⟨differ, held, t', holds, overlap, clashes⟩
    refine ⟨differ, held, t', holds.grant_of_unlike fun k same stored => ?_, overlap, clashes⟩
    subst same
    exact absurd stored (notStored overlap)

theorem Exact.grant (before : lm.Exact) (tidy : lm.Tidy) (proper : ¬ t.EmptyEnd)
    (free : ∀ w ∈ lm.waiters, w.txn ≠ txn) :
    ((lm.grant txn mode tag t).refreshWaits fun queued => t.meets queued).Exact := by
  obtain ⟨waiters, -, waitFor⟩ := lm.grant_queue txn mode tag t
  have one : ((lm.grant txn mode tag t).waiters.map Waiter.txn).Nodup := by
    rw [waiters]
    exact before.one
  obtain ⟨rebuilt, left⟩ := lookup_refreshWaits one t.meets
  obtain ⟨graph, same⟩ := refreshWaits_eq (lm.grant txn mode tag t) t.meets
  have blocks : ∀ {b asker asked queued},
      ((lm.grant txn mode tag t).refreshWaits t.meets).Blocks b asker asked
        queued ↔ (lm.grant txn mode tag t).Blocks b asker asked queued := by
    rw [same]
    exact blocks_congr rfl rfl
  have queue : ((lm.grant txn mode tag t).refreshWaits t.meets).waiters =
      lm.waiters := by
    rw [same]
    exact waiters
  refine before.of_origin (by rw [queue]; exact before.one) ?_ ?_ (by simp [queue]) ?_
  · rw [queue]
    intro w member
    simp only [blocks]
    cases overlap : t.meets w.target with
    | true =>
      exact ⟨_, rebuilt w (by rwa [waiters]) overlap, fun b => mem_blockers⟩
    | false =>
      have proper' : ¬ w.target.EmptyEnd := by
        rw [← tidy.stored w member]
        exact Target.not_emptyEnd_stored _
      simp only [blocks_grant_of_apart proper proper' overlap]
      rw [left w.txn fun w' member' selected same => ?_, waitFor]
      · exact before.edges w member
      · rw [waiters] at member'
        rw [inj_on_of_nodup_map before.one member' member same, overlap] at selected
        cases selected
  · rw [queue]
    intro other others
    rw [left other fun w member _ => others w (by rwa [waiters] at member), waitFor]
    exact before.idle other others
  rw [queue]
  intro w member b blocksB
  obtain ⟨differ, held, t', holds, overlap, clashes⟩ := blocks.mp blocksB
  obtain old | ⟨rfl, -, -⟩ := holds.of_grant
  · exact .inl ⟨differ, held, t', old, overlap, clashes⟩
  · exact .inr free

theorem waits_waiting (edge : (lm.waiting txn mode tag t).Waits a b) (differ : a ≠ txn) :
    lm.Waits a b := by
  have unchanged : (lm.waiting txn mode tag t).waitFor.lookup a = lm.waitFor.lookup a := by
    rw [waiting, setWait, AList.lookup_insert_if, if_neg differ]
    rfl
  rwa [Waits, unchanged] at edge

theorem waits_waiting_self : (lm.waiting txn mode tag t).Waits txn b ↔ lm.Blocks b txn mode t := by
  rw [Waits, waiting, setWait, AList.lookup_insert, Option.getD_some, mem_blockers]

section

variable (before : lm.Exact)

include before

/-- **The search decides exactly** whether the wait would close a cycle. -/
theorem Exact.hasCycle_iff (free : ∀ w ∈ lm.waiters, w.txn ≠ txn) :
    (lm.waiting txn mode tag t).hasCycle txn ↔
      ∃ b, lm.Blocks b txn mode t ∧ ReflTransGen lm.Waits b txn := by
  constructor
  · intro found
    obtain ⟨v, cycle⟩ := cycle_of_hasCycle found
    obtain ⟨b, first, back⟩ := TransGen.head'_iff.mp (before.acyclic.through waits_waiting cycle)
    exact ⟨b, waits_waiting_self.mp first, walk_to_start waits_waiting back⟩
  rintro ⟨b, blocks, back⟩
  by_contra nothing
  refine not_cycle_of_hasCycle (Bool.eq_false_iff.mpr nothing) ?_
  refine .head' (waits_waiting_self.mpr blocks) (ReflTransGen.mono (fun a c edge => ?_) _ _ back)
  have differ : a ≠ txn := by
    rintro rfl
    rw [Waits, before.idle a free] at edge
    cases edge
  rw [Waits, waiting, setWait, AList.lookup_insert_if, if_neg differ]
  exact edge

/-- A request joins the queue if the search finds nothing. -/
theorem Exact.waiting (tidy : lm.Tidy) (proper : ¬ t.EmptyEnd)
    (free : ∀ w ∈ lm.waiters, w.txn ≠ txn)
    (nothing : (lm.waiting txn mode tag t).hasCycle txn = false) :
    (lm.waiting txn mode tag t).Exact := by
  have blocks : ∀ {b asker asked queued}, (lm.waiting txn mode tag t).Blocks b asker asked queued ↔
      lm.Blocks b asker asked queued := blocks_congr rfl rfl
  have queue : (lm.waiting txn mode tag t).waiters =
      lm.waiters ++ [⟨lm.nextWaiter, txn, mode, t.stored, tag⟩] := rfl
  refine ⟨?_, ?_, ?_, ?_⟩
  · rw [queue, map_append, nodup_append]
    refine ⟨before.one, nodup_singleton _, ?_⟩
    rintro a memberA b memberB rfl
    obtain ⟨w, member, same⟩ := mem_map.mp memberA
    exact free w member (same.trans (by simpa using memberB))
  · intro w member
    simp only [blocks]
    obtain old | new := mem_append.mp member
    · have unchanged : (lm.waiting txn mode tag t).waitFor.lookup w.txn =
          lm.waitFor.lookup w.txn := by
        rw [LockManager.waiting, setWait, AList.lookup_insert_if, if_neg (free w old)]
        rfl
      rw [unchanged]
      exact before.edges w old
    rw [mem_singleton.mp new]
    refine ⟨lm.blockers txn mode t, AList.lookup_insert _, fun b => mem_blockers.trans ?_⟩
    -- the copy of the request is blocked by the same locks
    refine and_congr_right fun _ => exists_congr fun held => exists_congr fun t' =>
      and_congr_right fun holds => ?_
    rw [Target.meets_comm t' t.stored, Target.meets_stored proper (tidy.held holds),
      Target.meets_comm t' t]
  · intro other others
    have differ : other ≠ txn := fun same =>
      others ⟨lm.nextWaiter, txn, mode, t.stored, tag⟩ (by simp [queue]) same.symm
    rw [LockManager.waiting, setWait, AList.lookup_insert_if, if_neg differ]
    exact before.idle other fun w member => others w (mem_append_left _ member)
  · intro a cycle
    exact not_cycle_of_hasCycle nothing (before.acyclic.through waits_waiting cycle)

theorem Exact.refused (tidy : lm.Tidy) (free : ∀ w ∈ lm.waiters, w.txn ≠ txn) :
    (((lm.waiting txn mode tag t).removeWaiter lm.nextWaiter).clearWait txn).Exact := by
  refine before.congr rfl rfl ?_ fun other => ?_
  · have kept : ∀ w ∈ lm.waiters, (w.id != lm.nextWaiter) := fun w member => by
      simpa using (tidy.fresh w member).ne
    have queue : (lm.waiting txn mode tag t).waiters =
        lm.waiters ++ [⟨lm.nextWaiter, txn, mode, t.stored, tag⟩] := rfl
    rw [clearWait, removeWaiter, queue, filter_append, filter_eq_self.mpr kept]
    simp
  have erased : (((lm.waiting txn mode tag t).removeWaiter lm.nextWaiter).clearWait
      txn).waitFor.lookup other = if other = txn then none else lm.waitFor.lookup other := by
    rw [clearWait, AList.lookup_erase_if]
    split
    · rfl
    next differ =>
      rw [removeWaiter, LockManager.waiting, setWait, AList.lookup_insert_if, if_neg differ]
      rfl
  rw [erased]
  split
  next same => rw [same, before.idle txn free]
  next => rfl

/-! ## Cancellation and release -/

theorem Exact.cancel {id : Nat} (queued : ∃ w ∈ lm.waiters, w.id = id)
    (own : ∀ w ∈ lm.waiters, w.id = id → w.txn = txn) :
    ((lm.removeWaiter id).clearWait txn).Exact := by
  have blocks : ∀ {b asker asked queued}, ((lm.removeWaiter id).clearWait txn).Blocks b asker asked
      queued ↔ lm.Blocks b asker asked queued := blocks_congr rfl rfl
  obtain ⟨gone, member, isGone⟩ := queued
  have stays : ∀ w ∈ ((lm.removeWaiter id).clearWait txn).waiters,
      w ∈ lm.waiters ∧ w.txn ≠ txn := by
    intro w kept
    obtain ⟨old, differ⟩ := mem_filter.mp kept
    refine ⟨old, fun same => ?_⟩
    have both := inj_on_of_nodup_map before.one old member
      (same.trans (own gone member isGone).symm)
    rw [both, isGone] at differ
    simp at differ
  refine before.of_origin ?_ ?_ ?_ (fun w kept => (stays w kept).1)
    fun w kept b blocksB => .inl (blocks.mp blocksB)
  · exact before.one.sublist (filter_sublist.map _)
  · intro w kept
    simp only [blocks]
    rw [clearWait, AList.lookup_erase_if, if_neg (stays w kept).2]
    exact before.edges w (stays w kept).1
  intro other others
  rw [clearWait, AList.lookup_erase_if]
  split
  · rfl
  next differ =>
  refine before.idle other fun w old same => ?_
  by_cases isId : w.id = id
  · exact differ (same.symm.trans (own w old isId))
  · exact others w (mem_filter.mpr ⟨old, by simpa using isId⟩) same

/-- After a release the queue is woken and every edge rebuilt. -/
theorem Exact.release (txn : TxnID) : ((lm.released txn).clearWait txn).wake.Exact := by
  obtain ⟨granted, woken, grants, -, done⟩ := wake_settled ((lm.released txn).clearWait txn)
  obtain ⟨graph, same⟩ := refreshWaits_eq woken fun _ => true
  have queue : lm.waiters.Perm (granted ++ woken.waiters) := grants.queue
  have distinct : ((granted ++ woken.waiters).map Waiter.txn).Nodup :=
    (queue.map Waiter.txn).nodup_iff.mp before.one
  rw [map_append, nodup_append] at distinct
  obtain ⟨rebuilt, left⟩ := lookup_refreshWaits distinct.2.1 fun _ => true
  have blocks : ∀ {b asker asked queued}, (woken.refreshWaits fun _ => true).Blocks b asker asked
      queued ↔ woken.Blocks b asker asked queued := by
    rw [same]
    exact blocks_congr rfl rfl
  have waiters : (woken.refreshWaits fun _ => true).waiters = woken.waiters := by rw [same]
  rw [done]
  refine before.of_origin (by rw [waiters]; exact distinct.2.1) ?_ ?_ ?_ ?_
  · rw [waiters]
    intro w member
    simp only [blocks]
    exact ⟨_, rebuilt w member rfl, fun b => mem_blockers⟩
  · rw [waiters]
    intro other others
    rw [left other fun w member _ => others w member]
    by_cases isGranted : ∃ w ∈ granted, w.txn = other
    · obtain ⟨w, member, rfl⟩ := isGranted
      exact grants.cleared w member
    push Not at isGranted
    rw [grants.waits other isGranted, clearWait, AList.lookup_erase_if]
    split
    · rfl
    refine before.idle other fun w member => ?_
    obtain early | late := mem_append.mp (queue.mem_iff.mp member)
    · exact isGranted w early
    · exact others w late
  · rw [waiters]
    exact fun w member => queue.mem_iff.mpr (mem_append_right _ member)
  rw [waiters]
  intro w member b blocksB
  obtain ⟨differ, held, t', holds, overlap, clashes⟩ := blocks.mp blocksB
  obtain old | ⟨w', isGranted, rfl, -⟩ := grants.origin holds
  · have old' : (lm.released txn).Holds b held t' := (holds_congr rfl rfl).mp old
    exact .inl ⟨differ, held, t', (holds_released.mp old').1, overlap, clashes⟩
  -- who has just been granted its request is not queued any more
  refine .inr fun w'' member'' same => ?_
  exact distinct.2.2 _ (mem_map_of_mem isGranted) _ (mem_map_of_mem member'') same.symm

end

/-! ## Runs -/

/-- The condition on an operation: a request comes from a transaction without a queued
request, a range does not end in an empty slice, and a wait that ends is removed under the
transaction that made the request. -/
def Orderly (lm : LockManager) : Op → Prop
  | .acquire txn _ _ _ => ∀ w ∈ lm.waiters, w.txn ≠ txn
  | .acquireRange txn _ «end» _ _ => (∀ w ∈ lm.waiters, w.txn ≠ txn) ∧ «end» ≠ some []
  | .cancel id txn => ∀ w ∈ lm.waiters, w.id = id → w.txn = txn
  | .releaseAll _ => True

instance (lm : LockManager) : DecidablePred lm.Orderly
  | .acquire .. => inferInstanceAs (Decidable (∀ w ∈ lm.waiters, _))
  | .acquireRange .. => inferInstanceAs (Decidable ((∀ w ∈ lm.waiters, _) ∧ _))
  | .cancel .. => inferInstanceAs (Decidable (∀ w ∈ lm.waiters, _))
  | .releaseAll _ => .isTrue trivial

variable {op : Op}

theorem Orderly.request (orderly : lm.Orderly op) (asked : asks op = some (txn, mode, tag, t)) :
    (∀ w ∈ lm.waiters, w.txn ≠ txn) ∧ ¬ t.EmptyEnd := by
  cases op with
  | acquire txn' key mode' tag' =>
    cases asked
    exact ⟨orderly, id⟩
  | acquireRange txn' s e mode' tag' =>
    cases asked
    exact orderly
  | cancel id txn' | releaseAll txn' => cases asked

/-- **One operation** keeps the graph exact. -/
theorem Exact.apply (before : lm.Exact) (tidy : lm.Tidy) (orderly : lm.Orderly op) :
    (lm.apply op).Exact := by
  rcases lm.apply_cases op with ⟨txn, mode, tag, t, asked, same⟩ | ⟨id, txn, rfl, queued, same⟩ |
    ⟨id, txn, -, -, same⟩ | ⟨txn, -, same⟩
  · obtain ⟨free, proper⟩ := orderly.request asked
    rw [same]
    obtain ⟨-, done⟩ | ⟨-, nothing, done⟩ | ⟨-, -, done⟩ := lm.request_cases txn mode tag t
    · rw [done]
      exact before.grant tidy proper free
    · rw [done]
      exact before.waiting tidy proper free nothing
    · rw [done]
      exact before.refused tidy free
  · rw [same]
    exact before.cancel queued orderly
  · rw [same]
    exact before
  · rw [same]
    exact before.release txn

theorem newLockManager_exact : newLockManager.Exact := by
  refine ⟨nodup_nil, fun w member => (nomatch member), fun _ _ => rfl, fun a cycle => ?_⟩
  obtain ⟨b, first, -⟩ := TransGen.head'_iff.mp cycle
  cases first

theorem run_exact {ops : List Op} (run : Run Step Orderly newLockManager ops lm) : lm.Exact := by
  refine (run.invariant (fun lm => lm.Tidy ∧ lm.Exact)
    ⟨newLockManager_tidy, newLockManager_exact⟩ ?_).2
  rintro before op after ⟨tidy, isExact⟩ orderly rfl
  exact ⟨tidy.apply op, isExact.apply tidy orderly⟩

/-- How a request ends. -/
def outcome (lm : LockManager) : Op → Option Outcome
  | .acquire txn key mode tag => some (lm.acquire txn key mode tag).2
  | .acquireRange txn start «end» mode tag => some (lm.acquireRange txn start «end» mode tag).2
  | .cancel _ _ => none
  | .releaseAll _ => none

theorem outcome_eq (asked : asks op = some (txn, mode, tag, t)) :
    lm.outcome op = some (lm.request txn mode tag t).2 := by
  cases op with
  | acquire txn' key mode' tag' =>
    cases asked
    rw [outcome, acquire_eq_request]
  | acquireRange txn' s e mode' tag' =>
    cases asked
    rw [outcome, acquireRange_eq_request]
  | cancel id txn' | releaseAll txn' => cases asked

/-- **Deadlock detection is complete and exact.** In every run whose operations meet the
condition, in every state reached: the edges of a queued transaction are those that block its
request, the graph has no cycle, and a request is refused as a deadlock exactly when somebody
who blocks it waits, directly or through others, for its transaction. -/
theorem deadlock_detection_exact {ops : List Op} (run : Run Step Orderly newLockManager ops lm) :
    (∀ w ∈ lm.waiters, ∃ bs, lm.waitFor.lookup w.txn = some bs ∧
      ∀ b, b ∈ bs ↔ lm.Blocks b w.txn w.mode w.target) ∧
    Acyclic lm.Waits ∧
    ∀ op txn mode tag t, lm.Orderly op → asks op = some (txn, mode, tag, t) →
      (lm.outcome op = some .deadlock ↔
        ∃ b, lm.Blocks b txn mode t ∧ ReflTransGen lm.Waits b txn) := by
  have isExact := run_exact run
  refine ⟨isExact.edges, isExact.acyclic, fun op txn mode tag t orderly asked => ?_⟩
  rw [outcome_eq asked, ← isExact.hasCycle_iff (orderly.request asked).1]
  rcases lm.request_cases txn mode tag t with ⟨granted, done⟩ | ⟨-, nothing, done⟩ |
    ⟨-, found, done⟩
  · rw [done]
    refine ⟨fun refused => (nomatch refused), fun found => ?_⟩
    obtain ⟨b, blocks, -⟩ := (isExact.hasCycle_iff (orderly.request asked).1).mp found
    have refused := refused_iff.mpr ⟨b, blocks⟩
    rw [granted] at refused
    cases refused
  · rw [done, nothing]
    exact ⟨fun refused => (nomatch refused), fun found => (nomatch found)⟩
  · rw [done]
    exact ⟨fun _ => found, fun _ => rfl⟩

/-- Two transactions lock two keys crosswise, and the second wait is refused. -/
theorem deadlock_detection_exact_crosswise :
    ((((newLockManager.apply (.acquire 1 [1] .exclusive "")).apply
      (.acquire 2 [2] .exclusive "")).apply (.acquire 1 [2] .exclusive "")).outcome
        (.acquire 2 [1] .exclusive "")) = some .deadlock := by
  have run : Run Step Orderly newLockManager
      [.acquire 1 [1] .exclusive "", .acquire 2 [2] .exclusive "", .acquire 1 [2] .exclusive ""] _ :=
    .snoc (.snoc (.snoc .nil (by decide +kernel) rfl) (by decide +kernel) rfl)
      (by decide +kernel) rfl
  refine ((deadlock_detection_exact run).2.2 (.acquire 2 [1] .exclusive "") 2 .exclusive ""
    (.key [1]) (by decide +kernel) rfl).mpr ⟨1, ⟨by decide, .exclusive, .key [1], rfl, rfl, rfl⟩, ?_⟩
  exact .single (by decide +kernel)

/-- A range with an empty end blocks a queued writer that has no edge to its holder. And a
transaction with a queued request is granted another one, which closes a cycle: each of the
two waits for the other, and nobody is refused. -/
theorem edge_missing_and_cycle_closed : (∃ lm, Run Step unguarded newLockManager
        [.acquire 3 [7] .shared "", .acquire 2 [7] .exclusive "",
          .acquireRange 1 none (some []) .shared ""] lm ∧
      (lm.waiters.map Waiter.txn).Nodup ∧ ∃ w ∈ lm.waiters, lm.waitFor.lookup w.txn = some [3] ∧
        lm.Blocks 1 w.txn w.mode w.target) ∧
    (∃ lm, Run Step unguarded newLockManager
        [.acquire 2 [1] .exclusive "", .acquire 1 [1] .exclusive "", .acquire 3 [2] .shared "",
          .acquire 2 [2] .exclusive "", .acquire 1 [2] .shared ""] lm ∧
      (lm.waiters.map Waiter.txn).Nodup ∧ ¬ Acyclic lm.Waits) := by
  refine ⟨⟨_, .snoc (.snoc (.snoc .nil trivial rfl) trivial rfl) trivial rfl, by decide +kernel,
      ⟨0, 2, .exclusive, .key [7], ""⟩, by decide +kernel, by decide +kernel, by decide, .shared,
      .range none none, ⟨⟨1, .shared, none, none, ""⟩, by decide +kernel, rfl, rfl, rfl, rfl⟩, rfl,
      rfl⟩,
    ⟨_, .snoc (.snoc (.snoc (.snoc (.snoc .nil trivial rfl) trivial rfl) trivial rfl) trivial rfl)
      trivial rfl, by decide +kernel, fun acyclic => acyclic 1 ?_⟩⟩
  exact .tail (.single (b := 2) (by decide +kernel)) (by decide +kernel)

end LockManager

end NextSQL.Txn
