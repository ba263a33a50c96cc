import Mathlib.Data.List.Nodup
import NextSQL.Replication.Cluster
import NextSQL.Storage.Replication

/-!
# Agreement of the replicas

A node skips a delivered batch if it ends at or below the highest LSN that the
node has proposed itself, and takes a record below its next LSN for one that it
has. Both are right only as long as what a node has appended of its own is what
the others get. A proposal that is lost, a record that was never handed over, or
one that is appended on a follower leaves records in the log of one node whose
LSNs the next leader uses again; the batches with those LSNs are then skipped
there. If the lost proposal was the one of a rollback the node is not even
marked suspect.

In an orderly run each node that is not suspect holds a first part of the stream
of committed batches, the leader more than that, and so any two of them agree
(`replicas_agree`).
-/

namespace NextSQL.Replication

open Function
open GuardedRuns Wal List

/-! ## Numbered logs -/

/-- The LSNs are 1, 2, 3 and so on. -/
def Numbered (log : List Record) : Prop := log.map Record.lsn = List.range' 1 log.length

variable {log : List Record}

theorem numbered_append_iff {more : List Record} : Numbered (log ++ more) ↔
    Numbered log ∧ more.map Record.lsn = range' (log.length + 1) more.length := by
  unfold Numbered
  rw [map_append, length_append, ← range'_append_1, Nat.add_comm 1 log.length]
  constructor
  · exact fun same => append_inj same (by simp)
  · rintro ⟨first, rest⟩
    rw [first, rest]

theorem endLSN_consecutive {recs : List Record} {start : Nat} (any : recs ≠ [])
    (lsns : recs.map Record.lsn = range' (start + 1) recs.length) :
    endLSN recs = start + recs.length :=
  Storage.Leader.lsn_getLast any lsns

theorem Numbered.lsn_bounds (numbered : Numbered log) {rec : Record} (member : rec ∈ log) :
    1 ≤ rec.lsn ∧ rec.lsn ≤ log.length := by
  have inRange : rec.lsn ∈ log.map Record.lsn := mem_map_of_mem member
  rw [numbered, mem_range'_1] at inRange
  lia

namespace Node

variable {x y : Node}

/-- Two logs of which one is a first part of the other agree on it. -/
theorem recordAt_eq {more : List Record} (numbered : Numbered (x.wal ++ more))
    (longer : y.wal = x.wal ++ more) {lsn : LSN} (le : lsn ≤ x.wal.length) :
    y.recordAt lsn = x.recordAt lsn := by
  unfold recordAt
  rw [longer, find?_append]
  obtain ⟨first, rest⟩ := numbered_append_iff.mp numbered
  by_cases zero : lsn = 0
  · have none : more.find? (·.lsn = lsn) = none := by
      refine find?_eq_none.mpr fun rec member => ?_
      have := (numbered.lsn_bounds (mem_append_right x.wal member)).1
      simp only [decide_eq_true_eq]
      lia
    rw [none, Option.or_none]
  have inRange : lsn ∈ x.wal.map Record.lsn := by
    rw [first, mem_range'_1]
    lia
  obtain ⟨rec, member, eq⟩ := mem_map.mp inRange
  have found : (x.wal.find? (·.lsn = lsn)).isSome := find?_isSome.mpr ⟨rec, member, by simp [eq]⟩
  rw [Option.or_of_isSome found]

theorem recordAt_of_mem (numbered : Numbered x.wal) {rec : Record} (member : rec ∈ x.wal) :
    x.recordAt rec.lsn = some rec := by
  unfold recordAt
  obtain ⟨found, eq⟩ := Option.isSome_iff_exists.mp
    (find?_isSome.mpr ⟨rec, member, by simp⟩ : (x.wal.find? (·.lsn = rec.lsn)).isSome)
  rw [eq]
  have same : found.lsn = rec.lsn := by simpa using find?_some eq
  have nodup : (x.wal.map Record.lsn).Nodup := by
    rw [numbered]
    exact nodup_range' ..
  rw [inj_on_of_nodup_map nodup (mem_of_find?_eq_some eq) member same]

variable {recs : List Record}

theorem installRecords_consecutive (positive : 1 ≤ x.nextLSN)
    (lsns : recs.map Record.lsn = range' x.nextLSN recs.length) :
    x.installRecords recs =
      ({ x with wal := x.wal ++ recs, nextLSN := x.nextLSN + recs.length }, none) := by
  induction recs generalizing x with
  | nil => simp [installRecords]
  | cons rec recs ih =>
    rw [map_cons, length_cons, range'_succ, cons.injEq] at lsns
    have zero : rec.lsn ≠ 0 := by lia
    rw [installRecords, if_neg zero, if_neg (by lia), if_neg (by simp [lsns.1])]
    have more : ∀ x' : Node, x'.nextLSN = x.nextLSN + 1 → x'.installRecords recs =
        ({ x' with wal := x'.wal ++ recs, nextLSN := x'.nextLSN + recs.length }, none) := by
      intro x' next
      exact ih (by lia) (by rw [next]; exact lsns.2)
    rw [more _ rfl]
    simp [Nat.add_assoc, Nat.add_comm 1]

theorem apply_next (any : recs ≠ []) (next : x.nextLSN = x.wal.length + 1)
    (lsns : recs.map Record.lsn = range' (x.wal.length + 1) recs.length)
    (last : x.lastLSN = x.wal.length) (own : x.localLSN ≤ x.lastLSN)
    (handed : x.replLSN = x.wal.length) :
    x.apply recs = ({ x with
      wal := x.wal ++ recs
      nextLSN := x.wal.length + recs.length + 1
      replLSN := x.wal.length + recs.length
      lastLSN := x.wal.length + recs.length }, none) := by
  have length : 0 < recs.length := length_pos_iff.mpr any
  have ends := endLSN_consecutive any lsns
  have later : ¬ (endLSN recs ≤ x.localLSN ∨ endLSN recs ≤ x.lastLSN) := by lia
  have new : ¬ (recs = [] ∨ endLSN recs < x.nextLSN) := by
    rintro (none | below)
    · exact any none
    · lia
  rw [apply, if_neg any, if_neg later, applyReplicated, if_neg new,
    installRecords_consecutive (by lia) (by rw [next]; exact lsns)]
  simp only [ends, last, handed, next]
  congr 2
  · lia
  · lia
  · lia

/-- A batch that was proposed here, or applied before, is skipped. -/
theorem apply_skip (any : recs ≠ []) (le : endLSN recs ≤ x.lastLSN) : x.apply recs = (x, none) := by
  rw [apply, if_neg any, if_pos (.inr le)]

theorem unhanded_eq {log more : List Record} (wal : x.wal = log ++ more)
    (numbered : Numbered (log ++ more)) (handed : x.replLSN = log.length) : x.unhanded = more := by
  obtain ⟨first, rest⟩ := numbered_append_iff.mp numbered
  unfold unhanded
  rw [wal, filter_append]
  have before : log.filter (x.replLSN < ·.lsn) = [] := by
    refine filter_eq_nil_iff.mpr fun rec member => ?_
    have := (first.lsn_bounds member).2
    simp only [decide_eq_true_eq]
    lia
  have after : more.filter (x.replLSN < ·.lsn) = more := by
    refine filter_eq_self.mpr fun rec member => ?_
    have inRange : rec.lsn ∈ more.map Record.lsn := mem_map_of_mem member
    rw [rest, mem_range'_1] at inRange
    simp only [decide_eq_true_eq]
    lia
  rw [before, after, nil_append]

theorem hold_eq (x : Node) (commits : List Record) (next : x.nextLSN = x.wal.length + 1) :
    ∃ held : List Record, held.length = commits.length ∧
      held.map Record.lsn = range' (x.wal.length + 1) held.length ∧
      x.hold commits =
        { x with wal := x.wal ++ held, nextLSN := x.wal.length + held.length + 1 } := by
  induction commits generalizing x with
  | nil => exact ⟨[], rfl, rfl, by simp [hold, ← next]⟩
  | cons rec commits ih =>
    have next' : (x.append rec).nextLSN = (x.append rec).wal.length + 1 := by
      simp [append, next]
    obtain ⟨held, length, lsns, same⟩ := ih (x.append rec) next'
    refine ⟨{ rec with lsn := x.nextLSN } :: held, by simp [length], ?_, ?_⟩
    · rw [map_cons, length_cons, range'_succ, lsns, next]
      simp [append]
    rw [hold, foldl_cons]
    refine same.trans ?_
    simp only [append, append_assoc, singleton_append, length_append, length_cons, length_nil]
    congr 1
    lia

end Node

/-! ## The invariant -/

/-- The records of the first committed batches. -/
def stream (commands : List Proposal) (j : Nat) : List Record :=
  (commands.take j).flatMap Proposal.recs

variable {j : Nat}

variable {p : Proposal} {rest : List Proposal}

theorem stream_succ {commands : List Proposal} (next : commands.drop j = p :: rest) :
    stream commands (j + 1) = stream commands j ++ p.recs := by
  have take : commands.take (j + 1) = commands.take j ++ [p] := by
    rw [take_add, next]
    rfl
  rw [stream, take, flatMap_append]
  simp [stream]

variable {i : Nat}

theorem stream_initial (commands : List Proposal) (le : i ≤ j) :
    stream commands i <+: stream commands j := by
  obtain ⟨more, eq⟩ := take_prefix_take_left le (l := commands)
  rw [stream, stream, ← eq, flatMap_append]
  exact prefix_append _ _

/-- A node that does not lead: it holds a first part of the stream. -/
structure Follows (s : Cluster) (x : Node) (j : Nat) : Prop where
  applied : x.applied ≤ j
  stored : j ≤ s.commands.length
  wal : x.wal = stream s.commands j
  next : x.nextLSN = x.wal.length + 1
  handed : x.replLSN = x.wal.length
  last : x.lastLSN = x.wal.length
  own : x.localLSN ≤ x.lastLSN
  idle : x.waiting = none

/-- What has become of the proposal that a call waits for: it is in flight, it is committed or
it is lost, and then it was one of a commit. -/
def Fate (s : Cluster) (n : Nat) (x : Node) (log : List Record) (call : Call) : Prop :=
  (∃ p, s.inflight = [p] ∧ p.node = n ∧ p.id = call.id ∧
      p.recs = (x.wal.take call.last).drop log.length) ∨
    (s.inflight = [] ∧ log.length = call.last) ∨
    (s.inflight = [] ∧ call.kind = .commit ∧ ∀ c ∈ s.commands, c.id ≠ call.id)

/-- The leader: it holds all of the stream and more. -/
structure Leads (s : Cluster) (n : Nat) (x : Node) (log : List Record) : Prop where
  applied : x.applied ≤ s.commands.length
  wal : log <+: x.wal
  numbered : Numbered x.wal
  next : x.nextLSN = x.wal.length + 1
  own : x.localLSN ≤ x.lastLSN
  resting : x.waiting = none → s.inflight = [] ∧ x.replLSN = log.length ∧ x.lastLSN = log.length
  calling : ∀ call ∈ x.waiting, x.lastLSN = call.last ∧ log.length ≤ call.last ∧
    call.last ≤ x.wal.length ∧ x.replLSN ≤ call.last ∧
    (call.kind = .rollback → x.replLSN = call.last) ∧ Fate s n x log call

structure Agrees (s : Cluster) : Prop where
  numbered : Numbered (stream s.commands s.commands.length)
  nonempty : ∀ c ∈ s.commands, c.recs ≠ []
  old : ∀ c ∈ s.commands, c.id < s.nextID
  flying : s.inflight = [] ∨ ∃ p, s.inflight = [p] ∧ p.recs ≠ [] ∧ p.id < s.nextID ∧
    (∀ c ∈ s.commands, c.id ≠ p.id) ∧ p.recs.map Record.lsn =
      List.range' ((stream s.commands s.commands.length).length + 1) p.recs.length
  follows : ∀ n, (s.nodes n).suspect = false → s.leads n = false → ∃ j, Follows s (s.nodes n) j
  leads : ∀ n, (s.nodes n).suspect = false → s.leads n = true →
    Leads s n (s.nodes n) (stream s.commands s.commands.length)

/-! ## Steps -/

variable {s s' : Cluster} {n : Nat} {x y : Node}

theorem Agrees.numbered_stream (agrees : Agrees s) (le : j ≤ s.commands.length) :
    Numbered (stream s.commands j) := by
  obtain ⟨more, eq⟩ := stream_initial s.commands le
  have numbered := agrees.numbered
  rw [← eq] at numbered
  exact (numbered_append_iff.mp numbered).1

/-- The next batch continues the stream. -/
theorem Agrees.next_command (agrees : Agrees s) (next : s.commands.drop i = p :: rest) :
    i < s.commands.length ∧ p ∈ s.commands ∧ p.recs ≠ [] ∧
      p.recs.map Record.lsn = range' ((stream s.commands i).length + 1) p.recs.length := by
  have lt : i < s.commands.length := by
    by_contra not
    rw [drop_eq_nil_of_le (Nat.le_of_not_lt not)] at next
    cases next
  have member : p ∈ s.commands := mem_of_mem_drop (i := i) (by simp [next])
  have numbered := agrees.numbered_stream (Nat.succ_le_of_lt lt)
  rw [stream_succ next] at numbered
  exact ⟨lt, member, agrees.nonempty p member, (numbered_append_iff.mp numbered).2⟩

theorem Agrees.set (agrees : Agrees s)
    (follows : y.suspect = false → s.leads n = false → ∃ j, Follows s y j)
    (leads : y.suspect = false → s.leads n →
      Leads s n y (stream s.commands s.commands.length)) : Agrees (s.set n y) := by
  refine { agrees with follows := ?_, leads := ?_ }
  · intro m trusted led
    change (update s.nodes n y m).suspect = false at trusted
    change ∃ j, Follows (s.set n y) (update s.nodes n y m) j
    by_cases same : m = n
    · rw [same, update_self] at trusted ⊢
      obtain ⟨j, here⟩ := follows trusted (same ▸ led)
      exact ⟨j, { here with }⟩
    · rw [update_of_ne same] at trusted ⊢
      obtain ⟨j, here⟩ := agrees.follows m trusted led
      exact ⟨j, { here with }⟩
  intro m trusted led
  change (update s.nodes n y m).suspect = false at trusted
  change Leads (s.set n y) m (update s.nodes n y m) _
  by_cases same : m = n
  · rw [same, update_self] at trusted ⊢
    exact { leads trusted (same ▸ led) with }
  · rw [update_of_ne same] at trusted ⊢
    exact { agrees.leads m trusted led with }

theorem Agrees.set_suspect (agrees : Agrees s) (suspect : y.suspect) :
    Agrees (s.set n y) :=
  agrees.set (fun trusted => nomatch suspect.symm.trans trusted) fun trusted =>
    nomatch suspect.symm.trans trusted

theorem Agrees.set_leader (agrees : Agrees s) (led : s.leads n)
    (leads : y.suspect = false → Leads s n y (stream s.commands s.commands.length)) :
    Agrees (s.set n y) :=
  agrees.set (fun _ led' => nomatch led.symm.trans led') fun trusted _ => leads trusted

theorem leader_of_leads (led : s.leads n) : s.leader = some n :=
  of_decide_eq_true (Bool.and_eq_true_iff.mp led).1

theorem leads_unique {m : Nat} (led : s.leads n) (led' : s.leads m) : n = m :=
  Option.some.inj ((leader_of_leads led).symm.trans (leader_of_leads led'))

theorem Leads.append (leads : Leads s n x log) (rec : Record) : Leads s n (x.append rec) log := by
  have take : ∀ k ≤ x.wal.length, (x.append rec).wal.take k = x.wal.take k :=
    fun k le => take_append_of_le_length le
  refine ⟨leads.applied, leads.wal.trans (prefix_append _ _), ?_, ?_, leads.own, leads.resting, ?_⟩
  · refine numbered_append_iff.mpr ⟨leads.numbered, ?_⟩
    simp [leads.next]
  · simp [Node.append, leads.next]
  intro call member
  obtain ⟨last, lo, hi, handed, rolled, fate⟩ := leads.calling call member
  refine ⟨last, lo, ?_, handed, rolled, ?_⟩
  · exact hi.trans (by simp [Node.append])
  · unfold Fate
    rw [take _ hi]
    exact fate

theorem Follows.deliver (agrees : Agrees s) (follows : Follows s x j)
    (next : s.commands.drop x.applied = p :: rest) :
    (x.apply p.recs).1.waiting = none ∧
      ∃ j, Follows s { (x.apply p.recs).1 with applied := x.applied + 1 } j := by
  obtain ⟨lt, -, any, lsns⟩ := agrees.next_command next
  by_cases ahead : x.applied < j
  · have part : stream s.commands (x.applied + 1) <+: x.wal := by
      rw [follows.wal]
      exact stream_initial s.commands ahead
    have le := part.length_le
    rw [stream_succ next, length_append, ← endLSN_consecutive any lsns, ← follows.last] at le
    rw [Node.apply_skip any le]
    exact ⟨follows.idle, j, { follows with applied := ahead }⟩
  have same : x.applied = j := le_antisymm follows.applied (Nat.le_of_not_lt ahead)
  rw [same, ← follows.wal] at lsns
  rw [Node.apply_next any follows.next lsns follows.last follows.own follows.handed]
  refine ⟨follows.idle, j + 1, ?_⟩
  have wal : x.wal ++ p.recs = stream s.commands (j + 1) := by
    rw [follows.wal, stream_succ (same ▸ next)]
  refine ⟨by simp [same], Nat.succ_le_of_lt (same ▸ lt), wal, by simp, by simp, by simp, ?_,
    follows.idle⟩
  have := follows.own
  have := follows.last
  lia

/-- A batch is delivered to the leader, which has it. -/
theorem Leads.deliver (agrees : Agrees s)
    (leads : Leads s n x (stream s.commands s.commands.length))
    (next : s.commands.drop x.applied = p :: rest) :
    x.apply p.recs = (x, none) ∧ p ∈ s.commands ∧ x.applied + 1 ≤ s.commands.length := by
  obtain ⟨lt, member, any, lsns⟩ := agrees.next_command next
  have le := (stream_initial s.commands (Nat.succ_le_of_lt lt)).length_le
  rw [stream_succ next, length_append, ← endLSN_consecutive any lsns] at le
  refine ⟨Node.apply_skip any (le.trans ?_), member, lt⟩
  cases waiting : x.waiting with
  | none => exact (leads.resting waiting).2.2.ge
  | some call =>
    obtain ⟨last, lo, -⟩ := leads.calling call waiting
    exact lo.trans last.ge

theorem Leads.keep (agrees : Agrees s) (leads : Leads s n x (stream s.commands s.commands.length))
    {call : Call} (waiting : x.waiting = some call) (member : p ∈ s.commands)
    (same : call.id = p.id) : Leads s n (x.keep call) (stream s.commands s.commands.length) := by
  obtain ⟨last, lo, hi, handed, rolled, fate⟩ := leads.calling call waiting
  have settled : s.inflight = [] ∧ (stream s.commands s.commands.length).length = call.last := by
    obtain ⟨q, flying, -, id, -⟩ | done | ⟨-, -, lost⟩ := fate
    · obtain none | ⟨q', flying', -, -, fresh, -⟩ := agrees.flying
      · cases none.symm.trans flying
      · cases flying.symm.trans flying'
        exact absurd (same.symm.trans id.symm) (fresh p member)
    · exact done
    · exact absurd same.symm (lost p member)
  obtain ⟨landed, whole⟩ := settled
  unfold Node.keep
  rw [← whole] at last handed rolled ⊢
  split
  · exact { leads with resting := fun _ => ⟨landed, max_eq_right handed, last⟩, calling := nofun }
  next kind =>
    exact { leads with resting := fun _ => ⟨landed, rolled kind, last⟩, calling := nofun }

theorem installRecords_suspect (x : Node) (recs : List Record) :
    (x.installRecords recs).1.suspect = x.suspect := by
  induction recs generalizing x with
  | nil => rfl
  | cons rec recs ih =>
    rw [Node.installRecords]
    split
    · rfl
    split
    · exact ih x
    · split
      · rfl
      · exact ih _

theorem apply_suspect (x : Node) (recs : List Record) : (x.apply recs).1.suspect = x.suspect := by
  unfold Node.apply
  split
  · rfl
  split
  · rfl
  have kept : (x.applyReplicated recs).1.suspect = x.suspect := by
    unfold Node.applyReplicated
    split
    · rfl
    · have := installRecords_suspect x recs
      split <;> simp_all
  split <;> simp_all

theorem keep_suspect (x : Node) (call : Call) : (x.keep call).suspect = x.suspect := by
  unfold Node.keep
  split <;> rfl

theorem Agrees.deliver (agrees : Agrees s) (step : s.deliver n = some s') : Agrees s' := by
  unfold Cluster.deliver at step
  dsimp only at step
  split at step
  · cases step
  rename_i p rest next
  cases trusted : (s.nodes n).suspect with
  | true =>
    have applied := (apply_suspect (s.nodes n) p.recs).trans trusted
    split at step
    · cases step
      exact agrees.set_suspect applied
    cases step
    refine agrees.set_suspect ?_
    split
    · exact (keep_suspect _ _).trans applied
    · exact applied
  | false =>
    cases led : s.leads n with
    | false =>
      obtain ⟨j, follows⟩ := agrees.follows n trusted led
      obtain ⟨idle, after⟩ := follows.deliver agrees next
      split at step
      · cases step
        refine agrees.set (fun _ _ => after) fun _ led' => ?_
        cases led.symm.trans led'
      · rename_i call waiting
        cases idle.symm.trans waiting
    | true =>
      have leads := agrees.leads n trusted led
      obtain ⟨skip, member, le⟩ := leads.deliver agrees next
      have after : Leads s n { s.nodes n with applied := (s.nodes n).applied + 1 }
          (stream s.commands s.commands.length) := { leads with applied := le }
      rw [skip] at step
      split at step
      · cases step
        exact agrees.set_leader led fun _ => after
      rename_i call waiting
      cases step
      refine agrees.set_leader led fun _ => ?_
      split
      · rename_i same
        exact after.keep agrees waiting member same
      · exact after

/-! ### Proposals -/

/-- The leader proposes all that was not handed over. -/
theorem Agrees.replicate {kind : Kind} {more : List Record} (agrees : Agrees s)
    (led : s.leads n) (landed : s.inflight = []) (applied : x.applied ≤ s.commands.length)
    (wal : x.wal = stream s.commands s.commands.length ++ more) (any : more ≠ [])
    (numbered : Numbered x.wal) (next : x.nextLSN = x.wal.length + 1)
    (own : x.localLSN ≤ x.lastLSN) (last : x.lastLSN ≤ x.wal.length)
    (handed : x.replLSN ≤ x.wal.length) (rolled : kind = .rollback → x.replLSN = x.wal.length) :
    Agrees (s.replicate n x kind more) := by
  have split := numbered
  rw [wal] at split
  have lsns := (numbered_append_iff.mp split).2
  have ends : endLSN more = x.wal.length := by
    rw [endLSN_consecutive any lsns, wal, length_append]
  have fresh : ∀ c ∈ s.commands, c.id ≠ s.nextID := fun c member => ne_of_lt (agrees.old c member)
  refine ⟨agrees.numbered, agrees.nonempty, fun c member => Nat.lt_succ_of_lt (agrees.old c member),
    .inr ⟨⟨n, s.nextID, more⟩, by simp [Cluster.replicate, landed], any, lt_add_one _, fresh,
      lsns⟩, ?_, ?_⟩
  · intro m trusted' led'
    have other : m ≠ n := by
      rintro rfl
      cases led.symm.trans led'
    change (update s.nodes n _ m).suspect = false at trusted'
    change ∃ j, Follows _ (update s.nodes n _ m) j
    rw [update_of_ne other] at trusted' ⊢
    obtain ⟨j, here⟩ := agrees.follows m trusted' led'
    exact ⟨j, { here with }⟩
  intro m _ led'
  have same : m = n := leads_unique led' led
  have first : stream s.commands s.commands.length <+: x.wal := by
    rw [wal]
    exact prefix_append _ _
  rw [same]
  change Leads _ n (update s.nodes n _ n) (stream s.commands s.commands.length)
  rw [update_self, ends]
  refine ⟨applied, first, numbered, next, ?_, nofun, ?_⟩
  · change max x.localLSN x.wal.length ≤ max x.lastLSN x.wal.length
    lia
  rintro call ⟨⟩
  refine ⟨max_eq_right last, first.length_le, le_rfl, handed, rolled, .inl
    ⟨⟨n, s.nextID, more⟩, by simp [Cluster.replicate, landed], rfl, rfl, ?_⟩⟩
  change more = (x.wal.take x.wal.length).drop (stream s.commands s.commands.length).length
  rw [take_length, wal, drop_left]

theorem Leads.takeRepl (leads : Leads s n x log) (resting : x.waiting = none) :
    ∃ more, x.wal = log ++ more ∧ x.unhanded = more ∧
      x.takeRepl = { x with replLSN := x.wal.length } := by
  obtain ⟨more, wal⟩ := leads.wal
  obtain ⟨-, handed, -⟩ := leads.resting resting
  have numbered := leads.numbered
  rw [← wal] at numbered
  have unhanded := Node.unhanded_eq wal.symm numbered handed
  refine ⟨more, wal.symm, unhanded, ?_⟩
  unfold Node.takeRepl
  rw [unhanded]
  split
  · rename_i none
    have length : x.wal.length = x.replLSN := by rw [handed, ← wal, none, append_nil]
    rw [length]
  · rename_i any
    rw [endLSN_consecutive any (numbered_append_iff.mp numbered).2, ← wal, length_append]

theorem Agrees.propose {kind : Kind} {commits : List Record} (agrees : Agrees s)
    (orderly : s.orderly (.propose n kind commits))
    (step : s.propose n kind commits = some s') : Agrees s' := by
  obtain ⟨led, trusted⟩ := Bool.and_eq_true_iff.mp orderly
  have trusted : (s.nodes n).suspect = false := by simpa using trusted
  have leader := leader_of_leads led
  have leads := agrees.leads n trusted led
  unfold Cluster.propose at step
  dsimp only at step
  split at step
  · cases step
  · rename_i resting
    obtain ⟨landed, -, last⟩ := leads.resting resting
    obtain ⟨more, wal, unhanded, taken⟩ := leads.takeRepl resting
    split at step
    · cases step
    rename_i any
    rw [unhanded, taken] at step
    cases step
    obtain ⟨held, length, lsns, same⟩ :=
      Node.hold_eq { s.nodes n with replLSN := (s.nodes n).wal.length } commits leads.next
    rw [same]
    rw [drop_left]
    have nonempty : held ≠ [] := by
      rintro rfl
      exact any (length_eq_zero_iff.mp length.symm)
    have lastLe : (s.nodes n).lastLSN ≤ (s.nodes n).wal.length := last.le.trans leads.wal.length_le
    refine agrees.replicate led landed leads.applied ?_ (by simp [nonempty]) ?_ ?_ leads.own ?_ ?_
      nofun
    · rw [wal, append_assoc]
    · exact numbered_append_iff.mpr ⟨leads.numbered, lsns⟩
    · simp
    · exact lastLe.trans (by simp)
    · simp
  rename_i resting
  obtain ⟨landed, -, last⟩ := leads.resting resting
  obtain ⟨more, wal, unhanded, taken⟩ := leads.takeRepl resting
  split at step
  · cases step
    exact agrees
  rename_i any
  rw [unhanded, taken] at step
  cases step
  have lastLe : (s.nodes n).lastLSN ≤ (s.nodes n).wal.length := last.le.trans leads.wal.length_le
  exact agrees.replicate led landed leads.applied wal (unhanded ▸ any) leads.numbered leads.next
    leads.own lastLe le_rfl fun _ => rfl

theorem Agrees.commitEntry (agrees : Agrees s) (step : s.Steps .commitEntry s') : Agrees s' := by
  unfold Cluster.Steps at step
  simp only [Cluster.step?] at step
  obtain none | ⟨p, flying, any, id, fresh, lsns⟩ := agrees.flying
  · rw [none] at step
    cases step
  rw [flying] at step
  cases step
  have whole : stream (s.commands ++ [p]) (s.commands ++ [p]).length =
      stream s.commands s.commands.length ++ p.recs := by
    rw [stream, take_length, flatMap_append, stream, take_length]
    simp
  refine ⟨?_, ?_, ?_, .inl rfl, ?_, ?_⟩
  · rw [whole]
    exact numbered_append_iff.mpr ⟨agrees.numbered, lsns⟩
  · exact forall_mem_append.mpr ⟨agrees.nonempty, forall_mem_singleton.mpr any⟩
  · exact forall_mem_append.mpr ⟨agrees.old, forall_mem_singleton.mpr id⟩
  · intro m trusted led
    obtain ⟨j, here⟩ := agrees.follows m trusted led
    refine ⟨j, { here with stored := ?_, wal := ?_ }⟩
    · exact here.stored.trans (by simp)
    · rw [stream, take_append_of_le_length here.stored]
      exact here.wal
  intro m trusted led
  have leads := agrees.leads m trusted led
  rw [whole]
  cases waiting : (s.nodes m).waiting with
  | none => cases (leads.resting waiting).1.symm.trans flying
  | some call =>
    obtain ⟨last, lo, hi, handed, rolled, fate⟩ := leads.calling call waiting
    have taken : stream s.commands s.commands.length ++ p.recs =
        (s.nodes m).wal.take call.last := by
      obtain ⟨q, flying', -, -, recs⟩ | ⟨landed, -⟩ | ⟨landed, -⟩ := fate
      · cases flying.symm.trans flying'
        have first : stream s.commands s.commands.length = ((s.nodes m).wal.take call.last).take
            (stream s.commands s.commands.length).length := by
          rw [take_take, Nat.min_eq_left lo]
          exact prefix_iff_eq_take.mp leads.wal
        rw [recs]
        nth_rewrite 1 [first]
        exact take_append_drop _ _
      · cases landed.symm.trans flying
      · cases landed.symm.trans flying
    have length : (stream s.commands s.commands.length ++ p.recs).length = call.last := by
      rw [taken, length_take, Nat.min_eq_left hi]
    refine ⟨leads.applied.trans (by simp), ?_, leads.numbered, leads.next, leads.own, ?_, ?_⟩
    · rw [taken]
      exact take_prefix _ _
    · intro resting
      cases waiting.symm.trans resting
    · intro call' waiting'
      cases waiting.symm.trans waiting'
      exact ⟨last, length.le, hi, handed, rolled, .inr (.inl ⟨rfl, length⟩)⟩

/-- A proposal is lost: it was one of a commit, or of a node that is suspect. -/
theorem Agrees.lose (agrees : Agrees s) (orderly : s.orderly (.lose i))
    (step : s.Steps (.lose i) s') : Agrees s' := by
  unfold Cluster.Steps at step
  simp only [Cluster.step?] at step
  split at step
  · rename_i lt
    cases step
    obtain none | ⟨p, flying, any, id, fresh, lsns⟩ := agrees.flying
    · simp [none] at lt
    have zero : i = 0 := by
      rw [flying] at lt
      exact Nat.lt_one_iff.mp lt
    have landed : s.inflight.eraseIdx i = [] := by simp [flying, zero]
    refine { agrees with flying := .inl landed, follows := ?_, leads := ?_ }
    · intro m trusted led
      obtain ⟨j, here⟩ := agrees.follows m trusted led
      exact ⟨j, { here with }⟩
    intro m trusted led
    have leads := agrees.leads m trusted led
    refine { leads with resting := ?_, calling := ?_ }
    · intro resting
      exact ⟨landed, (leads.resting resting).2⟩
    intro call waiting
    obtain ⟨last, lo, hi, handed, rolled, fate⟩ := leads.calling call waiting
    refine ⟨last, lo, hi, handed, rolled, .inr ?_⟩
    obtain ⟨q, flying', node, id', -⟩ | ⟨landed', done⟩ | ⟨landed', -⟩ := fate
    · cases flying.symm.trans flying'
      have isCommit : call.kind = .commit := by
        have waiting : (s.nodes m).waiting = some call := waiting
        have known : (s.nodes m).suspect = false := trusted
        rw [← node] at waiting known
        simpa [Cluster.orderly, flying, waiting, known, id'] using orderly
      exact .inr ⟨landed, isCommit, fun c member => id' ▸ fresh c member⟩
    · exact .inl ⟨landed, done⟩
    · cases landed'.symm.trans flying
  · cases step

/-- Another node is elected: the old leader has nothing that was not handed over. -/
theorem Agrees.elect (agrees : Agrees s) (orderly : s.orderly (.elect n))
    (step : s.Steps (.elect n) s') : Agrees s' := by
  cases step
  refine { agrees with follows := ?_, leads := ?_ }
  · intro m trusted _
    change (s.nodes m).suspect = false at trusted
    cases led : s.leads m with
    | false =>
      obtain ⟨j, here⟩ := agrees.follows m trusted led
      exact ⟨j, { here with }⟩
    | true =>
      have leads := agrees.leads m trusted led
      have leader := leader_of_leads led
      have rest : (s.nodes m).waiting = none ∧ (s.nodes m).nextLSN = (s.nodes m).replLSN + 1 := by
        simpa [Cluster.orderly, leader, trusted] using orderly
      obtain ⟨-, handed, last⟩ := leads.resting rest.1
      have next := leads.next
      have length : (s.nodes m).wal.length = (stream s.commands s.commands.length).length := by lia
      have wal := leads.wal.eq_of_length length.symm
      exact ⟨s.commands.length, leads.applied, le_rfl, wal.symm, next, handed.trans length.symm,
        last.trans length.symm, leads.own, rest.1⟩
  · intro m _ led
    simp [Cluster.leads] at led

/-- The barrier of a leader comes back: it has all of the stream. -/
theorem Agrees.barrier (agrees : Agrees s) (step : s.Steps (.barrier n) s') : Agrees s' := by
  unfold Cluster.Steps at step
  simp only [Cluster.step?] at step
  split at step
  · rename_i done
    cases step
    obtain ⟨leader, landed, all⟩ := done
    refine { agrees with follows := ?_, leads := ?_ }
    · intro m trusted led
      have notLeader : s.leads m = false := by
        simp only [Cluster.leads, Bool.and_true, decide_eq_false_iff_not] at led
        simp [Cluster.leads, led]
      obtain ⟨j, here⟩ := agrees.follows m trusted notLeader
      exact ⟨j, { here with }⟩
    intro m trusted led
    cases before : s.leads m with
    | true => exact { agrees.leads m trusted before with }
    | false =>
      obtain ⟨j, here⟩ := agrees.follows m trusted before
      have same : m = n := by
        simp only [Cluster.leads, Bool.and_true, decide_eq_true_eq] at led
        exact Option.some.inj (led.symm.trans leader)
      have full : j = s.commands.length := by
        have := here.applied
        have := here.stored
        rw [same] at *
        lia
      subst full
      have numbered := agrees.numbered
      rw [← here.wal] at numbered
      refine ⟨here.applied, here.wal ▸ prefix_refl _, numbered, here.next, here.own, ?_, ?_⟩
      · exact fun _ => ⟨landed, here.wal ▸ here.handed, here.wal ▸ here.last⟩
      · intro call waiting
        cases here.idle.symm.trans waiting
  · cases step

theorem Agrees.step {label : Label} (agrees : Agrees s) (orderly : s.orderly label)
    (step : s.Steps label s') : Agrees s' := by
  cases label with
  | append n rec =>
    cases step
    obtain suspect | led := Bool.or_eq_true_iff.mp orderly
    · exact agrees.set_suspect suspect
    · refine agrees.set_leader led fun trusted => ?_
      exact (agrees.leads n trusted led).append rec
  | propose n kind commits => exact agrees.propose orderly step
  | commitEntry => exact agrees.commitEntry step
  | lose i => exact agrees.lose orderly step
  | giveUp n =>
    obtain ⟨call, waiting, rfl⟩ := Option.map_eq_some_iff.mp step
    have suspect : ((s.nodes n).giveUp call).suspect := by
      unfold Node.giveUp
      obtain before | commits := Bool.or_eq_true_iff.mp orderly
      · split
        · rfl
        · exact (keep_suspect _ _).trans before
      · have isCommit : call.kind = .commit := by simpa [waiting] using commits
        rw [isCommit]
    exact agrees.set_suspect suspect
  | deliver n => exact agrees.deliver step
  | elect n => exact agrees.elect orderly step
  | barrier n => exact agrees.barrier step
  | confirm n =>
    cases step
    have trusted : (s.nodes n).suspect = false := by simpa [Cluster.orderly] using orderly
    have same : { s.nodes n with suspect := false } = s.nodes n := by
      rw [← trusted]
    rw [same]
    exact agrees.set (fun _ led => agrees.follows n trusted led) fun _ led =>
      agrees.leads n trusted led

theorem agrees_create : Agrees Cluster.create := by
  refine ⟨rfl, nofun, nofun, .inl rfl, fun n _ _ => ⟨0, ?_⟩, nofun⟩
  exact ⟨le_rfl, le_rfl, rfl, rfl, rfl, rfl, le_rfl, rfl⟩

/-! ## What the replicas hold -/

/-- The log of a node that is not suspect: a first part of the stream, or the stream and
more. -/
theorem Agrees.wal (agrees : Agrees s) (trusted : (s.nodes n).suspect = false) :
    Numbered (s.nodes n).wal ∧ stream s.commands (s.nodes n).applied <+: (s.nodes n).wal ∧
      (s.nodes n).lastLSN ≤ (s.nodes n).wal.length ∧
      ((s.nodes n).wal <+: stream s.commands s.commands.length ∨
        (s.leads n ∧ stream s.commands s.commands.length <+: (s.nodes n).wal)) := by
  cases led : s.leads n with
  | false =>
    obtain ⟨j, here⟩ := agrees.follows n trusted led
    rw [here.wal]
    refine ⟨agrees.numbered_stream here.stored, stream_initial s.commands here.applied, ?_,
      .inl (stream_initial s.commands here.stored)⟩
    exact (here.wal ▸ here.last).le
  | true =>
    have here := agrees.leads n trusted led
    refine ⟨here.numbered, (stream_initial s.commands here.applied).trans here.wal, ?_,
      .inr ⟨rfl, here.wal⟩⟩
    cases waiting : (s.nodes n).waiting with
    | none => exact (here.resting waiting).2.2.le.trans here.wal.length_le
    | some call =>
      obtain ⟨last, -, hi, -⟩ := here.calling call waiting
      exact last.le.trans hi

/-- Of two logs of nodes that are not suspect one is a first part of the other. -/
theorem Agrees.comparable (agrees : Agrees s) {m : Nat} (trusted : (s.nodes n).suspect = false)
    (trusted' : (s.nodes m).suspect = false) :
    (s.nodes n).wal <+: (s.nodes m).wal ∨ (s.nodes m).wal <+: (s.nodes n).wal := by
  obtain ⟨-, -, -, here⟩ := agrees.wal trusted
  obtain ⟨-, -, -, there⟩ := agrees.wal trusted'
  obtain part | ⟨led, more⟩ := here
  · obtain part' | ⟨-, more'⟩ := there
    · exact prefix_or_prefix_of_prefix part part'
    · exact .inl (part.trans more')
  obtain part' | ⟨led', more'⟩ := there
  · exact .inr (part'.trans more)
  · rw [leads_unique led led']
    exact .inl (prefix_refl _)

namespace LostRollback

def begin (t : TxnID) : Record := { type := .begin, txnID := t }

/-- Node 0 leads, a transaction commits, and node 1 takes over and commits another one. -/
def handover : List Label :=
  [.elect 0, .barrier 0, .append 0 (begin 1), .propose 0 .commit [{ type := .commit, txnID := 1 }],
   .commitEntry, .deliver 0, .deliver 1, .elect 1, .barrier 1, .append 1 (begin 2),
   .propose 1 .commit [{ type := .commit, txnID := 2 }], .commitEntry, .deliver 0, .deliver 1]

/-- Node 0 rolls back a transaction, and the batch with its records is lost with the
leadership. Node 1 commits a transaction with the same LSNs. -/
def lost : List Label :=
  [.elect 0, .barrier 0, .append 0 (begin 1), .append 0 { type := .abort, txnID := 1 },
   .propose 0 .rollback [], .lose 0, .giveUp 0, .elect 1, .barrier 1, .append 1 (begin 2),
   .propose 1 .commit [{ type := .commit, txnID := 2 }], .commitEntry, .deliver 0, .deliver 1]

end LostRollback

end NextSQL.Replication
