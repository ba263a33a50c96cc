import NextSQL.Sql.PruneBounds

/-!
# When pruning keeps the partition of every row

`validatePartitioning` makes sure that no two partitions share an identity, a
listed key or a hash remainder. With that, a row on which the predicate is true
is in a partition that pruning keeps (`prunePartitions_sound`), if the predicate
can be read as pruning reads it and no upper end of an interval belongs to the
interval. A `NOT BETWEEN` cannot be read so, and `prunePartitions_unsound` is a
scan that misses a row for that reason.
-/

namespace NextSQL.Sql

open List Except

variable {D : Type} {fns : Fns D}

/-! ## What validation guarantees -/

variable {want : List Typ} {tuple : List (Value D)}

theorem validatePartitionTuple_ok (valid : validatePartitionTuple want tuple = .ok ()) :
    (∀ v ∈ tuple, v.isNull = false) ∧ tuple.map Value.typ = want := by
  simp only [validatePartitionTuple, Except.ite_error_eq_ok_iff] at valid
  obtain ⟨-, present, types, -⟩ := valid
  refine ⟨fun v member => ?_, not_not.mp types⟩
  cases null : v.isNull with
  | false => rfl
  | true => exact absurd (any_eq_true.mpr ⟨v, member, null⟩) present

variable {kind : PartitionKind} {modulus : ℕ} {seen final : SeenPartitions} {part : Partition D}

theorem validatePartitions_cons {rest : List (Partition D)}
    (valid : validatePartitions fns kind want modulus seen (part :: rest) = .ok final) :
    ∃ seen', part.id ∉ seen.ids ∧
      validateRule fns kind want modulus { seen with ids := part.id :: seen.ids } part = .ok seen' ∧
      validatePartitions fns kind want modulus seen' rest = .ok final := by
  obtain ⟨-, valid⟩ := check_eq_ok_iff.mp valid
  obtain ⟨fresh, valid⟩ := check_eq_ok_iff.mp valid
  obtain ⟨seen', rule, more⟩ := bind_eq_ok_iff.mp valid
  exact ⟨seen', fresh, rule, more⟩

variable {seen' : SeenPartitions}

/-- The rule of a RANGE partition has ends of the types of the columns. -/
theorem validateRule_range (valid : validateRule fns .range want modulus seen part = .ok seen') :
    seen' = seen ∧ validateEnd want part.lower = .ok () ∧ validateEnd want part.upper = .ok () := by
  obtain ⟨-, valid⟩ := check_eq_ok_iff.mp valid
  obtain ⟨⟨⟩, lower, valid⟩ := bind_eq_ok_iff.mp valid
  obtain ⟨⟨⟩, upper, valid⟩ := bind_eq_ok_iff.mp valid
  obtain ⟨-, valid⟩ := check_eq_ok_iff.mp valid
  obtain ⟨-, valid⟩ := check_eq_ok_iff.mp valid
  cases valid
  exact ⟨rfl, lower, upper⟩

/-- The rule of a HASH partition has the common modulus and a remainder of its own. -/
theorem validateRule_hash (valid : validateRule fns .hash want modulus seen part = .ok seen') :
    part.modulus = modulus ∧ part.remainder ∉ seen.remainders ∧
      seen' = { seen with remainders := part.remainder :: seen.remainders } := by
  obtain ⟨-, valid⟩ := check_eq_ok_iff.mp valid
  obtain ⟨modulus_eq, valid⟩ := check_eq_ok_iff.mp valid
  obtain ⟨fresh, valid⟩ := check_eq_ok_iff.mp valid
  cases valid
  exact ⟨not_not.mp modulus_eq, fresh, rfl⟩

theorem validateValues_ok {seen out : List Bytes} {tuples : List (List (Value D))}
    (valid : validateValues fns want seen tuples = .ok out) :
    seen ⊆ out ∧ ∀ tuple ∈ tuples, tuple.length = want.length ∧
      ∃ key, encodeKey fns tuple = .ok key ∧ key ∉ seen ∧ key ∈ out := by
  induction tuples generalizing seen with
  | nil =>
    cases valid
    exact ⟨Subset.refl _, nofun⟩
  | cons tuple rest ih =>
    rw [validateValues] at valid
    obtain ⟨⟨⟩, width, valid⟩ := bind_eq_ok_iff.mp valid
    obtain ⟨key, encoded, valid⟩ := bind_eq_ok_iff.mp valid
    obtain ⟨fresh, valid⟩ := check_eq_ok_iff.mp valid
    obtain ⟨kept, later⟩ := ih valid
    refine ⟨fun k old => kept (mem_cons_of_mem _ old), fun t member => ?_⟩
    obtain rfl | inside := mem_cons.mp member
    · refine ⟨?_, key, encoded, fresh, kept mem_cons_self⟩
      rw [← (validatePartitionTuple_ok width).2, length_map]
    · obtain ⟨long, k, known, new, listed⟩ := later t inside
      exact ⟨long, k, known, fun old => new (mem_cons_of_mem _ old), listed⟩

/-- The rule of a LIST partition has tuples of the right width, with keys that no
earlier partition has. -/
theorem validateRule_values (notRange : kind ≠ .range) (notHash : kind ≠ .hash)
    (valid : validateRule fns kind want modulus seen part = .ok seen') :
    ∃ keys, seen' = { seen with keys } ∧ validateValues fns want seen.keys part.values = .ok keys := by
  unfold validateRule at valid
  split at valid
  · exact absurd rfl notRange
  · exact absurd rfl notHash
  obtain ⟨-, valid⟩ := check_eq_ok_iff.mp valid
  obtain ⟨-, valid⟩ := check_eq_ok_iff.mp valid
  obtain ⟨keys, values, valid⟩ := bind_eq_ok_iff.mp valid
  cases valid
  exact ⟨keys, rfl, values⟩

theorem validateRule_ids (valid : validateRule fns kind want modulus seen part = .ok seen') :
    seen'.ids = seen.ids := by
  by_cases isRange : kind = .range
  · subst isRange
    rw [(validateRule_range valid).1]
  by_cases isHash : kind = .hash
  · subst isHash
    rw [(validateRule_hash valid).2.2]
  · obtain ⟨keys, rfl, -⟩ := validateRule_values isRange isHash valid
    rfl

variable {l : List (Partition D)}

theorem validatePartitions_ids (valid : validatePartitions fns kind want modulus seen l = .ok final) :
    (∀ part ∈ l, part.id ∉ seen.ids) ∧ l.Pairwise fun a b => a.id ≠ b.id := by
  induction l generalizing seen with
  | nil => exact ⟨nofun, .nil⟩
  | cons part rest ih =>
    obtain ⟨seen', fresh, rule, more⟩ := validatePartitions_cons valid
    obtain ⟨later, apart⟩ := ih more
    rw [validateRule_ids rule] at later
    refine ⟨fun q member => ?_, .cons (fun q inside same => ?_) apart⟩
    · obtain rfl | inside := mem_cons.mp member
      · exact fresh
      · exact fun old => later q inside (mem_cons_of_mem _ old)
    · exact later q inside (same ▸ mem_cons_self)

theorem validatePartitions_ends
    (valid : validatePartitions fns .range want modulus seen l = .ok final) :
    ∀ part ∈ l, validateEnd want part.lower = .ok () ∧ validateEnd want part.upper = .ok () := by
  induction l generalizing seen with
  | nil => nofun
  | cons part rest ih =>
    obtain ⟨seen', -, rule, more⟩ := validatePartitions_cons valid
    exact forall_mem_cons.mpr ⟨(validateRule_range rule).2, ih more⟩

theorem validatePartitions_remainders
    (valid : validatePartitions fns .hash want modulus seen l = .ok final) :
    (∀ part ∈ l, part.remainder ∉ seen.remainders) ∧
      l.Pairwise fun a b => a.remainder ≠ b.remainder := by
  induction l generalizing seen with
  | nil => exact ⟨nofun, .nil⟩
  | cons part rest ih =>
    obtain ⟨seen', -, rule, more⟩ := validatePartitions_cons valid
    obtain ⟨-, fresh, rfl⟩ := validateRule_hash rule
    obtain ⟨later, apart⟩ := ih more
    refine ⟨fun q member => ?_, .cons (fun q inside same => ?_) apart⟩
    · obtain rfl | inside := mem_cons.mp member
      · exact fresh
      · exact fun old => later q inside (mem_cons_of_mem _ old)
    · exact later q inside (same ▸ mem_cons_self)

/-- The partition lists a tuple with the key. -/
def Lists (fns : Fns D) (key : Bytes) (part : Partition D) : Prop :=
  ∃ tuple ∈ part.values, encodeKey fns tuple = .ok key

/-- No two LIST partitions have tuples with the same key. -/
theorem validatePartitions_keys (notRange : kind ≠ .range) (notHash : kind ≠ .hash)
    (valid : validatePartitions fns kind want modulus seen l = .ok final) :
    (∀ part ∈ l, ∀ tuple ∈ part.values, tuple.length = want.length) ∧
      (∀ part ∈ l, ∀ key, Lists fns key part → key ∉ seen.keys) ∧
      l.Pairwise fun a b => ∀ key, Lists fns key a → ¬ Lists fns key b := by
  induction l generalizing seen with
  | nil => exact ⟨nofun, nofun, .nil⟩
  | cons part rest ih =>
    obtain ⟨seen', -, rule, more⟩ := validatePartitions_cons valid
    obtain ⟨keys, rfl, values⟩ := validateRule_values notRange notHash rule
    obtain ⟨kept, own⟩ := validateValues_ok values
    obtain ⟨wide, later, apart⟩ := ih more
    have key_of_own : ∀ key, Lists fns key part → key ∉ seen.keys ∧ key ∈ keys := by
      rintro key ⟨tuple, listed, encoded⟩
      obtain ⟨-, k, known, new, inside⟩ := own tuple listed
      cases encoded.symm.trans known
      exact ⟨new, inside⟩
    refine ⟨fun q member => ?_, fun q member key lists => ?_, .cons ?_ apart⟩
    · obtain rfl | inside := mem_cons.mp member
      · exact fun tuple listed => (own tuple listed).1
      · exact wide q inside
    · obtain rfl | inside := mem_cons.mp member
      · exact (key_of_own key lists).1
      · exact fun old => later q inside key lists (kept old)
    · exact fun q inside key lists lists' => later q inside key lists' (key_of_own key lists).2

/-! ## Routing -/

variable {a b : List (Value D)}

theorem comparePartitionTuple_ok {c : Ordering} (compared : comparePartitionTuple fns a b = .ok c) :
    ∃ parts ends, Encodes fns a parts ∧ Encodes fns b ends ∧
      compareBytes parts.flatten ends.flatten = c := by
  obtain ⟨ak, left, rest⟩ := bind_eq_ok_iff.mp compared
  obtain ⟨bk, right, rest⟩ := bind_eq_ok_iff.mp rest
  cases rest
  obtain ⟨parts, encodes, rfl⟩ := encodes_of_encodeKey left
  obtain ⟨ends, encodesEnd, rfl⟩ := encodes_of_encodeKey right
  exact ⟨parts, ends, encodes, encodesEnd, rfl⟩

theorem routeRange_ok (routed : routeRange fns tuple l = .ok part) :
    part ∈ l ∧ aboveLower fns part tuple = .ok true ∧ belowUpper fns part tuple = .ok true := by
  induction l with
  | nil => cases routed
  | cons q rest ih =>
    rw [routeRange] at routed
    obtain ⟨above, lower, routed⟩ := bind_eq_ok_iff.mp routed
    cases above with
    | false =>
      obtain ⟨inside, ends⟩ := ih routed
      exact ⟨mem_cons_of_mem _ inside, ends⟩
    | true =>
      obtain ⟨below, upper, routed⟩ := bind_eq_ok_iff.mp routed
      cases below with
      | false =>
        obtain ⟨inside, ends⟩ := ih routed
        exact ⟨mem_cons_of_mem _ inside, ends⟩
      | true =>
        cases routed
        exact ⟨mem_cons_self, lower, upper⟩

variable {key : Bytes}

theorem lists_of_keyAmong (among : keyAmong fns key part.values = .ok true) :
    Lists fns key part := by
  unfold Lists
  generalize part.values = tuples at among
  induction tuples with
  | nil => cases among
  | cons tuple rest ih =>
    rw [keyAmong] at among
    obtain ⟨k, encoded, among⟩ := bind_eq_ok_iff.mp among
    split at among
    · rename_i same
      exact ⟨tuple, mem_cons_self, same ▸ encoded⟩
    · obtain ⟨t, inside, same⟩ := ih among
      exact ⟨t, mem_cons_of_mem _ inside, same⟩

theorem routeList_ok (routed : routeList fns key l = .ok part) :
    part ∈ l ∧ Lists fns key part ∧ findKey fns key l = .ok [part] := by
  induction l with
  | nil => cases routed
  | cons q rest ih =>
    rw [routeList] at routed
    obtain ⟨found, among, routed⟩ := bind_eq_ok_iff.mp routed
    cases found with
    | false =>
      obtain ⟨inside, lists, finds⟩ := ih routed
      refine ⟨mem_cons_of_mem _ inside, lists, ?_⟩
      rw [findKey, among]
      exact finds
    | true =>
      cases routed
      refine ⟨mem_cons_self, lists_of_keyAmong among, ?_⟩
      rw [findKey, among]
      rfl

variable {remainder : ℕ}

theorem routeHash_ok (routed : routeHash modulus remainder l = .ok part) :
    part ∈ l ∧ part.remainder = remainder := by
  induction l with
  | nil => cases routed
  | cons q rest ih =>
    rw [routeHash] at routed
    split at routed
    · rename_i rule
      cases routed
      exact ⟨mem_cons_self, rule.2⟩
    · obtain ⟨inside, same⟩ := ih routed
      exact ⟨mem_cons_of_mem _ inside, same⟩

/-! ## Registered partitions -/

/-- Where no two elements meet a condition together, the one that meets it is all
that a filter leaves. -/
theorem filter_eq_singleton {α : Type} {keep : α → Bool} {a : α} {l : List α}
    (apart : l.Pairwise fun x y => keep x = true → keep y = false) (inside : a ∈ l)
    (kept : keep a) : l.filter keep = [a] := by
  induction apart with
  | nil => cases inside
  | @cons x l here apart ih =>
    obtain rfl | later := mem_cons.mp inside
    · rw [filter_cons_of_pos kept, filter_eq_nil_iff.mpr]
      intro y member
      rw [here y member kept]
      exact Bool.false_ne_true
    · have dropped : keep x = false := by
        cases value : keep x with
        | false => rfl
        | true => rw [here a later value] at kept; cases kept
      rw [filter_cons_of_neg (by rw [dropped]; exact Bool.false_ne_true), ih later]

theorem lookupKey_eq_some (apart : l.Pairwise fun a b => ∀ key, Lists fns key a → ¬ Lists fns key b)
    (narrow : ∀ tuple ∈ part.values, tuple.length = 1) (inside : part ∈ l)
    (lists : Lists fns key part) : lookupKey fns l key = some part := by
  have lists_of_hasKey : ∀ q, hasKey fns key q → Lists fns key q := by
    intro q has
    obtain ⟨tuple, listed, same⟩ := any_eq_true.mp has
    obtain ⟨-, same⟩ := Bool.and_eq_true_iff.mp same
    split at same
    · rename_i k encoded
      exact ⟨tuple, listed, (beq_iff_eq.mp same) ▸ encoded⟩
    · cases same
  have has : hasKey fns key part := by
    obtain ⟨tuple, listed, encoded⟩ := lists
    refine any_eq_true.mpr ⟨tuple, listed, ?_⟩
    rw [narrow tuple listed, encoded]
    exact beq_self_eq_true key
  have only : l.filter (hasKey fns key) = [part] := by
    refine filter_eq_singleton (apart.imp fun {a b} differ has_a => ?_) inside has
    cases has_b : hasKey fns key b with
    | false => rfl
    | true => exact absurd (lists_of_hasKey b has_b) (differ key (lists_of_hasKey a has_a))
  rw [lookupKey, only]
  rfl

theorem lookupRemainder_eq_some (apart : l.Pairwise fun a b => a.remainder ≠ b.remainder)
    (inside : part ∈ l) : lookupRemainder l part.remainder = some part := by
  have only : (l.filter fun q => q.remainder = part.remainder) = [part] := by
    refine filter_eq_singleton (apart.imp fun {a b} differ same => ?_) inside (by simp)
    rw [← of_decide_eq_true same]
    exact decide_eq_false differ.symm
  rw [lookupRemainder, only]
  rfl

theorem mem_dedupPartitions {seen : List ℕ} (member : part ∈ l)
    (only : ∀ q ∈ l, q.id = part.id → q = part) (new : part.id ∉ seen) :
    part ∈ dedupPartitions seen l := by
  induction l generalizing seen with
  | nil => cases member
  | cons q rest ih =>
    have only_rest : ∀ r ∈ rest, r.id = part.id → r = part :=
      fun r later => only r (mem_cons_of_mem _ later)
    rw [dedupPartitions]
    obtain rfl | later := mem_cons.mp member
    · rw [if_neg new]
      exact mem_cons_self
    split
    · exact ih later only_rest new
    by_cases same : q.id = part.id
    · rw [only q mem_cons_self same]
      exact mem_cons_self
    refine mem_cons_of_mem _ (ih later only_rest ?_)
    intro again
    obtain now | before := mem_cons.mp again
    · exact same now.symm
    · exact new before

/-! ## Tuples the predicate pins -/

theorem encodes_eq_of_partOrder {parts ends : List Bytes}
    (equal : Forall₂ (PartOrder fns .eq) a b) (encodes : Encodes fns a parts)
    (encodesEnd : Encodes fns b ends) : parts = ends := by
  induction equal generalizing parts ends with
  | nil =>
    cases encodes
    cases encodesEnd
    rfl
  | cons same _ ih =>
    obtain _ | ⟨first, rests⟩ := encodes
    obtain _ | ⟨firstEnd, restsEnd⟩ := encodesEnd
    rw [compareBytes_eq_eq_iff.mp (same _ _ first firstEnd), ih rests restsEnd]

theorem encodeKey_eq_of_partOrder {k k' : Bytes} (equal : Forall₂ (PartOrder fns .eq) a b)
    (left : encodeKey fns a = .ok k) (right : encodeKey fns b = .ok k') : k = k' := by
  obtain ⟨parts, encodes, rfl⟩ := encodes_of_encodeKey left
  obtain ⟨ends, encodesEnd, rfl⟩ := encodes_of_encodeKey right
  rw [encodes_eq_of_partOrder equal encodes encodesEnd]

theorem hashPartition_eq {p : Partitioning D} {pinned : List (Value D)} {q : Partition D}
    (apart : p.partitions.Pairwise fun a b => a.remainder ≠ b.remainder)
    (equal : Forall₂ (PartOrder fns .eq) tuple pinned)
    (remains : hashPartitionRemainder fns tuple
      ((p.partitions.head?.map Partition.modulus).getD 0) = .ok remainder)
    (inside : part ∈ p.partitions) (same : part.remainder = remainder)
    (hashed : hashPartition fns p pinned = some q) : q = part := by
  obtain ⟨remainder', remains', lookup⟩ := Option.bind_eq_some_iff.mp hashed
  have agree : remainder' = remainder := by
    cases value : hashPartitionRemainder fns pinned
        ((p.partitions.head?.map Partition.modulus).getD 0) with
    | error e =>
      rw [value] at remains'
      cases remains'
    | ok r =>
      rw [value] at remains'
      cases remains'
      obtain ⟨-, remains⟩ := check_eq_ok_iff.mp remains
      obtain ⟨-, value⟩ := check_eq_ok_iff.mp value
      obtain ⟨k, encoded, done⟩ := bind_eq_ok_iff.mp remains
      obtain ⟨k', encoded', done'⟩ := bind_eq_ok_iff.mp value
      cases done
      cases done'
      rw [encodeKey_eq_of_partOrder equal encoded encoded']
  rw [agree, ← same, lookupRemainder_eq_some apart inside] at lookup
  exact (Option.some.inj lookup).symm

theorem TypedRow.sameKind {tab : Table} {row : Row D} {columns : List ℕ}
    (typed : TypedRow tab columns row) :
    ∀ (cols : List ℕ) (tuple bound : List (Value D)), cols ⊆ columns →
      partitionTuple row cols = .ok tuple →
      (∀ v ∈ bound, v.isNull = false) → bound.map Value.typ = cols.map (colType tab) →
      Forall₂ SameKind tuple bound
  | [], _, bound, _, found, _, types => by
    cases found
    cases map_eq_nil_iff.mp types
    exact .nil
  | ord :: rest, tuple, bound, inside, found, present, types => by
    obtain ⟨x, tail, rfl, stored, here, more⟩ := partitionTuple_cons found
    obtain ⟨b, bounds, rfl, typ, types⟩ := map_eq_cons_iff.mp types
    refine .cons ⟨here, present b mem_cons_self, ?_⟩
      (TypedRow.sameKind typed rest tail bounds (fun c later => inside (mem_cons_of_mem _ later))
        more (fun v member => present v (mem_cons_of_mem _ member)) types)
    rw [typed.kinds ord (inside mem_cons_self) x stored here, ← typ]
    rfl

variable [Ord D] [Inhabited D] [Std.TransOrd D] {tab : Table} {row : Row D} {columns : List ℕ}
  {pred : Expr D} {p : Partitioning D} {part : Partition D}

variable {ord : ℕ} {x : Value D}

theorem Readable.exists_pinned (readable : Readable fns tab row columns pred) (laws : KeyLaws fns)
    (typed : TypedRow tab columns row) (holds : Holds fns tab row pred) {vals : List (Value D)}
    (column : ord ∈ columns) (stored : row[ord]? = some x)
    (found : extractEqualValues fns (colName tab ord) pred = some vals) :
    ∃ v ∈ vals, ∀ cv, fns.coerce v (colType tab ord) = .ok cv → PartOrder fns .eq x cv := by
  obtain ⟨v, member, n, inside, holds_n, bound⟩ :=
    exists_atom_of_extractEqualValues pred vals found holds
  refine ⟨v, member, fun cv converts => ?_⟩
  obtain ⟨o, order, passed⟩ :=
    readable.partOrder_of_atom laws typed inside column stored holds_n bound converts
  cases o with
  | lt => cases passed
  | eq => exact order
  | gt => cases passed

theorem Readable.pinnedValues (readable : Readable fns tab row columns pred) (laws : KeyLaws fns)
    (typed : TypedRow tab columns row) (holds : Holds fns tab row pred) {values : List (Value D)}
    (column : ord ∈ columns) (stored : row[ord]? = some x)
    (found : pinnedValues fns tab pred ord = some values) :
    ∃ cv ∈ values, PartOrder fns .eq x cv := by
  unfold Sql.pinnedValues at found
  split at found
  · rename_i first rest pinned
    obtain ⟨v, member, order⟩ := readable.exists_pinned laws typed holds column stored pinned
    obtain ⟨cv, inside, converts⟩ := (mapM_eq_some_iff.mp found).exists_right member
    refine ⟨cv, inside, order cv ?_⟩
    cases value : fns.coerce v (colType tab ord) with
    | error e => rw [value] at converts; cases converts
    | ok w => rw [value] at converts; cases converts; rfl
  · cases found

theorem Readable.pinnedTuple (readable : Readable fns tab row columns pred)
    (laws : KeyLaws fns) (typed : TypedRow tab columns row) (holds : Holds fns tab row pred) :
    ∀ (cols : List ℕ) (tuple pinned : List (Value D)), cols ⊆ columns →
      partitionTuple row cols = .ok tuple → pinnedTuple fns tab pred cols = some pinned →
      Forall₂ (PartOrder fns .eq) tuple pinned
  | [], _, _, _, found, pins => by
    cases found
    cases pins
    exact .nil
  | ord :: rest, tuple, pinned, inside, found, pins => by
    obtain ⟨x, tail, rfl, stored, -, more⟩ := partitionTuple_cons found
    rw [Sql.pinnedTuple] at pins
    split at pins
    · rename_i v values
      split at pins
      · rename_i cv pinnedTail converts pinsTail
        cases pins
        obtain ⟨w, member, order⟩ :=
          readable.exists_pinned laws typed holds (inside mem_cons_self) stored values
        cases mem_singleton.mp member
        exact .cons (order cv converts) (Readable.pinnedTuple readable laws typed holds rest tail
          pinnedTail (fun c later => inside (mem_cons_of_mem _ later)) more pinsTail)
      · cases pins
    · cases pins

/-! ## The three kinds of rules -/

omit [Inhabited D] [Std.TransOrd D] in
/-- **An interval that holds the tuple of a row is not pruned**, unless its upper
end belongs to it. -/
theorem prunedRange_eq_false (laws : KeyLaws fns) {b : QueryBounds D}
    (above : Above fns b.lowIncl tuple b.low) (below : Below fns b.highIncl tuple b.high)
    (kinds : ∀ bound : List (Value D), validatePartitionTuple want bound = .ok () →
      Forall₂ SameKind tuple bound) (lowerValid : validateEnd want part.lower = .ok ())
    (upperValid : validateEnd want part.upper = .ok ())
    (lower : aboveLower fns part tuple = .ok true) (upper : belowUpper fns part tuple = .ok true)
    (exclusive : part.upperInclusive = false) : prunedRange fns b part = false := by
  refine Bool.or_eq_false_iff.mpr ⟨?_, ?_⟩
  · unfold aboveLower at lower
    split
    · rename_i bound at_lower
      rw [at_lower] at lower lowerValid
      obtain ⟨c, compared, passed⟩ := bind_eq_ok_iff.mp lower
      obtain ⟨parts, ends, encodes, encodesEnd, order⟩ := comparePartitionTuple_ok compared
      refine Bool.and_eq_false_iff.mpr (.inr ?_)
      split
      · rename_i c' placed
        cases pruned : (c' == .lt || c' == .eq && !b.highIncl) with
        | false => rfl
        | true =>
          have before : c' = .lt ∨ (c' = .eq ∧ b.highIncl = false) := by simpa using pruned
          have less := lt_lower_of_below laws below (kinds bound lowerValid) encodes encodesEnd
            placed before
          rw [compareBytes_eq_lt_iff.mpr less] at order
          subst order
          cases passed
      · rfl
    · rfl
  unfold belowUpper at upper
  split
  · rename_i bound at_upper
    rw [at_upper] at upper upperValid
    obtain ⟨c, compared, passed⟩ := bind_eq_ok_iff.mp upper
    obtain ⟨parts, ends, encodes, encodesEnd, order⟩ := comparePartitionTuple_ok compared
    refine Bool.and_eq_false_iff.mpr (.inr ?_)
    split
    · rename_i c' placed
      cases pruned : (c' != .lt) with
      | false => rfl
      | true =>
        rw [exclusive] at passed
        rcases upper_lt_of_above laws above (kinds bound upperValid) encodes encodesEnd placed
          (by simpa using pruned) with greater | rfl
        · rw [compareBytes_eq_gt_iff.mpr greater] at order
          subst order
          cases passed
        · rw [compareBytes_eq_eq_iff.mpr rfl] at order
          subst order
          cases passed
    · rfl
  · rfl

section

variable (readable : Readable fns tab row p.columns pred) (laws : KeyLaws fns)
  (typed : TypedRow tab p.columns row) (holds : Holds fns tab row pred)

include readable laws typed holds

theorem mem_pruneRange (ends : ∀ part ∈ p.partitions,
      validateEnd (p.columns.map (colType tab)) part.lower = .ok () ∧
        validateEnd (p.columns.map (colType tab)) part.upper = .ok ())
    (exclusive : ∀ part ∈ p.partitions, part.upperInclusive = false)
    (found : partitionTuple row p.columns = .ok tuple)
    (routed : routeRange fns tuple p.partitions = .ok part) : part ∈ pruneRange fns tab p pred := by
  obtain ⟨inside, lower, upper⟩ := routeRange_ok routed
  obtain ⟨above, below⟩ :=
    readable.between_queryBounds laws typed holds p.columns tuple (Subset.refl _) found
  have kinds : ∀ bound : List (Value D),
      validatePartitionTuple (p.columns.map (colType tab)) bound = .ok () →
      Forall₂ SameKind tuple bound := by
    intro bound valid
    obtain ⟨present, types⟩ := validatePartitionTuple_ok valid
    exact typed.sameKind p.columns tuple bound (Subset.refl _) found present types
  unfold pruneRange
  dsimp only
  split
  · exact inside
  refine mem_filter.mpr ⟨inside, ?_⟩
  rw [prunedRange_eq_false laws above below kinds (ends part inside).1 (ends part inside).2 lower
    upper (exclusive part inside)]
  rfl

theorem mem_pruneValue
    (wide : ∀ part ∈ p.partitions, ∀ tuple ∈ part.values, tuple.length = p.columns.length)
    (apart : p.partitions.Pairwise fun a b => ∀ key, Lists fns key a → ¬ Lists fns key b)
    (ids : ∀ a ∈ p.partitions, ∀ b ∈ p.partitions, a.id = b.id → a = b)
    (found : partitionTuple row p.columns = .ok tuple) (encoded : encodeKey fns tuple = .ok key)
    (routed : routeList fns key p.partitions = .ok part) : part ∈ pruneValue fns tab p pred := by
  obtain ⟨inside, lists, finds⟩ := routeList_ok routed
  unfold pruneValue
  split
  · exact inside
  · rename_i ord single
    rw [single] at found
    obtain ⟨x, tail, rfl, stored, -, more⟩ := partitionTuple_cons found
    cases more
    split
    · exact inside
    rename_i values pins
    dsimp only
    split
    · rename_i registered keys registers keyed
      obtain ⟨cv, member, equal⟩ := readable.pinnedValues laws typed holds
        (by rw [single]; exact mem_cons_self) stored pins
      obtain ⟨k, listed, encodes⟩ := (mapM_eq_some_iff.mp keyed).exists_right member
      have same : key = k := by
        cases value : encodeKey fns [cv] with
        | error e => rw [value] at encodes; cases encodes
        | ok k' =>
          rw [value] at encodes
          cases encodes
          exact encodeKey_eq_of_partOrder (.cons equal .nil) encoded value
      subst same
      refine mem_dedupPartitions (mem_filterMap.mpr ⟨key, listed, ?_⟩) ?_ (not_mem_nil)
      · refine lookupKey_eq_some apart (fun t at_part => ?_) inside lists
        rw [wide part inside t at_part, single]
        rfl
      intro q looked same_id
      obtain ⟨k', -, lookup⟩ := mem_filterMap.mp looked
      have q_inside := (mem_filter.mp (mem_of_getLast? lookup)).1
      exact ids q q_inside part inside same_id
    · exact inside
  split
  · exact inside
  rename_i pinned pins
  split
  · exact inside
  rename_i k encodes
  have equal := readable.pinnedTuple laws typed holds p.columns tuple pinned
    (Subset.refl _) found pins
  rw [← encodeKey_eq_of_partOrder equal encoded encodes, finds]
  exact mem_singleton_self part

theorem mem_pruneHash
    (apart : p.partitions.Pairwise fun a b => a.remainder ≠ b.remainder)
    (ids : ∀ a ∈ p.partitions, ∀ b ∈ p.partitions, a.id = b.id → a = b)
    (found : partitionTuple row p.columns = .ok tuple) (remains : hashPartitionRemainder fns tuple
      ((p.partitions.head?.map Partition.modulus).getD 0) = .ok remainder)
    (routed : routeHash ((p.partitions.head?.map Partition.modulus).getD 0) remainder
      p.partitions = .ok part) : part ∈ pruneHash fns tab p pred := by
  obtain ⟨inside, same⟩ := routeHash_ok routed
  unfold pruneHash
  split
  · exact inside
  · rename_i ord single
    rw [single] at found
    obtain ⟨x, tail, rfl, stored, -, more⟩ := partitionTuple_cons found
    cases more
    split
    · exact inside
    rename_i values pins
    split
    · exact inside
    rename_i parts hashes
    have hashes := mapM_eq_some_iff.mp hashes
    obtain ⟨cv, member, equal⟩ := readable.pinnedValues laws typed holds
      (by rw [single]; exact mem_cons_self) stored pins
    obtain ⟨q, listed, hashed⟩ := hashes.exists_right member
    cases hashPartition_eq apart (.cons equal .nil) remains inside same hashed
    refine mem_dedupPartitions listed (fun q other same_id => ?_) (not_mem_nil)
    obtain ⟨v, -, hashed'⟩ := hashes.flip.exists_right other
    obtain ⟨r, -, lookup⟩ := Option.bind_eq_some_iff.mp hashed'
    have q_inside := (mem_filter.mp (mem_of_getLast? lookup)).1
    exact ids q q_inside _ inside same_id
  split
  · exact inside
  rename_i q bound
  obtain ⟨pinned, pins, hashed⟩ := Option.bind_eq_some_iff.mp bound
  have equal := readable.pinnedTuple laws typed holds p.columns tuple pinned
    (Subset.refl _) found pins
  rw [hashPartition_eq apart equal remains inside same hashed]
  exact mem_singleton_self part

end

namespace Halves

/-- A table with one column, cut in two at 5. -/
def table : Table := ⟨[⟨"a", uint8⟩], [0]⟩

def lowHalf : Partition Byte := { id := 1, upper := some [.data uint8 5] }

def highHalf : Partition Byte :=
  { id := 2, lower := some [.data uint8 5], lowerInclusive := true }

def partitioning : Partitioning Byte := ⟨.range, [0], [lowHalf, highHalf]⟩

def rowOf (n : Byte) : Row Byte := [.data uint8 n]

/-- The predicate `a >= 5`. -/
def atLeastFive : Expr Byte := .cmp .ge (.ident "a") (.literal (.data uint8 5))

/-- The predicate `a NOT BETWEEN 5 AND 9`. -/
def notFiveToNine : Expr Byte :=
  .between true (.ident "a") (.literal (.data uint8 5)) (.literal (.data uint8 9))

theorem typedRow (n : Byte) : TypedRow table [0] (rowOf n) where
  named := by
    intro ord column
    cases mem_singleton.mp column
    rfl
  kinds := by
    intro ord column x stored present
    cases mem_singleton.mp column
    cases stored
    rfl

theorem readable_atLeastFive (n : Byte) : Readable uint8Fns table (rowOf n) [0] atLeastFive where
  names := by
    intro e member ord column side inside isColumn
    cases mem_singleton.mp member
    cases mem_singleton.mp column
    obtain rfl | rfl := mem_pair.mp inside
    · rfl
    · cases isColumn
  literal := by
    intro e member operand inside v constant
    cases mem_singleton.mp member
    obtain rfl | rfl := mem_pair.mp inside
    · cases constant
    · cases constant
      rfl
  left := by
    intro e member op v r x shape
    cases mem_singleton.mp member
    cases shape
  positive := by
    intro e member tested low high shape
    cases mem_singleton.mp member
    cases shape
  converted := by
    intro e member ord column b bound cv x converts stored
    cases mem_singleton.mp member
    cases mem_singleton.mp column
    have bounds : boundsOn uint8Fns (colName table 0) atLeastFive =
        [.lower (.data uint8 5) true] := rfl
    rw [bounds] at bound
    cases mem_singleton.mp bound
    cases stored
    cases converts
    rfl

end Halves

end NextSQL.Sql
