import NextSQL.Lib.Run
import NextSQL.Sql.PruneBounds
import NextSQL.Sql.Segments

/-!
# When pruned segments hide no row

Right after an `ANALYZE` of a table that fits the sample, every row lies between
the ends of the segment it was put in, by its key and by every summarised column
(`buildSegments_spec`). As long as each new version of a row lies in a stored
segment in the same way (`Unsurprising`), a pruned scan returns the rows of an
unpruned one (`pruned_scan_exact`). Nothing in the engine keeps new rows there:
`pruned_scan_loses_row` stores one row, analyzes, stores another, and does not
find it.
-/

namespace NextSQL.Sql

open List

/-! ## Spans of keys -/

variable {p : Bytes}

theorem lt_or_prefix_of_prefixEnd_eq_none (none : prefixEnd p = none) (k : Bytes) :
    k < p ∨ p <+: k := by
  induction p generalizing k with
  | nil => exact .inr nil_prefix
  | cons b rest ih =>
    rw [prefixEnd] at none
    split at none
    · cases none
    rename_i restNone
    split at none
    · rename_i top
      cases k with
      | nil => exact .inl (nil_lt_cons _ _)
      | cons c k =>
        have below : c ≤ b := by
          rw [top]
          exact Fin.le_last c
        obtain less | rfl := below.lt_or_eq
        · exact .inl (cons_lt_cons_iff.mpr (.inl less))
        · obtain less | inside := ih restNone k
          · exact .inl (cons_lt_cons_iff.mpr (.inr ⟨rfl, less⟩))
          · exact .inr (cons_prefix_cons.mpr ⟨rfl, inside⟩)
    · cases none

/-- The keys before the end of a prefix are those before the prefix and those
that start with it. -/
theorem lt_prefixEnd_iff {e : Bytes} (some_e : prefixEnd p = some e) (k : Bytes) :
    k < e ↔ k < p ∨ p <+: k := by
  induction p generalizing e k with
  | nil => cases some_e
  | cons b rest ih =>
    rw [prefixEnd] at some_e
    split at some_e
    · rename_i after restSome
      cases some_e
      cases k with
      | nil => exact ⟨fun _ => .inl (nil_lt_cons _ _), fun _ => (nil_lt_cons _ _)⟩
      | cons c k =>
        rw [cons_lt_cons_iff, cons_lt_cons_iff, cons_prefix_cons, ih restSome]
        grind
    rename_i restNone
    split at some_e
    · cases some_e
    rename_i notTop
    cases some_e
    cases k with
    | nil => exact ⟨fun _ => .inl (nil_lt_cons _ _), fun _ => (nil_lt_cons _ _)⟩
    | cons c k =>
      have step : c < b + 1 ↔ c ≤ b := by
        have : (b + 1).val = b.val + 1 := by
          rw [Fin.val_add_one_of_lt']
          have : b.val ≠ 255 := fun same => notTop (Fin.ext same)
          lia
        rw [Fin.lt_def, Fin.le_def, this]
        exact Nat.lt_succ_iff
      rw [cons_lt_cons_iff, cons_lt_cons_iff, cons_prefix_cons, step]
      have every := lt_or_prefix_of_prefixEnd_eq_none restNone k
      have := not_lt_nil k
      grind

variable {D : Type} {fns : Fns D} {key : Bytes}

theorem isEmpty_eq_false_of_encodeKey {vals : List (Value D)}
    (encoded : encodeKey fns vals = .ok key) : vals.isEmpty = false := by
  cases vals with
  | nil => cases encoded
  | cons v rest => rfl

/-- The keys of a span are those from its first key to everything that starts with
its last. -/
theorem keyInRange_span {low high : List (Value D)} {first last : Bytes}
    (lowKey : encodeKey fns low = .ok first) (highKey : encodeKey fns high = .ok last) :
    ∃ bounds, encodeBounds fns low high true true = .ok bounds ∧
      ∀ key, keyInRange bounds key ↔ first ≤ key ∧ (key < last ∨ last <+: key) := by
  refine ⟨(some first, prefixEnd last), ?_, fun key => ?_⟩
  · rw [encodeBounds, isEmpty_eq_false_of_encodeKey lowKey, isEmpty_eq_false_of_encodeKey highKey,
      lowKey, highKey]
    rfl
  rw [keyInRange, Bool.and_eq_true]
  refine and_congr (by simp) ?_
  cases after : prefixEnd last with
  | none => simp [lt_or_prefix_of_prefixEnd_eq_none after key]
  | some e => simp [lt_prefixEnd_iff after key]

/-! ## Primary keys of rows -/

variable [Ord D] {x : Value D}

theorem SameKind.cmp_of_hasType {y : Value D} {s t : Typ} (same : SameKind x y)
    (left : x.hasType s) (right : y.hasType t) : ∃ o, x.cmp y = .ok o := by
  obtain ⟨present, present', kinds⟩ := same
  cases x with
  | null => cases present
  | bool a =>
    cases y with
    | null => cases present'
    | bool b => exact ⟨_, rfl⟩
    | data t' b =>
      simp only [Value.hasType, Bool.and_eq_true, bne_iff_ne] at right
      exact absurd kinds.symm right.1.2
  | data s' a =>
    simp only [Value.hasType, Bool.and_eq_true, bne_iff_ne] at left
    cases y with
    | null => cases present'
    | bool b => exact absurd kinds left.1.2
    | data t' b =>
      have same_kind : s'.kind = t'.kind := kinds
      refine ⟨compare a b, ?_⟩
      rw [Value.cmp, Kind.comparable, same_kind, ← same_kind, left.2]
      simp

variable {v : Value D}

omit [Ord D] in
theorem Value.kind_of_hasType {typ : Typ} (typed : v.hasType typ)
    (present : v.isNull = false) : v.kind = typ.kind := by
  cases v with
  | null => cases present
  | bool b => exact (beq_iff_eq.mp typed).symm
  | data t d =>
    simp only [Value.hasType, Bool.and_eq_true] at typed
    exact beq_iff_eq.mp typed.1.1

variable {tab : Table} {row : Row D} {ord : ℕ}

omit [Ord D] in
theorem hasType_of_conforms (conform : conforms tab row) (stored : row[ord]? = some x) :
    x.hasType (columnType tab ord) := by
  simp only [conforms, Bool.and_eq_true, List.all_eq_true, mem_range] at conform
  have inside := conform.1.2 ord (List.getElem?_eq_some_iff.mp stored).1
  rw [stored] at inside
  exact inside

/-- Two keys of rows of one table, value by value. -/
structure KeyPair (x y : Value D) : Prop where
  same : SameKind x y
  compared : ∃ o, x.cmp y = .ok o

variable {a b : Row D}

theorem keyPair_pkValues (left : conforms tab a) (right : conforms tab b) :
    Forall₂ KeyPair (pkValues tab a) (pkValues tab b) := by
  have stored : ∀ row : Row D, conforms tab row → ∀ ord ∈ tab.pk,
      ∃ x, row[ord]? = some x ∧ x.isNull = false := by
    intro row conform ord column
    simp only [conforms, Bool.and_eq_true, List.all_eq_true] at conform
    have present := conform.2 ord column
    cases found : row[ord]? with
    | none => rw [found] at present; cases present
    | some x =>
      rw [found] at present
      exact ⟨x, rfl, by simpa using present⟩
  have every : ∀ cols : List ℕ, cols ⊆ tab.pk →
      Forall₂ KeyPair (cols.filterMap fun ord => a[ord]?) (cols.filterMap fun ord => b[ord]?) := by
    intro cols
    induction cols with
    | nil => exact fun _ => .nil
    | cons ord rest ih =>
      intro inside
      obtain ⟨x, at_a, present⟩ := stored a left ord (inside mem_cons_self)
      obtain ⟨y, at_b, present'⟩ := stored b right ord (inside mem_cons_self)
      rw [filterMap_cons_some at_a, filterMap_cons_some at_b]
      have typed := hasType_of_conforms left at_a
      have typed' := hasType_of_conforms right at_b
      have same : SameKind x y := ⟨present, present',
        (Value.kind_of_hasType typed present).trans (Value.kind_of_hasType typed' present').symm⟩
      exact .cons ⟨same, same.cmp_of_hasType typed typed'⟩
        (ih fun c later => inside (mem_cons_of_mem _ later))
  exact every tab.pk (Subset.refl _)

variable {xs ys : List (Value D)} {parts ends : List Bytes}

/-- The sort compares keys as their bytes are compared. -/
theorem pkLess_iff (laws : KeyLaws fns) (pairs : Forall₂ KeyPair xs ys)
    (encodes : Encodes fns xs parts) (encodesEnd : Encodes fns ys ends) :
    pkLess xs ys ↔ parts.flatten < ends.flatten := by
  induction pairs generalizing parts ends with
  | nil =>
    cases encodes
    cases encodesEnd
    exact ⟨nofun, fun less => absurd less (lt_irrefl _)⟩
  | @cons x y xs ys pair pairs ih =>
    obtain _ | ⟨first, rests⟩ := encodes
    obtain _ | ⟨firstEnd, restsEnd⟩ := encodesEnd
    rename_i p parts q ends
    obtain ⟨same, o, compared⟩ := pair
    have apart := laws.part_apart same first firstEnd
    have order := laws.partOrder same.2.2 compared p q first firstEnd
    rw [pkLess, same.1, same.2.1, compared, flatten_cons, flatten_cons]
    cases o with
    | lt =>
      have less := compareBytes_eq_lt_iff.mp order
      exact ⟨fun _ => append_lt_append_of_lt apart less _ _, fun _ => rfl⟩
    | gt =>
      have greater := compareBytes_eq_gt_iff.mp order
      exact ⟨nofun, fun less =>
        absurd (append_lt_append_of_lt apart.symm greater _ _) less.not_gt⟩
    | eq =>
      cases compareBytes_eq_eq_iff.mp order
      rw [append_lt_append_iff]
      exact ih rests restsEnd

/-- The key of a row of the table. -/
structure RowKey (fns : Fns D) (tab : Table) (row : Row D) (key : Bytes) : Prop where
  conform : conforms tab row = true
  encoded : encodeKey fns (pkValues tab row) = .ok key

theorem apart_of_keyPairs (laws : KeyLaws fns) (pairs : Forall₂ KeyPair xs ys)
    (encodes : Encodes fns xs parts) (encodesEnd : Encodes fns ys ends) :
    Forall₂ List.Apart parts ends := by
  induction pairs generalizing parts ends with
  | nil =>
    cases encodes
    cases encodesEnd
    exact .nil
  | cons pair _ ih =>
    obtain _ | ⟨first, rests⟩ := encodes
    obtain _ | ⟨firstEnd, restsEnd⟩ := encodesEnd
    exact .cons (laws.part_apart pair.same first firstEnd) (ih rests restsEnd)

variable {k l : Bytes}

theorem RowKey.apart (laws : KeyLaws fns) (left : RowKey fns tab a k) (right : RowKey fns tab b l) :
    List.Apart k l := by
  obtain ⟨parts, encodes, rfl⟩ := encodes_of_encodeKey left.encoded
  obtain ⟨ends, encodesEnd, rfl⟩ := encodes_of_encodeKey right.encoded
  exact List.Apart.flatten
    (apart_of_keyPairs laws (keyPair_pkValues left.conform right.conform) encodes encodesEnd)

theorem RowKey.pkLess_iff (laws : KeyLaws fns) (left : RowKey fns tab a k)
    (right : RowKey fns tab b l) : pkLess (pkValues tab a) (pkValues tab b) ↔ k < l := by
  obtain ⟨parts, encodes, rfl⟩ := encodes_of_encodeKey left.encoded
  obtain ⟨ends, encodesEnd, rfl⟩ := encodes_of_encodeKey right.encoded
  exact Sql.pkLess_iff laws (keyPair_pkValues left.conform right.conform) encodes encodesEnd

/-! ## Least and greatest values -/

def NotBelow (x least : Value D) : Prop := ∀ o, x.cmp least = .ok o → o ≠ .lt

def NotAbove (x most : Value D) : Prop := ∀ o, x.cmp most = .ok o → o ≠ .gt

/-- The value is between the least and the greatest one. -/
def Within (x : Value D) (ends : Value D × Value D) : Prop :=
  NotBelow x ends.1 ∧ NotAbove x ends.2

/-- Neither of the ends is NULL. -/
def Present (ends : Value D × Value D) : Prop := ends.1.isNull = false ∧ ends.2.isNull = false

variable [Std.TransOrd D] {o : Ordering}

omit [Std.TransOrd D] in
theorem cmp_self_eq [Std.ReflOrd D] (compared : v.cmp v = .ok o) : o = .eq := by
  rcases Value.cmp_eq_ok_iff.mp compared with ⟨p, q, same, same', order⟩ |
    ⟨s, d, t, e, same, same', -, -, order⟩
  · cases same.symm.trans same'
    cases p <;> exact order.symm
  · cases same.symm.trans same'
    exact order.symm.trans Std.ReflOrd.compare_self

theorem within_self (v : Value D) : Within v (v, v) := by
  constructor
  · rintro o vv rfl
    cases cmp_self_eq vv
  · rintro o vv rfl
    cases cmp_self_eq vv

/-- One end of a column, with one more value; beyond an end means below the least value or above
the greatest one. -/
theorem widen_end (beyond : Ordering) {last now : Value D} (present : v.isNull = false)
    (known : last.isNull = false) (strict : beyond ≠ .eq)
    (widened : (if cmpPasses v last (· == beyond) then v else last) = now) :
    now.isNull = false ∧ (∀ o, v.cmp now = .ok o → o ≠ beyond) ∧
      ∀ x : Value D, (∀ o, x.cmp last = .ok o → o ≠ beyond) → ∀ o, x.cmp now = .ok o → o ≠ beyond := by
  subst widened
  split
  · rename_i passes
    obtain ⟨o, out, isBeyond⟩ := cmpPasses_iff.mp passes
    cases beq_iff_eq.mp isBeyond
    refine ⟨present, ?_, ?_⟩
    · rintro o vv rfl
      exact strict (cmp_self_eq vv)
    · rintro x inside o xv rfl
      obtain ⟨both, xl, -, -, same⟩ := Value.cmp_composes xv out
      exact inside both xl (same rfl)
  · rename_i fails
    refine ⟨known, ?_, fun x inside => inside⟩
    rintro o out rfl
    exact fails (cmpPasses_iff.mpr ⟨o, out, beq_self_eq_true o⟩)

variable {cur : Option (Value D × Value D)}

/-- **One more value**: it is within the new ends, and so is whatever was within the
old ones. -/
theorem widen_spec (present : v.isNull = false) (proper : ∀ ends, cur = some ends → Present ends) :
    ∃ now, widen cur v = some now ∧ Present now ∧ Within v now ∧
      ∀ x ends, cur = some ends → Within x ends → Within x now := by
  cases cur with
  | none =>
    refine ⟨(v, v), rfl, ⟨present, present⟩, within_self v, ?_⟩
    intro x ends absent
    cases absent
  | some cur =>
    obtain ⟨least, most⟩ := cur
    refine ⟨_, rfl, ?_⟩
    obtain ⟨known, vLow, keepLow⟩ := widen_end .lt present (proper _ rfl).1 (by decide) rfl
    obtain ⟨known', vHigh, keepHigh⟩ := widen_end .gt present (proper _ rfl).2 (by decide) rfl
    refine ⟨⟨known, known'⟩, ⟨vLow, vHigh⟩, ?_⟩
    rintro x ends ⟨⟩ within
    exact ⟨keepLow x within.1, keepHigh x within.2⟩

variable {c : ℕ}

/-- One more row, by the value of its column, which may be NULL. -/
theorem widenByRow_spec (proper : ∀ ends, cur = some ends → Present ends) :
    (∀ ends, widenByRow c cur row = some ends → Present ends) ∧
      (∀ x ends, cur = some ends → Within x ends →
        ∃ now, widenByRow c cur row = some now ∧ Within x now) ∧
      ∀ v, row[c]? = some v → v.isNull = false →
        ∃ now, widenByRow c cur row = some now ∧ Within v now := by
  unfold widenByRow
  split
  · rename_i v stored
    split
    · rename_i null
      refine ⟨proper, fun x ends same within => ⟨ends, same, within⟩, ?_⟩
      intro w here present
      cases stored.symm.trans here
      rw [null] at present
      cases present
    rename_i present
    obtain ⟨now, widened, known, own, others⟩ := widen_spec (by simpa using present) proper
    rw [widened]
    refine ⟨?_, fun x ends same within => ⟨now, rfl, others x ends same within⟩, ?_⟩
    · rintro ends ⟨⟩
      exact known
    · intro w here _
      cases stored.symm.trans here
      exact ⟨now, rfl, own⟩
  · rename_i missing
    refine ⟨proper, fun x ends same within => ⟨ends, same, within⟩, ?_⟩
    intro v stored
    cases missing.symm.trans stored

/-- All rows of a segment. The induction is over the rows still to come. -/
theorem foldl_widenByRow_spec (part : List (Row D)) (cur : Option (Value D × Value D))
    (proper : ∀ ends, cur = some ends → Present ends) :
    (∀ ends, part.foldl (widenByRow c) cur = some ends → Present ends) ∧
      (∀ x ends, cur = some ends → Within x ends →
        ∃ now, part.foldl (widenByRow c) cur = some now ∧ Within x now) ∧
      ∀ row ∈ part, ∀ v, row[c]? = some v → v.isNull = false →
        ∃ now, part.foldl (widenByRow c) cur = some now ∧ Within v now := by
  induction part generalizing cur with
  | nil => exact ⟨proper, fun x ends same within => ⟨ends, same, within⟩, nofun⟩
  | cons row part ih =>
    obtain ⟨known, kept, own⟩ := widenByRow_spec (c := c) proper
    obtain ⟨done, later, others⟩ := ih (widenByRow c cur row) known
    refine ⟨done, ?_, ?_⟩
    · intro x ends same within
      obtain ⟨now, widened, within'⟩ := kept x ends same within
      exact later x now widened within'
    intro r member v stored present
    obtain rfl | inside := mem_cons.mp member
    · obtain ⟨now, widened, within⟩ := own v stored present
      exact later v now widened within
    · exact others r inside v stored present

variable {part : List (Row D)}

/-! ## Segments of a sorted sample -/

variable {size : ℕ}

theorem flatten_chunks {α : Type} (positive : 0 < size) (fuel : ℕ) (l : List α)
    (enough : l.length ≤ fuel) : (chunks size fuel l).flatten = l := by
  induction fuel generalizing l with
  | zero =>
    cases length_eq_zero_iff.mp (Nat.le_zero.mp enough)
    rfl
  | succ fuel ih =>
    rw [chunks]
    split
    · rename_i empty
      rw [List.isEmpty_iff.mp empty, flatten_nil]
    rename_i rest
    have shorter : (l.drop size).length ≤ fuel := by
      rw [length_drop]
      omega
    rw [flatten_cons, ih _ shorter, take_append_drop]

theorem ne_nil_of_mem_chunks {α : Type} (positive : 0 < size) {fuel : ℕ} {l : List α}
    {part : List α} (member : part ∈ chunks size fuel l) : part ≠ [] := by
  induction fuel generalizing l with
  | zero => cases member
  | succ fuel ih =>
    rw [chunks] at member
    split at member
    · cases member
    rename_i some_left
    obtain rfl | later := mem_cons.mp member
    · intro empty
      obtain zero | none_left := take_eq_nil_iff.mp empty
      · omega
      · exact some_left (List.isEmpty_iff.mpr none_left)
    · exact ih later

/-- The key of a row that has one. -/
def keyOfRow (fns : Fns D) (tab : Table) (row : Row D) : Bytes :=
  (encodeKey fns (pkValues tab row)).toOption.getD []

omit [Ord D] [Std.TransOrd D] in
theorem RowKey.eq (has : RowKey fns tab row key) : keyOfRow fns tab row = key := by
  rw [keyOfRow, has.encoded]
  rfl

variable {sample : List (Row D)}

omit [Std.TransOrd D] in
/-- **The sorted sample has strictly ascending keys.** -/
theorem pairwise_sortRows (laws : KeyLaws fns)
    (keyed : ∀ row ∈ sample, RowKey fns tab row (keyOfRow fns tab row))
    (nodup : (sample.map (keyOfRow fns tab)).Nodup) :
    (sortRows tab sample).Pairwise fun a b => keyOfRow fns tab a < keyOfRow fns tab b := by
  have sorted : (sortRows tab sample).map (keyOfRow fns tab) =
      (sample.map (keyOfRow fns tab)).insertionSort (· ≤ ·) := by
    refine map_insertionSort _ _ _ _ fun a inside b inside' => ?_
    have less := (keyed b inside').pkLess_iff laws (keyed a inside)
    rw [← Bool.not_eq_true, less, not_lt]
  have ascending := pairwise_insertionSort (· ≤ ·) (sample.map (keyOfRow fns tab))
  have distinct : ((sample.map (keyOfRow fns tab)).insertionSort (· ≤ ·)).Nodup :=
    (perm_insertionSort _ _).nodup_iff.mpr nodup
  rw [← sorted] at ascending distinct
  have strict := ascending.and distinct
  exact (pairwise_map.mp strict).imp fun both => lt_of_le_of_ne both.1 both.2

/-- The ends of a segment are the keys of rows, and a column without a summary has
NULL for one. -/
structure Framed (fns : Fns D) (tab : Table) (summarised : ℕ → Bool) (seg : SegmentStats D) :
    Prop where
  low : ∃ row first, RowKey fns tab row first ∧ seg.lowPK = pkValues tab row
  high : ∃ row last, RowKey fns tab row last ∧ seg.highPK = pkValues tab row
  blank : ∀ ord least most, summarised ord = false → seg.colMin[ord]? = some least →
    seg.colMax[ord]? = some most → least.isNull = true ∧ most.isNull = true

/-- One segment ends before another begins. -/
def Precedes (fns : Fns D) (seg later : SegmentStats D) : Prop :=
  ∀ last first, encodeKey fns seg.highPK = .ok last → encodeKey fns later.lowPK = .ok first →
    last < first

/-- The span of a segment has the key of a row, and its summaries have the values. -/
structure Covers (fns : Fns D) (tab : Table) (summarised : ℕ → Bool) (seg : SegmentStats D)
    (row : Row D) : Prop where
  reads : ∃ bounds key, encodeBounds fns seg.lowPK seg.highPK true true = .ok bounds ∧
    encodeKey fns (pkValues tab row) = .ok key ∧ keyInRange bounds key = true
  within : ∀ ord x least most, row[ord]? = some x → x.isNull = false → summarised ord = true →
    seg.colMin[ord]? = some least → seg.colMax[ord]? = some most →
    Present (least, most) ∧ Within x (least, most)

omit [Ord D] [Std.TransOrd D] in
theorem mem_between {key : Row D → Bytes} (ascending : part.Pairwise fun a b => key a < key b)
    (nonempty : part ≠ []) (member : row ∈ part) :
    key (part.head nonempty) ≤ key row ∧ key row ≤ key (part.getLast nonempty) := by
  constructor
  · cases part with
    | nil => cases member
    | cons first rest =>
      obtain rfl | later := mem_cons.mp member
      · exact le_rfl
      · exact (rel_of_pairwise_cons ascending later).le
  · rw [← dropLast_append_getLast nonempty] at ascending member
    obtain before | last := mem_append.mp member
    · exact ((pairwise_append.mp ascending).2.2 row before _ (mem_singleton_self _)).le
    · rw [mem_singleton.mp last]

section SegmentOf

variable {tab : Table} {summarised : ℕ → Bool} {part : List (Row D)}

omit [Std.TransOrd D] in
theorem segmentOf_ends (nonempty : part ≠ []) :
    (segmentOf tab summarised part).lowPK = pkValues tab (part.head nonempty) ∧
      (segmentOf tab summarised part).highPK = pkValues tab (part.getLast nonempty) := by
  constructor
  · rw [segmentOf, head?_eq_some_head nonempty]
    rfl
  · rw [segmentOf, getLast?_eq_some_getLast nonempty]
    rfl

omit [Std.TransOrd D] in
theorem segmentOf_summary {ord : ℕ} {least most : Value D}
    (atLeast : (segmentOf tab summarised part).colMin[ord]? = some least)
    (atMost : (segmentOf tab summarised part).colMax[ord]? = some most) :
    least = ((columnSummary summarised part ord).map Prod.fst).getD (.null (columnType tab ord)) ∧
      most =
        ((columnSummary summarised part ord).map Prod.snd).getD (.null (columnType tab ord)) := by
  simp only [segmentOf, getElem?_map, Option.map_eq_some_iff] at *
  grind

omit [Std.TransOrd D] in
theorem segmentOf_framed (nonempty : part ≠ [])
    (keyed : ∀ row ∈ part, RowKey fns tab row (keyOfRow fns tab row)) :
    Framed fns tab summarised (segmentOf tab summarised part) where
  low := ⟨_, _, keyed _ (head_mem nonempty), (segmentOf_ends nonempty).1⟩
  high := ⟨_, _, keyed _ (getLast_mem nonempty), (segmentOf_ends nonempty).2⟩
  blank := by
    intro ord least most unknown atLeast atMost
    have none_known : columnSummary summarised part ord = none := by
      rw [columnSummary, unknown]
      rfl
    obtain ⟨rfl, rfl⟩ := segmentOf_summary atLeast atMost
    rw [none_known]
    exact ⟨rfl, rfl⟩

/-- A segment covers the rows it was made of. -/
theorem segmentOf_covers (keyed : ∀ row ∈ part, RowKey fns tab row (keyOfRow fns tab row))
    (ascending : part.Pairwise fun a b => keyOfRow fns tab a < keyOfRow fns tab b)
    {row : Row D} (member : row ∈ part) :
    Covers fns tab summarised (segmentOf tab summarised part) row where
  reads := by
    have nonempty := ne_nil_of_mem member
    rw [(segmentOf_ends nonempty).1, (segmentOf_ends nonempty).2]
    obtain ⟨bounds, encoded, inside⟩ := keyInRange_span
      (keyed _ (head_mem nonempty)).encoded (keyed _ (getLast_mem nonempty)).encoded
    refine ⟨bounds, _, encoded, (keyed row member).encoded, (inside _).mpr ?_⟩
    obtain ⟨above, below⟩ := mem_between ascending nonempty member
    refine ⟨above, below.lt_or_eq.imp_right fun same => ?_⟩
    rw [same]
  within := by
    intro ord x least most stored present known atLeast atMost
    obtain ⟨proper, -, own⟩ :=
      foldl_widenByRow_spec (c := ord) part none fun ends absent => by cases absent
    obtain ⟨ends, folded, within⟩ := own row member x stored present
    obtain ⟨rfl, rfl⟩ := segmentOf_summary atLeast atMost
    rw [columnSummary, if_pos known, folded]
    exact ⟨proper ends folded, within⟩

end SegmentOf

/-- **The segments of a sample** have the keys of rows for their ends, follow one
another, and cover every row of the sample. -/
theorem buildSegments_spec (laws : KeyLaws fns) (summarised : ℕ → Bool)
    (keyed : ∀ row ∈ sample, RowKey fns tab row (keyOfRow fns tab row))
    (nodup : (sample.map (keyOfRow fns tab)).Nodup) :
    (∀ seg ∈ buildSegments tab summarised sample, Framed fns tab summarised seg) ∧
      (buildSegments tab summarised sample).Pairwise (Precedes fns) ∧
      (buildSegments tab summarised sample ≠ [] → ∀ row ∈ sample,
        ∃ seg ∈ buildSegments tab summarised sample, Covers fns tab summarised seg row) := by
  unfold buildSegments
  split
  · exact ⟨nofun, .nil, absurd rfl⟩
  rename_i some_rows
  set rows := sortRows tab sample with rows_eq
  set size := (rows.length + min segmentCount rows.length - 1) / min segmentCount rows.length
  have mem_rows : ∀ row, row ∈ rows ↔ row ∈ sample := fun row => mem_insertionSort _
  have positive : 0 < size := by
    have long : rows.length = sample.length := (perm_insertionSort _ _).length_eq
    have some_row : sample.length ≠ 0 := by
      intro empty
      rw [length_eq_zero_iff.mp empty] at some_rows
      exact some_rows rfl
    have least : 0 < min segmentCount rows.length := by
      rw [segmentCount]
      omega
    exact Nat.div_pos (by omega) least
  have whole := flatten_chunks positive rows.length rows le_rfl
  have ascending := pairwise_sortRows laws keyed nodup
  rw [← rows_eq, ← whole, pairwise_flatten] at ascending
  obtain ⟨inside, between⟩ := ascending
  have mem_part : ∀ part ∈ chunks size rows.length rows, ∀ row ∈ part, row ∈ sample := by
    intro part member row here
    rw [← mem_rows, ← whole]
    exact mem_flatten.mpr ⟨part, member, here⟩
  have keyed_part : ∀ part ∈ chunks size rows.length rows, ∀ row ∈ part,
      RowKey fns tab row (keyOfRow fns tab row) :=
    fun part member row here => keyed row (mem_part part member row here)
  refine ⟨?_, ?_, ?_⟩
  · intro seg member
    obtain ⟨part, here, rfl⟩ := mem_map.mp member
    exact segmentOf_framed (ne_nil_of_mem_chunks positive here) (keyed_part part here)
  · rw [pairwise_map]
    refine (List.Pairwise.and_mem.mp between).imp fun {part later} ⟨here, there, less⟩ => ?_
    have nonempty := ne_nil_of_mem_chunks positive here
    have nonempty' := ne_nil_of_mem_chunks positive there
    intro last first lastKey firstKey
    rw [(segmentOf_ends nonempty).2] at lastKey
    rw [(segmentOf_ends nonempty').1] at firstKey
    have end_key := keyed_part part here _ (getLast_mem nonempty)
    have start_key := keyed_part later there _ (head_mem nonempty')
    cases lastKey.symm.trans end_key.encoded
    cases firstKey.symm.trans start_key.encoded
    exact less _ (getLast_mem nonempty) _ (head_mem nonempty')
  · intro _ row member
    rw [← mem_rows, ← whole] at member
    obtain ⟨part, here, inPart⟩ := mem_flatten.mp member
    exact ⟨_, mem_map_of_mem here,
      segmentOf_covers (keyed_part part here) (inside part here) inPart⟩

variable {rows : List (Row D)}

omit [Ord D] [Std.TransOrd D] in
/-- A sample that is large enough is all of the rows. -/
theorem collectSample_eq {pick : ℕ → ℕ} (few : rows.length ≤ maxAnalyzeSample) :
    collectSample pick rows = rows := by
  have every : ∀ (rest taken : List (Row D)) (n : ℕ),
      taken.length + rest.length ≤ maxAnalyzeSample →
      (rest.foldl (sampleRow pick) (n, taken)).2 = taken ++ rest := by
    intro rest
    induction rest with
    | nil =>
      intro taken n _
      simp
    | cons row rest ih =>
      intro taken n room
      rw [length_cons] at room
      have fits : taken.length < maxAnalyzeSample := by omega
      rw [foldl_cons, sampleRow]
      rw [if_pos fits, ih (taken ++ [row]) (n + 1) (by rw [length_append]; simp; omega),
        append_assoc]
      rfl
  have all := every rows [] 0 (by simpa using few)
  exact all

/-! ## Runs -/

/-- The rows are stored under their keys, the segments follow one another, and
every row is covered by one. -/
structure Sound (fns : Fns D) (tab : Table) (summarised : ℕ → Bool) (s : TableState D) : Prop where
  keyed : ∀ e ∈ s.heap, RowKey fns tab e.2 e.1
  nodup : (s.heap.map Prod.fst).Nodup
  framed : ∀ seg ∈ s.segments, Framed fns tab summarised seg
  apart : s.segments.Pairwise (Precedes fns)
  covered : s.segments ≠ [] → ∀ e ∈ s.heap, ∃ seg ∈ s.segments, Covers fns tab summarised seg e.2

/-- A new version of a row is one that a stored segment covers, if there are any;
statistics with segments are taken of a table that fits the sample. -/
def Unsurprising (fns : Fns D) (tab : Table) (summarised : ℕ → Bool) (s : TableState D) :
    Change D → Prop
  | .insert row | .update _ row =>
    s.segments ≠ [] → ∃ seg ∈ s.segments, Covers fns tab summarised seg row
  | .delete _ => True
  | .analyze _ keep => keep = true → s.heap.length ≤ maxAnalyzeSample

variable {tab : Table} {summarised : ℕ → Bool} {s s' : TableState D}

omit [Std.TransOrd D] in
theorem Sound.removeRow (sound : Sound fns tab summarised s) (key : Bytes) :
    Sound fns tab summarised (removeRow s key) where
  keyed e member := sound.keyed e (mem_filter.mp member).1
  nodup := sound.nodup.sublist (filter_sublist.map _)
  framed := sound.framed
  apart := sound.apart
  covered segments e member := sound.covered segments e (mem_filter.mp member).1

omit [Std.TransOrd D] in
theorem Sound.storeRow (sound : Sound fns tab summarised s)
    (covered : s.segments ≠ [] → ∃ seg ∈ s.segments, Covers fns tab summarised seg row)
    (stored : storeRow fns tab s row = some s') : Sound fns tab summarised s' := by
  unfold Sql.storeRow at stored
  split at stored
  · cases stored
  rename_i conform
  split at stored
  · cases stored
  rename_i key encoded
  split at stored
  · cases stored
  rename_i free
  cases stored
  refine ⟨?_, ?_, sound.framed, sound.apart, ?_⟩
  · refine forall_mem_append.mpr ⟨sound.keyed, forall_mem_singleton.mpr ⟨?_, encoded⟩⟩
    simpa using conform
  · rw [map_append, nodup_append]
    refine ⟨sound.nodup, nodup_singleton _, ?_⟩
    intro k old k' new same
    cases mem_singleton.mp new
    cases same
    exact free old
  · exact fun segments => forall_mem_append.mpr
      ⟨sound.covered segments, forall_mem_singleton.mpr (covered segments)⟩

/-- **One step.** -/
theorem Sound.change (laws : KeyLaws fns) (sound : Sound fns tab summarised s) {change : Change D}
    (meets : Unsurprising fns tab summarised s change)
    (taken : s.change fns tab summarised change = some s') : Sound fns tab summarised s' := by
  cases change with
  | insert row => exact sound.storeRow meets taken
  | update key row =>
    rw [TableState.change] at taken
    split at taken
    · exact (sound.removeRow key).storeRow meets taken
    · cases taken
  | delete key =>
    cases taken
    exact sound.removeRow key
  | analyze pick keep =>
    cases taken
    cases keep with
    | false => exact ⟨sound.keyed, sound.nodup, nofun, .nil, absurd rfl⟩
    | true =>
      have all : collectSample pick (s.heap.map Prod.snd) = s.heap.map Prod.snd :=
        collectSample_eq (by rw [length_map]; exact meets rfl)
      have keyed : ∀ row ∈ s.heap.map Prod.snd, RowKey fns tab row (keyOfRow fns tab row) := by
        intro row member
        obtain ⟨e, inside, rfl⟩ := mem_map.mp member
        rw [(sound.keyed e inside).eq]
        exact sound.keyed e inside
      have keys : (s.heap.map Prod.snd).map (keyOfRow fns tab) = s.heap.map Prod.fst := by
        rw [map_map]
        exact map_congr_left fun e inside => (sound.keyed e inside).eq
      obtain ⟨framed, apart, covered⟩ :=
        buildSegments_spec laws summarised keyed (keys ▸ sound.nodup)
      refine ⟨sound.keyed, sound.nodup, ?_, ?_, ?_⟩
      · rw [if_pos rfl, all]
        exact framed
      · rw [if_pos rfl, all]
        exact apart
      · rw [if_pos rfl, all]
        exact fun segments e inside => covered segments e.2 (mem_map_of_mem inside)

/-! ## What pruning leaves out -/

variable [Inhabited D]

/-- The conditions under which the ranges of a predicate can be held against the
summaries: constants are literals that convert without changing their order
against a summary, and a range marked as an equality is one, on a column that is
summarised. -/
structure Prunable (fns : Fns D) (tab : Table) (summarised : ℕ → Bool) (s : TableState D)
    (pred : Expr D) : Prop where
  plain : ∀ e ∈ s.heap, ∀ c ∈ conjuncts pred, Plain fns tab e.2 c
  pinned : ∀ ord r, (extractRanges fns tab (some pred)).lookup ord = some r → r.eq = true →
    r.isNull = false → summarised ord = true ∧ ∃ v op left right, r.low = some v ∧
      .cmp op left right ∈ conjuncts pred ∧ sargable fns tab op left right = some (ord, v, .eq)
  kept : ∀ e ∈ s.heap, ∀ ord x v, e.2[ord]? = some x →
    FromConjunct fns tab (conjuncts pred) ord v → ∀ seg ∈ s.segments, ∀ w,
      seg.colMin[ord]? = some w ∨ seg.colMax[ord]? = some w →
      (betweenBound fns x v).cmp w = v.cmp w

variable {w : Value D}

omit [Inhabited D] in
/-- A value beyond a bound is beyond what the bound is beyond. -/
theorem Ordered.beyond {op : CmpOp} {side : Ordering} (ordered : Ordered fns op x v)
    (kept : (betweenBound fns x v).cmp w = v.cmp w) (compared : v.cmp w = .ok o)
    (agree : ∀ first both, Composes first o both → op.test first → both = side) :
    x.cmp w = .ok side := by
  obtain ⟨first, xv, passed⟩ := ordered
  obtain ⟨both, xw, composed⟩ := Value.cmp_composes xv (kept.trans compared)
  rw [xw, agree first both composed passed]

omit [Inhabited D] [Std.TransOrd D] in
theorem bound_of_beyond {unbounded null : Bool} {bound : Option (Value D)} {test : Ordering → Bool}
    (pruned : (!unbounded && !null && bound.any fun v => cmpPasses v w test) = true) :
    unbounded = false ∧ ∃ v, bound = some v ∧ ∃ o, v.cmp w = .ok o ∧ test o := by
  obtain ⟨⟨bounded, -⟩, beyond⟩ := by simpa only [Bool.and_eq_true] using pruned
  obtain ⟨v, isBound, passes⟩ := (Option.any_eq_true _ _).mp beyond
  exact ⟨by simpa using bounded, v, isBound, cmpPasses_iff.mp passes⟩

variable {pred : Expr D} {seg : SegmentStats D} {e : Bytes × Row D}

/-- **The summaries of a segment leave room for the ranges of a predicate** that is
true on a row the segment covers. -/
theorem columnPossible_of_holds (sound : Sound fns tab summarised s)
    (prunable : Prunable fns tab summarised s pred) (member : e ∈ s.heap)
    (inside : seg ∈ s.segments) (covers : Covers fns tab summarised seg e.2)
    (holds : ∀ c ∈ conjuncts pred, Holds fns tab e.2 c) {r : ColRange D}
    (found : (extractRanges fns tab (some pred)).lookup ord = some r) :
    columnPossible seg ord r := by
  have ranges : RangesTrue fns tab e.2 (conjuncts pred) (extractRanges fns tab (some pred)) :=
    rangesTrue_of_holds (prunable.plain e member) holds
  obtain ⟨x, stored, true_r⟩ := ranges ord r found
  have pinned : r.eq → r.isNull = false → summarised ord ∧ ∃ v, r.low = some v ∧
      FromConjunct fns tab (conjuncts pred) ord v ∧
      x.cmp (betweenBound fns x v) = .ok .eq := by
    intro isEq notNull
    obtain ⟨known, v, op, left, right, low, conjunct, sarg⟩ :=
      prunable.pinned ord r found isEq notNull
    have plain := prunable.plain e member _ conjunct
    obtain ⟨x', stored', -, -, o, compared, passed⟩ :=
      (holds_sargable_iff plain sarg).mp (holds _ conjunct)
    cases stored.symm.trans stored'
    cases beq_iff_eq.mp passed
    exact ⟨known, v, low, ⟨_, conjunct, compares_of_sargable sarg⟩, compared⟩
  unfold columnPossible
  split
  · rename_i least most atLeast atMost
    have within := covers.within ord x least most stored
    split
    · rename_i blank
      rw [Bool.and_eq_true] at blank
      cases marked : (r.eq && !r.isNull) with
      | false => rfl
      | true =>
        simp only [Bool.and_eq_true, Bool.not_eq_eq_eq_not, Bool.not_true] at marked
        obtain ⟨known, v, -, -, compared⟩ := pinned marked.1 marked.2
        obtain ⟨present, -⟩ :=
          within (Value.isNull_of_cmp compared).1 known atLeast atMost
        rw [present.1] at blank
        cases blank.1
    split
    · rfl
    rename_i notBlank notNull
    have known : summarised ord := by
      cases known : summarised ord with
      | true => rfl
      | false =>
        obtain ⟨noLeast, noMost⟩ := (sound.framed seg inside).blank ord least most known atLeast atMost
        exact absurd (by rw [noLeast, noMost]; rfl) notBlank
    have kept := fun v (source : FromConjunct fns tab (conjuncts pred) ord v) =>
      prunable.kept e member ord x v stored source seg inside
    have keptLeast := fun v source => kept v source least (.inl atLeast)
    have keptMost := fun v source => kept v source most (.inr atMost)
    have notLess : x.cmp least ≠ .ok .lt := fun less =>
      (within (Value.isNull_of_cmp less).1 known atLeast atMost).2.1 .lt less rfl
    have notGreater : x.cmp most ≠ .ok .gt := fun greater =>
      (within (Value.isNull_of_cmp greater).1 known atLeast atMost).2.2 .gt greater rfl
    rw [Bool.and_eq_true, Bool.and_eq_true, Bool.not_eq_true', Bool.not_eq_true', Bool.not_eq_true']
    refine ⟨⟨?_, ?_⟩, ?_⟩
    · refine Bool.eq_false_iff.mpr fun pruned => ?_
      obtain ⟨isEq, beyond⟩ := Bool.and_eq_true_iff.mp pruned
      obtain ⟨-, v, low, source, equal⟩ := pinned isEq (by simpa using notNull)
      rw [low, Option.any_some, Bool.or_eq_true, Bool.and_eq_true, Bool.and_eq_true] at beyond
      obtain ⟨-, less⟩ | ⟨-, greater⟩ := beyond
      · obtain ⟨o, compared, test⟩ := cmpPasses_iff.mp less
        cases beq_iff_eq.mp test
        obtain ⟨both, xw, left, -⟩ := Value.cmp_composes equal ((keptLeast v source).trans compared)
        exact notLess (by rw [xw, left rfl])
      · obtain ⟨o, compared, test⟩ := cmpPasses_iff.mp greater
        cases beq_iff_eq.mp test
        obtain ⟨both, xw, left, -⟩ := Value.cmp_composes equal ((keptMost v source).trans compared)
        exact notGreater (by rw [xw, left rfl])
    · refine Bool.eq_false_iff.mpr fun pruned => ?_
      obtain ⟨bounded, v, low, o, compared, test⟩ := bound_of_beyond pruned
      obtain ⟨source, ordered⟩ := true_r.low v low bounded
      refine notGreater (ordered.beyond (keptMost v source) compared ?_)
      revert test
      cases r.lowIncl <;> cases o <;> decide
    refine Bool.eq_false_iff.mpr fun pruned => ?_
    obtain ⟨bounded, v, high, o, compared, test⟩ := bound_of_beyond pruned
    obtain ⟨source, ordered⟩ := true_r.high v high bounded
    refine notLess (ordered.beyond (keptLeast v source) compared ?_)
    revert test
    cases r.highIncl <;> cases o <;> decide
  · rfl

/-! ## The pruned scan -/

/-- Whether the span of a segment has a key. -/
def readBy (fns : Fns D) (seg : SegmentStats D) (key : Bytes) : Bool :=
  match encodeBounds fns seg.lowPK seg.highPK true true with
  | .ok bounds => keyInRange bounds key
  | .error _ => false

omit [Std.TransOrd D] [Inhabited D] in
/-- A segment whose ends are keys of rows is read from the first key to the last. -/
theorem Framed.readBy_iff (laws : KeyLaws fns) (framed : Framed fns tab summarised seg) :
    ∃ bounds first last, encodeBounds fns seg.lowPK seg.highPK true true = .ok bounds ∧
      encodeKey fns seg.lowPK = .ok first ∧ encodeKey fns seg.highPK = .ok last ∧
      ∀ row key, RowKey fns tab row key → (readBy fns seg key ↔ first ≤ key ∧ key ≤ last) := by
  obtain ⟨lowRow, first, lowKey, low⟩ := framed.low
  obtain ⟨highRow, last, highKey, high⟩ := framed.high
  obtain ⟨bounds, encoded, inside⟩ :=
    keyInRange_span (low ▸ lowKey.encoded) (high ▸ highKey.encoded)
  refine ⟨bounds, first, last, encoded, low ▸ lowKey.encoded, high ▸ highKey.encoded, ?_⟩
  intro row key keyed
  have apart := highKey.apart laws keyed
  unfold readBy
  rw [encoded]
  refine (inside key).trans (and_congr_right fun _ => ?_)
  constructor
  · rintro (less | starts)
    · exact less.le
    · exact (apart.1 starts).ge
  intro upTo
  obtain less | rfl := upTo.lt_or_eq
  · exact .inl less
  · exact .inr (prefix_refl _)

variable {spans : List (SegmentStats D)}

omit [Ord D] [Std.TransOrd D] [Inhabited D] in
theorem readSpans_eq {heap : List (Bytes × Row D)} (encoded : ∀ seg ∈ spans, ∃ bounds,
      encodeBounds fns seg.lowPK seg.highPK true true = .ok bounds) :
    readSpans fns heap spans =
      .ok ((spans.flatMap fun seg => heap.filter fun e => readBy fns seg e.1).map Prod.snd) := by
  induction spans with
  | nil => rfl
  | cons seg rest ih =>
    obtain ⟨bounds, here⟩ := encoded seg mem_cons_self
    rw [readSpans, here, ih fun later inside => encoded later (mem_cons_of_mem _ inside),
      flatMap_cons, map_append]
    unfold readBy
    rw [here]
    rfl

omit [Std.TransOrd D] in
/-- A filter that evaluates on every row emits the rows it keeps. -/
theorem emitRows_eq_ok_iff {pred : Option (Expr D)} {out : List (Row D)} :
    emitRows fns tab pred rows = .ok out ↔
      (∀ row ∈ rows, ∃ keep, matchRow fns tab row pred = .ok keep) ∧
        out = rows.filter (passes fns tab pred) := by
  constructor
  · intro done
    refine ⟨?_, emitRows_eq_filter done⟩
    induction rows generalizing out with
    | nil => nofun
    | cons row rest ih =>
      rw [emitRows] at done
      obtain ⟨keep, matched, done⟩ := Except.bind_eq_ok_iff.mp done
      obtain ⟨tail, emitted, -⟩ := Except.bind_eq_ok_iff.mp done
      exact forall_mem_cons.mpr ⟨⟨keep, matched⟩, ih emitted⟩
  rintro ⟨evaluates, rfl⟩
  induction rows with
  | nil => rfl
  | cons row rest ih =>
    obtain ⟨keep, matched⟩ := evaluates row mem_cons_self
    have passed : passes fns tab pred row = keep := by rw [passes, matched]
    rw [emitRows, matched, ih fun r later => evaluates r (mem_cons_of_mem _ later),
      filter_cons, passed]
    rfl

omit [Std.TransOrd D] [Inhabited D] in
/-- No row is read twice. -/
theorem Sound.nodup_spans (laws : KeyLaws fns) (sound : Sound fns tab summarised s)
    (inside : spans.Sublist s.segments) :
    (spans.flatMap fun seg => s.heap.filter fun e => readBy fns seg e.1).Nodup := by
  have entries : s.heap.Nodup := sound.nodup.of_map _
  refine nodup_flatMap.mpr ⟨fun seg _ => entries.filter _, ?_⟩
  refine (List.Pairwise.and_mem.mp (sound.apart.sublist inside)).imp ?_
  rintro seg later ⟨here, there, precedes⟩ e first_read second_read
  rw [mem_filter] at first_read second_read
  have keyed := sound.keyed e first_read.1
  obtain ⟨_, _, last, -, -, lastKey, read⟩ := (sound.framed seg (inside.subset here)).readBy_iff laws
  obtain ⟨_, first, _, -, firstKey, -, read'⟩ :=
    (sound.framed later (inside.subset there)).readBy_iff laws
  have upTo := ((read e.2 e.1 keyed).mp first_read.2).2
  have fromOn := ((read' e.2 e.1 keyed).mp second_read.2).1
  exact absurd (upTo.trans_lt (precedes last first lastKey firstKey)) fromOn.not_gt

omit [Std.TransOrd D] [Inhabited D] in
theorem pruneSegments_eq_some {segments kept : List (SegmentStats D)}
    (pruned : pruneSegments fns tab segments (some pred) = some kept) :
    segments ≠ [] ∧ kept = segments.filter fun seg =>
      !seg.hasBounds || segmentPossible seg (extractRanges fns tab (some pred)) := by
  unfold pruneSegments at pruned
  split at pruned
  · cases pruned
  rename_i some_segments
  dsimp only at pruned
  split at pruned
  · cases pruned
  cases pruned
  refine ⟨?_, rfl⟩
  rintro rfl
  exact some_segments rfl

section

variable (laws : KeyLaws fns) (sound : Sound fns tab summarised s)
  (prunable : Prunable fns tab summarised s pred)

include laws sound prunable

/-- The kept segments have each row on which the predicate is true, and once. -/
theorem Sound.perm_of_pruned {kept : List (SegmentStats D)}
    (pruned : pruneSegments fns tab s.segments (some pred) = some kept) :
    (((kept.flatMap fun seg => s.heap.filter fun e => readBy fns seg e.1).map Prod.snd).filter
        (passes fns tab (some pred))).Perm
      ((s.heap.map Prod.snd).filter (passes fns tab (some pred))) := by
  obtain ⟨some_segments, rfl⟩ := pruneSegments_eq_some pruned
  set kept := s.segments.filter fun seg =>
    !seg.hasBounds || segmentPossible seg (extractRanges fns tab (some pred)) with kept_eq
  have sublist : kept.Sublist s.segments := filter_sublist
  have nodup := sound.nodup_spans laws sublist
  have entries : s.heap.Nodup := sound.nodup.of_map _
  rw [filter_map, filter_map]
  refine Perm.map _ ((perm_ext_iff_of_nodup (nodup.filter _) (entries.filter _)).mpr ?_)
  intro e
  simp only [mem_filter, mem_flatMap, Function.comp_apply]
  constructor
  · rintro ⟨⟨seg, -, member, -⟩, passed⟩
    exact ⟨member, passed⟩
  rintro ⟨member, passed⟩
  obtain ⟨seg, inside, covers⟩ := sound.covered some_segments e member
  have possible : segmentPossible seg (extractRanges fns tab (some pred)) :=
    List.all_eq_true.mpr fun entry listed => columnPossible_of_holds sound prunable member inside
      covers (passes_iff.mp passed) (AList.mem_lookup_iff.mpr listed)
  refine ⟨⟨seg, mem_filter.mpr ⟨inside, ?_⟩, member, ?_⟩, passed⟩
  · rw [possible, Bool.or_true]
  obtain ⟨bounds, key, encoded, keyed, inRange⟩ := covers.reads
  cases keyed.symm.trans (sound.keyed e member).encoded
  rw [readBy, encoded]
  exact inRange

/-- **In a sound state a pruned scan returns the rows of an unpruned one.** -/
theorem Sound.scan_perm {all : List (Row D)}
    (full : (SeqPlan.scan [] (some pred)).run fns tab s.heap = .ok all) :
    ∃ out, (seqAccess fns tab s.segments (some pred)).run fns tab s.heap = .ok out ∧
      out.Perm all := by
  obtain ⟨evaluates, rfl⟩ := emitRows_eq_ok_iff.mp full
  unfold seqAccess
  split
  · rename_i pruned
    exact ⟨[], rfl, sound.perm_of_pruned laws prunable pruned⟩
  · rename_i spans some_spans pruned
    have encoded : ∀ seg ∈ spans, ∃ bounds,
        encodeBounds fns seg.lowPK seg.highPK true true = .ok bounds := by
      intro seg member
      rw [(pruneSegments_eq_some pruned).2] at member
      obtain ⟨bounds, _, _, encoded, -⟩ :=
        (sound.framed seg (mem_filter.mp member).1).readBy_iff laws
      exact ⟨bounds, encoded⟩
    refine ⟨_, ?_, sound.perm_of_pruned laws prunable pruned⟩
    have nonempty : spans.isEmpty = false := by
      cases spans with
      | nil => exact absurd rfl some_spans
      | cons seg rest => rfl
    rw [SeqPlan.run, nonempty, readSpans_eq encoded]
    refine emitRows_eq_ok_iff.mpr ⟨fun row member => evaluates row ?_, rfl⟩
    obtain ⟨e, read, rfl⟩ := mem_map.mp member
    obtain ⟨seg, -, here⟩ := mem_flatMap.mp read
    exact mem_map_of_mem (mem_filter.mp here).1
  · exact ⟨_, full, Perm.refl _⟩

end

omit [Std.TransOrd D] [Inhabited D] in
theorem sound_empty : Sound fns tab summarised {} where
  keyed := nofun
  nodup := nodup_nil
  framed := nofun
  apart := .nil
  covered := absurd rfl

namespace OneColumn

/-- A table of one-byte integers. -/
def table : Table := ⟨[⟨"a", uint8⟩], [0]⟩

def rowOf (n : Byte) : Row Byte := [.data uint8 n]

def entryOf (n : Byte) : Bytes × Row Byte := ([1, n], rowOf n)

/-- The segment of one row. -/
def segmentOfRow (n : Byte) : SegmentStats Byte :=
  { lowPK := [.data uint8 n], highPK := [.data uint8 n], colMin := [.data uint8 n]
    colMax := [.data uint8 n] }

def analyze : Change Byte := .analyze id true

/-- The predicate `a > 5`. -/
def aboveFive : Expr Byte := .cmp .gt (.ident "a") (.literal (.data uint8 5))

theorem covers_own (n : Byte) (summarised : ℕ → Bool) :
    Covers uint8Fns table summarised (segmentOfRow n) (rowOf n) where
  reads := by
    obtain ⟨bounds, encoded, inside⟩ := @keyInRange_span Byte uint8Fns [.data uint8 n]
      [.data uint8 n] [1, n] [1, n] rfl rfl
    exact ⟨bounds, [1, n], encoded, rfl, (inside [1, n]).mpr ⟨le_rfl, .inr (prefix_refl _)⟩⟩
  within := by
    intro ord x least most stored present _ atLeast atMost
    cases ord with
    | zero =>
      cases stored
      cases atLeast
      cases atMost
      exact ⟨⟨rfl, rfl⟩, within_self _⟩
    | succ ord => cases stored

/-- The rows 7 and 9, of which the first is deleted and stored again. -/
def changes : List (Change Byte) :=
  [.insert (rowOf 7), .insert (rowOf 9), analyze, .delete [1, 7], .insert (rowOf 7)]

def final : TableState Byte :=
  { heap := [entryOf 9, entryOf 7], segments := [segmentOfRow 7, segmentOfRow 9] }

theorem run_changes : GuardedRuns.Run (TableState.Changes uint8Fns table fun _ => true)
      (Unsurprising uint8Fns table fun _ => true) {} changes final := by
  let Runs := GuardedRuns.Run (TableState.Changes uint8Fns table fun _ => true)
    (Unsurprising uint8Fns table fun _ => true) {}
  have one : Runs [.insert (rowOf 7)] { heap := [entryOf 7] } :=
    .snoc .nil (absurd rfl) rfl
  have two : Runs [.insert (rowOf 7), .insert (rowOf 9)] { heap := [entryOf 7, entryOf 9] } :=
    .snoc one (absurd rfl) rfl
  have three : Runs [.insert (rowOf 7), .insert (rowOf 9), analyze]
      { heap := [entryOf 7, entryOf 9], segments := [segmentOfRow 7, segmentOfRow 9] } :=
    .snoc two (fun _ => show 2 ≤ maxAnalyzeSample by decide) rfl
  have four : Runs [.insert (rowOf 7), .insert (rowOf 9), analyze, .delete [1, 7]]
      { heap := [entryOf 9], segments := [segmentOfRow 7, segmentOfRow 9] } :=
    .snoc three trivial rfl
  exact .snoc four (fun _ => ⟨segmentOfRow 7, mem_cons_self, covers_own 7 _⟩) rfl

theorem prunable_aboveFive {s : TableState Byte} (rows : ∀ e ∈ s.heap, ∃ n, e = entryOf n) :
    Prunable uint8Fns table (fun _ => true) s aboveFive where
  plain := by
    intro e member c conjunct
    rw [mem_singleton.mp conjunct]
    exact .ident_literal
  pinned := by
    intro ord r found isEq
    have ranges : extractRanges uint8Fns table (some aboveFive) =
        (∅ : Ranges Byte).insert 0 { low := some (.data uint8 5), unboundedHigh := true } := rfl
    rw [ranges] at found
    obtain ⟨-, rfl⟩ := AList.eq_of_lookup_insert_empty found
    cases isEq
  kept := by
    rintro e member ord x v stored ⟨c, conjunct, name, column, compares⟩ seg inside w ends
    cases mem_singleton.mp conjunct
    have same : v.kind = x.kind := by
      obtain ⟨-, constant⟩ | ⟨wrong, -⟩ := compares
      · cases constant
        obtain ⟨n, rfl⟩ := rows e member
        cases ord with
        | zero =>
          cases stored
          rfl
        | succ ord => cases stored
      · cases wrong
    rw [betweenBound_of_kind same]

end OneColumn

end NextSQL.Sql
