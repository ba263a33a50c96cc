import NextSQL.Sql.AccessExact
import NextSQL.Sql.Compare
import NextSQL.Sql.Imply

/-!
# Ranges read off true conjuncts

What the ranges of the optimizer say of a row on which the conjuncts are true
(`rangesTrue_of_holds`), and when a range that implies the range of another
conjunct makes that conjunct true (`holds_of_rangeMapImplies`). Three things can
go wrong and are conditions of the lemmas: a constant may order differently once
it is converted to the type it is compared in (`OrderKept`), a range may be
closed where the implied one is open (`EndsKept`), and a range marked as an
equality may have had its bound moved (`PinnedByEquality`).
-/

namespace NextSQL.Sql

open List

/-! ## Comparisons with constants -/

variable {D : Type} {fns : Fns D} {tab : Table} {row : Row D} {x v w a b : Value D}

theorem betweenBound_of_kind (same : v.kind = x.kind) : betweenBound fns x v = v := by
  rw [betweenBound, if_pos same]

variable [Ord D] {op op' : CmpOp} {side l r : Expr D} {name : String} {ord : ℕ} {o : Ordering}

/-- The operands of a comparison and the bounds of a `BETWEEN`. -/
def comparands : Expr D → List (Expr D)
  | .cmp _ l r => [l, r]
  | .between _ _ low high => [low, high]
  | _ => []

/-- The expression compares `side` with the constant `v`. -/
def Compares (fns : Fns D) (e side : Expr D) (v : Value D) : Prop :=
  match e with
  | .cmp _ l r => (l = side ∧ constValue fns r = some v) ∨ (r = side ∧ constValue fns l = some v)
  | .between _ tested low high =>
    tested = side ∧ (constValue fns low = some v ∨ constValue fns high = some v)
  | _ => False

/-- A value is ordered against a constant as the operator asks. -/
def Ordered (fns : Fns D) (op : CmpOp) (x v : Value D) : Prop :=
  ∃ o, x.cmp (betweenBound fns x v) = .ok o ∧ op.test o = true

/-- The two ways a comparison sets a column against a constant. -/
theorem sargable_cases (found : sargable fns tab op l r = some (ord, v, op')) :
    ∃ name, tab.colIndex name = some ord ∧
      ((l = .ident name ∧ constValue fns r = some v ∧ op' = op) ∨
        (r = .ident name ∧ constValue fns l = some v ∧ op' = flipOp op)) := by
  unfold sargable at found
  split at found
  · rename_i name w constant
    obtain ⟨ord', column, same⟩ := Option.map_eq_some_iff.mp found
    cases same
    exact ⟨name, column, .inl ⟨rfl, constant, rfl⟩⟩
  split at found
  · rename_i name w constant _
    obtain ⟨ord', column, same⟩ := Option.map_eq_some_iff.mp found
    cases same
    exact ⟨name, column, .inr ⟨rfl, constant, rfl⟩⟩
  · cases found

theorem compares_of_sargable (found : sargable fns tab op l r = some (ord, v, op')) :
    ∃ name, tab.colIndex name = some ord ∧ Compares fns (.cmp op l r) (.ident name) v := by
  obtain ⟨name, column, ⟨rfl, constant, rfl⟩ | ⟨rfl, constant, rfl⟩⟩ := sargable_cases found
  · exact ⟨name, column, .inl ⟨rfl, constant⟩⟩
  · exact ⟨name, column, .inr ⟨rfl, constant⟩⟩

/-! ## Ranges of columns -/

/-- A constant of the range is one that a conjunct compares the column with. -/
def FromConjunct (fns : Fns D) (tab : Table) (cs : List (Expr D)) (ord : ℕ) (v : Value D) :
    Prop :=
  ∃ c ∈ cs, ∃ name, tab.colIndex name = some ord ∧ Compares fns c (.ident name) v

/-- The operator of a lower bound. -/
def lowOp (incl : Bool) : CmpOp := if incl then .ge else .gt

/-- The operator of an upper bound. -/
def highOp (incl : Bool) : CmpOp := if incl then .le else .lt

/-- What the range of a column says of its value when the conjuncts are true. -/
structure RangeTrue (fns : Fns D) (tab : Table) (cs : List (Expr D)) (ord : ℕ) (x : Value D)
    (r : ColRange D) : Prop where
  null : r.isNull = true → x.isNull = true
  low : ∀ v, r.low = some v → r.unboundedLow = false →
    FromConjunct fns tab cs ord v ∧ Ordered fns (lowOp r.lowIncl) x v
  high : ∀ v, r.high = some v → r.unboundedHigh = false →
    FromConjunct fns tab cs ord v ∧ Ordered fns (highOp r.highIncl) x v

/-- Every range read off true conjuncts is true of the row. -/
def RangesTrue (fns : Fns D) (tab : Table) (row : Row D) (cs : List (Expr D))
    (ranges : Ranges D) : Prop :=
  ∀ ord r, ranges.lookup ord = some r → ∃ x, row[ord]? = some x ∧ RangeTrue fns tab cs ord x r

variable {cs : List (Expr D)} {r query need : ColRange D} {ranges : Ranges D} {c n e : Expr D}

theorem Ordered.of_eq (ordered : Ordered fns .eq x v) :
    Ordered fns .ge x v ∧ Ordered fns .le x v := by
  obtain ⟨o, compared, passed⟩ := ordered
  cases o with
  | lt | gt => cases passed
  | eq => exact ⟨⟨.eq, compared, rfl⟩, ⟨.eq, compared, rfl⟩⟩

/-- A comparison that is true keeps the range of its column true. -/
theorem RangeTrue.compared {cur : ColRange D} (before : RangeTrue fns tab cs ord x cur)
    (source : FromConjunct fns tab cs ord v) (ordered : Ordered fns op x v)
    (set : cur.compared v op = some r) : RangeTrue fns tab cs ord x r := by
  cases op with
  | ne => cases set
  | eq =>
    cases set
    refine ⟨before.null, ?_, ?_⟩
    · rintro w ⟨⟩ -
      exact ⟨source, ordered.of_eq.1⟩
    · rintro w ⟨⟩ -
      exact ⟨source, ordered.of_eq.2⟩
  | lt | le =>
    cases set
    refine ⟨before.null, before.low, ?_⟩
    rintro w ⟨⟩ -
    exact ⟨source, ordered⟩
  | gt | ge =>
    cases set
    refine ⟨before.null, ?_, before.high⟩
    rintro w ⟨⟩ -
    exact ⟨source, ordered⟩

theorem RangesTrue.insert (before : RangesTrue fns tab row cs ranges) (stored : row[ord]? = some x)
    (true_r : RangeTrue fns tab cs ord x r) : RangesTrue fns tab row cs (ranges.insert ord r) := by
  intro ord' r' found
  by_cases here : ord' = ord
  · subst here
    rw [AList.lookup_insert] at found
    cases found
    exact ⟨x, stored, true_r⟩
  · rw [AList.lookup_insert_ne here] at found
    exact before ord' r' found

/-- The conjuncts that put a range on a column. -/
theorem addConjunct_empty_cases (found : (addConjunct fns tab ∅ c).lookup ord = some r) :
    (∃ op left right v op', c = .cmp op left right ∧
        sargable fns tab op left right = some (ord, v, op') ∧
        ColRange.unbounded.compared v op' = some r) ∨
      (∃ name low high lo hi, c = .between false (.ident name) low high ∧
        tab.colIndex name = some ord ∧ constValue fns low = some lo ∧
        constValue fns high = some hi ∧ r = ColRange.between lo hi) ∨
      ∃ name, c = .isNull false (.ident name) ∧ tab.colIndex name = some ord ∧
        r = ColRange.null := by
  have none_found : (∅ : Ranges D).lookup ord ≠ some r := by
    rw [AList.lookup_empty]
    exact nofun
  unfold addConjunct at found
  split at found
  · rename_i op left right
    split at found
    · exact absurd found none_found
    rename_i v op' sarg
    split at found
    · exact absurd found none_found
    rename_i cur set
    obtain ⟨rfl, rfl⟩ := AList.eq_of_lookup_insert_empty found
    rw [AList.lookup_empty, Option.getD_none] at set
    exact .inl ⟨op, left, right, v, op', rfl, sarg, set⟩
  · rename_i name low high
    split at found
    · rename_i ord' lo hi column lowConst highConst
      obtain ⟨rfl, rfl⟩ := AList.eq_of_lookup_insert_empty found
      exact .inr (.inl ⟨name, low, high, lo, hi, rfl, column, lowConst, highConst, rfl⟩)
    · exact absurd found none_found
  · rename_i name
    split at found
    · rename_i ord' column
      obtain ⟨rfl, rfl⟩ := AList.eq_of_lookup_insert_empty found
      exact .inr (.inr ⟨name, rfl, column, rfl⟩)
    · exact absurd found none_found
  · exact absurd found none_found

/-- Implication of range maps, at the columns the needed one speaks of. -/
theorem exists_of_rangeMapImplies {query need : Ranges D}
    (implied : rangeMapImplies query need) :
    ∃ ord r r', query.lookup ord = some r ∧ need.lookup ord = some r' ∧
      rangeImplies r r' := by
  obtain ⟨nonempty, every⟩ := Bool.and_eq_true_iff.mp implied
  rcases entries : need.entries with _ | ⟨⟨ord, r'⟩, rest⟩
  · rw [entries] at nonempty
    cases nonempty
  have member : (⟨ord, r'⟩ : Sigma fun _ : ℕ => ColRange D) ∈ need.entries := by
    rw [entries]
    exact mem_cons_self
  have test := all_eq_true.mp every _ member
  split at test
  · rename_i r found
    exact ⟨ord, r, r', found, AList.mem_lookup_iff.mpr member, test⟩
  · cases test

/-- A range that pins a column does it by an equality among the conjuncts. -/
def PinnedByEquality (fns : Fns D) (tab : Table) (cs : List (Expr D)) : Prop :=
  ∀ ord r v, (cs.foldl (addConjunct fns tab) ∅).lookup ord = some r → r.pinned = some v →
    ∃ op left right, .cmp op left right ∈ cs ∧ sargable fns tab op left right = some (ord, v, .eq)

theorem pinnedByEquality_single (c : Expr D) : PinnedByEquality fns tab [c] := by
  intro ord r v found pin
  rw [foldl_cons, foldl_nil] at found
  rcases addConjunct_empty_cases found with ⟨op, left, right, w, op', rfl, sarg, set⟩ |
    ⟨_, _, _, _, _, -, -, -, -, rfl⟩ | ⟨_, -, -, rfl⟩
  · refine ⟨op, left, right, mem_singleton_self _, ?_⟩
    cases op' <;> cases set <;> cases pin
    exact sarg
  · cases pin
  · cases pin

theorem compares_of_exprCmp (found : exprCmp e = some (op, side, v)) : Compares fns e side v := by
  unfold exprCmp at found
  split at found
  · cases found
  · cases found
    exact .inl ⟨rfl, rfl⟩
  · cases found
    exact .inr ⟨rfl, rfl⟩
  · cases found

/-! ## Ranges that imply one another -/

/-- Converting both constants to the type of the compared value keeps their order. -/
structure OrderKept (fns : Fns D) (x v w : Value D) : Prop where
  converts : Converts fns x w
  same : (betweenBound fns x v).cmp (betweenBound fns x w) = v.cmp w

/-- At a common constant the range of the query is open where the needed one is. -/
structure EndsKept (query need : ColRange D) : Prop where
  low : ∀ v w, query.low = some v → need.low = some w → v.cmp w = .ok .eq →
    query.lowIncl = true → need.lowIncl = true
  high : ∀ v w, query.high = some v → need.high = some w → v.cmp w = .ok .eq →
    query.highIncl = true → need.highIncl = true

theorem cmpPasses_iff {test : Ordering → Bool} :
    cmpPasses a b test ↔ ∃ o, a.cmp b = .ok o ∧ test o := by
  unfold cmpPasses
  rcases a.cmp b with err | o <;> simp

theorem valuesEqual_iff : valuesEqual a b ↔ a.cmp b = .ok .eq := by
  unfold valuesEqual
  obtain err | o := a.cmp b
  · simp
  · cases o <;> simp

/-- A range that is neither pinned nor NULL is implied bound by bound. -/
theorem bounds_of_rangeImplies (free : need.pinned = none) (present : need.isNull = false)
    (implied : rangeImplies query need) :
    lowImplies query need ∧ highImplies query need := by
  simp only [rangeImplies, free, present, Bool.false_eq_true, if_false] at implied
  split at implied
  · cases implied
  · exact Bool.and_eq_true_iff.mp implied

section

variable [Std.TransOrd D]

theorem OrderKept.cmp {first second : Ordering} (kept : OrderKept fns x v w)
    (xv : x.cmp (betweenBound fns x v) = .ok first) (vw : v.cmp w = .ok second) :
    ∃ both, x.cmp (betweenBound fns x w) = .ok both ∧ Composes first second both :=
  Value.cmp_composes xv (kept.same.trans vw)

/-- The order of a value against one constant gives its order against another, if the operators
agree on all orders that may compose. -/
theorem Ordered.imp {op op' : CmpOp} (ordered : Ordered fns op x v) (kept : OrderKept fns x v w)
    (compared : v.cmp w = .ok o) (agree : ∀ first both, Composes first o both →
      op.test first → op'.test both) : Ordered fns op' x w := by
  obtain ⟨first, xv, passed⟩ := ordered
  obtain ⟨both, xw, composed⟩ := kept.cmp xv compared
  exact ⟨both, xw, agree first both composed passed⟩

theorem Ordered.eq (ordered : Ordered fns .eq x v) (kept : OrderKept fns x v w)
    (equal : v.cmp w = .ok .eq) : Ordered fns .eq x w :=
  ordered.imp kept equal (by decide)

/-- A bound that a comparison of two constants makes weaker. -/
theorem Ordered.weaken {op op' : CmpOp} {test : Ordering → Bool} (ordered : Ordered fns op x v)
    (kept : OrderKept fns x v w) (passes : cmpPasses v w test)
    (agree : ∀ o, v.cmp w = .ok o → test o → ∀ first both, Composes first o both →
      op.test first → op'.test both) :
    w.isNull = false ∧ Converts fns x w ∧ Ordered fns op' x w := by
  obtain ⟨o, compared, passed⟩ := cmpPasses_iff.mp passes
  exact ⟨(Value.isNull_of_cmp compared).2, kept.converts,
    ordered.imp kept compared (agree o compared passed)⟩

/-- The lower bound of a true range that implies the needed one is true of the column: the needed
one is not above it and at the same constant closed when it is. -/
theorem RangeTrue.low_of_implies (true_q : RangeTrue fns tab cs ord x query)
    (kept : ∀ v, FromConjunct fns tab cs ord v → OrderKept fns x v w) (ends : EndsKept query need)
    (bounded : need.unboundedLow = false) (bound : need.low = some w)
    (implied : lowImplies query need) :
    w.isNull = false ∧ Converts fns x w ∧ Ordered fns (lowOp need.lowIncl) x w := by
  unfold lowImplies at implied
  rw [bounded, Bool.false_or, bound] at implied
  split at implied
  · rename_i v w' queryBounded queryLow same
    cases same
    obtain ⟨source, ordered⟩ := true_q.low v queryLow queryBounded
    refine ordered.weaken (kept v source) implied fun o compared => ?_
    have closed : o = .eq → query.lowIncl → need.lowIncl :=
      fun equal => ends.low v w queryLow bound (equal ▸ compared)
    revert closed
    cases query.lowIncl <;> cases need.lowIncl <;> cases o <;> decide
  · cases implied

theorem RangeTrue.high_of_implies (true_q : RangeTrue fns tab cs ord x query)
    (kept : ∀ v, FromConjunct fns tab cs ord v → OrderKept fns x v w) (ends : EndsKept query need)
    (bounded : need.unboundedHigh = false) (bound : need.high = some w)
    (implied : highImplies query need) :
    w.isNull = false ∧ Converts fns x w ∧ Ordered fns (highOp need.highIncl) x w := by
  unfold highImplies at implied
  rw [bounded, Bool.false_or, bound] at implied
  split at implied
  · rename_i v w' queryBounded queryHigh same
    cases same
    obtain ⟨source, ordered⟩ := true_q.high v queryHigh queryBounded
    refine ordered.weaken (kept v source) implied fun o compared => ?_
    have closed : o = .eq → query.highIncl → need.highIncl :=
      fun equal => ends.high v w queryHigh bound (equal ▸ compared)
    revert closed
    cases query.highIncl <;> cases need.highIncl <;> cases o <;> decide
  · cases implied

/-- What a range says of its column that implies the range of one comparison. -/
theorem RangeTrue.compared_of_implies (true_q : RangeTrue fns tab cs ord x query)
    (pinned : ∀ v, query.pinned = some v → FromConjunct fns tab cs ord v ∧ Ordered fns .eq x v)
    (kept : ∀ v, FromConjunct fns tab cs ord v → OrderKept fns x v w) (ends : EndsKept query need)
    (set : ColRange.unbounded.compared w op = some need) (implied : rangeImplies query need) :
    w.isNull = false ∧ Converts fns x w ∧ Ordered fns op x w := by
  cases op with
  | ne => cases set
  | eq =>
    cases set
    rw [rangeImplies, ColRange.pinned, if_pos rfl] at implied
    dsimp only at implied
    split at implied
    · rename_i v pin
      have equal := valuesEqual_iff.mp implied
      obtain ⟨source, ordered⟩ := pinned v pin
      exact ⟨(Value.isNull_of_cmp equal).2, (kept v source).converts,
        ordered.eq (kept v source) equal⟩
    · cases implied
  | lt | le =>
    cases set
    exact true_q.high_of_implies kept ends rfl rfl (bounds_of_rangeImplies rfl rfl implied).2
  | gt | ge =>
    cases set
    exact true_q.low_of_implies kept ends rfl rfl (bounds_of_rangeImplies rfl rfl implied).1

end

/-! ## Ranges of true conjuncts -/

variable [Inhabited D]

/-- The constants of a comparison are written as literals, and a literal on the
left has the kind of the value on the right. -/
structure Plain (fns : Fns D) (tab : Table) (row : Row D) (e : Expr D) : Prop where
  literal : ∀ operand ∈ comparands e, ∀ v, constValue fns operand = some v → operand = .literal v
  left : ∀ op v r x, e = .cmp op (.literal v) r → eval fns tab row r = .ok x → x.kind = v.kind

/-- A comparison with a literal on the right. -/
theorem holds_cmp_literal : Holds fns tab row (.cmp op side (.literal v)) ↔
      ∃ x, eval fns tab row side = .ok x ∧ v.isNull = false ∧ Converts fns x v ∧
        Ordered fns op x v := by
  rw [holds_cmp_iff]
  simp only [eval, evalCmp_eq_true_iff]
  constructor
  · rintro ⟨x, w, left, ⟨⟩, present, converts, compared⟩
    exact ⟨x, left, present, converts, compared⟩
  · rintro ⟨x, left, present, converts, compared⟩
    exact ⟨x, v, left, rfl, present, converts, compared⟩

theorem Plain.ident_literal : Plain fns tab row (.cmp op (.ident name) (.literal v)) where
  literal := by
    intro operand inside w constant
    obtain rfl | rfl := mem_pair.mp inside
    · cases constant
    · exact congrArg Expr.literal (Option.some.inj constant)
  left := by
    intro op v r x shape
    cases shape

theorem eval_ident_eq_ok_iff : eval fns tab row (.ident name) = .ok x ↔
      ∃ ord, tab.colIndex name = some ord ∧ row[ord]? = some x := by
  rw [eval, evalIdent]
  cases tab.colIndex name with
  | none => simp
  | some ord =>
    simp only [Option.some.injEq, exists_eq_left']
    cases found : row[ord]? <;> simp

theorem holds_between_iff {tested low high : Expr D} :
    Holds fns tab row (.between false tested low high) ↔
      ∃ x lo hi, eval fns tab row tested = .ok x ∧ eval fns tab row low = .ok lo ∧
        eval fns tab row high = .ok hi ∧ lo.isNull = false ∧ hi.isNull = false ∧
        Ordered fns .ge x lo ∧ Ordered fns .le x hi := by
  unfold Holds
  rw [eval]
  simp only [Except.bind_eq_ok_iff, evalBetween_eq_true_iff]
  constructor
  · rintro ⟨x, tests, lo, lows, hi, highs, present, present', c1, c2, first, second, above, below⟩
    exact ⟨x, lo, hi, tests, lows, highs, present, present',
      ⟨c1, first, by simpa [CmpOp.test] using above⟩,
      ⟨c2, second, by simpa [CmpOp.test] using below⟩⟩
  · rintro ⟨x, lo, hi, tests, lows, highs, present, present', ⟨c1, first, above⟩,
      ⟨c2, second, below⟩⟩
    exact ⟨x, tests, lo, lows, hi, highs, present, present', c1, c2, first, second,
      by simpa [CmpOp.test] using above, by simpa [CmpOp.test] using below⟩

theorem holds_between_literals_iff {low high : Value D} (column : tab.colIndex name = some ord) :
    Holds fns tab row (.between false (.ident name) (.literal low) (.literal high)) ↔
      ∃ x, row[ord]? = some x ∧ low.isNull = false ∧ high.isNull = false ∧
        Ordered fns .ge x low ∧ Ordered fns .le x high := by
  rw [holds_between_iff]
  simp only [eval_ident_eq_ok_iff, column, Option.some.injEq, exists_eq_left']
  constructor
  · rintro ⟨x, lo, hi, stored, lows, highs, rest⟩
    cases lows
    cases highs
    exact ⟨x, stored, rest⟩
  · rintro ⟨x, stored, rest⟩
    exact ⟨x, low, high, stored, rfl, rfl, rest⟩

theorem holds_isNull_iff (column : tab.colIndex name = some ord) :
    Holds fns tab row (.isNull false (.ident name)) ↔
      ∃ x, row[ord]? = some x ∧ x.isNull := by
  unfold Holds
  rw [eval, Except.bind_eq_ok_iff]
  simp only [eval_ident_eq_ok_iff, column, Option.some.injEq, exists_eq_left']
  apply exists_congr
  intro x
  cases nullness : x.isNull <;> simp [pure, Except.pure]

variable [Std.TransOrd D]

theorem holds_literal_cmp (sameKind : ∀ x, eval fns tab row side = .ok x → x.kind = v.kind) :
    Holds fns tab row (.cmp op (.literal v) side) ↔
      ∃ x, eval fns tab row side = .ok x ∧ v.isNull = false ∧ Converts fns x v ∧
        Ordered fns (flipOp op) x v := by
  rw [holds_cmp_iff]
  simp only [eval, evalCmp_eq_true_iff]
  constructor
  · rintro ⟨w, x, ⟨⟩, right, present, -, o, compared, passed⟩
    have kinds := sameKind x right
    rw [betweenBound_of_kind kinds] at compared
    refine ⟨x, right, (Value.isNull_of_cmp compared).1, .inl kinds.symm, o.swap, ?_, ?_⟩
    · rw [betweenBound_of_kind kinds.symm]
      exact Value.cmp_swap compared
    · rw [CmpOp.test_flip, passed]
  rintro ⟨x, right, present, -, o, compared, passed⟩
  have kinds := sameKind x right
  rw [betweenBound_of_kind kinds.symm] at compared
  refine ⟨v, x, rfl, right, (Value.isNull_of_cmp compared).1, .inl kinds, o.swap, ?_, ?_⟩
  · rw [betweenBound_of_kind kinds]
    exact Value.cmp_swap compared
  · have flipped := CmpOp.test_flip (flipOp op) o
    rw [passed] at flipped
    cases op <;> exact flipped

/-- What a comparison of a column with a constant says of the row. -/
theorem holds_sargable_iff {l r : Expr D} (plain : Plain fns tab row (.cmp op l r))
    (found : sargable fns tab op l r = some (ord, v, op')) :
    Holds fns tab row (.cmp op l r) ↔
      ∃ x, row[ord]? = some x ∧ v.isNull = false ∧ Converts fns x v ∧ Ordered fns op' x v := by
  obtain ⟨name, column, ⟨rfl, constant, rfl⟩ | ⟨rfl, constant, rfl⟩⟩ := sargable_cases found
  · rw [plain.literal r (by simp [comparands]) v constant, holds_cmp_literal]
    simp only [eval_ident_eq_ok_iff, column, Option.some.injEq, exists_eq_left']
  · have literal := plain.literal l (by simp [comparands]) v constant
    rw [literal, holds_literal_cmp fun x => plain.left op v (.ident name) x (by rw [literal])]
    simp only [eval_ident_eq_ok_iff, column, Option.some.injEq, exists_eq_left']

theorem RangesTrue.addConjunct (before : RangesTrue fns tab row cs ranges) (member : c ∈ cs)
    (plain : Plain fns tab row c) (holds : Holds fns tab row c) :
    RangesTrue fns tab row cs (addConjunct fns tab ranges c) := by
  unfold Sql.addConjunct
  split
  · rename_i op l r
    split
    · exact before
    rename_i ord v op' found
    split
    · exact before
    rename_i cur set
    obtain ⟨x, stored, -, -, ordered⟩ := (holds_sargable_iff plain found).mp holds
    have now : RangeTrue fns tab cs ord x ((ranges.lookup ord).getD ColRange.unbounded) := by
      cases old : ranges.lookup ord with
      | none => exact ⟨by rintro ⟨⟩, by rintro v ⟨⟩, by rintro v ⟨⟩⟩
      | some old_r =>
        obtain ⟨x', stored', true_r⟩ := before ord old_r old
        cases stored.symm.trans stored'
        exact true_r
    exact before.insert stored (now.compared ⟨_, member, compares_of_sargable found⟩ ordered set)
  · rename_i name low high
    split
    · rename_i ord lo hi column lowConst highConst
      cases plain.literal low (by simp [comparands]) lo lowConst
      cases plain.literal high (by simp [comparands]) hi highConst
      obtain ⟨x, stored, -, -, above, below⟩ := (holds_between_literals_iff column).mp holds
      refine before.insert stored ⟨by rintro ⟨⟩, ?_, ?_⟩
      · rintro v ⟨⟩ -
        exact ⟨⟨_, member, name, column, rfl, .inl lowConst⟩, above⟩
      · rintro v ⟨⟩ -
        exact ⟨⟨_, member, name, column, rfl, .inr highConst⟩, below⟩
    · exact before
  · rename_i name
    split
    · rename_i ord column
      obtain ⟨x, stored, null⟩ := (holds_isNull_iff column).mp holds
      exact before.insert stored ⟨fun _ => null, by rintro v ⟨⟩, by rintro v ⟨⟩⟩
    · exact before
  · exact before

/-- **The ranges read off true conjuncts are true of the row.** -/
theorem rangesTrue_of_holds (plain : ∀ c ∈ cs, Plain fns tab row c)
    (holds : ∀ c ∈ cs, Holds fns tab row c) :
    RangesTrue fns tab row cs (cs.foldl (addConjunct fns tab) ∅) := by
  have every : ∀ (rest : List (Expr D)) (ranges : Ranges D), (∀ c ∈ rest, c ∈ cs) →
      RangesTrue fns tab row cs ranges →
      RangesTrue fns tab row cs (rest.foldl (addConjunct fns tab) ranges) := by
    intro rest
    induction rest with
    | nil => exact fun ranges _ before => before
    | cons c rest ih =>
      intro ranges inside before
      have member := inside c mem_cons_self
      exact ih _ (fun e later => inside e (mem_cons_of_mem _ later))
        (before.addConjunct member (plain c member) (holds c member))
  refine every cs ∅ (fun _ member => member) ?_
  intro ord r found
  rw [AList.lookup_empty] at found
  cases found

/-! ## Ranges that imply a conjunct -/

/-- A range that is true of the row and implies the range of a conjunct makes
the conjunct true. -/
theorem holds_of_rangeImplies (stored : row[ord]? = some x)
    (true_q : RangeTrue fns tab cs ord x query)
    (pinned : ∀ v, query.pinned = some v → FromConjunct fns tab cs ord v ∧ Ordered fns .eq x v)
    (plain : Plain fns tab row n) (found : (addConjunct fns tab ∅ n).lookup ord = some need)
    (kept : ∀ v w, FromConjunct fns tab cs ord v → FromConjunct fns tab [n] ord w →
      OrderKept fns x v w) (ends : EndsKept query need) (implied : rangeImplies query need) :
    Holds fns tab row n := by
  rcases addConjunct_empty_cases found with ⟨op, left, right, w, op', rfl, sarg, set⟩ |
    ⟨name, low, high, lo, hi, rfl, column, lowConst, highConst, rfl⟩ | ⟨name, rfl, column, rfl⟩
  · have source : FromConjunct fns tab [.cmp op left right] ord w :=
      ⟨_, mem_singleton_self _, compares_of_sargable sarg⟩
    exact (holds_sargable_iff plain sarg).mpr ⟨x, stored,
      true_q.compared_of_implies pinned (fun v from_v => kept v w from_v source) ends set implied⟩
  · cases plain.literal low (by simp [comparands]) lo lowConst
    cases plain.literal high (by simp [comparands]) hi highConst
    obtain ⟨lowImplied, highImplied⟩ := bounds_of_rangeImplies rfl rfl implied
    have lowSource : FromConjunct fns tab
        [.between false (.ident name) (.literal lo) (.literal hi)] ord lo :=
      ⟨_, mem_singleton_self _, name, column, rfl, .inl lowConst⟩
    have highSource : FromConjunct fns tab
        [.between false (.ident name) (.literal lo) (.literal hi)] ord hi :=
      ⟨_, mem_singleton_self _, name, column, rfl, .inr highConst⟩
    obtain ⟨lowPresent, -, above⟩ := true_q.low_of_implies
      (fun v from_v => kept v lo from_v lowSource) ends rfl rfl lowImplied
    obtain ⟨highPresent, -, below⟩ := true_q.high_of_implies
      (fun v from_v => kept v hi from_v highSource) ends rfl rfl highImplied
    exact (holds_between_literals_iff column).mpr ⟨x, stored, lowPresent, highPresent, above, below⟩
  · exact (holds_isNull_iff column).mpr ⟨x, stored, true_q.null implied⟩

/-- **Ranges of true conjuncts that imply the range of a conjunct make it true.** -/
theorem holds_of_rangeMapImplies (plain : ∀ c ∈ cs, Plain fns tab row c)
    (holds : ∀ c ∈ cs, Holds fns tab row c) (pinned : PinnedByEquality fns tab cs)
    (plain_n : Plain fns tab row n)
    (kept : ∀ ord x v w, row[ord]? = some x → FromConjunct fns tab cs ord v →
      FromConjunct fns tab [n] ord w → OrderKept fns x v w)
    (ends : ∀ ord r r', (cs.foldl (addConjunct fns tab) ∅).lookup ord = some r →
      (addConjunct fns tab ∅ n).lookup ord = some r' → EndsKept r r')
    (implied : rangeMapImplies (cs.foldl (addConjunct fns tab) ∅) (addConjunct fns tab ∅ n)) :
    Holds fns tab row n := by
  obtain ⟨ord, r, r', found, needed, implies⟩ := exists_of_rangeMapImplies implied
  obtain ⟨x, stored, true_r⟩ := rangesTrue_of_holds plain holds ord r found
  refine holds_of_rangeImplies stored true_r ?_ plain_n needed (fun v w => kept ord x v w stored)
    (ends ord r r' found needed) implies
  intro v pin
  obtain ⟨op, left, right, member, sarg⟩ := pinned ord r v found pin
  obtain ⟨x', stored', -, -, ordered⟩ :=
    (holds_sargable_iff (plain _ member) sarg).mp (holds _ member)
  cases stored.symm.trans stored'
  exact ⟨⟨_, member, compares_of_sargable sarg⟩, ordered⟩

/-! ## Bounds on equal expressions -/

theorem holds_exprCmp_iff (plain : Plain fns tab row e) (found : exprCmp e = some (op, side, v)) :
    Holds fns tab row e ↔ ∃ x, eval fns tab row side = .ok x ∧ v.isNull = false ∧ Converts fns x v ∧
        Ordered fns op x v := by
  unfold exprCmp at found
  split at found
  · cases found
  · cases found
    exact holds_cmp_literal
  · cases found
    exact holds_literal_cmp fun x => plain.left _ _ _ x rfl
  · cases found

/-- A bound on an expression that implies a bound on the same expression makes
that one true. -/
theorem holds_of_exprRangeImplies {query need : Expr D} (plain : Plain fns tab row query)
    (plain_n : Plain fns tab row need)
    (same : ∀ a b v w, Compares fns query a v → Compares fns need b w → exprEqual a b → a = b)
    (kept : ∀ side v w x, Compares fns query side v → Compares fns need side w →
      eval fns tab row side = .ok x → OrderKept fns x v w)
    (holds : Holds fns tab row query) (implied : exprRangeImplies query need) :
    Holds fns tab row need := by
  unfold exprRangeImplies at implied
  split at implied
  · rename_i qop qe qv nop ne nv queryCmp needCmp
    have source : Compares fns query qe qv := compares_of_exprCmp queryCmp
    have target : Compares fns need ne nv := compares_of_exprCmp needCmp
    obtain ⟨sameSide, bounds⟩ := Bool.and_eq_true_iff.mp implied
    cases same qe ne qv nv source target sameSide
    obtain ⟨x, evaluated, -, -, ordered⟩ := (holds_exprCmp_iff plain queryCmp).mp holds
    have order := kept qe qv nv x source target evaluated
    refine (holds_exprCmp_iff plain_n needCmp).mpr ⟨x, evaluated, ?_⟩
    split at bounds
    · rename_i needEq
      obtain ⟨queryEq, equal⟩ := Bool.and_eq_true_iff.mp bounds
      rw [of_decide_eq_true queryEq] at ordered
      have compared := valuesEqual_iff.mp equal
      rw [needEq]
      exact ⟨(Value.isNull_of_cmp compared).2, order.converts, ordered.eq order compared⟩
    split at bounds
    · rename_i queryEq
      rw [queryEq] at ordered
      exact ordered.weaken order bounds fun o _ => by cases nop <;> cases o <;> decide
    split at bounds
    on_goal 5 => cases bounds
    all_goals exact ordered.weaken order bounds fun o _ => by cases qop <;> cases o <;> decide
  · cases implied

end NextSQL.Sql
