import NextSQL.Sql.RangeSound

/-!
# When a partial index may be used

The optimizer's implication test and its residual are sound on the rows that
meet the conditions `Regular` (`partial_index_sound`). Without them neither half
holds (`partial_index_unsound`): the range test lets a closed bound imply an
open one, so an index on `a > 5` is used for `a >= 5`, and the residual loses
each conjunct that implies the index predicate, so `a > 7` is answered with all
rows of that index.
-/

namespace NextSQL.Sql

open List

/-! ## The parts of the two predicates -/

variable {D : Type} {c e n : Expr D}

theorem literals_subset_of_mem_conjuncts (member : c ∈ conjuncts e) : c.literals ⊆ e.literals := by
  fun_induction conjuncts e with
  | case1 l r left right =>
    rw [Expr.literals]
    obtain here | here := mem_append.mp member
    · exact subset_append_of_subset_left _ (left here)
    · exact subset_append_of_subset_right _ (right here)
  | case2 e notAnd => rw [mem_singleton.mp member]; exact Subset.refl _

theorem literals_subset_of_mem_atoms (member : n ∈ atoms e) : n.literals ⊆ e.literals := by
  fun_induction atoms e with
  | case1 l r left right | case2 l r left right =>
    rw [Expr.literals]
    obtain here | here := mem_append.mp member
    · exact subset_append_of_subset_left _ (left here)
    · exact subset_append_of_subset_right _ (right here)
  | case3 e notAnd notOr => rw [mem_singleton.mp member]; exact Subset.refl _

variable [Ord D]

theorem SameLiterals.mono {a a' b b' : List (Value D)} (same : SameLiterals a b) (left : a' ⊆ a)
    (right : b' ⊆ b) : SameLiterals a' b' :=
  fun v inside w inside' => same v (left inside) w (right inside')

theorem literals_subset_of_compares {fns : Fns D} {side : Expr D} {v : Value D}
    (compares : Compares fns e side v) : side.literals ⊆ e.literals := by
  unfold Compares at compares
  split at compares
  · rw [Expr.literals]
    obtain ⟨rfl, -⟩ | ⟨rfl, -⟩ := compares
    · exact subset_append_left _ _
    · exact subset_append_right _ _
  · obtain ⟨rfl, -⟩ := compares
    rw [Expr.literals]
    exact subset_append_left _ _
  · cases compares

theorem Table.colIndex_inj {tab : Table} {a b : String} {ord : ℕ}
    (first : tab.colIndex a = some ord) (second : tab.colIndex b = some ord) : a = b := by
  obtain ⟨inside, named, -⟩ := findIdx?_eq_some_iff_getElem.mp first
  obtain ⟨_, named', -⟩ := findIdx?_eq_some_iff_getElem.mp second
  exact (of_decide_eq_true named).symm.trans (of_decide_eq_true named')

variable [Inhabited D] {fns : Fns D} {tab : Table} {row : Row D}

/-- The expression evaluates to a truth value or NULL on the row. -/
def Evaluates (fns : Fns D) (tab : Table) (row : Row D) (e : Expr D) : Prop :=
  ∃ v, eval fns tab row e = .ok v ∧ ∀ t d, v ≠ .data t d

omit [Ord D] [Inhabited D] in
theorem evalLogic_evaluates {decisive : Bool} {v w : Value D} (left : ∀ t d, v ≠ .data t d)
    (right : ∀ t d, w ≠ .data t d) :
    ∃ u, evalLogic decisive (.ok v) (.ok w) = .ok u ∧ ∀ t d, u ≠ .data t d := by
  obtain t | a | ⟨t, d⟩ := v
  · obtain t' | b | ⟨t', d'⟩ := w
    · exact ⟨_, rfl, nofun⟩
    · cases decisive <;> cases b <;> exact ⟨_, rfl, nofun⟩
    · exact absurd rfl (right t' d')
  · obtain t' | b | ⟨t', d'⟩ := w
    · cases decisive <;> cases a <;> exact ⟨_, rfl, nofun⟩
    · cases decisive <;> cases a <;> exact ⟨_, rfl, nofun⟩
    · exact absurd rfl (right t' d')
  · exact absurd rfl (left t d)

/-- Connectives of operands that evaluate to truth values do, too. -/
theorem evaluates_of_atoms (every : ∀ n ∈ atoms e, Evaluates fns tab row n) :
    Evaluates fns tab row e := by
  fun_induction atoms e with
  | case1 l r left right | case2 l r left right =>
    obtain ⟨v, evalLeft, truthLeft⟩ := left fun n member => every n (mem_append_left _ member)
    obtain ⟨w, evalRight, truthRight⟩ :=
      right fun n member => every n (mem_append_right _ member)
    obtain ⟨u, result, truth⟩ := evalLogic_evaluates truthLeft truthRight
    exact ⟨u, by rw [eval, evalLeft, evalRight, result], truth⟩
  | case3 e notAnd notOr => exact every e (mem_singleton_self e)

variable {l r : Expr D}

theorem holds_or_of_right (evaluates : Evaluates fns tab row l) (right : Holds fns tab row r) :
    Holds fns tab row (.or l r) := by
  obtain ⟨v, result, truth⟩ := evaluates
  unfold Holds at *
  rw [eval, result, right]
  obtain t | (_ | _) | ⟨t, d⟩ := v
  · rfl
  · rfl
  · rfl
  · exact absurd rfl (truth t d)

/-! ## The conditions -/

/-- The conditions under which the optimizer reads the two predicates as they
are evaluated on a row. -/
structure Regular (fns : Fns D) (tab : Table) (row : Row D) (query part : Expr D) : Prop where
  /-- Neither predicate has anything to fold. -/
  query_folded : foldExpr fns query = query
  part_folded : foldExpr fns part = part
  query_plain : ∀ c ∈ conjuncts query, Plain fns tab row c
  part_plain : ∀ n ∈ atoms part, Plain fns tab row n
  /-- The index predicate evaluates without an error. -/
  part_evaluates : ∀ n ∈ atoms part, Evaluates fns tab row n
  literals : SameLiterals query.literals part.literals
  /-- Constants compared with the same expression keep their order when converted. -/
  order : ∀ c ∈ conjuncts query, ∀ n ∈ atoms part, ∀ side v w x, Compares fns c side v →
    Compares fns n side w → eval fns tab row side = .ok x → OrderKept fns x v w
  /-- No closed end of a query range meets an open end of the index predicate. -/
  ends : ∀ cs, (cs = conjuncts query ∨ ∃ c ∈ conjuncts query, cs = [c]) → ∀ n ∈ atoms part,
    ∀ ord r r', (cs.foldl (addConjunct fns tab) ∅).lookup ord = some r →
      (addConjunct fns tab ∅ n).lookup ord = some r' → EndsKept r r'
  /-- No later comparison moves the bound of an equality. -/
  pinned : PinnedByEquality fns tab (conjuncts query)
  /-- A column and a constant are only joined by a comparison. -/
  compared : ∀ c ∈ conjuncts query, (sargableColumn fns tab c).isSome = true →
    ∃ op l r, c = .cmp op l r
  /-- A conjunct that implies the index predicate is the predicate or one of its conjuncts. -/
  dropped : ∀ c ∈ conjuncts query, impliesPredicate fns none (some c) part = true →
    exprEqual c part = true ∨ ∃ n ∈ conjuncts part, exprEqual c n = true

variable {query part : Expr D}

/-- The order of constants, for the constants of ranges. -/
theorem Regular.kept (regular : Regular fns tab row query part) {cs : List (Expr D)}
    (inside : ∀ c ∈ cs, c ∈ conjuncts query) (needed : n ∈ atoms part) :
    ∀ ord x v w, row[ord]? = some x → FromConjunct fns tab cs ord v →
      FromConjunct fns tab [n] ord w → OrderKept fns x v w := by
  rintro ord x v w stored ⟨c, member, name, column, compares⟩ ⟨n', single, name', column', compares'⟩
  cases mem_singleton.mp single
  cases Table.colIndex_inj column column'
  exact regular.order c (inside c member) n needed _ v w x compares compares'
    (eval_ident_eq_ok_iff.mpr ⟨ord, column, stored⟩)

theorem isNull_of_holds_cmp {op : CmpOp} (holds : Holds fns tab row (.cmp op l r)) :
    Holds fns tab row (.isNull true l) ∧ Holds fns tab row (.isNull true r) := by
  obtain ⟨x, v, left, right, compared⟩ := holds_cmp_iff.mp holds
  obtain ⟨present, -, o, ordered, -⟩ := evalCmp_eq_true_iff.mp compared
  unfold Holds
  simp only [eval, left, right]
  have here := (Value.isNull_of_cmp ordered).1
  constructor
  · simp [bind, Except.bind, pure, Except.pure, here]
  · simp [bind, Except.bind, pure, Except.pure, present]

variable [Std.TransOrd D]

omit [Inhabited D] [Std.TransOrd D] in
theorem rangesIn_single (single : conjuncts c = [c]) :
    rangesIn fns (some tab) (some c) = addConjunct fns tab ∅ c := by
  rw [rangesIn, extractRanges, conjunctsOf, single]
  rfl

section

variable (regular : Regular fns tab row query part)

include regular

theorem Regular.range_sound {cs : List (Expr D)}
    (shape : cs = conjuncts query ∨ ∃ c ∈ conjuncts query, cs = [c]) (needed : n ∈ atoms part)
    (holds : ∀ c ∈ cs, Holds fns tab row c)
    (implied : rangeMapImplies (cs.foldl (addConjunct fns tab) ∅) (addConjunct fns tab ∅ n)) :
    Holds fns tab row n := by
  have inside : ∀ c ∈ cs, c ∈ conjuncts query := by
    obtain rfl | ⟨c, member, rfl⟩ := shape
    · exact fun _ member => member
    · intro c' single
      rwa [mem_singleton.mp single]
  have pinned : PinnedByEquality fns tab cs := by
    obtain rfl | ⟨c, member, rfl⟩ := shape
    · exact regular.pinned
    · exact pinnedByEquality_single c
  exact holds_of_rangeMapImplies (fun c member => regular.query_plain c (inside c member)) holds
    pinned (regular.part_plain n needed) (regular.kept inside needed)
    (regular.ends cs shape n needed) implied

section

variable (member : c ∈ conjuncts query) (needed : n ∈ atoms part) (single : conjuncts n = [n])
  (holds : Holds fns tab row c)

include member needed single holds

theorem Regular.atomImplies_sound (implied : atomImplies fns (some tab) c n) :
    Holds fns tab row n := by
  have same : ∀ a b : Expr D, a.literals ⊆ c.literals → b.literals ⊆ n.literals →
      exprEqual a b → a = b := by
    intro a b left right equal
    exact eq_of_exprEqual a b (regular.literals.mono
      (Subset.trans left (literals_subset_of_mem_conjuncts member))
      (Subset.trans right (literals_subset_of_mem_atoms needed))) equal
  have byRange : (rangeMapImplies (rangesIn fns (some tab) (some c))
      (rangesIn fns (some tab) (some n)) || exprRangeImplies c n) →
      Holds fns tab row n := by
    intro either
    obtain ranges | bounds := Bool.or_eq_true_iff.mp either
    · rw [rangesIn_single (conjuncts_of_mem member), rangesIn_single single] at ranges
      refine regular.range_sound (.inr ⟨c, member, rfl⟩) needed ?_ ranges
      intro c' inside
      rwa [mem_singleton.mp inside]
    · refine holds_of_exprRangeImplies (regular.query_plain c member) (regular.part_plain n needed)
        ?_ (regular.order c member n needed) holds bounds
      intro a b v w left right equal
      exact same a b (literals_subset_of_compares left) (literals_subset_of_compares right) equal
  unfold atomImplies at implied
  split at implied
  · rename_i tested
    split at implied
    · rename_i sarg
      obtain ⟨op, l, r, rfl⟩ := regular.compared c member sarg
      obtain ⟨leftPresent, rightPresent⟩ := isNull_of_holds_cmp holds
      have subsetTested : tested.literals ⊆ (Expr.isNull true tested).literals := by
        rw [Expr.literals]
        exact Subset.refl _
      unfold cmpSide Expr.operands at implied
      split at implied
      · rename_i side found
        split at found
        · rename_i l' lit pair
          cases pair
          cases found
          rw [← same _ tested (by rw [Expr.literals]; exact subset_append_left _ _)
            subsetTested implied]
          exact leftPresent
        · rename_i lit r' _ pair
          cases pair
          cases found
          rw [← same _ tested (by rw [Expr.literals]; exact subset_append_right _ _)
            subsetTested implied]
          exact rightPresent
        · cases found
      · cases implied
    · exact byRange implied
  · exact byRange implied

theorem Regular.conjunctImplies_sound (implied : conjunctImplies fns (some tab) n c) :
    Holds fns tab row n := by
  unfold conjunctImplies at implied
  split at implied
  · exact absurd rfl (not_and_of_mem_conjuncts member _ _)
  obtain equal | implies := Bool.or_eq_true_iff.mp implied
  · rw [← eq_of_exprEqual c n (regular.literals.mono (literals_subset_of_mem_conjuncts member)
      (literals_subset_of_mem_atoms needed)) equal]
    exact holds
  · exact regular.atomImplies_sound member needed single holds implies

end

/-- **What the conjuncts of a true query predicate imply.** By induction over the
connectives of the index predicate. -/
theorem Regular.impliesExpr_sound (holds : ∀ c ∈ conjuncts query, Holds fns tab row c)
    (need : Expr D) (inside : ∀ n ∈ atoms need, n ∈ atoms part)
    (implied : impliesExpr fns (some tab) (conjuncts query) need) :
    Holds fns tab row need := by
  fun_induction impliesExpr fns (some tab) (conjuncts query) need with
  | case1 l r left right =>
    obtain ⟨first, second⟩ := Bool.and_eq_true_iff.mp implied
    rw [atoms] at inside
    exact holds_and.mpr ⟨left (fun n member => inside n (mem_append_left _ member)) first,
        right (fun n member => inside n (mem_append_right _ member)) second⟩
  | case2 l r left right =>
    rw [atoms] at inside
    have insideLeft : ∀ n ∈ atoms l, n ∈ atoms part :=
      fun n member => inside n (mem_append_left _ member)
    obtain first | second := Bool.or_eq_true_iff.mp implied
    · rw [Holds, eval, left insideLeft first]
      rfl
    · refine holds_or_of_right
        (evaluates_of_atoms fun n member => regular.part_evaluates n (insideLeft n member))
        (right (fun n member => inside n (mem_append_right _ member)) second)
  | case3 need notAnd notOr =>
    have single : conjuncts need = [need] := by
      unfold conjuncts
      split
      · exact absurd rfl (notAnd _ _)
      · rfl
    have needed : need ∈ atoms part := by
      apply inside
      unfold atoms
      split
      · exact absurd rfl (notAnd _ _)
      · exact absurd rfl (notOr _ _)
      · exact mem_singleton_self _
    obtain some_conjunct | ranges := Bool.or_eq_true_iff.mp implied
    · obtain ⟨c, member, implies⟩ := any_eq_true.mp some_conjunct
      exact regular.conjunctImplies_sound member needed single (holds c member) implies
    have whole : rangesIn fns (some tab) (andAll (conjuncts query)) =
        (conjuncts query).foldl (addConjunct fns tab) ∅ := by
      have kept : conjunctsOf (andAll (conjuncts query)) = conjuncts query :=
        @conjunctsOf_andAll D (some query) _ fun _ member => member
      rw [rangesIn, extractRanges, kept]
    rw [whole, rangesIn_single single] at ranges
    exact regular.range_sound (.inl rfl) needed holds ranges

/-! ## Soundness -/

theorem Regular.implies_sound (accepted : impliesPredicate fns (some tab) (some query) part)
    (holds : Holds fns tab row query) : Holds fns tab row part := by
  unfold impliesPredicate at accepted
  simp only [regular.part_folded, regular.query_folded] at accepted
  split at accepted
  · rename_i isTrue
    unfold predIsTrue at isTrue
    split at isTrue
    · cases isTrue
      rfl
    · cases isTrue
  split at accepted
  · rename_i isFalse
    unfold predIsFalse at isFalse
    split at isFalse
    · cases holds
    · rename_i b
      cases b
      · cases holds
      · cases isFalse
    · cases isFalse
  obtain equal | implies := Bool.or_eq_true_iff.mp accepted
  · rw [← eq_of_exprEqual query part regular.literals equal]
    exact holds
  · exact regular.impliesExpr_sound ((holds_iff_conjuncts query).mp holds) part
      (fun _ member => member) implies

end

omit [Std.TransOrd D] in
/-- A conjunct that is left out is one the index predicate guarantees. -/
theorem Regular.dropped_sound (regular : Regular fns tab row query part)
    (member : c ∈ conjuncts query) (implied : impliedConjunct fns part c)
    (holds : Holds fns tab row part) : Holds fns tab row c := by
  have literals : SameLiterals c.literals part.literals :=
    regular.literals.mono (literals_subset_of_mem_conjuncts member) (Subset.refl _)
  have guaranteed : exprEqual c part ∨ ∃ n ∈ conjuncts part, exprEqual c n := by
    obtain first | conjunct := Bool.or_eq_true_iff.mp implied
    · obtain implies | equal := Bool.or_eq_true_iff.mp first
      · exact regular.dropped c member implies
      · exact .inl equal
    · exact .inr (any_eq_true.mp conjunct)
  obtain equal | ⟨n, inside, equal⟩ := guaranteed
  · rw [eq_of_exprEqual c part literals equal]
    exact holds
  · rw [eq_of_exprEqual c n (literals.mono (Subset.refl _)
      (literals_subset_of_mem_conjuncts inside)) equal]
    exact (holds_iff_conjuncts part).mp holds n inside

namespace Nullable

/-- The row `(1, n)`. -/
def rowOf (n : Byte) : Row Byte := [.data uint8 1, .data uint8 n]

/-- The predicate `a op n`. -/
def comparedTo (op : CmpOp) (n : Byte) : Expr Byte :=
  .cmp op (.ident "a") (.literal (.data uint8 n))

/-- The predicate `a BETWEEN 7 AND 9`. -/
def sevenToNine : Expr Byte :=
  .between false (.ident "a") (.literal (.data uint8 7)) (.literal (.data uint8 9))

theorem regular_sevenToNine : Regular uint8Fns table (rowOf 7) sevenToNine (comparedTo .gt 5) where
  query_folded := rfl
  part_folded := rfl
  query_plain := by
    intro c member
    rw [mem_singleton.mp member]
    refine ⟨?_, ?_⟩
    · intro operand inside v constant
      obtain rfl | rfl := mem_pair.mp inside
      · exact congrArg Expr.literal (Option.some.inj constant)
      · exact congrArg Expr.literal (Option.some.inj constant)
    · intro op v r x shape
      cases shape
  part_plain := by
    intro n member
    rw [mem_singleton.mp member]
    exact .ident_literal
  part_evaluates := by
    intro n member
    cases mem_singleton.mp member
    exact ⟨.bool true, rfl, nofun⟩
  literals := by
    intro v left w right equal
    rcases mem_pair.mp left with rfl | rfl <;> (cases mem_singleton.mp right; cases equal)
  order := by
    intro c member n needed side v w x compares compares' evaluated
    cases mem_singleton.mp member
    cases mem_singleton.mp needed
    obtain ⟨rfl, sources⟩ := compares
    have here : eval uint8Fns table (rowOf 7) (.ident "a") = .ok (.data uint8 7) := rfl
    rw [here] at evaluated
    cases evaluated
    obtain ⟨-, constant⟩ | ⟨wrong, -⟩ := compares'
    · cases constant
      obtain first | second := sources
      · cases first
        exact ⟨.inl rfl, rfl⟩
      · cases second
        exact ⟨.inl rfl, rfl⟩
    · cases wrong
  ends := by
    intro cs shape n needed ord r r' found found'
    have single : cs = [sevenToNine] := by
      obtain rfl | ⟨c, member, rfl⟩ := shape
      · rfl
      · rw [mem_singleton.mp member]
    have queryRanges : [sevenToNine].foldl (addConjunct uint8Fns table) ∅ =
        (∅ : Ranges Byte).insert 1 (.between (.data uint8 7) (.data uint8 9)) := rfl
    have needRanges : addConjunct uint8Fns table ∅ (comparedTo .gt 5) =
        (∅ : Ranges Byte).insert 1 { low := some (.data uint8 5), unboundedHigh := true } := rfl
    rw [single, queryRanges] at found
    rw [mem_singleton.mp needed, needRanges] at found'
    obtain ⟨rfl, rfl⟩ := AList.eq_of_lookup_insert_empty found
    obtain ⟨-, rfl⟩ := AList.eq_of_lookup_insert_empty found'
    refine ⟨?_, ?_⟩
    · rintro v w ⟨⟩ ⟨⟩ equal
      cases equal
    · rintro v w - bounded
      cases bounded
  pinned := pinnedByEquality_single sevenToNine
  compared := by
    intro c member sarg
    cases mem_singleton.mp member
    cases sarg
  dropped := by
    intro c member implies
    have refused : impliesPredicate uint8Fns none (some sevenToNine) (comparedTo .gt 5) = false :=
      rfl
    rw [mem_singleton.mp member, refused] at implies
    cases implies

end Nullable

end NextSQL.Sql
