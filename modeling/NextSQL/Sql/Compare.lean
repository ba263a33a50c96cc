import NextSQL.Lib.Result
import NextSQL.Sql.Range
import NextSQL.Sql.Key

/-!
# What comparisons mean

`cmp` orders the values of a family; what it says of two pairs decides what it
says of the outer one (`Value.cmp_composes`). A comparison with a constant is
true when the tested value is ordered against the constant as the operator asks,
after the constant has been converted to the type of the value
(`evalCmp_eq_true_iff`, `evalBetween_eq_true_iff`).
-/

namespace NextSQL.Sql

/-- How the order of `a` and `b` and that of `b` and `c` limit that of `a` and `c`. -/
def Composes (first second both : Ordering) : Prop :=
  (first = .eq → both = second) ∧ (second = .eq → both = first) ∧ (first = second → both = first)

instance (first second both : Ordering) : Decidable (Composes first second both) :=
  inferInstanceAs (Decidable (_ ∧ _ ∧ _))

theorem compare_composes {α : Type} [Ord α] [Std.TransOrd α] (a b c : α) :
    Composes (compare a b) (compare b c) (compare a c) := by
  refine ⟨Std.TransCmp.congr_left, fun same => (Std.TransCmp.congr_right same).symm,
    fun same => ?_⟩
  cases first : compare a b with
  | lt => exact Std.TransCmp.lt_trans first (same ▸ first)
  | eq => exact (Std.TransCmp.congr_left first).trans (same ▸ first)
  | gt => exact Std.TransCmp.gt_trans first (same ▸ first)

namespace Value

variable {D : Type} [Ord D] {a b : Value D} {o : Ordering}

/-- The comparisons that succeed. -/
theorem cmp_eq_ok_iff : a.cmp b = .ok o ↔ (∃ p q, a = bool p ∧ b = bool q ∧ compare p q = o) ∨
        ∃ s d t e, a = data s d ∧ b = data t e ∧ s.kind.family = t.kind.family ∧
          s.kind.ordered ∧ compare d e = o := by
  constructor
  · intro compared
    rcases a with _ | p | ⟨s, d⟩ <;> rcases b with _ | q | ⟨t, e⟩ <;> try cases compared
    · exact .inl ⟨p, q, rfl, rfl, rfl⟩
    rw [cmp] at compared
    split at compared
    · cases compared
    split at compared
    · cases compared
    rename_i sameFamily ordered
    cases compared
    refine .inr ⟨s, d, t, e, rfl, rfl, ?_, ?_, rfl⟩
    · simpa [Kind.comparable] using sameFamily
    · simpa using ordered
  · rintro (⟨p, q, rfl, rfl, rfl⟩ | ⟨s, d, t, e, rfl, rfl, sameFamily, ordered, rfl⟩)
    · rfl
    · simp [cmp, Kind.comparable, sameFamily, ordered]

theorem cmp_composes [Std.TransOrd D] {c : Value D} {first second : Ordering}
    (ab : a.cmp b = .ok first) (bc : b.cmp c = .ok second) :
    ∃ both, a.cmp c = .ok both ∧ Composes first second both := by
  rcases cmp_eq_ok_iff.mp ab with
    ⟨p, q, rfl, rfl, rfl⟩ | ⟨s, d, t, e, rfl, rfl, sameFamily, ordered, rfl⟩
  · obtain ⟨q', r, same, rfl, rfl⟩ | ⟨_, _, _, _, wrong, -⟩ := cmp_eq_ok_iff.mp bc
    · cases same
      exact ⟨_, rfl, compare_composes p q r⟩
    · cases wrong
  · obtain ⟨_, _, wrong, -⟩ | ⟨t', e', u, f, same, rfl, sameFamily', -, rfl⟩ := cmp_eq_ok_iff.mp bc
    · cases wrong
    · cases same
      exact ⟨_, cmp_eq_ok_iff.mpr (.inr ⟨s, d, u, f, rfl, rfl, sameFamily.trans sameFamily', ordered,
        rfl⟩), compare_composes d e f⟩

theorem ordered_of_family {a b : Kind} (same : a.family = b.family) (ordered : a.ordered) :
    b.ordered := by
  cases b <;> first | rfl | (cases a <;> first | exact absurd same (by decide) | cases ordered)

theorem cmp_swap [Std.OrientedOrd D] (ab : a.cmp b = .ok o) : b.cmp a = .ok o.swap := by
  rcases cmp_eq_ok_iff.mp ab with
    ⟨p, q, rfl, rfl, rfl⟩ | ⟨s, d, t, e, rfl, rfl, sameFamily, ordered, rfl⟩
  · exact congrArg Except.ok Std.OrientedCmp.eq_swap
  · exact cmp_eq_ok_iff.mpr (.inr ⟨t, e, s, d, rfl, rfl, sameFamily.symm,
      ordered_of_family sameFamily ordered, Std.OrientedCmp.eq_swap⟩)

theorem isNull_of_cmp (ab : a.cmp b = .ok o) : a.isNull = false ∧ b.isNull = false := by
  obtain ⟨p, q, rfl, rfl, -⟩ | ⟨s, d, t, e, rfl, rfl, -⟩ := cmp_eq_ok_iff.mp ab
  · exact ⟨rfl, rfl⟩
  · exact ⟨rfl, rfl⟩

theorem cmp_zero [Inhabited D] (a : Value D) (o : Ordering) : a.cmp zero ≠ .ok o := by
  intro compared
  obtain ⟨p, q, -, wrong, -⟩ | ⟨s, d, t, e, -, same, sameFamily, ordered, -⟩ := cmp_eq_ok_iff.mp compared
  · cases wrong
  · cases same
    exact absurd (ordered_of_family sameFamily ordered) (by decide)

end Value

variable {D : Type}

/-! ## Comparisons with a converted constant -/

/-- The constant `v` can be brought to the type of the value it is compared with. -/
def Converts (fns : Fns D) (x v : Value D) : Prop :=
  v.kind = x.kind ∨ ∃ v', fns.coerce v x.typ = .ok v'

theorem CmpOp.test_flip (op : CmpOp) (o : Ordering) : (flipOp op).test o.swap = op.test o := by
  cases op <;> cases o <;> rfl

variable [Ord D] {x : Value D} {op : CmpOp} {v : Value D}

/-- The truth value of a comparison that is made. -/
theorem test_cmp_eq_true_iff :
    (do return Value.bool (op.test (← x.cmp v)) : Except Nerr (Value D)) = .ok (.bool true) ↔
      ∃ o, x.cmp v = .ok o ∧ op.test o := by
  rw [Except.bind_eq_ok_iff]
  constructor
  · rintro ⟨o, compared, result⟩
    cases passed : op.test o with
    | true => exact ⟨o, compared, passed⟩
    | false =>
      rw [passed] at result
      cases result
  · rintro ⟨o, compared, passed⟩
    exact ⟨o, compared, by rw [passed]; rfl⟩

variable {fns : Fns D}

theorem evalBetween_eq_true_iff {low high : Value D} :
    evalBetween fns false x low high = .ok (.bool true) ↔
      low.isNull = false ∧ high.isNull = false ∧ ∃ c1 c2, x.cmp (betweenBound fns x low) = .ok c1 ∧
          x.cmp (betweenBound fns x high) = .ok c2 ∧ c1 ≠ .lt ∧ c2 ≠ .gt := by
  unfold evalBetween
  cases lowNull : low.isNull with
  | true => simp
  | false =>
    cases highNull : high.isNull with
    | true => simp
    | false =>
      cases xNull : x.isNull with
      | true =>
        constructor
        · rintro ⟨⟩
        rintro ⟨-, -, c1, -, compared, -⟩
        have present := (Value.isNull_of_cmp compared).1
        rw [xNull] at present
        cases present
      | false =>
        simp only [Bool.or_self, Bool.false_eq_true, if_false, Except.bind_eq_ok_iff, true_and]
        constructor
        · rintro ⟨c1, first, c2, second, result⟩
          refine ⟨c1, c2, first, second, ?_⟩
          cases c1 <;> cases c2 <;> first | exact ⟨by decide, by decide⟩ | cases result
        · rintro ⟨c1, c2, first, second, above, below⟩
          refine ⟨c1, first, c2, second, ?_⟩
          cases c1 <;> cases c2 <;> first | rfl | exact absurd rfl above | exact absurd rfl below

/-- Within a kind, the other order also fails where the first one does. -/
theorem Value.cmp_swap_of_kind [Std.OrientedOrd D] {l r : Value D} (same : l.kind = r.kind) :
    r.cmp l = (l.cmp r).map .swap := by
  cases compared : l.cmp r with
  | ok o => exact cmp_swap compared
  | error err =>
    rcases l with s | a | ⟨s, d⟩ <;> rcases r with t | b | ⟨t, c⟩ <;> try exact compared
    · cases compared
    change s.kind = t.kind at same
    simp only [cmp, Kind.comparable, same, decide_true, Bool.not_true, Bool.false_eq_true,
      if_false] at compared ⊢
    split at compared
    · rename_i unordered
      rwa [if_pos unordered]
    · cases compared

variable [Inhabited D]

/-- A comparison is true when the right operand is present and converts, and the
order of the two is what the operator asks for. -/
theorem evalCmp_eq_true_iff :
    evalCmp fns op x v = .ok (.bool true) ↔ v.isNull = false ∧ Converts fns x v ∧
        ∃ o, x.cmp (betweenBound fns x v) = .ok o ∧ op.test o := by
  unfold evalCmp betweenBound Converts
  cases vNull : v.isNull with
  | true => simp
  | false =>
    cases xNull : x.isNull with
    | true =>
      constructor
      · rintro ⟨⟩
      rintro ⟨-, -, o, compared, -⟩
      have present := (Value.isNull_of_cmp compared).1
      rw [xNull] at present
      cases present
    | false =>
      by_cases sameKind : x.kind = v.kind
      · simp only [Bool.or_self, Bool.false_eq_true, if_false, sameKind, if_true, true_or, true_and]
        exact test_cmp_eq_true_iff
      have otherKind : ¬ v.kind = x.kind := fun same => sameKind same.symm
      simp only [Bool.or_self, Bool.false_eq_true, if_false, if_neg sameKind,
        otherKind, false_or, true_and]
      cases converted : fns.coerce v x.typ with
      | ok v' =>
        simp only [Except.ok.injEq, exists_eq', true_and]
        exact test_cmp_eq_true_iff
      | error err =>
        simp only [reduceCtorEq, exists_false, false_and, iff_false]
        split
        · rw [test_cmp_eq_true_iff]
          rintro ⟨o, compared, -⟩
          exact Value.cmp_zero _ o compared
        · rintro ⟨⟩

/-! ## Mirrored comparisons -/

/-- Values of `INT8` that are not negative, and values of `UINT8`. -/
def int8Fns : Fns Byte :=
  { uint8Fns with
    coerce := fun v t =>
      match v, t.kind with
      | .data _ d, .uint8 => .ok (.data t d)
      | .data _ d, .int8 =>
        if d ≤ 127 then .ok (.data t d)
        else .error ⟨.invalidArgument, "types.NewInt", "INT8 out of range"⟩
      | _, _ => .error ⟨.invalidArgument, "types.Coerce", "cannot coerce"⟩ }

end NextSQL.Sql
