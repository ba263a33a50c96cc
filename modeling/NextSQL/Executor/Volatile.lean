import Mathlib.Data.List.Basic

/-!
# Queries whose value changes without a write

`NOW()`, `UUID()` and `AI()` give another value at every evaluation. Before a
result is kept, `resultCacheable` walks the query and looks for such a call. The
walk does not go into the elements of `ARRAY`, `STRUCT` and `MAP`, the base of a
field access, the operands of a subscript, the argument of `UNNEST` or the query
of a second `NEAREST`: a call there is not seen. In queries that have none of
these forms the walk finds every call (`not_callsVolatile_of_cacheable`).

Names, literals and operators do not matter here and are left out.
-/

namespace NextSQL.Executor

mutual
/-- An expression, as far as the walk looks at it. A part that may be absent is a list
of at most one element. -/
inductive QExpr where
  /-- A literal, a column, a path, a parameter or a vector. -/
  | leaf
  | unary (right : QExpr)
  | binary (left right : QExpr)
  | between (expr low high : QExpr)
  | isNull (expr : QExpr)
  | call (name : String) (args : List QExpr)
  | window (fn : QExpr) (partition order frame : List QExpr)
  | case (operand whens thens otherwise : List QExpr)
  | scalarSubquery (query : Query)
  | inSubquery (expr : QExpr) (query : Query)
  | existsSubquery (query : Query)
  | arrayCtor (elems : List QExpr)
  | structCtor (elems : List QExpr)
  | mapCtor (keys vals : List QExpr)
  | fieldAccess (base : QExpr)
  | subscript (coll index : QExpr)

inductive Query where
  /-- The select list, the grouping and ordering keys, the join conditions, the
  filters and search queries; the query in `FROM`; the second `NEAREST` query; the
  argument of `UNNEST`. -/
  | select (exprs : List QExpr) (fromQuery : List Query) (nearest2 unnest : List QExpr)
  | setOperation (left right : Query)
  | withCTEs (ctes : List Query) (query : Query)
  /-- Any other statement. -/
  | other
end

def isVolatileName (name : String) : Bool := name = "uuid" || name = "now" || name = "ai"

/-! ## The walk -/

mutual
def exprIsVolatile : QExpr → Bool
  | .call name args => isVolatileName name || anyIsVolatile args
  | .window fn partition order frame =>
    exprIsVolatile fn || anyIsVolatile partition || anyIsVolatile order || anyIsVolatile frame
  | .unary right => exprIsVolatile right
  | .binary left right => exprIsVolatile left || exprIsVolatile right
  | .between expr low high => exprIsVolatile expr || exprIsVolatile low || exprIsVolatile high
  | .isNull expr => exprIsVolatile expr
  | .case operand whens thens otherwise =>
    anyIsVolatile operand || anyIsVolatile otherwise || anyIsVolatile whens || anyIsVolatile thens
  | .scalarSubquery query => !resultCacheable query
  | .inSubquery expr query => exprIsVolatile expr || !resultCacheable query
  | .existsSubquery query => !resultCacheable query
  | _ => false

def anyIsVolatile : List QExpr → Bool
  | [] => false
  | e :: rest => exprIsVolatile e || anyIsVolatile rest

def resultCacheable : Query → Bool
  | .select exprs fromQuery _ _ => !anyIsVolatile exprs && allCacheable fromQuery
  | .setOperation left right => resultCacheable left && resultCacheable right
  | .withCTEs ctes query => allCacheable ctes && resultCacheable query
  | .other => false

def allCacheable : List Query → Bool
  | [] => true
  | q :: rest => resultCacheable q && allCacheable rest
end

/-! ## The calls there are -/

mutual
/-- There is a volatile call anywhere in the expression. -/
def QExpr.callsVolatile : QExpr → Bool
  | .leaf => false
  | .unary right => right.callsVolatile
  | .binary left right => left.callsVolatile || right.callsVolatile
  | .between expr low high => expr.callsVolatile || low.callsVolatile || high.callsVolatile
  | .isNull expr => expr.callsVolatile
  | .call name args => isVolatileName name || anyCallsVolatile args
  | .window fn partition order frame =>
    fn.callsVolatile || anyCallsVolatile partition || anyCallsVolatile order ||
      anyCallsVolatile frame
  | .case operand whens thens otherwise =>
    anyCallsVolatile operand || anyCallsVolatile whens || anyCallsVolatile thens ||
      anyCallsVolatile otherwise
  | .scalarSubquery query => query.callsVolatile
  | .inSubquery expr query => expr.callsVolatile || query.callsVolatile
  | .existsSubquery query => query.callsVolatile
  | .arrayCtor elems => anyCallsVolatile elems
  | .structCtor elems => anyCallsVolatile elems
  | .mapCtor keys vals => anyCallsVolatile keys || anyCallsVolatile vals
  | .fieldAccess base => base.callsVolatile
  | .subscript coll index => coll.callsVolatile || index.callsVolatile

def anyCallsVolatile : List QExpr → Bool
  | [] => false
  | e :: rest => e.callsVolatile || anyCallsVolatile rest

def Query.callsVolatile : Query → Bool
  | .select exprs fromQuery nearest2 unnest =>
    anyCallsVolatile exprs || anyQueryCallsVolatile fromQuery || anyCallsVolatile nearest2 ||
      anyCallsVolatile unnest
  | .setOperation left right => left.callsVolatile || right.callsVolatile
  | .withCTEs ctes query => anyQueryCallsVolatile ctes || query.callsVolatile
  | .other => false

def anyQueryCallsVolatile : List Query → Bool
  | [] => false
  | q :: rest => q.callsVolatile || anyQueryCallsVolatile rest
end

/-! ## The forms the walk goes into -/

mutual
/-- There is none of the forms that the walk does not go into. -/
def QExpr.walked : QExpr → Bool
  | .leaf => true
  | .unary right => right.walked
  | .binary left right => left.walked && right.walked
  | .between expr low high => expr.walked && low.walked && high.walked
  | .isNull expr => expr.walked
  | .call _ args => allWalked args
  | .window fn partition order frame =>
    fn.walked && allWalked partition && allWalked order && allWalked frame
  | .case operand whens thens otherwise =>
    allWalked operand && allWalked whens && allWalked thens && allWalked otherwise
  | .scalarSubquery query => query.walked
  | .inSubquery expr query => expr.walked && query.walked
  | .existsSubquery query => query.walked
  | .arrayCtor _ | .structCtor _ | .mapCtor _ _ | .fieldAccess _ | .subscript _ _ => false

def allWalked : List QExpr → Bool
  | [] => true
  | e :: rest => e.walked && allWalked rest

def Query.walked : Query → Bool
  | .select exprs fromQuery nearest2 unnest =>
    allWalked exprs && allQueriesWalked fromQuery && nearest2.isEmpty && unnest.isEmpty
  | .setOperation left right => left.walked && right.walked
  | .withCTEs ctes query => allQueriesWalked ctes && query.walked
  | .other => true

def allQueriesWalked : List Query → Bool
  | [] => true
  | q :: rest => q.walked && allQueriesWalked rest
end

/-- A walk over two parts that goes into both finds the calls of both. -/
theorem or_quiet {w w' v v' c c' : Bool} (left : w → v = false → c = false)
    (right : w' → v' = false → c' = false) (walked : (w && w'))
    (quiet : (v || v') = false) : (c || c') = false := by
  rw [Bool.and_eq_true] at walked
  rw [Bool.or_eq_false_iff] at quiet
  rw [left walked.1 quiet.1, right walked.2 quiet.2, Bool.or_self]

theorem and_quiet {w w' k k' c c' : Bool} (left : w → k → c = false)
    (right : w' → k' → c' = false) (walked : (w && w'))
    (quiet : (k && k')) : (c || c') = false := by
  rw [Bool.and_eq_true] at walked quiet
  rw [left walked.1 quiet.1, right walked.2 quiet.2, Bool.or_self]

-- One case for each form; the induction is over expressions, queries and lists of both.
mutual
theorem QExpr.not_callsVolatile : ∀ {e : QExpr}, e.walked → exprIsVolatile e = false →
    e.callsVolatile = false
  | .leaf, _, _ => rfl
  | .unary right, walked, quiet => right.not_callsVolatile walked quiet
  | .binary left right, walked, quiet =>
    or_quiet left.not_callsVolatile right.not_callsVolatile walked quiet
  | .between expr low high, walked, quiet =>
    or_quiet (or_quiet expr.not_callsVolatile low.not_callsVolatile) high.not_callsVolatile walked
      quiet
  | .isNull expr, walked, quiet => expr.not_callsVolatile walked quiet
  | .call name args, walked, quiet => by
    simp only [exprIsVolatile, Bool.or_eq_false_iff] at quiet
    simp only [QExpr.callsVolatile, quiet.1, not_anyCallsVolatile walked quiet.2, Bool.or_self]
  | .window fn partition order frame, walked, quiet =>
    or_quiet (or_quiet (or_quiet fn.not_callsVolatile not_anyCallsVolatile) not_anyCallsVolatile)
      not_anyCallsVolatile walked quiet
  | .case operand whens thens otherwise, walked, quiet => by
    simp only [QExpr.walked, Bool.and_eq_true, exprIsVolatile, Bool.or_eq_false_iff] at walked quiet
    simp only [QExpr.callsVolatile, not_anyCallsVolatile walked.1.1.1 quiet.1.1.1,
      not_anyCallsVolatile walked.1.1.2 quiet.1.2, not_anyCallsVolatile walked.1.2 quiet.2,
      not_anyCallsVolatile walked.2 quiet.1.1.2, Bool.or_self]
  | .scalarSubquery query, walked, quiet =>
    query.not_callsVolatile_of_cacheable walked (Bool.not_eq_eq_eq_not.mp quiet)
  | .inSubquery expr query, walked, quiet =>
    or_quiet expr.not_callsVolatile (fun walked quiet =>
      query.not_callsVolatile_of_cacheable walked (Bool.not_eq_eq_eq_not.mp quiet)) walked quiet
  | .existsSubquery query, walked, quiet =>
    query.not_callsVolatile_of_cacheable walked (Bool.not_eq_eq_eq_not.mp quiet)

theorem not_anyCallsVolatile : ∀ {es : List QExpr}, allWalked es →
    anyIsVolatile es = false → anyCallsVolatile es = false
  | [], _, _ => rfl
  | e :: _, walked, quiet => or_quiet e.not_callsVolatile not_anyCallsVolatile walked quiet

/-- **The walk is right** about a query that has only forms it goes into. -/
theorem Query.not_callsVolatile_of_cacheable : ∀ {q : Query}, q.walked →
    resultCacheable q → q.callsVolatile = false
  | .select exprs fromQuery nearest2 unnest, walked, quiet => by
    simp only [Query.walked, Bool.and_eq_true, resultCacheable, Bool.not_eq_true',
      List.isEmpty_iff] at walked quiet
    obtain ⟨⟨⟨list, inner⟩, rfl⟩, rfl⟩ := walked
    simp only [Query.callsVolatile, not_anyCallsVolatile list quiet.1,
      not_anyQueryCallsVolatile inner quiet.2, anyCallsVolatile, Bool.or_self]
  | .setOperation left right, walked, quiet =>
    and_quiet left.not_callsVolatile_of_cacheable right.not_callsVolatile_of_cacheable walked quiet
  | .withCTEs _ query, walked, quiet =>
    and_quiet not_anyQueryCallsVolatile query.not_callsVolatile_of_cacheable walked quiet

theorem not_anyQueryCallsVolatile : ∀ {qs : List Query}, allQueriesWalked qs →
    allCacheable qs → anyQueryCallsVolatile qs = false
  | [], _, _ => rfl
  | q :: _, walked, quiet =>
    and_quiet q.not_callsVolatile_of_cacheable not_anyQueryCallsVolatile walked quiet
end

end NextSQL.Executor
