import NextSQL.Lib.AssocMap
import NextSQL.Sql.Access

/-!
# Partial indexes

An index with a predicate holds the rows the predicate is true on. It may answer
a query whose predicate implies it. The implication is decided by comparing
conjuncts node by node, by comparing the ranges both predicates put on a column,
and by comparing bounds on equal expressions. The conjuncts the partial
predicate is taken to guarantee are then left out of the residual.
-/

namespace NextSQL.Sql

variable {D : Type} [Ord D]

/-- A comparison of two values is known and passes the test. -/
def cmpPasses (a b : Value D) (test : Ordering → Bool) : Bool :=
  match a.cmp b with
  | .ok o => test o
  | .error _ => false

/-- The lower bound of a range reaches as far as the needed one. -/
def lowImplies (query need : ColRange D) : Bool :=
  need.unboundedLow ||
    match query.unboundedLow, query.low, need.low with
    | false, some v, some w =>
      cmpPasses v w fun o =>
        o != .lt && !(o == .eq && !query.lowIncl && need.lowIncl)
    | _, _, _ => false

def highImplies (query need : ColRange D) : Bool :=
  need.unboundedHigh ||
    match query.unboundedHigh, query.high, need.high with
    | false, some v, some w =>
      cmpPasses v w fun o =>
        o != .gt && !(o == .eq && !query.highIncl && need.highIncl)
    | _, _, _ => false

def rangeImplies (query need : ColRange D) : Bool :=
  match need.pinned with
  | some w =>
    match query.pinned with
    | some v => valuesEqual v w
    | none => false
  | none =>
    if need.isNull then query.isNull
    else if query.isNull then false
    else lowImplies query need && highImplies query need

def rangeMapImplies (query need : Ranges D) : Bool :=
  !need.entries.isEmpty && need.entries.all fun e =>
      match query.lookup e.1 with
      | some r => rangeImplies r e.2
      | none => false

def boundGE (qop : CmpOp) (qv nv : Value D) (incl : Bool) : Bool :=
  cmpPasses qv nv fun o =>
    match qop with
    | .gt => o == .gt || (o == .eq && !incl)
    | .ge | .eq => o == .gt || (o == .eq && incl)
    | _ => false

def boundLE (qop : CmpOp) (qv nv : Value D) (incl : Bool) : Bool :=
  cmpPasses qv nv fun o =>
    match qop with
    | .lt => o == .lt || (o == .eq && !incl)
    | .le | .eq => o == .lt || (o == .eq && incl)
    | _ => false

def exprRangeImplies (query need : Expr D) : Bool :=
  match exprCmp query, exprCmp need with
  | some (qop, qe, qv), some (nop, ne, nv) =>
    exprEqual qe ne && (if nop = .eq then decide (qop = .eq) && valuesEqual qv nv
      else if qop = .eq then cmpPasses qv nv nop.test
      else
        match nop with
        | .gt => boundGE qop qv nv false
        | .ge => boundGE qop qv nv true
        | .lt => boundLE qop qv nv false
        | .le => boundLE qop qv nv true
        | _ => false)
  | _, _ => false

/-- The ranges a predicate puts on the columns of a table, if the table is known. -/
def rangesIn (fns : Fns D) (tab : Option Table) (pred : Option (Expr D)) : Ranges D :=
  match tab with
  | none => ∅
  | some t => extractRanges fns t pred

/-- Whether an infix operator applies a column of the table to a constant. -/
def sargableIdentCmp (fns : Fns D) (tab : Option Table) (e : Expr D) : Bool :=
  match tab with
  | none => false
  | some t => (sargableColumn fns t e).isSome

/-- The operand that stands beside a literal. -/
def cmpSide (e : Expr D) : Option (Expr D) :=
  match e.operands with
  | some (l, .literal _) => some l
  | some (.literal _, r) => some r
  | _ => none

/-- What a conjunct that is no conjunction itself implies. -/
def atomImplies (fns : Fns D) (tab : Option Table) (query need : Expr D) : Bool :=
  let byRange :=
    rangeMapImplies (rangesIn fns tab (some query)) (rangesIn fns tab (some need)) ||
      exprRangeImplies query need
  match need with
  | .isNull true tested =>
    if sargableIdentCmp fns tab query then
      match cmpSide query with
      | some side => exprEqual side tested
      | none => false
    else byRange
  | _ => byRange

def conjunctImplies (fns : Fns D) (tab : Option Table) (need : Expr D) : Expr D → Bool
  | .and l r =>
    exprEqual (.and l r) need || conjunctImplies fns tab need l ||
      conjunctImplies fns tab need r
  | query => exprEqual query need || atomImplies fns tab query need

def impliesExpr (fns : Fns D) (tab : Option Table) (query : List (Expr D)) : Expr D → Bool
  | .and l r => impliesExpr fns tab query l && impliesExpr fns tab query r
  | .or l r => impliesExpr fns tab query l || impliesExpr fns tab query r
  | need =>
    (query.any fun q => conjunctImplies fns tab need q) ||
      rangeMapImplies (rangesIn fns tab (andAll query)) (rangesIn fns tab (some need))

/-- Whether the optimizer takes a query predicate to imply the predicate of an index. -/
def impliesPredicate (fns : Fns D) (tab : Option Table) (query : Option (Expr D))
    (part : Expr D) : Bool :=
  let need := foldExpr fns part
  if predIsTrue need then true
  else
    match query with
    | none => false
    | some q =>
      let folded := foldExpr fns q
      if predIsFalse folded then true
      else exprEqual folded need || impliesExpr fns tab (conjuncts folded) need

/-- Whether a conjunct is left out of the residual of a partial index. -/
def impliedConjunct (fns : Fns D) (part c : Expr D) : Bool :=
  impliesPredicate fns none (some c) part || exprEqual c part ||
    (conjuncts part).any fun p => exprEqual c p

def dropImplied (fns : Fns D) (part : Expr D) (cs : List (Expr D)) : List (Expr D) :=
  cs.filter fun c => !impliedConjunct fns part c

end NextSQL.Sql
