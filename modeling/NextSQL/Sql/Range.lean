import Mathlib.Data.List.AList
import NextSQL.Sql.Fold

/-!
# Ranges that a predicate puts on columns

The optimizer reads one range per column off the conjuncts of a predicate. A
conjunct of the form column, operator, constant sets the bounds it speaks of
and leaves the others; `BETWEEN` and `IS NULL` replace the whole range. A later
conjunct overwrites the bounds of an earlier one, the tighter bound or not, and
an equality keeps its mark when a later comparison moves its bound.
-/

namespace NextSQL.Sql

structure ColRange (D : Type) where
  low : Option (Value D) := none
  high : Option (Value D) := none
  lowIncl : Bool := false
  highIncl : Bool := false
  unboundedLow : Bool := false
  unboundedHigh : Bool := false
  isNull : Bool := false
  eq : Bool := false

abbrev Ranges (D : Type) := AList fun _ : ℕ => ColRange D

def flipOp : CmpOp → CmpOp
  | .lt => .gt
  | .gt => .lt
  | .le => .ge
  | .ge => .le
  | op => op

variable {D : Type} [Ord D]

/-- A comparison of a column with a constant, with the column on the left. -/
def sargable (fns : Fns D) (tab : Table) (op : CmpOp) (l r : Expr D) :
    Option (ℕ × Value D × CmpOp) :=
  match l, constValue fns r with
  | .ident name, some v => (tab.colIndex name).map fun ord => (ord, v, op)
  | _, _ =>
    match r, constValue fns l with
    | .ident name, some v => (tab.colIndex name).map fun ord => (ord, v, flipOp op)
    | _, _ => none

/-- The operands of a node with an infix operator. -/
def Expr.operands : Expr D → Option (Expr D × Expr D)
  | .cmp _ l r => some (l, r)
  | .arith _ l r => some (l, r)
  | .and l r => some (l, r)
  | .or l r => some (l, r)
  | _ => none

/-- The column an infix operator, of whatever kind, applies to a constant. -/
def sargableColumn (fns : Fns D) (tab : Table) (e : Expr D) : Option ℕ :=
  e.operands.bind fun lr => (sargable fns tab .eq lr.1 lr.2).map Prod.fst

/-- The range after a comparison with `v`; `<>` sets nothing. -/
def ColRange.compared (cur : ColRange D) (v : Value D) : CmpOp → Option (ColRange D)
  | .eq => some { cur with
      eq := true, low := some v, high := some v, lowIncl := true, highIncl := true,
      unboundedLow := false, unboundedHigh := false }
  | .lt => some { cur with high := some v, highIncl := false, unboundedHigh := false }
  | .le => some { cur with high := some v, highIncl := true, unboundedHigh := false }
  | .gt => some { cur with low := some v, lowIncl := false, unboundedLow := false }
  | .ge => some { cur with low := some v, lowIncl := true, unboundedLow := false }
  | .ne => none

/-- The range of a column that no conjunct has named yet. -/
def ColRange.unbounded : ColRange D := { unboundedLow := true, unboundedHigh := true }

def ColRange.between (low high : Value D) : ColRange D :=
  { low := some low, high := some high, lowIncl := true, highIncl := true }

def ColRange.null : ColRange D := { isNull := true, eq := true }

/-- What one conjunct does to the ranges found so far. -/
def addConjunct (fns : Fns D) (tab : Table) (ranges : Ranges D) : Expr D → Ranges D
  | .cmp op l r =>
    match sargable fns tab op l r with
    | none => ranges
    | some (ord, v, op') =>
      match ((ranges.lookup ord).getD ColRange.unbounded).compared v op' with
      | none => ranges
      | some cur => ranges.insert ord cur
  | .between false (.ident name) low high =>
    match tab.colIndex name, constValue fns low, constValue fns high with
    | some ord, some lo, some hi => ranges.insert ord (ColRange.between lo hi)
    | _, _, _ => ranges
  | .isNull false (.ident name) =>
    match tab.colIndex name with
    | some ord => ranges.insert ord ColRange.null
    | none => ranges
  | _ => ranges

def extractRanges (fns : Fns D) (tab : Table) (pred : Option (Expr D)) : Ranges D :=
  (conjunctsOf pred).foldl (addConjunct fns tab) ∅

end NextSQL.Sql
