import NextSQL.Sql.Key
import NextSQL.Sql.Range

/-!
# Index scans

A predicate is answered through the primary key or an index by a scan between
two key bounds and a residual filter. The bounds come from the ranges the
predicate puts on the key columns, or from the first conjunct that compares the
indexed expression or JSON path with a constant. The residual is the conjuncts
that are not taken to be covered by the bounds.
-/

namespace NextSQL.Sql

/-- One part of an index key. The part of an expression also names a column,
the first one the expression uses. -/
structure KeyPart (D : Type) where
  column : ℕ
  expr : Option (Expr D) := none
  exprType : Typ := ⟨.invalid, 0, 0⟩

/-- An index. The JSON path, if there is one, is applied to the first part. -/
structure Index (D : Type) where
  keys : List (KeyPart D)
  path : List String := []
  unique : Bool := false

/-- How the rows of a table are reached: by primary key or through an index. -/
inductive AccessPath (D : Type) where
  | pk
  | index (idx : Index D)

structure IndexScan (D : Type) where
  pk : Bool
  unique : Bool
  /-- How many parts the key has. -/
  width : ℕ
  low : List (Value D)
  high : List (Value D)
  lowIncl : Bool
  highIncl : Bool
  residual : Option (Expr D)

variable {D : Type} [Ord D]

/-! ## Building the scan -/

def coerceBound (fns : Fns D) (v : Value D) (tab : Table) (ord : ℕ) :
    Except Nerr (Value D) :=
  match tab.columns[ord]? with
  | none => .ok v
  | some column => fns.coerce v column.typ

/-- The constant a range pins its column to. -/
def ColRange.pinned (r : ColRange D) : Option (Value D) :=
  if r.eq then r.low else none

/-- The columns after the first that are pinned to a constant, up to the first
one that is not. -/
def pinnedRun (fns : Fns D) (tab : Table) (ranges : Ranges D) :
    List ℕ → List (ℕ × Value D)
  | [] => []
  | ord :: rest =>
    match (ranges.lookup ord).bind ColRange.pinned with
    | none => []
    | some v =>
      match coerceBound fns v tab ord with
      | .error _ => []
      | .ok cv => (ord, cv) :: pinnedRun fns tab ranges rest

/-- The bounds of a scan, before the residual is known. -/
structure ScanBounds (D : Type) where
  low : List (Value D) := []
  high : List (Value D) := []
  lowIncl : Bool := true
  highIncl : Bool := true

/-- The bounds of a range that does not pin its key part, each converted. -/
def rangeBounds (convert : Value D → Except Nerr (Value D)) (r : ColRange D) :
    Except Nerr (ScanBounds D) := do
  let lower : ScanBounds D ←
    match r.low with
    | some v =>
      if r.unboundedLow then pure {}
      else do
        let cv ← convert v
        pure { low := [cv], lowIncl := r.lowIncl }
    | none => pure {}
  match r.high with
  | some v =>
    if r.unboundedHigh then return lower
    else do
      let cv ← convert v
      return { lower with high := [cv], highIncl := r.highIncl }
  | none => return lower

/-- Whether a conjunct is left out of the residual: it only speaks of a used column. -/
def conjunctCovered (fns : Fns D) (tab : Table) (used : List ℕ) : Expr D → Bool
  | .between _ (.ident name) _ _ =>
    match tab.colIndex name with
    | some ord => used.contains ord
    | none => false
  | .isNull _ (.ident name) =>
    match tab.colIndex name with
    | some ord => used.contains ord
    | none => false
  | e => (sargableColumn fns tab e).any used.contains

def columnType (tab : Table) (ord : ℕ) : Typ :=
  (tab.columns[ord]?.map Column.typ).getD ⟨.invalid, 0, 0⟩

/-- The bounds on a key that starts with a column, and the columns they use. -/
def columnBounds (fns : Fns D) (tab : Table) (ranges : Ranges D) (first : ℕ)
    (rest : List ℕ) : Option (ScanBounds D × List ℕ) :=
  match ranges.lookup first with
  | none => none
  | some lead =>
    match lead.pinned with
    | some v =>
      match coerceBound fns v tab first with
      | .error _ => none
      | .ok cv =>
        let run := (first, cv) :: pinnedRun fns tab ranges rest
        some ({ low := run.map Prod.snd, high := run.map Prod.snd }, run.map Prod.fst)
    | none =>
      match rangeBounds (coerceBound fns · tab first) lead with
      | .error _ => none
      | .ok b =>
        if lead.isNull then
          let nv := Value.null (columnType tab first)
          some ({ b with low := [nv], high := [nv] }, [first])
        else if b.low.isEmpty && b.high.isEmpty then none
        else some (b, [first])

def indexAlt (fns : Fns D) (tab : Table) (cols : List ℕ) (pk unique : Bool)
    (pred : Option (Expr D)) : Option (IndexScan D) :=
  match cols with
  | [] => none
  | first :: rest =>
    match columnBounds fns tab (extractRanges fns tab pred) first rest with
    | none => none
    | some (b, used) =>
      some
        { pk, unique, width := cols.length
          low := b.low, high := b.high, lowIncl := b.lowIncl, highIncl := b.highIncl
          residual := andAll
            ((conjunctsOf pred).filter fun c => !conjunctCovered fns tab used c) }

/-- A comparison with a literal, with the literal on the right. -/
def exprCmp : Expr D → Option (CmpOp × Expr D × Value D)
  | .cmp .ne _ _ => none
  | .cmp op l (.literal v) => some (op, l, v)
  | .cmp op (.literal v) r => some (flipOp op, r, v)
  | _ => none

/-- The range one conjunct puts on an indexed expression. -/
def oneExprRange (fns : Fns D) (expr : Expr D) (e : Expr D) : Option (ColRange D) :=
  match e with
  | .cmp _ _ _ =>
    match exprCmp e with
    | some (op, side, v) =>
      if exprEqual side expr then ColRange.unbounded.compared v op else none
    | none => none
  | .between false tested low high =>
    if exprEqual tested expr then
      match constValue fns low, constValue fns high with
      | some lo, some hi => some (ColRange.between lo hi)
      | _, _ => none
    else none
  | .isNull false tested => if exprEqual tested expr then some ColRange.null else none
  | _ => none

def pathExprMatch (tab : Table) (ord : ℕ) (path : List String) : Expr D → Bool
  | .path (name :: parts) => tab.colIndex name == some ord && parts == path && !parts.isEmpty
  | _ => false

def sargablePath (fns : Fns D) (tab : Table) (ord : ℕ) (path : List String) (op : CmpOp)
    (l r : Expr D) : Option (Value D × CmpOp) :=
  match pathExprMatch tab ord path l, constValue fns r with
  | true, some v => some (v, op)
  | _, _ =>
    match pathExprMatch tab ord path r, constValue fns l with
    | true, some v => some (v, flipOp op)
    | _, _ => none

/-- The range one conjunct puts on an indexed JSON path. -/
def onePathRange (fns : Fns D) (tab : Table) (ord : ℕ) (path : List String) :
    Expr D → Option (ColRange D)
  | .cmp op l r =>
    match sargablePath fns tab ord path op l r with
    | some (v, op') => ColRange.unbounded.compared v op'
    | none => none
  | .between false tested low high =>
    if pathExprMatch tab ord path tested then
      match constValue fns low, constValue fns high with
      | some lo, some hi => some (ColRange.between lo hi)
      | _, _ => none
    else none
  | .isNull false tested =>
    if pathExprMatch tab ord path tested then some ColRange.null else none
  | _ => none

/-- The first conjunct that puts a range on the key part, with that range. -/
def matchRange (range : Expr D → Option (ColRange D)) :
    List (Expr D) → Option (ColRange D × Expr D)
  | [] => none
  | c :: rest =>
    match range c with
    | some r => some (r, c)
    | none => matchRange range rest

/-- The conjuncts that do not print like the given one. -/
def dropConjunct (fns : Fns D) (cs : List (Expr D)) (drop : Expr D) : List (Expr D) :=
  cs.filter fun c => fns.formatExpr c != fns.formatExpr drop

def keyType (tab : Table) (idx : Index D) (i : ℕ) : Typ :=
  match idx.keys[i]? with
  | none => ⟨.invalid, 0, 0⟩
  | some part =>
    if part.expr.isSome && part.exprType.kind != .invalid then part.exprType
    else if i = 0 && !idx.path.isEmpty then ⟨.json, 0, 0⟩
    else columnType tab part.column

/-- The parts after the first of an expression index that are pinned to a
constant, and the conjuncts of the expressions among them. -/
def pinnedParts (fns : Fns D) (tab : Table) (idx : Index D) (pred : Option (Expr D)) :
    ℕ → List (KeyPart D) → List (Value D) × List (Expr D)
  | _, [] => ([], [])
  | i, part :: rest =>
    match part.expr with
    | some expr =>
      match matchRange (oneExprRange fns expr) (conjunctsOf pred) with
      | none => ([], [])
      | some (r, c) =>
        match r.pinned with
        | none => ([], [])
        | some v =>
          match fns.coerce v (keyType tab idx i) with
          | .error _ => ([], [])
          | .ok cv =>
            let tail := pinnedParts fns tab idx pred (i + 1) rest
            (cv :: tail.1, c :: tail.2)
    | none =>
      match ((extractRanges fns tab pred).lookup part.column).bind ColRange.pinned with
      | none => ([], [])
      | some v =>
        match coerceBound fns v tab part.column with
        | .error _ => ([], [])
        | .ok cv =>
          let tail := pinnedParts fns tab idx pred (i + 1) rest
          (cv :: tail.1, tail.2)

/-- The bounds one range puts on a key part, with the values that follow it
when the range pins the part. -/
def partBounds (convert : Value D → Except Nerr (Value D)) (null : Value D) (lead : ColRange D)
    (rest : List (Value D)) : Option (ScanBounds D) :=
  match lead.pinned with
  | some v =>
    match convert v with
    | .error _ => none
    | .ok cv => some { low := cv :: rest, high := cv :: rest }
  | none =>
    if lead.isNull then some { low := [null], high := [null] }
    else
      match rangeBounds convert lead with
      | .error _ => none
      | .ok b => if b.low.isEmpty && b.high.isEmpty then none else some b

def exprIndexAlt (fns : Fns D) (tab : Table) (idx : Index D) (lead : Expr D)
    (pred : Option (Expr D)) : Option (IndexScan D) :=
  match matchRange (oneExprRange fns lead) (conjunctsOf pred) with
  | none => none
  | some (r, c) =>
    let tail :=
      if r.pinned.isSome then pinnedParts fns tab idx pred 1 idx.keys.tail else ([], [])
    match partBounds (fns.coerce · (keyType tab idx 0)) (.null (keyType tab idx 0)) r tail.1 with
    | none => none
    | some b =>
      some
        { pk := false, unique := idx.unique, width := idx.keys.length
          low := b.low, high := b.high, lowIncl := b.lowIncl, highIncl := b.highIncl
          residual := andAll ((c :: tail.2).foldl (dropConjunct fns) (conjunctsOf pred)) }

def pathIndexAlt (fns : Fns D) (tab : Table) (idx : Index D) (pred : Option (Expr D)) :
    Option (IndexScan D) :=
  match idx.keys with
  | [part] =>
    match matchRange (onePathRange fns tab part.column idx.path) (conjunctsOf pred) with
    | none => none
    | some (r, c) =>
      match partBounds .ok (.null ⟨.json, 0, 0⟩) r [] with
      | none => none
      | some b =>
        some
          { pk := false, unique := idx.unique, width := 1
            low := b.low, high := b.high, lowIncl := b.lowIncl, highIncl := b.highIncl
            residual := andAll (dropConjunct fns (conjunctsOf pred) c) }
  | _ => none

/-- The scan the optimizer builds for a way to reach the rows. -/
def AccessPath.alternative (fns : Fns D) (tab : Table) (pred : Option (Expr D)) :
    AccessPath D → Option (IndexScan D)
  | .pk => indexAlt fns tab tab.pk true true pred
  | .index idx =>
    match idx.keys with
    | [] => none
    | part :: _ =>
      match part.expr with
      | some lead => exprIndexAlt fns tab idx lead pred
      | none =>
        if idx.path.isEmpty then
          indexAlt fns tab (idx.keys.map KeyPart.column) false idx.unique pred
        else pathIndexAlt fns tab idx pred

end NextSQL.Sql
