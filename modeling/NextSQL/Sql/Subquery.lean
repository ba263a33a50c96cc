import NextSQL.Sql.AccessExact

/-!
# Subqueries in WHERE, evaluated and flattened

A conjunct of a WHERE clause may be `EXISTS`, `NOT EXISTS`, `IN` or `NOT IN` of
a subquery on one table. There are two ways to answer it.

Row by row (`evalConjunct`): the references of the subquery to the outer row are
replaced by its values (`correlateExpr`), what is left is bound to the inner
table and run, and its rows are looked at.

As a join (`flattenSubqueryConjunct`): the conjuncts of the subquery that read
only the inner table filter it, the others become the condition of a semi join or
an anti join of the outer rows with the rows left (`hashMark`). A condition that
equates a column of one side with a column of the other gives the two sides the
key of a hash table.

The two resolve names differently. A name of the row-by-row evaluation is looked
for in the inner table and then in the outer schema. The join rewrites every name
first, the inner ones under the alias of the inner table, and then looks in one
schema made of the outer columns followed by the renamed inner ones.

Subqueries with joins, grouping, limits or windows and those on a common table
expression are never flattened and have no representation here.
-/

namespace NextSQL.Sql

variable {D : Type}

/-- A table under its name, with the positions of the columns that hold no NULL. -/
structure Relation extends Table where
  name : String
  notNull : List ℕ

structure SubSelect (D : Type) where
  table : Relation
  givenAlias : String
  star : Bool
  list : List (Expr D)
  filter : Option (Expr D)

inductive SubConjunct (D : Type) where
  | existsQuery (anti : Bool) (query : SubSelect D)
  | inQuery (negated : Bool) (expr : Expr D) (query : SubSelect D)

def SubConjunct.query : SubConjunct D → SubSelect D
  | existsQuery _ q => q
  | inQuery _ _ q => q

/-- The two tables whose names a correlated predicate may use. The alias of the
outer one matters to the join only. -/
structure Scope where
  inner : Relation
  givenAlias : String
  outer : Relation
  outerAlias : String

def aliasOr (given name : String) : String := if given ≠ "" then given else name

/-- The name the inner table has in the joined schema. -/
def Scope.innerAlias (sc : Scope) : String := aliasOr sc.givenAlias sc.inner.name

def SubSelect.scope (q : SubSelect D) (outer : Relation) (outerAlias : String) : Scope :=
  ⟨q.table, q.givenAlias, outer, outerAlias⟩

/-! ## Names -/

def qualify (label col : String) : String := label ++ "." ++ col

/-- A name cut at its last dot. -/
def splitQual (name : String) : Option (String × String) :=
  let back := name.toList.reverse
  if '.' ∈ back then
    some (.ofList (back.dropWhile (· ≠ '.')).tail.reverse, .ofList (back.takeWhile (· ≠ '.')).reverse)
  else none

def qualifyTable (tab : Table) (label : String) : Table :=
  { tab with columns := tab.columns.map fun c => { c with name := qualify label c.name } }

def mergeTables (left right : Table) : Table :=
  { columns := left.columns ++ right.columns, pk := left.pk }

/-- The schema of the join: the outer columns, then the inner ones under the alias. -/
def Scope.schema (sc : Scope) : Table :=
  mergeTables sc.outer.toTable (qualifyTable sc.inner.toTable sc.innerAlias)

def colOn (tab : Table) (name : String) : Bool := name ≠ "" && (tab.colIndex name).isSome

/-- The outer column of that name, or the only one whose name ends in it. -/
def outerColName (outer : Table) (name : String) : Option String :=
  if name = "" then none
  else if (outer.colIndex name).isSome then some name
  else
    match outer.columns.filter fun c => (splitQual c.name).any (·.2 = name) with
    | [c] => some c.name
    | _ => none

def hasAliasPrefix (tab : Relation) (label : String) : Bool :=
  label ≠ "" && ((tab.columns.any fun c => (label ++ ".").toList.isPrefixOf c.name.toList) ||
    tab.name = label)

/-- What a qualified name becomes in the joined schema, and whether it is an inner one. -/
def resolveCorrQual (sc : Scope) (qual col : String) : Option (String × Bool) :=
  if (qual = sc.innerAlias || qual = sc.inner.name) && colOn sc.inner.toTable col then
    some (qualify sc.innerAlias col, true)
  else
    match outerColName sc.outer.toTable (qualify qual col) with
    | some name => some (name, false)
    | none =>
      match outerColName sc.outer.toTable col with
      | some name =>
        if qual = sc.outerAlias || qual = sc.outer.name || hasAliasPrefix sc.outer qual then
          some (name, false)
        else none
      | none => none

def resolveCorrRef (sc : Scope) : Expr D → Option (String × Bool)
  | .ident name =>
    match splitQual name with
    | some (qual, col) => resolveCorrQual sc qual col
    | none =>
      if colOn sc.inner.toTable name then some (qualify sc.innerAlias name, true)
      else (outerColName sc.outer.toTable name).map fun found => (found, false)
  | .path [qual, col] => resolveCorrQual sc qual col
  | _ => none

/-! ## Flattening -/

/-- The tables an expression reads. -/
structure Sides where
  outer : Bool
  inner : Bool
deriving DecidableEq

def Sides.none : Sides := ⟨false, false⟩

def Sides.union (a b : Sides) : Sides := ⟨a.outer || b.outer, a.inner || b.inner⟩

def refSides (found : String × Bool) : Expr D × Sides := (.ident found.1, ⟨!found.2, found.2⟩)

/-- `CASE` and subscripts are calls of these names; neither is flattened. -/
def specialCall (name : String) : Bool := name = "CASE" || name = "[]"

mutual

/-- The expression over the joined schema, and the sides it reads. -/
def rewriteCorr (sc : Scope) : Expr D → Option (Expr D × Sides)
  | .literal v => some (.literal v, .none)
  | .ident name => (resolveCorrRef sc (.ident name : Expr D)).map refSides
  | .path parts => (resolveCorrRef sc (.path parts : Expr D)).map refSides
  | .neg e => do
    let (e', s) ← rewriteCorr sc e
    return (.neg e', s)
  | .not e => do
    let (e', s) ← rewriteCorr sc e
    return (.not e', s)
  | .arith op l r => do
    let (l', ls) ← rewriteCorr sc l
    let (r', rs) ← rewriteCorr sc r
    return (.arith op l' r', ls.union rs)
  | .cmp op l r => do
    let (l', ls) ← rewriteCorr sc l
    let (r', rs) ← rewriteCorr sc r
    return (.cmp op l' r', ls.union rs)
  | .and l r => do
    let (l', ls) ← rewriteCorr sc l
    let (r', rs) ← rewriteCorr sc r
    return (.and l' r', ls.union rs)
  | .or l r => do
    let (l', ls) ← rewriteCorr sc l
    let (r', rs) ← rewriteCorr sc r
    return (.or l' r', ls.union rs)
  | .between negated e low high => do
    let (e', es) ← rewriteCorr sc e
    let (low', ls) ← rewriteCorr sc low
    let (high', hs) ← rewriteCorr sc high
    return (.between negated e' low' high', (es.union ls).union hs)
  | .isNull negated e => do
    let (e', s) ← rewriteCorr sc e
    return (.isNull negated e', s)
  | .call name args =>
    if specialCall name then none
    else do
      let (args', s) ← rewriteCorrArgs sc args
      return (.call name args', s)

def rewriteCorrArgs (sc : Scope) : List (Expr D) → Option (List (Expr D) × Sides)
  | [] => some ([], .none)
  | e :: rest => do
    let (e', s) ← rewriteCorr sc e
    let (rest', ss) ← rewriteCorrArgs sc rest
    return (e' :: rest', s.union ss)

end

def hasOuterRef (sc : Scope) (items : List (Expr D)) : Bool :=
  items.any fun item =>
    match rewriteCorr sc item with
    | some (_, s) => s.outer
    | none => true

/-- The conjuncts that read at most the inner table, as they are, and the others, rewritten. -/
def splitConjuncts (sc : Scope) : List (Expr D) → Option (List (Expr D) × List (Expr D))
  | [] => some ([], [])
  | c :: rest => do
    let (c', s) ← rewriteCorr sc c
    let (inners, joins) ← splitConjuncts sc rest
    return if s.outer then (inners, c' :: joins) else (c :: inners, joins)

def splitCorrPred (sc : Scope) (filter : Option (Expr D)) :
    Option (Option (Expr D) × Option (Expr D)) := do
  let (inners, joins) ← splitConjuncts sc (conjunctsOf filter)
  return (andAll inners, andAll joins)

structure BoundSubjoin (D : Type) where
  anti : Bool
  innerWhere : Option (Expr D)
  pred : Option (Expr D)
  schema : Table

def columnRefName (label table : String) : Expr D → Option String
  | .ident name =>
    match splitQual name with
    | some (qual, col) => if qual = label || qual = table then some col else none
    | none => some name
  | .path [qual, col] => if qual = label || qual = table then some col else none
  | .path [name] => some name
  | _ => none

/-- The position of the column that an `IN` subquery returns. -/
def inOutputColumn (q : SubSelect D) : Option ℕ :=
  if q.star then none
  else
    match q.list with
    | [item] => do
      let name ← columnRefName (aliasOr q.givenAlias q.table.name) q.table.name item
      q.table.colIndex name
    | _ => none

def flattenExists (outer : Relation) (outerAlias : String) (anti : Bool) (q : SubSelect D) :
    Option (BoundSubjoin D) :=
  let sc := q.scope outer outerAlias
  if hasOuterRef sc q.list then none
  else do
    let (innerWhere, pred) ← splitCorrPred sc q.filter
    return ⟨anti, innerWhere, pred, sc.schema⟩

/-- A negated one is flattened only if the column it returns holds no NULL. -/
def flattenIn (outer : Relation) (outerAlias : String) (negated : Bool) (x : Expr D)
    (q : SubSelect D) : Option (BoundSubjoin D) :=
  let sc := q.scope outer outerAlias
  match inOutputColumn q with
  | none => none
  | some i =>
    match q.table.columns[i]? with
    | none => none
    | some col =>
      if negated && i ∉ q.table.notNull then none
      else if hasOuterRef sc q.list then none
      else do
        let (innerWhere, pred) ← splitCorrPred sc q.filter
        let eq := .cmp .eq x (.ident (qualify sc.innerAlias col.name))
        return ⟨negated, innerWhere, andAll (pred.toList ++ [eq]), sc.schema⟩

def flattenSubqueryConjunct (outer : Relation) (outerAlias : String) :
    SubConjunct D → Option (BoundSubjoin D)
  | .existsQuery anti q => flattenExists outer outerAlias anti q
  | .inQuery negated x q => flattenIn outer outerAlias negated x q

/-! ## Binding to one table -/

/-- The column a name stands for in a schema: itself, or the only one that ends in it. -/
def rewriteName (schema : Table) (name : String) : String :=
  if (schema.colIndex name).isSome then name
  else
    match schema.columns.filter fun c =>
        name.length + 1 < c.name.length && ("." ++ name).toList.isSuffixOf c.name.toList with
    | [c] => c.name
    | _ => name

def rewritePath (schema : Table) : List String → Expr D
  | first :: second :: rest =>
    if (schema.colIndex (qualify first second)).isSome then
      if rest.isEmpty then .ident (qualify first second) else .path (qualify first second :: rest)
    else if rest.isEmpty && (schema.colIndex second).isSome then .ident second
    else .path (first :: second :: rest)
  | parts => .path parts

mutual

def rewriteQual (schema : Table) : Expr D → Expr D
  | .literal v => .literal v
  | .ident name => .ident (rewriteName schema name)
  | .path parts => rewritePath schema parts
  | .neg e => .neg (rewriteQual schema e)
  | .not e => .not (rewriteQual schema e)
  | .arith op l r => .arith op (rewriteQual schema l) (rewriteQual schema r)
  | .cmp op l r => .cmp op (rewriteQual schema l) (rewriteQual schema r)
  | .and l r => .and (rewriteQual schema l) (rewriteQual schema r)
  | .or l r => .or (rewriteQual schema l) (rewriteQual schema r)
  | .between negated e low high =>
    .between negated (rewriteQual schema e) (rewriteQual schema low) (rewriteQual schema high)
  | .isNull negated e => .isNull negated (rewriteQual schema e)
  | .call name args => .call name (rewriteQuals schema args)

def rewriteQuals (schema : Table) : List (Expr D) → List (Expr D)
  | [] => []
  | e :: rest => rewriteQual schema e :: rewriteQuals schema rest

end

/-! ## Hash keys and marks -/

def unmatchedKey (row : Row D) (cols : List ℕ) : Bool :=
  cols.any fun c =>
    match row[c]? with
    | some v => v.isNull
    | none => false

/-- The bytes the rows are hashed by; used only for rows without NULL in the key. -/
def keyString (fns : Fns D) (row : Row D) (cols : List ℕ) : Except Nerr Bytes :=
  match cols.mapM fun c => row[c]? with
  | some vals => encodeKey fns vals
  | none => .error ⟨.internal, "join.keyString", "join key out of range"⟩

/-- The rows of the inner side that can match, under their keys. -/
def buildTable (fns : Fns D) (cols : List ℕ) :
    List (Row D) → Except Nerr (List (Bytes × Row D))
  | [] => .ok []
  | row :: rest =>
    if unmatchedKey row cols then buildTable fns cols rest
    else do
      let key ← keyString fns row cols
      let table ← buildTable fns cols rest
      return (key, row) :: table

/-- Whether some inner row meets the condition; the first that does ends the search. -/
def probe (test : Row D → Except Nerr Bool) : List (Row D) → Except Nerr Bool
  | [] => .ok false
  | row :: rest => do
    let found ← test row
    if found then return true else probe test rest

/-- The outer rows with a match or, for an anti join, those without one. -/
def markRows (anti : Bool) (hit : Row D → Except Nerr Bool) :
    List (Row D) → Except Nerr (List (Row D))
  | [] => .ok []
  | row :: rest => do
    let found ← hit row
    let out ← markRows anti hit rest
    return if anti = !found then row :: out else out

def identOrd (tab : Table) : Expr D → Option ℕ
  | .ident name => tab.colIndex name
  | .path [qual, col] =>
    match tab.colIndex (qualify qual col) with
    | some i => some i
    | none => tab.colIndex col
  | _ => none

/-- The columns that a conjunct equates, one of each side. -/
def joinKey (schema : Table) (nLeft : ℕ) : Expr D → Option (ℕ × ℕ)
  | .cmp .eq l r =>
    match identOrd schema l, identOrd schema r with
    | some a, some d =>
      if a < nLeft ∧ nLeft ≤ d then some (a, d - nLeft)
      else if d < nLeft ∧ nLeft ≤ a then some (d, a - nLeft)
      else none
    | _, _ => none
  | _ => none

def joinKeys (schema : Table) (nLeft : ℕ) (pred : Option (Expr D)) : List ℕ × List ℕ :=
  ((conjunctsOf pred).filterMap (joinKey schema nLeft)).unzip

/-! ## Evaluation row by row -/

def outerValue (outer : Table) (row : Row D) (name : String) : Option (Value D) := do
  let i ← outer.colIndex name
  row[i]?

/-- The value of the outer row that a reference stands for, if it is not an inner one. -/
def correlateRef (sc : Scope) (row : Row D) : Expr D → Option (Value D)
  | .ident name =>
    if (sc.inner.colIndex name).isSome then none else outerValue sc.outer.toTable row name
  | .path [qual, col] =>
    if qual = sc.inner.name || qual = sc.givenAlias then none
    else
      match outerValue sc.outer.toTable row (qualify qual col) with
      | some v => some v
      | none => outerValue sc.outer.toTable row col
  | _ => none

/-- The reference, or the value it stands for. -/
def correlated (sc : Scope) (row : Row D) (ref : Expr D) : Expr D :=
  match correlateRef sc row ref with
  | some v => .literal v
  | none => ref

mutual

def correlateExpr (sc : Scope) (row : Row D) : Expr D → Expr D
  | .literal v => .literal v
  | .ident name => correlated sc row (.ident name)
  | .path parts => correlated sc row (.path parts)
  | .neg e => .neg (correlateExpr sc row e)
  | .not e => .not (correlateExpr sc row e)
  | .arith op l r => .arith op (correlateExpr sc row l) (correlateExpr sc row r)
  | .cmp op l r => .cmp op (correlateExpr sc row l) (correlateExpr sc row r)
  | .and l r => .and (correlateExpr sc row l) (correlateExpr sc row r)
  | .or l r => .or (correlateExpr sc row l) (correlateExpr sc row r)
  | .between negated e low high =>
    .between negated (correlateExpr sc row e) (correlateExpr sc row low) (correlateExpr sc row high)
  | .isNull negated e => .isNull negated (correlateExpr sc row e)
  | .call name args => .call name (correlateExprs sc row args)

def correlateExprs (sc : Scope) (row : Row D) : List (Expr D) → List (Expr D)
  | [] => []
  | e :: rest => correlateExpr sc row e :: correlateExprs sc row rest

end

/-- An expression of the subquery as it is evaluated for one outer row. -/
def Scope.bound (sc : Scope) (row : Row D) (e : Expr D) : Expr D :=
  rewriteQual sc.inner.toTable (correlateExpr sc row e)

def isAgg (name : String) : Bool :=
  name ∈ ["count", "sum", "avg", "min", "max", "array_agg", "map_agg"]

mutual

def containsAgg : Expr D → Bool
  | .literal _ | .ident _ | .path _ => false
  | .neg e | .not e | .isNull _ e => containsAgg e
  | .arith _ l r | .cmp _ l r | .and l r | .or l r => containsAgg l || containsAgg r
  | .between _ e low high => containsAgg e || containsAgg low || containsAgg high
  | .call name args => isAgg name || containsAggs args

def containsAggs : List (Expr D) → Bool
  | [] => false
  | e :: rest => containsAgg e || containsAggs rest

end

def SubSelect.hasAgg (q : SubSelect D) : Bool := !q.star && q.list.any containsAgg

variable [Ord D] [Inhabited D]

/-- The values of the select list on each row; an evaluation error ends the query. -/
def projectRows (fns : Fns D) (tab : Table) (list : List (Expr D)) :
    List (Row D) → Except Nerr (List (Row D))
  | [] => .ok []
  | row :: rest => do
    let out ← (evalArgs fns tab row list).mapM id
    let more ← projectRows fns tab list rest
    return out :: more

/-- The rows of a subquery for one outer row. Aggregates make one row of all the
rows that pass, whatever their number; how it is computed is a parameter. -/
def SubSelect.run (fns : Fns D) (aggregate : List (Expr D) → List (Row D) → Except Nerr (Row D))
    (q : SubSelect D) (sc : Scope) (row : Row D) (stored : List (Row D)) :
    Except Nerr (List (Row D)) := do
  let rows ← emitRows fns q.table.toTable (q.filter.map (sc.bound row)) stored
  if q.star then return rows
  else if q.hasAgg then do
    let one ← aggregate q.list rows
    return [one]
  else projectRows fns q.table.toTable (q.list.map (sc.bound row)) rows

/-- A candidate of `IN`, converted to the type of the value tested. -/
def inOperand (fns : Fns D) (left right : Value D) : Except Nerr (Value D) :=
  if left.kind = right.kind then .ok right
  else
    match fns.coerce right left.typ with
    | .ok right' => .ok right'
    | .error _ =>
      .error ⟨.invalidArgument, "executor.inSubquery", "IN subquery types are incompatible"⟩

/-- The result of `IN` after some candidates; `unknown` is whether one of them, or
the value itself, was NULL. -/
def evalIn (fns : Fns D) (negated : Bool) (left : Value D) (unknown : Bool) :
    List (Row D) → Except Nerr (Value D)
  | [] => .ok (if unknown then .null ⟨.bool, 0, 0⟩ else .bool negated)
  | [] :: _ => .error ⟨.internal, "executor.inSubquery", "row is too short"⟩
  | (right :: _) :: rest =>
    if left.isNull || right.isNull then evalIn fns negated left true rest
    else do
      let cmpRight ← inOperand fns left right
      let o ← left.cmp cmpRight
      if o = .eq then return .bool !negated else evalIn fns negated left unknown rest

def evalConjunct (fns : Fns D) (aggregate : List (Expr D) → List (Row D) → Except Nerr (Row D))
    (outer : Relation) (outerAlias : String) (stored : List (Row D)) (row : Row D) :
    SubConjunct D → Except Nerr (Value D)
  | .existsQuery anti q => do
    let rows ← q.run fns aggregate (q.scope outer outerAlias) row stored
    if anti then evalNot (.bool !rows.isEmpty) else return .bool !rows.isEmpty
  | .inQuery negated x q => do
    let left ← eval fns outer.toTable row x
    let rows ← q.run fns aggregate (q.scope outer outerAlias) row stored
    if (if q.star then q.table.columns.length else q.list.length) ≠ 1 then
      throw ⟨.invalidArgument, "executor.subquery", "subquery must return exactly one column"⟩
    evalIn fns negated left false rows

/-! ## The join -/

def hashMark (fns : Fns D) (sj : BoundSubjoin D) (keys : List ℕ × List ℕ)
    (left right : List (Row D)) : Except Nerr (List (Row D)) :=
  let test := fun l r => matchRow fns sj.schema (l ++ r) sj.pred
  if keys.1.isEmpty && keys.2.isEmpty then markRows sj.anti (fun l => probe (test l) right) left
  else do
    let table ← buildTable fns keys.2 right
    markRows sj.anti (fun l =>
      if unmatchedKey l keys.1 then .ok false
      else do
        let key ← keyString fns l keys.1
        probe (test l) ((table.filter fun e => e.1 = key).map Prod.snd)) left

/-- The flattened conjunct at work: the inner rows are filtered, then joined. -/
def BoundSubjoin.run (fns : Fns D) (sj : BoundSubjoin D) (outer inner : Table)
    (left stored : List (Row D)) : Except Nerr (List (Row D)) := do
  let right ← emitRows fns inner (sj.innerWhere.map (rewriteQual inner)) stored
  hashMark fns sj (joinKeys sj.schema outer.columns.length sj.pred) left right

end NextSQL.Sql
