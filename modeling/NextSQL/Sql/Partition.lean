import NextSQL.Sql.Key
import NextSQL.Sql.Range

/-!
# Partitions and their pruning

A row of a partitioned table is stored in the partition whose rule its key
columns meet: an interval of tuples, a list of tuples, or a hash remainder. A
scan leaves out the partitions that the predicate seems to exclude. The
constants it goes by are collected from the predicate by looking at its text.
-/

namespace NextSQL.Sql

inductive PartitionKind where
  | range
  | hash
  | list
  | legacyTenant
deriving DecidableEq, Repr

/-- A partition with its rule: the ends of an interval, a list of tuples, or a
modulus and a remainder. -/
structure Partition (D : Type) where
  id : ℕ
  lower : Option (List (Value D)) := none
  upper : Option (List (Value D)) := none
  lowerInclusive : Bool := false
  upperInclusive : Bool := false
  values : List (List (Value D)) := []
  modulus : ℕ := 0
  remainder : ℕ := 0
deriving DecidableEq

structure Partitioning (D : Type) where
  kind : PartitionKind
  columns : List ℕ
  partitions : List (Partition D)

def maxPartitions : ℕ := 1024

def maxPartitionColumns : ℕ := 8

variable {D : Type}

def colType (tab : Table) (ord : ℕ) : Typ :=
  (tab.columns[ord]?.map Column.typ).getD ⟨.invalid, 0, 0⟩

def colName (tab : Table) (ord : ℕ) : String :=
  (tab.columns[ord]?.map Column.name).getD ""

/-- The order of two tuples is that of their keys. -/
def comparePartitionTuple (fns : Fns D) (a b : List (Value D)) : Except Nerr Ordering := do
  let ak ← encodeKey fns a
  let bk ← encodeKey fns b
  return compareBytes ak bk

/-! ## Validation -/

def invalidPartitioning (message : String) : Nerr :=
  ⟨.invalidArgument, "catalog.ValidatePartitioning", message⟩

def validatePartitionTuple (want : List Typ) (tuple : List (Value D)) : Except Nerr Unit :=
  if tuple.length ≠ want.length then .error (invalidPartitioning "partition tuple width")
  else if tuple.any Value.isNull then .error (invalidPartitioning "NULL partition value")
  else if tuple.map Value.typ ≠ want then .error (invalidPartitioning "partition value type")
  else .ok ()

def validateEnd (want : List Typ) : Option (List (Value D)) → Except Nerr Unit
  | none => .ok ()
  | some tuple => validatePartitionTuple want tuple

/-- The keys of the tuples of a list partition, if none has been seen before. -/
def validateValues (fns : Fns D) (want : List Typ) (seen : List Bytes) :
    List (List (Value D)) → Except Nerr (List Bytes)
  | [] => .ok seen
  | tuple :: rest => do
    validatePartitionTuple want tuple
    let key ← encodeKey fns tuple
    if key ∈ seen then throw (invalidPartitioning "overlapping partition value")
    validateValues fns want (key :: seen) rest

/-- What has been seen of the partitions so far. -/
structure SeenPartitions where
  ids : List ℕ := []
  keys : List Bytes := []
  remainders : List ℕ := []

def validateRule (fns : Fns D) (kind : PartitionKind) (want : List Typ) (modulus : ℕ)
    (seen : SeenPartitions) (part : Partition D) : Except Nerr SeenPartitions :=
  match kind with
  | .range => do
    if part.modulus ≠ 0 || part.remainder ≠ 0 || !part.values.isEmpty then
      throw (invalidPartitioning "invalid RANGE rule")
    validateEnd want part.lower
    validateEnd want part.upper
    if part.lower.isNone && part.lowerInclusive then
      throw (invalidPartitioning "inclusive unbounded RANGE lower edge")
    if part.upper.isNone && part.upperInclusive then
      throw (invalidPartitioning "inclusive unbounded RANGE upper edge")
    return seen
  | .hash => do
    if part.modulus = 0 || part.modulus > maxPartitions || part.remainder ≥ part.modulus then
      throw (invalidPartitioning "invalid HASH rule")
    if part.modulus ≠ modulus then throw (invalidPartitioning "mixed HASH modulus")
    if part.remainder ∈ seen.remainders then
      throw (invalidPartitioning "duplicate HASH remainder")
    return { seen with remainders := part.remainder :: seen.remainders }
  | _ => do
    if part.values.isEmpty || part.modulus ≠ 0 || part.remainder ≠ 0 then
      throw (invalidPartitioning "invalid value partition rule")
    if kind = .legacyTenant && part.values.length ≠ 1 then
      throw (invalidPartitioning "TENANT partition requires one value")
    let keys ← validateValues fns want seen.keys part.values
    return { seen with keys }

def validatePartitions (fns : Fns D) (kind : PartitionKind) (want : List Typ) (modulus : ℕ) :
    SeenPartitions → List (Partition D) → Except Nerr SeenPartitions
  | seen, [] => .ok seen
  | seen, part :: rest => do
    if part.id = 0 then throw (invalidPartitioning "zero partition identity")
    if part.id ∈ seen.ids then throw (invalidPartitioning "duplicate partition identity")
    let seen' ← validateRule fns kind want modulus { seen with ids := part.id :: seen.ids } part
    validatePartitions fns kind want modulus seen' rest

/-- A RANGE partition must not be empty and must not begin before the previous one ends. -/
def validateOrder (fns : Fns D) : Option (Partition D) → List (Partition D) → Except Nerr Unit
  | _, [] => .ok ()
  | previous, part :: rest => do
    match part.lower, part.upper with
    | some lower, some upper =>
      if (← comparePartitionTuple fns lower upper) ≠ .lt then
        throw (invalidPartitioning "empty or reversed RANGE partition")
    | _, _ => pure ()
    match previous with
    | none => pure ()
    | some prev =>
      match prev.upper, part.lower with
      | some prevUpper, some lower =>
        let c ← comparePartitionTuple fns prevUpper lower
        if c = .gt || (c = .eq && prev.upperInclusive && part.lowerInclusive) then
          throw (invalidPartitioning "overlapping RANGE partitions")
      | _, _ => throw (invalidPartitioning "overlapping unbounded RANGE partitions")
    validateOrder fns (some part) rest

def validatePartitioning (fns : Fns D) (tab : Table) (p : Partitioning D) : Except Nerr Unit := do
  if p.columns.isEmpty || p.columns.length > maxPartitionColumns then
    throw (invalidPartitioning "partition column count")
  if p.columns.any fun ord => decide (ord ≥ tab.columns.length) then
    throw (invalidPartitioning "partition column ordinal")
  if ¬ p.columns.Nodup then throw (invalidPartitioning "duplicate partition column")
  if p.partitions.isEmpty || p.partitions.length > maxPartitions then
    throw (invalidPartitioning "partition count")
  let modulus := (p.partitions.head?.map Partition.modulus).getD 0
  let seen ← validatePartitions fns p.kind (p.columns.map (colType tab)) modulus {} p.partitions
  match p.kind with
  | .hash =>
    if modulus ≠ p.partitions.length || seen.remainders.length ≠ p.partitions.length then
      throw (invalidPartitioning "incomplete HASH remainder set")
  | .range => validateOrder fns none p.partitions
  | _ => pure ()

/-! ## Routing -/

def hashPartitionRemainder (fns : Fns D) (tuple : List (Value D)) (modulus : ℕ) :
    Except Nerr ℕ := do
  if modulus = 0 || modulus > maxPartitions then
    throw ⟨.invalidArgument, "catalog.HashPartitionRemainder", "invalid HASH modulus"⟩
  let raw ← encodeKey fns tuple
  return fns.digest raw % modulus

def routingError (code : Code) (message : String) : Nerr :=
  ⟨code, "catalog.PartitionForRow", message⟩

/-- The values of the partition columns of a row; none of them may be NULL. -/
def partitionTuple (row : Row D) : List ℕ → Except Nerr (List (Value D))
  | [] => .ok []
  | ord :: rest =>
    match row[ord]? with
    | none => .error (routingError .invalidArgument "partition column missing")
    | some v =>
      if v.isNull then .error (routingError .invalidArgument "NULL partition value")
      else do
        let tail ← partitionTuple row rest
        return v :: tail

/-- Whether a tuple is above the lower end of an interval. -/
def aboveLower (fns : Fns D) (part : Partition D) (tuple : List (Value D)) : Except Nerr Bool :=
  match part.lower with
  | none => .ok true
  | some lower => do
    let c ← comparePartitionTuple fns tuple lower
    return !(c == .lt || (c == .eq && !part.lowerInclusive))

def belowUpper (fns : Fns D) (part : Partition D) (tuple : List (Value D)) : Except Nerr Bool :=
  match part.upper with
  | none => .ok true
  | some upper => do
    let c ← comparePartitionTuple fns tuple upper
    return !(c == .gt || (c == .eq && !part.upperInclusive))

def routeRange (fns : Fns D) (tuple : List (Value D)) :
    List (Partition D) → Except Nerr (Partition D)
  | [] => .error (routingError .notFound "no partition for row")
  | part :: rest => do
    if !(← aboveLower fns part tuple) then routeRange fns tuple rest
    else if !(← belowUpper fns part tuple) then routeRange fns tuple rest
    else return part

/-- Whether a key is that of one of the tuples. -/
def keyAmong (fns : Fns D) (key : Bytes) : List (List (Value D)) → Except Nerr Bool
  | [] => .ok false
  | tuple :: rest => do
    let k ← encodeKey fns tuple
    if key = k then return true else keyAmong fns key rest

def routeList (fns : Fns D) (key : Bytes) : List (Partition D) → Except Nerr (Partition D)
  | [] => .error (routingError .notFound "no partition for row")
  | part :: rest => do
    if (← keyAmong fns key part.values) then return part else routeList fns key rest

def routeHash (modulus remainder : ℕ) : List (Partition D) → Except Nerr (Partition D)
  | [] => .error (routingError .corruption "HASH remainder missing from validated descriptor")
  | part :: rest =>
    if part.modulus = modulus ∧ part.remainder = remainder then .ok part
    else routeHash modulus remainder rest

def partitionForRow (fns : Fns D) (p : Partitioning D) (row : Row D) :
    Except Nerr (Partition D) := do
  let tuple ← partitionTuple row p.columns
  match p.kind with
  | .range => routeRange fns tuple p.partitions
  | .hash =>
    let modulus := (p.partitions.head?.map Partition.modulus).getD 0
    let remainder ← hashPartitionRemainder fns tuple modulus
    routeHash modulus remainder p.partitions
  | _ =>
    let key ← encodeKey fns tuple
    routeList fns key p.partitions

/-! ## Constants of the predicate -/

def isColForPrune (fns : Fns D) (col : String) : Expr D → Bool
  | .ident name => fns.equalFold name col
  | .path [name] => fns.equalFold name col
  | .path [_, name] => fns.equalFold name col
  | _ => false

/-- The literal an operand is taken for; the sign of a negated one is lost. -/
def literalToValueForPrune : Expr D → Option (Value D)
  | .literal v => some v
  | .neg (.literal v) => some v
  | _ => none

/-- A bound on a column: at least, or at most, a constant, which may be included. -/
inductive Bound (D : Type) where
  | equal (v : Value D)
  | lower (v : Value D) (incl : Bool)
  | upper (v : Value D) (incl : Bool)

def boundOf (op : CmpOp) (v : Value D) : List (Bound D) :=
  match op with
  | .eq => [.equal v]
  | .lt => [.upper v false]
  | .le => [.upper v true]
  | .gt => [.lower v false]
  | .ge => [.lower v true]
  | .ne => []

/-- The bounds found on a column. A `NOT BETWEEN` is taken for a `BETWEEN`. -/
def boundsOn (fns : Fns D) (col : String) : Expr D → List (Bound D)
  | .and l r => boundsOn fns col l ++ boundsOn fns col r
  | .cmp op l r =>
    if isColForPrune fns col l then
      match literalToValueForPrune r with
      | some v => boundOf op v
      | none => []
    else if isColForPrune fns col r then
      match literalToValueForPrune l with
      | some v => boundOf (flipOp op) v
      | none => []
    else []
  | .between _ e low high =>
    if isColForPrune fns col e then
      (match literalToValueForPrune low with
        | some v => [.lower v true]
        | none => []) ++
      match literalToValueForPrune high with
      | some v => [.upper v true]
      | none => []
    else []
  | _ => []

/-- How two constants compare as keys; if they do not, they count as equal. -/
def compareValuesForExplain (fns : Fns D) (a b : Value D) : Except Nerr Ordering := do
  let ak ← encodeKey fns [a]
  let bk ← encodeKey fns [b]
  return compareBytes ak bk

def compareOrEqual (fns : Fns D) (a b : Value D) : Ordering :=
  match compareValuesForExplain fns a b with
  | .ok o => o
  | .error _ => .eq

/-- The greatest of the bounds, by the keys of the constants. -/
def best (fns : Fns D) (better : Ordering) :
    Value D × Bool → List (Value D × Bool) → Value D × Bool
  | cur, [] => cur
  | cur, next :: rest =>
    best fns better (if compareOrEqual fns cur.1 next.1 = better then next else cur) rest

def equals (bounds : List (Bound D)) : List (Value D) :=
  bounds.filterMap fun b => match b with
    | .equal v => some v
    | _ => none

def lowers (bounds : List (Bound D)) : List (Value D × Bool) :=
  bounds.filterMap fun b => match b with
    | .lower v incl => some (v, incl)
    | _ => none

def uppers (bounds : List (Bound D)) : List (Value D × Bool) :=
  bounds.filterMap fun b => match b with
    | .upper v incl => some (v, incl)
    | _ => none

def bestOf (fns : Fns D) (better : Ordering) : List (Value D × Bool) → Option (Value D × Bool)
  | [] => none
  | first :: rest => some (best fns better first rest)

/-- The values a predicate pins a column to, if it does. -/
def extractEqualValues (fns : Fns D) (col : String) : Expr D → Option (List (Value D))
  | .and l r =>
    match extractEqualValues fns col l, extractEqualValues fns col r with
    | some left, some right => some (left ++ right)
    | some left, none => some left
    | none, some right => some right
    | none, none => none
  | .or l r =>
    match extractEqualValues fns col l, extractEqualValues fns col r with
    | some left, some right => some (left ++ right)
    | _, _ => none
  | .cmp .eq l r =>
    if isColForPrune fns col l then (literalToValueForPrune r).map fun v => [v]
    else if isColForPrune fns col r then (literalToValueForPrune l).map fun v => [v]
    else none
  | _ => none

/-! ## Pruning -/

/-- The bounds on the leading columns of the partition key: equalities, and the
range of the first column that has none. -/
structure QueryBounds (D : Type) where
  low : List (Value D) := []
  high : List (Value D) := []
  lowIncl : Bool := true
  highIncl : Bool := true

/-- The converted bound on a column, if there is one and it converts. -/
def convertedBound (fns : Fns D) (typ : Typ) :
    Option (Value D × Bool) → List (Value D) × Bool
  | none => ([], true)
  | some (v, incl) =>
    match fns.coerce v typ with
    | .ok cv => ([cv], incl)
    | .error _ => ([], true)

def queryBounds (fns : Fns D) (tab : Table) (pred : Expr D) : List ℕ → QueryBounds D
  | [] => {}
  | ord :: rest =>
    let bounds := boundsOn fns (colName tab ord) pred
    match equals bounds with
    | v :: _ =>
      match fns.coerce v (colType tab ord) with
      | .error _ => {}
      | .ok cv =>
        let tail := queryBounds fns tab pred rest
        { tail with low := cv :: tail.low, high := cv :: tail.high }
    | [] =>
      let low := convertedBound fns (colType tab ord) (bestOf fns .lt (lowers bounds))
      let high := convertedBound fns (colType tab ord) (bestOf fns .gt (uppers bounds))
      { low := low.1, high := high.1, lowIncl := low.2, highIncl := high.2 }

/-- The order of a prefix of a tuple and a whole tuple; `missing` stands for the
rest of the prefix. -/
def cmpBoundTuple (fns : Fns D) (missing : Ordering) :
    List (Value D) → List (Value D) → Option Ordering
  | [], [] => some .eq
  | [], _ :: _ => some missing
  | _ :: _, [] => some .eq
  | a :: q, b :: tuple =>
    match compareValuesForExplain fns a b with
    | .error _ => none
    | .ok .eq => cmpBoundTuple fns missing q tuple
    | .ok c => some c

/-- Whether the bounds of the query seem to miss the interval of a partition. -/
def prunedRange (fns : Fns D) (b : QueryBounds D) (part : Partition D) : Bool :=
  (match part.lower with
    | some lower =>
      !b.high.isEmpty &&
        match cmpBoundTuple fns (if b.highIncl then .gt else .lt) b.high lower with
        | some c => c == .lt || (c == .eq && !b.highIncl)
        | none => false
    | none => false) ||
  match part.upper with
  | some upper =>
    !b.low.isEmpty &&
      match cmpBoundTuple fns (if b.lowIncl then .lt else .gt) b.low upper with
      | some c => c != .lt
      | none => false
  | none => false

def pruneRange (fns : Fns D) (tab : Table) (p : Partitioning D) (pred : Expr D) :
    List (Partition D) :=
  let b := queryBounds fns tab pred p.columns
  if b.low.isEmpty && b.high.isEmpty then p.partitions
  else p.partitions.filter fun part => !prunedRange fns b part

/-- The one tuple a predicate pins the partition columns to, converted. -/
def pinnedTuple (fns : Fns D) (tab : Table) (pred : Expr D) : List ℕ → Option (List (Value D))
  | [] => some []
  | ord :: rest =>
    match extractEqualValues fns (colName tab ord) pred with
    | some [v] =>
      match fns.coerce v (colType tab ord), pinnedTuple fns tab pred rest with
      | .ok cv, some tail => some (cv :: tail)
      | _, _ => none
    | _ => none

/-- The values a predicate pins a column to, converted; none if there are none or
one does not convert. -/
def pinnedValues (fns : Fns D) (tab : Table) (pred : Expr D) (ord : ℕ) :
    Option (List (Value D)) :=
  match extractEqualValues fns (colName tab ord) pred with
  | some (v :: rest) =>
    (v :: rest).mapM fun w => (fns.coerce w (colType tab ord)).toOption
  | _ => none

/-- The partitions without those whose identity has come before. -/
def dedupPartitions : List ℕ → List (Partition D) → List (Partition D)
  | _, [] => []
  | seen, part :: rest =>
    if part.id ∈ seen then dedupPartitions seen rest
    else part :: dedupPartitions (part.id :: seen) rest

/-- Whether a one-column tuple of the partition has the key. -/
def hasKey (fns : Fns D) (key : Bytes) (part : Partition D) : Bool :=
  part.values.any fun tuple =>
    tuple.length == 1 &&
      match encodeKey fns tuple with
      | .ok k => k == key
      | .error _ => false

/-- The partition a key is registered for: a later one replaces an earlier one. -/
def lookupKey (fns : Fns D) (partitions : List (Partition D)) (key : Bytes) :
    Option (Partition D) :=
  (partitions.filter (hasKey fns key)).getLast?

/-- The partition with the tuple of the key, if the predicate pins all columns to it. -/
def findKey (fns : Fns D) (key : Bytes) : List (Partition D) → Except Nerr (List (Partition D))
  | [] => .ok []
  | part :: rest => do
    if (← keyAmong fns key part.values) then return [part] else findKey fns key rest

def pruneValue (fns : Fns D) (tab : Table) (p : Partitioning D) (pred : Expr D) :
    List (Partition D) :=
  match p.columns with
  | [] => p.partitions
  | [ord] =>
    match pinnedValues fns tab pred ord with
    | none => p.partitions
    | some values =>
      let registered := (p.partitions.flatMap Partition.values).filter (·.length == 1)
      match registered.mapM fun tuple => (encodeKey fns tuple).toOption,
        values.mapM fun v => (encodeKey fns [v]).toOption with
      | some _, some keys =>
        dedupPartitions [] (keys.filterMap (lookupKey fns p.partitions))
      | _, _ => p.partitions
  | columns =>
    match pinnedTuple fns tab pred columns with
    | none => p.partitions
    | some tuple =>
      match encodeKey fns tuple with
      | .error _ => p.partitions
      | .ok key =>
        match findKey fns key p.partitions with
        | .error _ => p.partitions
        | .ok found => found

/-- The partition a remainder is registered for: a later one replaces an earlier one. -/
def lookupRemainder (partitions : List (Partition D)) (remainder : ℕ) : Option (Partition D) :=
  (partitions.filter fun part => part.remainder = remainder).getLast?

/-- The partition of a tuple, if its remainder is registered. -/
def hashPartition (fns : Fns D) (p : Partitioning D) (tuple : List (Value D)) :
    Option (Partition D) := do
  let modulus := (p.partitions.head?.map Partition.modulus).getD 0
  let remainder ← (hashPartitionRemainder fns tuple modulus).toOption
  lookupRemainder p.partitions remainder

def pruneHash (fns : Fns D) (tab : Table) (p : Partitioning D) (pred : Expr D) :
    List (Partition D) :=
  match p.columns with
  | [] => p.partitions
  | [ord] =>
    match pinnedValues fns tab pred ord with
    | none => p.partitions
    | some values =>
      match values.mapM fun v => hashPartition fns p [v] with
      | none => p.partitions
      | some parts => dedupPartitions [] parts
  | columns =>
    match (pinnedTuple fns tab pred columns).bind (hashPartition fns p) with
    | none => p.partitions
    | some part => [part]

/-- The partitions a scan reads for a predicate. -/
def prunePartitions (fns : Fns D) (tab : Table) (p : Partitioning D) :
    Option (Expr D) → List (Partition D)
  | none => p.partitions
  | some pred =>
    match p.kind with
    | .range => pruneRange fns tab p pred
    | .hash => pruneHash fns tab p pred
    | .list | .legacyTenant => pruneValue fns tab p pred

end NextSQL.Sql
