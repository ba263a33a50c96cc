import Mathlib.Data.List.Sort
import NextSQL.Sql.AccessExact
import NextSQL.Sql.Imply

/-!
# Segments of a table and the scans they prune

`ANALYZE` sorts a sample of the rows by primary key, cuts it into at most eight
segments, and stores of each the first and the last key and the least and the
greatest value of each column. A later scan leaves out the segments whose values
cannot meet the ranges of its predicate, and reads the others from their first
key to their last. Rows that are stored in between change none of that.
-/

namespace NextSQL.Sql

variable {D : Type} [Ord D] [Inhabited D]

/-! ## Building segments -/

structure SegmentStats (D : Type) where
  lowPK : List (Value D)
  highPK : List (Value D)
  colMin : List (Value D)
  colMax : List (Value D)
  hasBounds : Bool := true

def segmentCount : ℕ := 8

def maxAnalyzeSample : ℕ := 100000

/-- The order of the sort: the first pair of key values that are comparable and
differ decides. -/
def pkLess : List (Value D) → List (Value D) → Bool
  | a :: as, b :: bs =>
    if a.isNull || b.isNull then pkLess as bs
    else
      match a.cmp b with
      | .ok .lt => true
      | .ok .gt => false
      | _ => pkLess as bs
  | _, _ => false

/-- The rows in the order of their primary keys; the sort is stable. -/
def sortRows (tab : Table) (rows : List (Row D)) : List (Row D) :=
  rows.insertionSort fun a b => pkLess (pkValues tab b) (pkValues tab a) = false

/-- The least and the greatest value after one more. -/
def widen (cur : Option (Value D × Value D)) (v : Value D) : Option (Value D × Value D) :=
  match cur with
  | none => some (v, v)
  | some (least, most) =>
    some (if cmpPasses v least (· == .lt) then v else least,
      if cmpPasses v most (· == .gt) then v else most)

def widenByRow (c : ℕ) (cur : Option (Value D × Value D)) (row : Row D) :
    Option (Value D × Value D) :=
  match row[c]? with
  | some v => if v.isNull then cur else widen cur v
  | none => cur

/-- The least and the greatest value of a column. A column that clients encrypt
or whose type has no order is not `summarised`. -/
def columnSummary (summarised : ℕ → Bool) (part : List (Row D)) (c : ℕ) :
    Option (Value D × Value D) :=
  if summarised c then part.foldl (widenByRow c) none else none

def segmentOf (tab : Table) (summarised : ℕ → Bool) (part : List (Row D)) : SegmentStats D where
  lowPK := (part.head?.map (pkValues tab)).getD []
  highPK := (part.getLast?.map (pkValues tab)).getD []
  colMin := (List.range tab.columns.length).map fun c =>
    ((columnSummary summarised part c).map Prod.fst).getD (.null (columnType tab c))
  colMax := (List.range tab.columns.length).map fun c =>
    ((columnSummary summarised part c).map Prod.snd).getD (.null (columnType tab c))

/-- A list cut into pieces of the given size; the last one may be shorter. -/
def chunks {α : Type} (size : ℕ) : ℕ → List α → List (List α)
  | 0, _ => []
  | fuel + 1, l => if l.isEmpty then [] else l.take size :: chunks size fuel (l.drop size)

def buildSegments (tab : Table) (summarised : ℕ → Bool) (sample : List (Row D)) :
    List (SegmentStats D) :=
  if sample.isEmpty || tab.pk.isEmpty then []
  else
    let rows := sortRows tab sample
    let n := min segmentCount rows.length
    let chunk := (rows.length + n - 1) / n
    (chunks chunk rows.length rows).map (segmentOf tab summarised)

/-! ## Sampling -/

/-- One more row for the sample: once it is full, the row replaces the one at a
random place, or none. -/
def sampleRow (pick : ℕ → ℕ) (acc : ℕ × List (Row D)) (row : Row D) : ℕ × List (Row D) :=
  let rows := acc.1 + 1
  if acc.2.length < maxAnalyzeSample then (rows, acc.2 ++ [row])
  else if pick rows < maxAnalyzeSample then (rows, acc.2.set (pick rows) row)
  else (rows, acc.2)

def collectSample (pick : ℕ → ℕ) (rows : List (Row D)) : List (Row D) :=
  (rows.foldl (sampleRow pick) (0, [])).2

/-! ## Pruning -/

/-- Whether the least and the greatest value of a column leave room for a range. -/
def columnPossible (seg : SegmentStats D) (ord : ℕ) (r : ColRange D) : Bool :=
  match seg.colMin[ord]?, seg.colMax[ord]? with
  | some least, some most =>
    if least.isNull && most.isNull then !(r.eq && !r.isNull)
    else if r.isNull then true
    else
      !(r.eq && r.low.any fun v =>
        (!least.isNull && cmpPasses v least (· == .lt)) ||
          (!most.isNull && cmpPasses v most (· == .gt))) &&
      !(!r.unboundedLow && !most.isNull && r.low.any fun v =>
        cmpPasses v most fun o => if r.lowIncl then o == .gt else o != .lt) &&
      !(!r.unboundedHigh && !least.isNull && r.high.any fun v =>
        cmpPasses v least fun o => if r.highIncl then o == .lt else o != .gt)
  | _, _ => true

def segmentPossible (seg : SegmentStats D) (ranges : Ranges D) : Bool :=
  ranges.entries.all fun e => columnPossible seg e.1 e.2

/-- The segments to read, if the statistics say anything about the predicate. -/
def pruneSegments (fns : Fns D) (tab : Table) (segments : List (SegmentStats D))
    (pred : Option (Expr D)) : Option (List (SegmentStats D)) :=
  if segments.isEmpty || pred.isNone then none
  else
    let ranges := extractRanges fns tab pred
    if ranges.entries.isEmpty then none
    else some (segments.filter fun seg => !seg.hasBounds || segmentPossible seg ranges)

/-- A sequential scan: nothing to read, or the spans of some segments, all rows
if there are none. -/
inductive SeqPlan (D : Type) where
  | empty
  | scan (spans : List (SegmentStats D)) (pred : Option (Expr D))

def seqAccess (fns : Fns D) (tab : Table) (segments : List (SegmentStats D))
    (pred : Option (Expr D)) : SeqPlan D :=
  match pruneSegments fns tab segments pred with
  | some [] => .empty
  | some spans => .scan spans pred
  | none => .scan [] pred

/-! ## Scanning the heap -/

/-- The rows of the spans, one span after another. -/
def readSpans (fns : Fns D) (heap : List (Bytes × Row D)) :
    List (SegmentStats D) → Except Nerr (List (Row D))
  | [] => .ok []
  | seg :: rest => do
    let bounds ← encodeBounds fns seg.lowPK seg.highPK true true
    let tail ← readSpans fns heap rest
    return (heap.filter fun e => keyInRange bounds e.1).map Prod.snd ++ tail

def SeqPlan.run (fns : Fns D) (tab : Table) (heap : List (Bytes × Row D)) :
    SeqPlan D → Except Nerr (List (Row D))
  | .empty => .ok []
  | .scan spans pred => do
    let rows ← if spans.isEmpty then pure (heap.map Prod.snd) else readSpans fns heap spans
    emitRows fns tab pred rows

/-! ## A table and its changes -/

/-- The committed rows of a table under their keys, and the stored segments. -/
structure TableState (D : Type) where
  heap : List (Bytes × Row D) := []
  segments : List (SegmentStats D) := []

/-- A value of a type: NULL, or what values of that kind are made of. -/
def Value.hasType (typ : Typ) : Value D → Bool
  | .null _ => true
  | .bool _ => typ.kind == .bool
  | .data t _ => t.kind == typ.kind && t.kind != .bool && t.kind.ordered

/-- A row of the table: values of the columns' types, none of the key NULL. -/
def conforms (tab : Table) (row : Row D) : Bool :=
  (row.length == tab.columns.length) &&
    ((List.range row.length).all fun c => row[c]?.all (Value.hasType (columnType tab c))) &&
    tab.pk.all fun ord => row[ord]?.any fun v => !v.isNull

inductive Change (D : Type) where
  | insert (row : Row D)
  | update (key : Bytes) (row : Row D)
  | delete (key : Bytes)
  /-- The statistics are collected; the segments are kept if they fit the catalog
  record and the collection was asked for. -/
  | analyze (pick : ℕ → ℕ) (keep : Bool)

/-- Store a row, if it is one of the table and its key is free. -/
def storeRow (fns : Fns D) (tab : Table) (s : TableState D) (row : Row D) :
    Option (TableState D) :=
  if !conforms tab row then none
  else
    match encodeKey fns (pkValues tab row) with
    | .error _ => none
    | .ok key =>
      if key ∈ s.heap.map Prod.fst then none else some { s with heap := s.heap ++ [(key, row)] }

def removeRow (s : TableState D) (key : Bytes) : TableState D :=
  { s with heap := s.heap.filter fun e => e.1 ≠ key }

/-- A change; one that fails is not taken. -/
def TableState.change (fns : Fns D) (tab : Table) (summarised : ℕ → Bool) (s : TableState D) :
    Change D → Option (TableState D)
  | .insert row => storeRow fns tab s row
  | .update key row =>
    if key ∈ s.heap.map Prod.fst then storeRow fns tab (removeRow s key) row else none
  | .delete key => some (removeRow s key)
  | .analyze pick keep =>
    some { s with
      segments :=
        if keep then buildSegments tab summarised (collectSample pick (s.heap.map Prod.snd))
        else [] }

/-- The step relation of the changes. -/
def TableState.Changes (fns : Fns D) (tab : Table) (summarised : ℕ → Bool) (s : TableState D)
    (change : Change D) (t : TableState D) : Prop :=
  s.change fns tab summarised change = some t

end NextSQL.Sql
