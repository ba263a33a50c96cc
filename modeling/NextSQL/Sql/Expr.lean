import NextSQL.Sql.Value

/-!
# Expressions and their evaluation

Expressions are evaluated on one row under three-valued logic. A comparison
with NULL is NULL; two operands of different kinds are compared after the right
one has been converted to the type of the left one. `AND` and `OR` stop at a
left operand that decides them.

Conversions, arithmetic, functions and JSON extraction are a parameter,
`Fns`: nothing here depends on what they compute. Nodes that only combine
operands (calls, `CASE`, subscripts) are calls; a call gets the results of its
operands, errors included, because some of them stop early.

A row satisfies a predicate when the predicate evaluates to true (`Holds`). It
satisfies a conjunction exactly when it satisfies each conjunct
(`holds_iff_conjuncts`), however the `AND`s are nested.
-/

namespace NextSQL.Sql

open List

inductive CmpOp where
  | eq
  | ne
  | lt
  | gt
  | le
  | ge
deriving DecidableEq, Repr

inductive ArithOp where
  | add
  | sub
  | mul
  | quo
deriving DecidableEq, Repr

inductive Expr (D : Type) where
  | literal (v : Value D)
  | ident (name : String)
  | path (parts : List String)
  | neg (e : Expr D)
  | not (e : Expr D)
  | arith (op : ArithOp) (l r : Expr D)
  | cmp (op : CmpOp) (l r : Expr D)
  | and (l r : Expr D)
  | or (l r : Expr D)
  | between (negated : Bool) (e low high : Expr D)
  | isNull (negated : Bool) (e : Expr D)
  | call (name : String) (args : List (Expr D))

/-- The parts of evaluation that the optimizer does not look into, the printer it
compares conjuncts with, and what it does to names and keys. -/
structure Fns (D : Type) where
  coerce : Value D → Typ → Except Nerr (Value D)
  negate : Value D → Except Nerr (Value D)
  evalArith : ArithOp → Value D → Value D → Except Nerr (Value D)
  call : String → List (Except Nerr (Value D)) → Except Nerr (Value D)
  extract : Value D → Typ → List String → Except Nerr (Value D)
  foldNegate : Value D → Option (Value D)
  foldArith : ArithOp → Value D → Value D → Option (Value D)
  foldCall : String → List (Value D) → Option (Value D)
  formatExpr : Expr D → String
  encodeSortable : Value D → Except Nerr Bytes
  equalFold : String → String → Bool
  digest : Bytes → ℕ

structure Column where
  name : String
  typ : Typ
deriving DecidableEq, Repr

structure Table where
  columns : List Column
  pk : List ℕ
deriving DecidableEq, Repr

/-- The position of the first column of that name. -/
def Table.colIndex (tab : Table) (name : String) : Option ℕ :=
  tab.columns.findIdx? fun c => c.name = name

abbrev Row (D : Type) := List (Value D)

variable {D : Type}

def CmpOp.test : CmpOp → Ordering → Bool
  | .eq, o => o == .eq
  | .ne, o => o != .eq
  | .lt, o => o == .lt
  | .gt, o => o == .gt
  | .le, o => o != .gt
  | .ge, o => o != .lt

def evalNot : Value D → Except Nerr (Value D)
  | .null _ => .ok (.null ⟨.bool, 0, 0⟩)
  | .bool b => .ok (.bool !b)
  | .data _ _ => .error ⟨.invalidArgument, "executor.eval", "NOT requires boolean"⟩

/-- `AND` (`decisive = false`) or `OR` (`decisive = true`) of two operands. -/
def evalLogic (decisive : Bool) (l : Except Nerr (Value D)) (r : Except Nerr (Value D)) :
    Except Nerr (Value D) := do
  let lv ← l
  if lv.isBool decisive then return .bool decisive
  let rv ← r
  match lv, rv with
  | .null _, .bool b => if b = decisive then return .bool b else return .null ⟨.bool, 0, 0⟩
  | .null _, _ => return .null ⟨.bool, 0, 0⟩
  | _, .null _ => return .null ⟨.bool, 0, 0⟩
  | .bool a, .bool b => return .bool (if decisive then a || b else a && b)
  | _, _ => throw ⟨.invalidArgument, "executor.eval", "AND/OR require boolean"⟩

theorem evalLogic_and_eq_true {l r : Except Nerr (Value D)} :
    evalLogic false l r = .ok (.bool true) ↔ l = .ok (.bool true) ∧ r = .ok (.bool true) := by
  obtain err | v := l
  · simp [evalLogic, bind, Except.bind]
  obtain err | w := r
  · rcases v with t | (_ | _) | ⟨t, d⟩ <;>
      simp [evalLogic, bind, Except.bind, pure, Except.pure, Value.isBool]
  · rcases v with t | (_ | _) | ⟨t, d⟩ <;> rcases w with t' | (_ | _) | ⟨t', d'⟩ <;>
      simp [evalLogic, bind, Except.bind, pure, Except.pure, Value.isBool, throw, throwThe,
        MonadExceptOf.throw]

theorem isBool_true_iff {v : Value D} : v.isBool true ↔ v = .bool true := by
  rcases v with t | b | ⟨t, d⟩ <;> simp [Value.isBool]

/-! ## Conjunctions -/

def conjuncts : Expr D → List (Expr D)
  | .and l r => conjuncts l ++ conjuncts r
  | e => [e]

def andAll : List (Expr D) → Option (Expr D)
  | [] => none
  | c :: rest => some (rest.foldl .and c)

/-- The conjuncts of a predicate that may be absent. -/
def conjunctsOf : Option (Expr D) → List (Expr D)
  | none => []
  | some pred => conjuncts pred

/-- The operands of the connectives of a predicate. -/
def atoms : Expr D → List (Expr D)
  | .and l r => atoms l ++ atoms r
  | .or l r => atoms l ++ atoms r
  | e => [e]

variable {c e : Expr D}

theorem not_and_of_mem_conjuncts (member : c ∈ conjuncts e) (l r : Expr D) : c ≠ .and l r := by
  fun_induction conjuncts e with
  | case1 _ _ left right =>
    obtain here | here := mem_append.mp member
    · exact left here
    · exact right here
  | case2 e notAnd =>
    rw [mem_singleton.mp member]
    exact notAnd l r

theorem conjuncts_of_mem (member : c ∈ conjuncts e) : conjuncts c = [c] := by
  unfold conjuncts
  split
  · exact absurd rfl (not_and_of_mem_conjuncts member _ _)
  · rfl

theorem atoms_subset_of_mem_conjuncts (member : c ∈ conjuncts e) : atoms c ⊆ atoms e := by
  fun_induction conjuncts e with
  | case1 l r left right =>
    rw [atoms]
    obtain here | here := mem_append.mp member
    · exact subset_append_of_subset_left _ (left here)
    · exact subset_append_of_subset_right _ (right here)
  | case2 e notAnd =>
    rw [mem_singleton.mp member]
    exact Subset.refl _

theorem not_and_of_mem_atoms {n : Expr D} (member : n ∈ atoms e) (l r : Expr D) : n ≠ .and l r := by
  fun_induction atoms e with
  | case1 _ _ left right | case2 _ _ left right =>
    obtain here | here := mem_append.mp member
    · exact left here
    · exact right here
  | case3 e notAnd _ =>
    rw [mem_singleton.mp member]
    exact notAnd l r

/-! ## Evaluation of expressions -/

variable [Ord D] [Inhabited D]

/-- A comparison of two values. When the right one does not convert, its
variable has been overwritten by the zero value of the failed conversion before
the left one is tried. -/
def evalCmp (fns : Fns D) (op : CmpOp) (l r : Value D) : Except Nerr (Value D) :=
  if l.isNull || r.isNull then .ok (.null ⟨.bool, 0, 0⟩)
  else if l.kind = r.kind then do
    return .bool (op.test (← l.cmp r))
  else
    match fns.coerce r l.typ with
    | .ok r' => do
      return .bool (op.test (← l.cmp r'))
    | .error err =>
      match fns.coerce l (Value.zero (D := D)).typ with
      | .ok l' => do
        return .bool (op.test (← l'.cmp Value.zero))
      | .error _ => .error err

/-- A bound of `BETWEEN`, converted to the type of the tested value if it can be. -/
def betweenBound (fns : Fns D) (v bound : Value D) : Value D :=
  if bound.kind = v.kind then bound
  else
    match fns.coerce bound v.typ with
    | .ok bound' => bound'
    | .error _ => bound

def evalBetween (fns : Fns D) (negated : Bool) (v low high : Value D) :
    Except Nerr (Value D) :=
  if v.isNull || low.isNull || high.isNull then .ok (.null ⟨.bool, 0, 0⟩)
  else do
    let c1 ← v.cmp (betweenBound fns v low)
    let c2 ← v.cmp (betweenBound fns v high)
    return .bool ((c1 != .lt && c2 != .gt) != negated)

/-- The value of a named column of the row. -/
def evalIdent (tab : Table) (row : Row D) (name : String) : Except Nerr (Value D) :=
  match tab.colIndex name with
  | none => .error ⟨.notFound, "executor.eval", "unknown column"⟩
  | some i =>
    match row[i]? with
    | some v => .ok v
    | none => .error ⟨.internal, "executor.eval", "row is too short"⟩

/-- The type of a named column; what a NULL document or record is extracted from. -/
def Table.typeOf (tab : Table) (name : String) : Typ :=
  match tab.colIndex name with
  | none => ⟨.invalid, 0, 0⟩
  | some i => (tab.columns[i]?.map Column.typ).getD ⟨.invalid, 0, 0⟩

def evalPath (fns : Fns D) (tab : Table) (row : Row D) : List String → Except Nerr (Value D)
  | name :: first :: rest => do
    let v ← evalIdent tab row name
    fns.extract v (tab.typeOf name) (first :: rest)
  | _ => .error ⟨.invalidArgument, "executor.eval", "invalid path"⟩

mutual

def eval (fns : Fns D) (tab : Table) (row : Row D) : Expr D → Except Nerr (Value D)
  | .literal v => .ok v
  | .ident name => evalIdent tab row name
  | .path parts => evalPath fns tab row parts
  | .neg e => do
    let v ← eval fns tab row e
    if v.isNull then return v else fns.negate v
  | .not e => do evalNot (← eval fns tab row e)
  | .arith op l r => do
    let lv ← eval fns tab row l
    let rv ← eval fns tab row r
    fns.evalArith op lv rv
  | .cmp op l r => do
    let lv ← eval fns tab row l
    let rv ← eval fns tab row r
    evalCmp fns op lv rv
  | .and l r => evalLogic false (eval fns tab row l) (eval fns tab row r)
  | .or l r => evalLogic true (eval fns tab row l) (eval fns tab row r)
  | .between negated e low high => do
    let v ← eval fns tab row e
    let lo ← eval fns tab row low
    let hi ← eval fns tab row high
    evalBetween fns negated v lo hi
  | .isNull negated e => do
    let v ← eval fns tab row e
    return .bool (v.isNull != negated)
  | .call name args => fns.call name (evalArgs fns tab row args)

def evalArgs (fns : Fns D) (tab : Table) (row : Row D) :
    List (Expr D) → List (Except Nerr (Value D))
  | [] => []
  | e :: rest => eval fns tab row e :: evalArgs fns tab row rest

end

/-- The predicate evaluates to true on the row. -/
def Holds (fns : Fns D) (tab : Table) (row : Row D) (pred : Expr D) : Prop :=
  eval fns tab row pred = .ok (.bool true)

/-- Whether a row passes a filter; no predicate lets every row pass, and an
evaluation error ends the statement. -/
def matchRow (fns : Fns D) (tab : Table) (row : Row D) :
    Option (Expr D) → Except Nerr Bool
  | none => .ok true
  | some pred => do return (← eval fns tab row pred).isBool true

variable {fns : Fns D} {tab : Table} {row : Row D}

theorem holds_and {l r : Expr D} :
    Holds fns tab row (.and l r) ↔ Holds fns tab row l ∧ Holds fns tab row r := by
  unfold Holds
  rw [eval]
  exact evalLogic_and_eq_true

/-- A disjunction that is true has a true operand. -/
theorem holds_or {l r : Expr D} (disjunction : Holds fns tab row (.or l r)) :
    Holds fns tab row l ∨ Holds fns tab row r := by
  unfold Holds at *
  rw [eval] at disjunction
  generalize eval fns tab row l = left at *
  generalize eval fns tab row r = right at *
  obtain err | v := left
  · simp [evalLogic, bind, Except.bind] at disjunction
  obtain err | w := right
  · rcases v with t | (_ | _) | ⟨t, d⟩ <;>
      simp_all [evalLogic, bind, Except.bind, pure, Except.pure, Value.isBool]
  · rcases v with t | (_ | _) | ⟨t, d⟩ <;> rcases w with t' | (_ | _) | ⟨t', d'⟩ <;>
      simp_all [evalLogic, bind, Except.bind, pure, Except.pure, Value.isBool, throw, throwThe,
        MonadExceptOf.throw]

/-- **A predicate is true on a row exactly when each of its conjuncts is.** -/
theorem holds_iff_conjuncts (pred : Expr D) :
    Holds fns tab row pred ↔ ∀ c ∈ conjuncts pred, Holds fns tab row c := by
  fun_induction conjuncts pred with
  | case1 l r left right =>
    rw [holds_and, left, right]
    simp only [mem_append, or_imp, forall_and]
  | case2 e => simp

theorem holds_foldl_and (rest : List (Expr D)) (c : Expr D) :
    Holds fns tab row (rest.foldl .and c) ↔
      Holds fns tab row c ∧ ∀ e ∈ rest, Holds fns tab row e := by
  induction rest generalizing c with
  | nil => simp
  | cons e rest ih => rw [foldl_cons, ih, holds_and, and_assoc, forall_mem_cons]

theorem matchRow_some_eq_true {pred : Expr D} :
    matchRow fns tab row (some pred) = .ok true ↔ Holds fns tab row pred := by
  unfold matchRow Holds
  dsimp only
  generalize eval fns tab row pred = result
  obtain err | v := result
  · simp [bind, Except.bind]
  · simp [bind, Except.bind, pure, Except.pure, isBool_true_iff]

/-- A filter made of conjuncts lets a row pass exactly when each of them is true on it. -/
theorem matchRow_andAll (cs : List (Expr D)) :
    matchRow fns tab row (andAll cs) = .ok true ↔ ∀ c ∈ cs, Holds fns tab row c := by
  obtain _ | ⟨c, rest⟩ := cs
  · simp [andAll, matchRow]
  · rw [andAll, matchRow_some_eq_true, holds_foldl_and, forall_mem_cons]

theorem matchRow_iff_conjuncts (pred : Option (Expr D)) :
    matchRow fns tab row pred = .ok true ↔ ∀ c ∈ conjunctsOf pred, Holds fns tab row c := by
  obtain _ | pred := pred
  · simp [matchRow, conjunctsOf]
  · rw [matchRow_some_eq_true, holds_iff_conjuncts, conjunctsOf]

end NextSQL.Sql
