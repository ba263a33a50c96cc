import NextSQL.Sql.Expr

/-!
# Constant folding and structural equality of expressions

The optimizer folds constant subexpressions before it looks at a predicate, and
compares expressions node by node. Two literals are the same node when they
compare equal, which is less than being the same value: `1.0` and `1.00` are,
and two NULLs are not. Where equal literals are the same, equal expressions are
(`eq_of_exprEqual`).
-/

namespace NextSQL.Sql

variable {D : Type}

/-- A literal that a connective can use: a truth value or any NULL. -/
def boolLit : Expr D → Option (Value D)
  | .literal (.null t) => some (.null t)
  | .literal (.bool b) => some (.bool b)
  | _ => none

/-- `AND` (`decisive = false`) or `OR` (`decisive = true`) of folded operands. -/
def foldLogic (decisive : Bool) (l r : Expr D) : Expr D :=
  let same := if decisive then Expr.or l r else Expr.and l r
  match boolLit l, boolLit r with
  | some (.bool a), some (.bool b) =>
    if a = decisive || b = decisive then .literal (.bool decisive) else r
  | some (.bool a), _ => if a = decisive then .literal (.bool decisive) else r
  | _, some (.bool b) => if b = decisive then .literal (.bool decisive) else l
  | some _, some _ => .literal (.null ⟨.bool, 0, 0⟩)
  | _, _ => same

def foldNot : Expr D → Expr D
  | .literal (.null _) => .literal (.null ⟨.bool, 0, 0⟩)
  | .literal (.bool b) => .literal (.bool !b)
  | e => .not e

def foldIsNull (negated : Bool) : Expr D → Expr D
  | .literal v => .literal (.bool (v.isNull != negated))
  | e => .isNull negated e

def foldNeg (fns : Fns D) : Expr D → Expr D
  | .literal v =>
    match fns.foldNegate v with
    | some w => .literal w
    | none => .neg (.literal v)
  | e => .neg e

def foldArithExpr (fns : Fns D) (op : ArithOp) : Expr D → Expr D → Expr D
  | .literal a, .literal b =>
    match fns.foldArith op a b with
    | some w => .literal w
    | none => .arith op (.literal a) (.literal b)
  | l, r => .arith op l r

/-- The literals of a list of folded arguments, if they are all literals. -/
def literals : List (Expr D) → Option (List (Value D))
  | [] => some []
  | .literal v :: rest => (literals rest).map (v :: ·)
  | _ :: _ => none

def foldCallExpr (fns : Fns D) (name : String) (args : List (Expr D)) : Expr D :=
  match literals args with
  | some vs =>
    match fns.foldCall name vs with
    | some w => .literal w
    | none => .call name args
  | none => .call name args

variable [Ord D]

/-- Two constants of different kinds are compared in the type of the left one
or, failing that, of the right one. -/
def foldOperands (fns : Fns D) (a b : Value D) : Option (Value D × Value D) :=
  if a.kind = b.kind then some (a, b)
  else
    match fns.coerce b a.typ with
    | .ok b' => some (a, b')
    | .error _ =>
      match fns.coerce a b.typ with
      | .ok a' => some (a', b)
      | .error _ => none

def foldCmp (fns : Fns D) (op : CmpOp) : Expr D → Expr D → Expr D
  | .literal a, .literal b =>
    if a.isNull || b.isNull then .literal (.null ⟨.bool, 0, 0⟩)
    else
      match foldOperands fns a b with
      | none => .cmp op (.literal a) (.literal b)
      | some (a', b') =>
        match a'.cmp b' with
        | .ok o => .literal (.bool (op.test o))
        | .error _ => .cmp op (.literal a) (.literal b)
  | l, r => .cmp op l r

/-- A `BETWEEN` of constants is compared without any conversion. -/
def foldBetween (negated : Bool) : Expr D → Expr D → Expr D → Expr D
  | .literal v, .literal lo, .literal hi =>
    match v.cmp lo, v.cmp hi with
    | .ok c1, .ok c2 => .literal (.bool ((c1 != .lt && c2 != .gt) != negated))
    | _, _ => .between negated (.literal v) (.literal lo) (.literal hi)
  | e, low, high => .between negated e low high

mutual

def foldExpr (fns : Fns D) : Expr D → Expr D
  | .literal v => .literal v
  | .ident name => .ident name
  | .path parts => .path parts
  | .neg e => foldNeg fns (foldExpr fns e)
  | .not e => foldNot (foldExpr fns e)
  | .arith op l r => foldArithExpr fns op (foldExpr fns l) (foldExpr fns r)
  | .cmp op l r => foldCmp fns op (foldExpr fns l) (foldExpr fns r)
  | .and l r => foldLogic false (foldExpr fns l) (foldExpr fns r)
  | .or l r => foldLogic true (foldExpr fns l) (foldExpr fns r)
  | .between negated e low high =>
    foldBetween negated (foldExpr fns e) (foldExpr fns low) (foldExpr fns high)
  | .isNull negated e => foldIsNull negated (foldExpr fns e)
  | .call name args => foldCallExpr fns name (foldExprs fns args)

def foldExprs (fns : Fns D) : List (Expr D) → List (Expr D)
  | [] => []
  | e :: rest => foldExpr fns e :: foldExprs fns rest

end

/-- The constant an expression folds to. -/
def constValue (fns : Fns D) (e : Expr D) : Option (Value D) :=
  match foldExpr fns e with
  | .literal v => some v
  | _ => none

def predIsTrue : Expr D → Bool
  | .literal (.bool b) => b
  | _ => false

def predIsFalse : Expr D → Bool
  | .literal (.null _) => true
  | .literal (.bool b) => !b
  | _ => false

def valuesEqual (a b : Value D) : Bool :=
  match a.cmp b with
  | .ok o => o == .eq
  | .error _ => false

mutual

def exprEqual : Expr D → Expr D → Bool
  | .literal a, .literal b => valuesEqual a b
  | .ident a, .ident b => a == b
  | .path a, .path b => a == b
  | .neg a, .neg b => exprEqual a b
  | .not a, .not b => exprEqual a b
  | .arith p a b, .arith q c d => p == q && exprEqual a c && exprEqual b d
  | .cmp p a b, .cmp q c d => p == q && exprEqual a c && exprEqual b d
  | .and a b, .and c d => exprEqual a c && exprEqual b d
  | .or a b, .or c d => exprEqual a c && exprEqual b d
  | .between m a b c, .between n d e f =>
    m == n && exprEqual a d && exprEqual b e && exprEqual c f
  | .isNull m a, .isNull n b => m == n && exprEqual a b
  | .call f xs, .call g ys => f == g && exprsEqual xs ys
  | _, _ => false

def exprsEqual : List (Expr D) → List (Expr D) → Bool
  | [], [] => true
  | x :: xs, y :: ys => exprEqual x y && exprsEqual xs ys
  | _, _ => false

end

/-! ## Equal expressions -/

mutual

/-- The literals of an expression. -/
def Expr.literals : Expr D → List (Value D)
  | .literal v => [v]
  | .ident _ => []
  | .path _ => []
  | .neg e => e.literals
  | .not e => e.literals
  | .arith _ l r => l.literals ++ r.literals
  | .cmp _ l r => l.literals ++ r.literals
  | .and l r => l.literals ++ r.literals
  | .or l r => l.literals ++ r.literals
  | .between _ e low high => e.literals ++ (low.literals ++ high.literals)
  | .isNull _ e => e.literals
  | .call _ args => literalsOf args

def literalsOf : List (Expr D) → List (Value D)
  | [] => []
  | e :: rest => e.literals ++ literalsOf rest

end

/-- Literals that compare equal are the same. -/
def SameLiterals (a b : List (Value D)) : Prop :=
  ∀ v ∈ a, ∀ w ∈ b, valuesEqual v w = true → v = w

variable {a a' b b' : List (Value D)}

theorem SameLiterals.left (same : SameLiterals (a ++ a') (b ++ b')) : SameLiterals a b :=
  fun v left w right => same v (List.mem_append_left a' left) w (List.mem_append_left b' right)

theorem SameLiterals.right (same : SameLiterals (a ++ a') (b ++ b')) : SameLiterals a' b' :=
  fun v left w right => same v (List.mem_append_right a left) w (List.mem_append_right b right)

mutual

/-- Expressions that are equal node by node are the same, if their literals are. -/
theorem eq_of_exprEqual (a b : Expr D) (same : SameLiterals a.literals b.literals)
    (equal : exprEqual a b) : a = b := by
  cases a <;> cases b <;> simp only [exprEqual, Bool.and_eq_true, beq_iff_eq, reduceCtorEq] at equal <;>
    simp only [Expr.literals] at same
  case literal v w =>
    rw [same v (List.mem_singleton_self v) w (List.mem_singleton_self w) equal]
  case ident => rw [equal]
  case path => rw [equal]
  case neg e e' => rw [eq_of_exprEqual e e' same equal]
  case not e e' => rw [eq_of_exprEqual e e' same equal]
  case arith op l r op' l' r' =>
    rw [equal.1.1, eq_of_exprEqual l l' same.left equal.1.2, eq_of_exprEqual r r' same.right equal.2]
  case cmp op l r op' l' r' =>
    rw [equal.1.1, eq_of_exprEqual l l' same.left equal.1.2, eq_of_exprEqual r r' same.right equal.2]
  case and l r l' r' =>
    rw [eq_of_exprEqual l l' same.left equal.1, eq_of_exprEqual r r' same.right equal.2]
  case or l r l' r' =>
    rw [eq_of_exprEqual l l' same.left equal.1, eq_of_exprEqual r r' same.right equal.2]
  case between m e lo hi m' e' lo' hi' =>
    rw [equal.1.1.1, eq_of_exprEqual e e' same.left equal.1.1.2,
      eq_of_exprEqual lo lo' same.right.left equal.1.2,
      eq_of_exprEqual hi hi' same.right.right equal.2]
  case isNull m e m' e' => rw [equal.1, eq_of_exprEqual e e' same equal.2]
  case call f xs g ys => rw [equal.1, eq_of_exprsEqual xs ys same equal.2]

theorem eq_of_exprsEqual (as bs : List (Expr D))
    (same : SameLiterals (literalsOf as) (literalsOf bs)) (equal : exprsEqual as bs) :
    as = bs := by
  cases as <;> cases bs <;> simp only [exprsEqual, Bool.and_eq_true, reduceCtorEq] at equal <;>
    simp only [literalsOf] at same
  case nil => rfl
  case cons x xs y ys =>
    rw [eq_of_exprEqual x y same.left equal.1, eq_of_exprsEqual xs ys same.right equal.2]

end

end NextSQL.Sql
