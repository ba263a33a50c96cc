import NextSQL.Sql.Subquery

/-!
# Flattened subqueries against their evaluation

What the join of a flattened conjunct keeps, compared with the rows on which the
conjunct itself is true. Where names mean the same in both (`NamesAgree`) the two
differ in exactly three ways (`flattened_exact`).

The join looks for an inner row only among those with the key bytes of the outer
row, and values that are equal need not have equal key bytes when their columns
are of different types. `NOT IN` of a NULL and a subquery with rows is unknown,
but NULL finds no match and the anti join keeps the row. And `EXISTS` of a
subquery that aggregates is true whatever its rows.
-/

namespace NextSQL.Sql

open List Option Except

variable {D : Type} {sc : Scope}

theorem filter_eq_filter_iff {α : Type} {p p' : α → Bool} {xs : List α} :
    xs.filter p = xs.filter p' ↔ ∀ x ∈ xs, p x = p' x := by
  constructor
  · intro equal x member
    rw [Bool.eq_iff_iff]
    have same : x ∈ xs.filter p ↔ x ∈ xs.filter p' := by rw [equal]
    simpa only [mem_filter, member, true_and] using same
  · exact filter_congr

/-! ## The hash table -/

/-- The two rows are under one key of the hash table; without key columns every two are. -/
def SameKey (fns : Fns D) (keys : List ℕ × List ℕ) (l r : Row D) : Prop :=
  (keys.1 = [] ∧ keys.2 = []) ∨ (unmatchedKey l keys.1 = false ∧ unmatchedKey r keys.2 = false ∧
      ∃ key, keyString fns l keys.1 = .ok key ∧ keyString fns r keys.2 = .ok key)

variable {rows : List (Row D)}

theorem probe_spec {test : Row D → Except Nerr Bool} {found : Bool}
    (done : probe test rows = .ok found) : found ↔ ∃ r ∈ rows, test r = .ok true := by
  induction rows with
  | nil =>
    cases done
    simp
  | cons row rest ih =>
    obtain ⟨here, tested, done⟩ := bind_eq_ok_iff.mp done
    cases here with
    | true =>
      cases done
      simp [tested]
    | false =>
      rw [ih done]
      simp [tested]

theorem markRows_spec {anti : Bool} {hit : Row D → Except Nerr Bool} {out : List (Row D)}
    (done : markRows anti hit rows = .ok out) :
    (∀ row ∈ rows, ∃ found, hit row = .ok found) ∧
      out = rows.filter fun row => hit row = .ok !anti := by
  induction rows generalizing out with
  | nil =>
    cases done
    exact ⟨nofun, rfl⟩
  | cons row rest ih =>
    obtain ⟨found, here, done⟩ := bind_eq_ok_iff.mp done
    obtain ⟨more, others, done⟩ := bind_eq_ok_iff.mp done
    obtain ⟨evaluates, rfl⟩ := ih others
    refine ⟨forall_mem_cons.mpr ⟨⟨found, here⟩, evaluates⟩, ?_⟩
    cases done
    rw [filter_cons, here]
    cases anti <;> cases found <;> rfl

theorem mem_buildTable {fns : Fns D} {cols : List ℕ} {table : List (Bytes × Row D)}
    (built : buildTable fns cols rows = .ok table) (key : Bytes) (row : Row D) :
    (key, row) ∈ table ↔
      row ∈ rows ∧ unmatchedKey row cols = false ∧ keyString fns row cols = .ok key := by
  induction rows generalizing table with
  | nil =>
    cases built
    simp
  | cons first rest ih =>
    rw [buildTable] at built
    split at built
    · rename_i unmatched
      rw [ih built, mem_cons]
      constructor
      · exact fun ⟨member, others⟩ => ⟨.inr member, others⟩
      rintro ⟨rfl | member, matched, keyed⟩
      · rw [matched] at unmatched
        cases unmatched
      · exact ⟨member, matched, keyed⟩
    rename_i matched
    rw [Bool.not_eq_true] at matched
    obtain ⟨k, keyed, built⟩ := bind_eq_ok_iff.mp built
    obtain ⟨others, more, ⟨⟩⟩ := bind_eq_ok_iff.mp built
    rw [mem_cons, ih more, mem_cons, Prod.mk.injEq]
    constructor
    · rintro (⟨rfl, rfl⟩ | ⟨member, rest⟩)
      · exact ⟨.inl rfl, matched, keyed⟩
      · exact ⟨.inr member, rest⟩
    rintro ⟨rfl | member, rest⟩
    · rw [keyed] at rest
      exact .inl ⟨(Except.ok.inj rest.2).symm, rfl⟩
    · exact .inr ⟨member, rest⟩

/-! ## References -/

mutual

/-- The names and paths of an expression. -/
def refs : Expr D → List (Expr D)
  | .literal _ => []
  | .ident name => [.ident name]
  | .path parts => [.path parts]
  | .neg e | .not e | .isNull _ e => refs e
  | .arith _ l r | .cmp _ l r | .and l r | .or l r => refs l ++ refs r
  | .between _ e low high => refs e ++ refs low ++ refs high
  | .call _ args => refsAll args

def refsAll : List (Expr D) → List (Expr D)
  | [] => []
  | e :: rest => refs e ++ refsAll rest

end

/-- The position in the joined row that the join reads for a reference. -/
def Scope.joinColumn (sc : Scope) (ref : Expr D) : Option ℕ :=
  (resolveCorrRef sc ref).bind fun found => sc.schema.colIndex found.1

/-- The outer column whose value replaces a reference. -/
def Scope.outerColumn (sc : Scope) : Expr D → Option ℕ
  | .ident name => if (sc.inner.colIndex name).isSome then none else sc.outer.colIndex name
  | .path [qual, col] =>
    if qual = sc.inner.name || qual = sc.givenAlias then none
    else
      match sc.outer.colIndex (qualify qual col) with
      | some i => some i
      | none => sc.outer.colIndex col
  | _ => none

/-- The position in the joined row that the row-by-row evaluation reads. -/
def Scope.rowColumn (sc : Scope) (ref : Expr D) : Option ℕ :=
  match sc.outerColumn ref with
  | some i => some i
  | none =>
    match rewriteQual sc.inner.toTable ref with
    | .ident name => (sc.inner.colIndex name).map (sc.outer.columns.length + ·)
    | _ => none

def Scope.SameColumn (sc : Scope) (ref : Expr D) : Prop :=
  sc.joinColumn ref = sc.rowColumn ref ∧ (sc.rowColumn ref).isSome

instance (ref : Expr D) : Decidable (sc.SameColumn ref) := inferInstanceAs (Decidable (_ ∧ _))

/-- Whether a conjunct becomes a part of the join condition. -/
def Scope.readsOuter (sc : Scope) (c : Expr D) : Bool :=
  match rewriteCorr sc c with
  | some (_, s) => s.outer
  | none => false

/-- The references of a conjunct mean the same in the join and row by row. One that
stays with the inner table must not be replaced by an outer value. -/
def Scope.Agrees (sc : Scope) (c : Expr D) : Prop :=
  ∀ ref ∈ refs c, if sc.readsOuter c then sc.SameColumn ref else sc.outerColumn ref = none

instance (c : Expr D) : Decidable (sc.Agrees c) := inferInstanceAs (Decidable (∀ _ ∈ _, _))

/-- The name a reference is looked up by when it is evaluated. -/
def headName : Expr D → Option String
  | .ident name => some name
  | .path (name :: _) => some name
  | _ => none

variable {tab : Table} {name : String} {i : ℕ}

theorem colIndex_lt (found : tab.colIndex name = some i) : i < tab.columns.length := by
  obtain ⟨bound, -⟩ := findIdx?_eq_some_iff_getElem.mp found
  exact bound

variable {right : Table}

theorem colIndex_mergeTables {left : Table} (found : left.colIndex name = some i) :
    (mergeTables left right).colIndex name = some i := by
  unfold Table.colIndex mergeTables at *
  rw [findIdx?_append, found]
  rfl

variable {l : Row D}

theorem correlateRef_eq (wide : l.length = sc.outer.columns.length) (ref : Expr D) :
    correlateRef sc l ref = (sc.outerColumn ref).bind fun i => l[i]? := by
  have value (name : String) :
      outerValue sc.outer.toTable l name = (sc.outer.colIndex name).bind fun i => l[i]? := rfl
  match ref with
  | .ident name =>
    rw [correlateRef, Scope.outerColumn]
    split
    · rfl
    · rfl
  | .path [qual, col] =>
    rw [correlateRef, Scope.outerColumn]
    split
    · rfl
    rw [value, value]
    cases found : sc.outer.colIndex (qualify qual col) with
    | none => rfl
    | some i =>
      have bound : i < l.length := wide ▸ colIndex_lt found
      simp only [bind_some, getElem?_eq_getElem bound]
  | .path [] | .path [_] | .path (_ :: _ :: _ :: _) | .literal _ | .neg _ | .not _
  | .arith _ _ _ | .cmp _ _ _ | .and _ _ | .or _ _ | .between _ _ _ _ | .isNull _ _ | .call _ _ =>
    rfl

variable {ref : Expr D}

theorem outerColumn_lt (found : sc.outerColumn ref = some i) : i < sc.outer.columns.length := by
  unfold Scope.outerColumn at found
  split at found
  · split at found
    · cases found
    · exact colIndex_lt found
  · split at found
    · cases found
    split at found
    · rename_i here
      cases found
      exact colIndex_lt here
    · exact colIndex_lt found
  · cases found

/-- A position past the outer columns is an inner column, which the bound reference names. -/
theorem rewriteQual_of_rowColumn (row : sc.rowColumn ref = some (sc.outer.columns.length + i)) :
    sc.outerColumn ref = none ∧
      ∃ name, rewriteQual sc.inner.toTable ref = .ident name ∧ sc.inner.colIndex name = some i := by
  rw [Scope.rowColumn] at row
  cases outer : sc.outerColumn ref with
  | some j =>
    rw [outer] at row
    cases row
    have := outerColumn_lt outer
    omega
  | none =>
    rw [outer] at row
    dsimp only at row
    split at row
    · rename_i name bound
      obtain ⟨k, found, position⟩ := map_eq_some_iff.mp row
      obtain rfl : k = i := by omega
      exact ⟨rfl, name, bound, found⟩
    · cases row

mutual

variable {l : Row D}

/-- An expression with no reference to the outer row stays as it is. -/
theorem correlateExpr_eq_self (wide : l.length = sc.outer.columns.length) :
    ∀ e : Expr D, (∀ ref ∈ refs e, sc.outerColumn ref = none) → correlateExpr sc l e = e
  | .literal _, _ => rfl
  | .ident _, kept
  | .path _, kept => by
    rw [correlateExpr, correlated, correlateRef_eq wide, kept _ (mem_singleton_self _)]
    rfl
  | .neg e, kept
  | .not e, kept
  | .isNull _ e, kept => by rw [correlateExpr, correlateExpr_eq_self wide e kept]
  | .arith _ a b, kept
  | .cmp _ a b, kept
  | .and a b, kept
  | .or a b, kept => by
    rw [refs, forall_mem_append] at kept
    rw [correlateExpr, correlateExpr_eq_self wide a kept.1, correlateExpr_eq_self wide b kept.2]
  | .between _ e low high, kept => by
    rw [refs, forall_mem_append, forall_mem_append] at kept
    rw [correlateExpr, correlateExpr_eq_self wide e kept.1.1,
      correlateExpr_eq_self wide low kept.1.2, correlateExpr_eq_self wide high kept.2]
  | .call _ args, kept => by rw [correlateExpr, correlateExprs_eq_self wide args kept]

theorem correlateExprs_eq_self (wide : l.length = sc.outer.columns.length) :
    ∀ es : List (Expr D), (∀ ref ∈ refsAll es, sc.outerColumn ref = none) →
      correlateExprs sc l es = es
  | [], _ => rfl
  | e :: rest, kept => by
    rw [refsAll, forall_mem_append] at kept
    rw [correlateExprs, correlateExpr_eq_self wide e kept.1,
      correlateExprs_eq_self wide rest kept.2]

end

variable {row : Row D}

theorem evalIdent_of_colIndex {v : Value D} (found : tab.colIndex name = some i)
    (stored : row[i]? = some v) : evalIdent tab row name = .ok v := by
  rw [evalIdent, found]
  dsimp only
  rw [stored]

variable {outer : Table}

theorem evalIdent_mergeTables {r : Row D} (wide : l.length = outer.columns.length)
    (known : (outer.colIndex name).isSome) :
    evalIdent (mergeTables outer right) (l ++ r) name = evalIdent outer l name := by
  obtain ⟨i, found⟩ := isSome_iff_exists.mp known
  have bound : i < l.length := wide ▸ colIndex_lt found
  have stored := getElem?_eq_getElem bound
  rw [evalIdent_of_colIndex found stored, evalIdent_of_colIndex (colIndex_mergeTables found)]
  rw [getElem?_append_left bound, stored]

theorem typeOf_mergeTables (known : (outer.colIndex name).isSome) :
    (mergeTables outer right).typeOf name = outer.typeOf name := by
  obtain ⟨i, found⟩ := isSome_iff_exists.mp known
  rw [Table.typeOf, Table.typeOf, found, colIndex_mergeTables found]
  dsimp only [mergeTables]
  rw [getElem?_append_left (colIndex_lt found)]

variable [Ord D] [Inhabited D] {fns : Fns D} {l r : Row D}

/-- A reference that both resolve to one position has one value. -/
theorem eval_ref (wide : l.length = sc.outer.columns.length)
    (narrow : r.length = sc.inner.columns.length) {found : String × Bool}
    (resolved : resolveCorrRef sc ref = some found) (same : sc.SameColumn ref) :
    eval fns sc.schema (l ++ r) (.ident found.1) =
      eval fns sc.inner.toTable r (rewriteQual sc.inner.toTable (correlated sc l ref)) := by
  obtain ⟨equal, known⟩ := same
  obtain ⟨i, row⟩ := isSome_iff_exists.mp known
  have join : sc.schema.colIndex found.1 = some i := by
    rw [← row, ← equal, Scope.joinColumn, resolved]
    rfl
  rw [correlated, correlateRef_eq wide, eval]
  cases outer : sc.outerColumn ref with
  | some j =>
    rw [Scope.rowColumn, outer] at row
    cases row
    have bound : i < l.length := wide ▸ outerColumn_lt outer
    have stored : (l ++ r)[i]? = some l[i] := by
      rw [getElem?_append_left bound, getElem?_eq_getElem bound]
    rw [evalIdent_of_colIndex join stored]
    simp only [bind_some, getElem?_eq_getElem bound, rewriteQual, eval]
  | none =>
    have past : sc.outer.columns.length ≤ i := by
      rw [Scope.rowColumn, outer] at row
      dsimp only at row
      split at row
      · obtain ⟨k, -, position⟩ := map_eq_some_iff.mp row
        omega
      · cases row
    obtain ⟨k, rfl⟩ := Nat.exists_eq_add_of_le past
    obtain ⟨-, name, bound, position⟩ := rewriteQual_of_rowColumn row
    have inside : k < r.length := narrow ▸ colIndex_lt position
    have stored : (l ++ r)[sc.outer.columns.length + k]? = some r[k] := by
      rw [← wide, List.getElem?_append_right (Nat.le_add_right _ _), Nat.add_sub_cancel_left,
        getElem?_eq_getElem inside]
    rw [evalIdent_of_colIndex join stored]
    dsimp only [bind_none]
    rw [bound, eval, evalIdent_of_colIndex position (getElem?_eq_getElem inside)]

mutual

/-- **A rewritten expression has on the joined row the value that the original has
on the inner row once the outer values are put in.** -/
theorem eval_rewriteCorr (wide : l.length = sc.outer.columns.length)
    (narrow : r.length = sc.inner.columns.length) :
    ∀ (e e' : Expr D) (s : Sides), rewriteCorr sc e = some (e', s) →
      (∀ ref ∈ refs e, sc.SameColumn ref) →
      eval fns sc.schema (l ++ r) e' = eval fns sc.inner.toTable r (sc.bound l e)
  | .literal v, _, _, rewritten, _ => by
    cases rewritten
    rfl
  | .ident _, _, _, rewritten, same
  | .path _, _, _, rewritten, same => by
    obtain ⟨found, resolved, known⟩ := map_eq_some_iff.mp rewritten
    cases known
    exact eval_ref wide narrow resolved (same _ (mem_singleton_self _))
  | .neg e, _, _, rewritten, same
  | .not e, _, _, rewritten, same
  | .isNull _ e, _, _, rewritten, same => by
    obtain ⟨⟨e', s⟩, here, ⟨⟩⟩ := bind_eq_some_iff.mp rewritten
    simp only [Scope.bound, correlateExpr, rewriteQual, eval]
    rw [eval_rewriteCorr wide narrow e e' _ here same]
    rfl
  | .arith _ a b, _, _, rewritten, same
  | .cmp _ a b, _, _, rewritten, same
  | .and a b, _, _, rewritten, same
  | .or a b, _, _, rewritten, same => by
    obtain ⟨⟨a', s⟩, first, rest⟩ := bind_eq_some_iff.mp rewritten
    obtain ⟨⟨b', t⟩, second, ⟨⟩⟩ := bind_eq_some_iff.mp rest
    rw [refs, forall_mem_append] at same
    simp only [Scope.bound, correlateExpr, rewriteQual, eval]
    rw [eval_rewriteCorr wide narrow a a' s first same.1,
      eval_rewriteCorr wide narrow b b' t second same.2]
    rfl
  | .between _ e low high, _, _, rewritten, same => by
    obtain ⟨⟨e', s⟩, first, rest⟩ := bind_eq_some_iff.mp rewritten
    obtain ⟨⟨low', t⟩, second, rest⟩ := bind_eq_some_iff.mp rest
    obtain ⟨⟨high', u⟩, third, ⟨⟩⟩ := bind_eq_some_iff.mp rest
    rw [refs, forall_mem_append, forall_mem_append] at same
    simp only [Scope.bound, correlateExpr, rewriteQual, eval]
    rw [eval_rewriteCorr wide narrow e e' s first same.1.1,
      eval_rewriteCorr wide narrow low low' t second same.1.2,
      eval_rewriteCorr wide narrow high high' u third same.2]
    rfl
  | .call name args, _, _, rewritten, same => by
    rw [rewriteCorr] at rewritten
    split at rewritten
    · cases rewritten
    · obtain ⟨⟨args', s⟩, here, ⟨⟩⟩ := bind_eq_some_iff.mp rewritten
      simp only [Scope.bound, correlateExpr, rewriteQual, eval]
      rw [evalArgs_rewriteCorr wide narrow args args' _ here same]

theorem evalArgs_rewriteCorr (wide : l.length = sc.outer.columns.length)
    (narrow : r.length = sc.inner.columns.length) :
    ∀ (es es' : List (Expr D)) (s : Sides), rewriteCorrArgs sc es = some (es', s) →
      (∀ ref ∈ refsAll es, sc.SameColumn ref) →
      evalArgs fns sc.schema (l ++ r) es' =
        evalArgs fns sc.inner.toTable r (rewriteQuals sc.inner.toTable (correlateExprs sc l es))
  | [], _, _, rewritten, _ => by
    cases rewritten
    rfl
  | e :: rest, _, _, rewritten, same => by
    obtain ⟨⟨e', s⟩, first, more⟩ := bind_eq_some_iff.mp rewritten
    obtain ⟨⟨rest', t⟩, second, ⟨⟩⟩ := bind_eq_some_iff.mp more
    rw [refsAll, forall_mem_append] at same
    rw [evalArgs, correlateExprs, rewriteQuals, evalArgs,
      eval_rewriteCorr wide narrow e e' s first same.1,
      evalArgs_rewriteCorr wide narrow rest rest' t second same.2]
    rfl

end

mutual

variable {outer right : Table}

/-- An expression over the outer columns has on the joined row the value it has on
the outer row. -/
theorem eval_mergeTables (wide : l.length = outer.columns.length) :
    ∀ e : Expr D, (∀ ref ∈ refs e, ∀ name, headName ref = some name →
        (outer.colIndex name).isSome) →
      eval fns (mergeTables outer right) (l ++ r) e = eval fns outer l e
  | .literal _, _ => rfl
  | .ident name, known => by
    rw [eval, eval, evalIdent_mergeTables wide (known _ (mem_singleton_self _) _ rfl)]
  | .path parts, known => by
    rw [eval, eval]
    match parts, known with
    | [], _ => rfl
    | [_], _ => rfl
    | name :: first :: rest, known =>
      have here := known _ (mem_singleton_self _) name rfl
      rw [evalPath, evalPath, evalIdent_mergeTables wide here, typeOf_mergeTables here]
  | .neg e, known
  | .not e, known
  | .isNull _ e, known => by
    rw [eval, eval, eval_mergeTables wide e known]
  | .arith _ a b, known
  | .cmp _ a b, known
  | .and a b, known
  | .or a b, known => by
    rw [refs, forall_mem_append] at known
    rw [eval, eval, eval_mergeTables wide a known.1, eval_mergeTables wide b known.2]
  | .between _ e low high, known => by
    rw [refs, forall_mem_append, forall_mem_append] at known
    rw [eval, eval, eval_mergeTables wide e known.1.1, eval_mergeTables wide low known.1.2,
      eval_mergeTables wide high known.2]
  | .call _ args, known => by
    rw [eval, eval, evalArgs_mergeTables wide args known]

theorem evalArgs_mergeTables (wide : l.length = outer.columns.length) :
    ∀ es : List (Expr D), (∀ ref ∈ refsAll es, ∀ name, headName ref = some name →
        (outer.colIndex name).isSome) →
      evalArgs fns (mergeTables outer right) (l ++ r) es = evalArgs fns outer l es
  | [], _ => rfl
  | e :: rest, known => by
    rw [refsAll, forall_mem_append] at known
    rw [evalArgs, evalArgs, eval_mergeTables wide e known.1, evalArgs_mergeTables wide rest known.2]

end

/-! ## Splitting the filter -/

variable {f : Expr D → Expr D}

theorem matchRow_map (splits : ∀ a b, f (.and a b) = .and (f a) (f b)) (pred : Option (Expr D)) :
    matchRow fns tab row (pred.map f) = .ok true ↔
      ∀ c ∈ conjunctsOf pred, Holds fns tab row (f c) := by
  cases pred with
  | none => simp [matchRow, conjunctsOf]
  | some e =>
    rw [map_some, matchRow_some_eq_true, conjunctsOf]
    fun_induction conjuncts e with
    | case1 a b left right =>
      rw [splits, holds_and, left, right]
      simp only [mem_append, or_imp, forall_and]
    | case2 e => simp

theorem holds_map_andAll (splits : ∀ a b, f (.and a b) = .and (f a) (f b)) (cs : List (Expr D)) :
    matchRow fns tab row ((andAll cs).map f) = .ok true ↔ ∀ c ∈ cs, Holds fns tab row (f c) := by
  have mapped : (andAll cs).map f = andAll (cs.map f) := by
    cases cs with
    | nil => rfl
    | cons c rest =>
      rw [andAll, map_cons, andAll, map_some, foldl_map]
      congr 1
      induction rest generalizing c with
      | nil => rfl
      | cons d rest ih => rw [foldl_cons, foldl_cons, ih, splits]
  rw [mapped, matchRow_andAll, List.forall_mem_map]

/-- The inner row passes the filter of the subquery for the outer row. -/
def Scope.Selects (fns : Fns D) (sc : Scope) (filter : Option (Expr D)) (l r : Row D) : Prop :=
  matchRow fns sc.inner.toTable r (filter.map (sc.bound l)) = .ok true

section

variable (wide : l.length = sc.outer.columns.length) (narrow : r.length = sc.inner.columns.length)

include wide narrow

theorem splitConjuncts_holds {cs inners joins : List (Expr D)}
    (split : splitConjuncts sc cs = some (inners, joins)) (agree : ∀ c ∈ cs, sc.Agrees c) :
    (∀ c ∈ cs, Holds fns sc.inner.toTable r (sc.bound l c)) ↔
      (∀ c ∈ inners, Holds fns sc.inner.toTable r (rewriteQual sc.inner.toTable c)) ∧
        ∀ j ∈ joins, Holds fns sc.schema (l ++ r) j := by
  induction cs generalizing inners joins with
  | nil =>
    cases split
    simp
  | cons c rest ih =>
    obtain ⟨⟨c', s⟩, rewritten, more⟩ := bind_eq_some_iff.mp split
    obtain ⟨⟨inners', joins'⟩, others, placed⟩ := bind_eq_some_iff.mp more
    have here : sc.Agrees c := agree c mem_cons_self
    have later := ih others fun d member => agree d (mem_cons_of_mem _ member)
    have side : sc.readsOuter c = s.outer := by rw [Scope.readsOuter, rewritten]
    unfold Scope.Agrees at here
    rw [side] at here
    cases reads : s.outer with
    | true =>
      rw [reads] at here
      simp only [reads, if_true] at placed
      cases placed
      have same : eval fns sc.schema (l ++ r) c' = eval fns sc.inner.toTable r (sc.bound l c) :=
        eval_rewriteCorr wide narrow c c' s rewritten here
      rw [forall_mem_cons, forall_mem_cons, later]
      unfold Holds
      rw [same]
      tauto
    | false =>
      rw [reads] at here
      simp only [reads] at placed
      cases placed
      have kept := correlateExpr_eq_self wide c here
      rw [forall_mem_cons, forall_mem_cons, later]
      rw [show sc.bound l c = rewriteQual sc.inner.toTable c by rw [Scope.bound, kept]]
      tauto

/-- An inner row is selected for an outer row exactly when it passes the filter left
to the inner table and the pair meets the rest. -/
theorem selects_iff {filter innerWhere pred : Option (Expr D)}
    (split : splitCorrPred sc filter = some (innerWhere, pred))
    (agree : ∀ c ∈ conjunctsOf filter, sc.Agrees c) :
    sc.Selects fns filter l r ↔
      matchRow fns sc.inner.toTable r (innerWhere.map (rewriteQual sc.inner.toTable)) = .ok true ∧
        matchRow fns sc.schema (l ++ r) pred = .ok true := by
  obtain ⟨⟨inners, joins⟩, conjunctsSplit, known⟩ := bind_eq_some_iff.mp split
  cases known
  rw [Scope.Selects, matchRow_map fun a b => by rw [Scope.bound, correlateExpr, rewriteQual]; rfl,
    holds_map_andAll fun a b => by rw [rewriteQual], matchRow_andAll,
    splitConjuncts_holds wide narrow conjunctsSplit agree]

end

/-! ## What the join keeps -/

/-- **A semi join keeps the outer rows that have an inner row under their key which
meets the condition, an anti join those that have none.** -/
theorem hashMark_spec {sj : BoundSubjoin D} {keys : List ℕ × List ℕ}
    {left right kept : List (Row D)} (done : hashMark fns sj keys left right = .ok kept) :
    ∃ keep : Row D → Bool, kept = left.filter keep ∧
      ∀ l ∈ left, (keep l ↔ (sj.anti = false ↔ ∃ r ∈ right, SameKey fns keys l r ∧
          matchRow fns sj.schema (l ++ r) sj.pred = .ok true)) := by
  have marked {anti : Bool} {result : Except Nerr Bool} {found : Bool} {P : Prop}
      (here : result = .ok found) (means : found ↔ P) :
      decide (result = .ok !anti) ↔ (anti = false ↔ P) := by
    subst here
    rw [decide_eq_true_iff, Except.ok.injEq, ← means]
    cases anti <;> cases found <;> simp
  rw [hashMark] at done
  split at done
  · rename_i none
    rw [Bool.and_eq_true, List.isEmpty_iff, List.isEmpty_iff] at none
    obtain ⟨evaluates, rfl⟩ := markRows_spec done
    refine ⟨_, rfl, fun l member => ?_⟩
    obtain ⟨found, here⟩ := evaluates l member
    refine marked here ((probe_spec here).trans ?_)
    refine exists_congr fun r => and_congr_right fun _ => ?_
    exact ⟨fun met => ⟨.inl none, met⟩, fun both => both.2⟩
  rename_i some
  have keyed : ¬ (keys.1 = [] ∧ keys.2 = []) := by
    rwa [Bool.and_eq_true, List.isEmpty_iff, List.isEmpty_iff] at some
  obtain ⟨table, built, done⟩ := bind_eq_ok_iff.mp done
  obtain ⟨evaluates, rfl⟩ := markRows_spec done
  refine ⟨_, rfl, fun l member => ?_⟩
  obtain ⟨found, here⟩ := evaluates l member
  refine marked here ?_
  split at here
  · rename_i unmatched
    cases here
    simp only [Bool.false_eq_true, false_iff, not_exists, not_and]
    rintro r - (none | ⟨matched, -⟩)
    · exact absurd none keyed
    · rw [unmatched] at matched
      cases matched
  rename_i matched
  rw [Bool.not_eq_true] at matched
  obtain ⟨key, encoded, here⟩ := bind_eq_ok_iff.mp here
  rw [probe_spec here]
  constructor
  · rintro ⟨r, member, met⟩
    obtain ⟨⟨k, row⟩, entry, rfl⟩ := mem_map.mp member
    obtain ⟨stored, same⟩ := mem_filter.mp entry
    obtain rfl : k = key := of_decide_eq_true same
    obtain ⟨inside, matched', encoded'⟩ := (mem_buildTable built _ _).mp stored
    exact ⟨row, inside, .inr ⟨matched, matched', _, encoded, encoded'⟩, met⟩
  rintro ⟨r, inside, none | ⟨-, matched', k, encoded', stored⟩, met⟩
  · exact absurd none keyed
  rw [encoded] at encoded'
  cases encoded'
  refine ⟨r, mem_map.mpr ⟨(key, r), mem_filter.mpr ⟨?_, ?_⟩, rfl⟩, met⟩
  · exact (mem_buildTable built _ _).mpr ⟨inside, matched', stored⟩
  · exact decide_eq_true rfl

/-! ## What the evaluation finds -/

section Evaluation

variable {aggregate : List (Expr D) → List (Row D) → Except Nerr (Row D)} {q : SubSelect D}
  {outer : Relation} {outerAlias : String} {stored : List (Row D)}

/-- A stored row: one value for each column, and no NULL where none may be. -/
structure StoredRow (rel : Relation) (row : Row D) : Prop where
  width : row.length = rel.columns.length
  present : ∀ i ∈ rel.notNull, ∀ v, row[i]? = some v → v.isNull = false

variable {rows : List (Row D)}

theorem projectRows_spec {tab : Table} {list : List (Expr D)} {out : List (Row D)}
    (done : projectRows fns tab list rows = .ok out) :
    Forall₂ (fun row o => (evalArgs fns tab row list).mapM id = .ok o) rows out := by
  induction rows generalizing out with
  | nil =>
    cases done
    exact .nil
  | cons row rest ih =>
    obtain ⟨o, here, done⟩ := bind_eq_ok_iff.mp done
    obtain ⟨more, others, ⟨⟩⟩ := bind_eq_ok_iff.mp done
    exact .cons here (ih others)

theorem mem_emitted {filter : Option (Expr D)}
    (emitted : emitRows fns q.table.toTable (filter.map ((q.scope outer outerAlias).bound l)) stored =
      .ok rows) : r ∈ rows ↔ r ∈ stored ∧ (q.scope outer outerAlias).Selects fns filter l r := by
  rw [emitRows_eq_filter emitted, mem_filter, passes_iff, ← matchRow_iff_conjuncts]
  rfl

/-- A subquery has a row for an outer row if it aggregates or selects an inner row. -/
theorem run_ne_nil (done : q.run fns aggregate (q.scope outer outerAlias) l stored = .ok rows) :
    rows ≠ [] ↔ q.hasAgg ∨
      ∃ r ∈ stored, (q.scope outer outerAlias).Selects fns q.filter l r := by
  obtain ⟨passing, emitted, done⟩ := bind_eq_ok_iff.mp done
  have some : passing ≠ [] ↔ ∃ r ∈ stored, (q.scope outer outerAlias).Selects fns q.filter l r := by
    rw [Ne, eq_nil_iff_forall_not_mem, not_forall]
    exact exists_congr fun r => not_not.trans (mem_emitted emitted)
  split at done
  · rename_i star
    cases done
    rw [some, SubSelect.hasAgg, star]
    simp
  split at done
  · rename_i agg
    obtain ⟨one, -, ⟨⟩⟩ := bind_eq_ok_iff.mp done
    simp [agg]
  · rename_i agg
    rw [← some, ne_nil_iff_length_pos, ne_nil_iff_length_pos, (projectRows_spec done).length_eq]
    simp [agg]

variable {i : ℕ}

omit [Ord D] [Inhabited D] in
theorem exists_of_forall₂ {passing : List (Row D)}
    (columns : Forall₂ (fun r o => ∃ w, r[i]? = some w ∧ o = [w]) passing rows) :
    ∃ candidates : List (Value D), rows = candidates.map (fun w => [w]) ∧
      Forall₂ (fun r w => r[i]? = some w) passing candidates := by
  induction columns with
  | nil => exact ⟨[], rfl, .nil⟩
  | cons here _ ih =>
    obtain ⟨w, value, rfl⟩ := here
    obtain ⟨candidates, rfl, values⟩ := ih
    exact ⟨w :: candidates, rfl, .cons value values⟩

/-- The columns an `IN` returns are the values of its column in the selected rows. -/
theorem run_in_spec (output : inOutputColumn q = some i) (reads : ∀ item ∈ q.list,
      (q.scope outer outerAlias).rowColumn item = some (outer.columns.length + i))
    (wide : l.length = outer.columns.length)
    (done : q.run fns aggregate (q.scope outer outerAlias) l stored = .ok rows) :
    ∃ (passing : List (Row D)) (candidates : List (Value D)), rows = candidates.map (fun w => [w]) ∧
      Forall₂ (fun r w => r[i]? = some w) passing candidates ∧
      ∀ r, r ∈ passing ↔ r ∈ stored ∧ (q.scope outer outerAlias).Selects fns q.filter l r := by
  obtain ⟨passing, emitted, done⟩ := bind_eq_ok_iff.mp done
  suffices columns : Forall₂ (fun r o => ∃ w, r[i]? = some w ∧ o = [w]) passing rows by
    obtain ⟨candidates, listed, values⟩ := exists_of_forall₂ columns
    exact ⟨passing, candidates, listed, values, fun r => mem_emitted emitted⟩
  rw [inOutputColumn] at output
  split at output
  · cases output
  rename_i star
  split at output
  · rename_i item single
    obtain ⟨name, referred, position⟩ := bind_eq_some_iff.mp output
    obtain ⟨kept, bound, rewritten, found⟩ :=
      rewriteQual_of_rowColumn (reads item (single ▸ mem_singleton_self _))
    have plain : q.hasAgg = false := by
      rw [SubSelect.hasAgg, single]
      cases item <;> first | cases referred | simp [containsAgg]
    have same : (q.scope outer outerAlias).bound l item = .ident bound := by
      have alone : ∀ ref ∈ refs item, (q.scope outer outerAlias).outerColumn ref = none := by
        cases item <;> first | cases referred | simpa [refs] using kept
      rw [Scope.bound, correlateExpr_eq_self wide item alone, rewritten]
    rw [if_neg star, plain, single, map_singleton, same] at done
    refine (projectRows_spec done).imp fun r o projected => ?_
    replace found : q.table.colIndex bound = some i := found
    rw [evalArgs, evalArgs, eval, evalIdent, found] at projected
    dsimp only at projected
    cases value : r[i]? with
    | none =>
      rw [value] at projected
      cases projected
    | some w =>
      rw [value] at projected
      cases projected
      exact ⟨w, rfl, rfl⟩
  · cases output

/-- Two values are equal as `IN` compares them. -/
def Equal (fns : Fns D) (v w : Value D) : Prop := evalCmp fns .eq v w = .ok (.bool true)

variable {v : Value D}

theorem not_equal_of_isNull {w : Value D} (null : (v.isNull || w.isNull)) :
    ¬ Equal fns v w := by
  rw [Equal, evalCmp, if_pos null]
  nofun

/-- `IN` that evaluates has found an equal candidate, or there is none and the
result depends on whether a NULL was met. -/
theorem evalIn_spec {negated unknown : Bool} {left : Value D} {candidates : List (Value D)}
    (columns : rows = candidates.map fun w => [w])
    (done : evalIn fns negated left unknown rows = .ok v) :
    (v = .bool !negated ∧ ∃ w ∈ candidates, Equal fns left w) ∨
      ((∀ w ∈ candidates, ¬ Equal fns left w) ∧
        v = if unknown || candidates.any fun w => left.isNull || w.isNull
          then .null ⟨.bool, 0, 0⟩ else .bool negated) := by
  subst columns
  induction candidates generalizing unknown with
  | nil =>
    cases done
    exact .inr ⟨nofun, by simp⟩
  | cons w rest ih =>
    rw [map_cons, evalIn] at done
    split at done
    · rename_i null
      obtain ⟨value, other, member, equal⟩ | ⟨none, value⟩ := ih done
      · exact .inl ⟨value, other, mem_cons_of_mem _ member, equal⟩
      · refine .inr ⟨forall_mem_cons.mpr ⟨not_equal_of_isNull null, none⟩, ?_⟩
        rw [value, any_cons, null]
        simp
    rename_i present
    obtain ⟨cmpRight, converted, done⟩ := bind_eq_ok_iff.mp done
    obtain ⟨o, compared, done⟩ := bind_eq_ok_iff.mp done
    have outcome : evalCmp fns .eq left w = .ok (.bool (o == .eq)) := by
      rw [evalCmp, if_neg present]
      unfold inOperand at converted
      split at converted
      · rename_i kinds
        cases converted
        rw [if_pos kinds, compared]
        rfl
      rename_i kinds
      cases coerced : fns.coerce w left.typ with
      | error err =>
        rw [coerced] at converted
        cases converted
      | ok right' =>
        rw [coerced] at converted
        cases converted
        simp only [if_neg kinds, compared]
        rfl
    split at done
    · rename_i same
      subst same
      cases done
      exact .inl ⟨rfl, w, mem_cons_self, outcome⟩
    rename_i different
    have unequal : ¬ Equal fns left w := by
      rw [Equal, outcome]
      intro equal
      cases o <;> first | exact different rfl | cases equal
    obtain ⟨value, other, member, equal⟩ | ⟨none, value⟩ := ih done
    · exact .inl ⟨value, other, mem_cons_of_mem _ member, equal⟩
    · refine .inr ⟨forall_mem_cons.mpr ⟨unequal, none⟩, ?_⟩
      rw [value, any_cons, Bool.eq_false_of_not_eq_true present, Bool.false_or]

end Evaluation

/-! ## Exactness -/

section Exact

variable (outer : Relation) (outerAlias : String)

/-- Whether a conjunct is a negated one, which becomes an anti join. -/
def SubConjunct.negative : SubConjunct D → Bool
  | .existsQuery anti _ => anti
  | .inQuery negated _ _ => negated

/-- Names mean the same to the join and to the evaluation: every reference of the
filter does, the column that `IN` returns is the one the join compares, and the
value tested reads outer columns. -/
def NamesAgree : SubConjunct D → Prop
  | .existsQuery _ q => ∀ c ∈ conjunctsOf q.filter, (q.scope outer outerAlias).Agrees c
  | .inQuery _ x q =>
    (∀ c ∈ conjunctsOf q.filter, (q.scope outer outerAlias).Agrees c) ∧
      (∀ ref ∈ refs x, ∀ name, headName ref = some name → (outer.colIndex name).isSome) ∧
      ∀ i col, inOutputColumn q = some i → q.table.columns[i]? = some col →
        (q.scope outer outerAlias).schema.colIndex
            (qualify (q.scope outer outerAlias).innerAlias col.name) =
          some (outer.columns.length + i) ∧
        ∀ item ∈ q.list, (q.scope outer outerAlias).rowColumn item = some (outer.columns.length + i)

/-- The inner row answers the conjunct: it is selected and, for `IN`, the column
returned is equal to the value tested. -/
def Answers (fns : Fns D) (l r : Row D) : SubConjunct D → Prop
  | .existsQuery _ q => (q.scope outer outerAlias).Selects fns q.filter l r
  | .inQuery _ x q =>
    (q.scope outer outerAlias).Selects fns q.filter l r ∧
      ∃ i v w, inOutputColumn q = some i ∧ eval fns outer.toTable l x = .ok v ∧
        r[i]? = some w ∧ Equal fns v w

/-- What the join of an outer row depends on: if the conjunct has an answer, and it
always has one when it aggregates, then some answer is under the key of the outer
row; and a NULL is tested by `NOT IN` only against no rows at all. -/
def Faithful (fns : Fns D) (keys : List ℕ × List ℕ) (stored : List (Row D)) (l : Row D)
    (conj : SubConjunct D) : Prop :=
  match conj with
  | .existsQuery _ q =>
    (q.hasAgg = true ∨ ∃ r ∈ stored, Answers outer outerAlias fns l r conj) →
      ∃ r ∈ stored, Answers outer outerAlias fns l r conj ∧ SameKey fns keys l r
  | .inQuery negated x q =>
    ((∃ r ∈ stored, Answers outer outerAlias fns l r conj) →
        ∃ r ∈ stored, Answers outer outerAlias fns l r conj ∧ SameKey fns keys l r) ∧
      (negated = true → ∀ v, eval fns outer.toTable l x = .ok v → v.isNull = true →
        ∀ r ∈ stored, ¬ (q.scope outer outerAlias).Selects fns q.filter l r)

variable {outer outerAlias}
variable {aggregate : List (Expr D) → List (Row D) → Except Nerr (Row D)}
  {left stored kept : List (Row D)} {sj : BoundSubjoin D} {conj : SubConjunct D}

variable {negated : Bool} {q : SubSelect D} {x : Expr D}

omit [Ord D] [Inhabited D] in
theorem flattenIn_eq_some (flattened : flattenIn outer outerAlias negated x q = some sj) :
    ∃ i col innerWhere pred, inOutputColumn q = some i ∧ q.table.columns[i]? = some col ∧
      (negated → i ∈ q.table.notNull) ∧
      splitCorrPred (q.scope outer outerAlias) q.filter = some (innerWhere, pred) ∧
      sj = ⟨negated, innerWhere, andAll (pred.toList ++
        [.cmp .eq x (.ident (qualify (q.scope outer outerAlias).innerAlias col.name))]),
        (q.scope outer outerAlias).schema⟩ := by
  rw [flattenIn] at flattened
  split at flattened
  · cases flattened
  rename_i i returned
  split at flattened
  · cases flattened
  rename_i col column
  split at flattened
  · cases flattened
  rename_i nullable
  split at flattened
  · cases flattened
  obtain ⟨⟨innerWhere, pred⟩, split, ⟨⟩⟩ := bind_eq_some_iff.mp flattened
  refine ⟨i, col, innerWhere, pred, returned, column, fun negative => ?_, split, rfl⟩
  by_contra absent
  rw [negative] at nullable
  exact nullable (by simpa using absent)

theorem matchRow_iff_toList {tab : Table} {row : Row D} {pred : Option (Expr D)} :
    matchRow fns tab row pred = .ok true ↔ ∀ c ∈ pred.toList, Holds fns tab row c := by
  cases pred with
  | none => simp [matchRow]
  | some e => simp [matchRow_some_eq_true]

/-- The join of a flattened conjunct looks for an answer under the key of the outer row. -/
theorem joined_iff (flattened : flattenSubqueryConjunct outer outerAlias conj = some sj)
    (names : NamesAgree outer outerAlias conj) (wide : l.length = outer.columns.length)
    (narrow : r.length = conj.query.table.columns.length) :
    (matchRow fns conj.query.table.toTable r
        (sj.innerWhere.map (rewriteQual conj.query.table.toTable)) = .ok true ∧
      matchRow fns sj.schema (l ++ r) sj.pred = .ok true) ↔
      Answers outer outerAlias fns l r conj := by
  cases conj with
  | existsQuery anti q =>
    rw [flattenSubqueryConjunct, flattenExists] at flattened
    split at flattened
    · cases flattened
    obtain ⟨⟨innerWhere, pred⟩, split, ⟨⟩⟩ := bind_eq_some_iff.mp flattened
    exact (selects_iff wide narrow split names).symm
  | inQuery negated x q =>
    obtain ⟨agree, reads, output⟩ := names
    obtain ⟨i, col, innerWhere, pred, returned, column, -, split, rfl⟩ :=
      flattenIn_eq_some flattened
    obtain ⟨position, -⟩ := output i col returned column
    have inside : i < r.length := narrow ▸ (List.getElem?_eq_some_iff.mp column).1
    have value : (l ++ r)[outer.columns.length + i]? = some r[i] := by
      rw [← wide, List.getElem?_append_right (Nat.le_add_right _ _), Nat.add_sub_cancel_left,
        getElem?_eq_getElem inside]
    have tested : eval fns (q.scope outer outerAlias).schema (l ++ r) x =
        eval fns outer.toTable l x := eval_mergeTables wide x reads
    have returns : eval fns (q.scope outer outerAlias).schema (l ++ r)
        (.ident (qualify (q.scope outer outerAlias).innerAlias col.name)) = .ok r[i] := by
      rw [eval, evalIdent_of_colIndex position value]
    rw [matchRow_andAll, forall_mem_append, ← matchRow_iff_toList, forall_mem_singleton,
      holds_cmp_iff, tested, returns, ← and_assoc, Answers]
    refine and_congr (selects_iff wide narrow split agree).symm ⟨?_, ?_⟩
    · rintro ⟨v, w, evaluated, ⟨⟩, equal⟩
      exact ⟨i, v, _, returned, evaluated, getElem?_eq_getElem inside, equal⟩
    rintro ⟨j, v, w, returned', evaluated, here, equal⟩
    obtain rfl : i = j := Option.some.inj (returned.symm.trans returned')
    rw [getElem?_eq_getElem inside] at here
    cases here
    exact ⟨v, _, evaluated, rfl, equal⟩

omit [Ord D] [Inhabited D] in
theorem flattenSubqueryConjunct_anti
    (flattened : flattenSubqueryConjunct outer outerAlias conj = some sj) :
    sj.anti = conj.negative := by
  cases conj with
  | existsQuery anti q =>
    rw [flattenSubqueryConjunct, flattenExists] at flattened
    split at flattened
    · cases flattened
    obtain ⟨-, -, ⟨⟩⟩ := bind_eq_some_iff.mp flattened
    rfl
  | inQuery negated x q =>
    obtain ⟨i, col, innerWhere, pred, -, -, -, -, rfl⟩ := flattenIn_eq_some flattened
    rfl

/-- What the join of a flattened conjunct keeps, in terms of its answers. -/
theorem run_spec (flattened : flattenSubqueryConjunct outer outerAlias conj = some sj)
    (names : NamesAgree outer outerAlias conj)
    (wide : ∀ l ∈ left, l.length = outer.columns.length)
    (narrow : ∀ r ∈ stored, StoredRow conj.query.table r)
    (ran : sj.run fns outer.toTable conj.query.table.toTable left stored = .ok kept) :
    ∃ keep : Row D → Bool, kept = left.filter keep ∧
      ∀ l ∈ left, (keep l ↔ (conj.negative = false ↔
        ∃ r ∈ stored, Answers outer outerAlias fns l r conj ∧
          SameKey fns (joinKeys sj.schema outer.columns.length sj.pred) l r)) := by
  obtain ⟨right, emitted, ran⟩ := bind_eq_ok_iff.mp ran
  obtain ⟨keep, filtered, kept_iff⟩ := hashMark_spec ran
  refine ⟨keep, filtered, fun l member => ?_⟩
  rw [kept_iff l member, flattenSubqueryConjunct_anti flattened, emitRows_eq_filter emitted]
  refine iff_congr Iff.rfl (exists_congr fun r => ?_)
  rw [mem_filter, passes_iff, ← matchRow_iff_conjuncts, and_assoc]
  refine and_congr_right fun inside => ?_
  rw [← joined_iff flattened names (wide l member) (narrow r inside).width]
  tauto

variable {v : Value D}

/-- `IN` is true when an answer exists; `NOT IN` is true when there is none and no
NULL was met, neither the value tested nor one returned. -/
theorem eval_in_true
    (flattened : flattenSubqueryConjunct outer outerAlias (.inQuery negated x q) = some sj)
    (names : NamesAgree outer outerAlias (.inQuery negated x q))
    (wide : l.length = outer.columns.length) (shaped : ∀ r ∈ stored, StoredRow q.table r)
    (evaluated :
      evalConjunct fns aggregate outer outerAlias stored l (.inQuery negated x q) = .ok v) :
    ∃ tested, eval fns outer.toTable l x = .ok tested ∧ (v = .bool true ↔
        (negated = false ↔ ∃ r ∈ stored, Answers outer outerAlias fns l r (.inQuery negated x q)) ∧
          (negated → tested.isNull → ∀ r ∈ stored,
            ¬ (q.scope outer outerAlias).Selects fns q.filter l r)) := by
  obtain ⟨i, col, _, _, returned, column, nonNull, -, -⟩ := flattenIn_eq_some flattened
  obtain ⟨tested, value, evaluated⟩ := bind_eq_ok_iff.mp evaluated
  obtain ⟨rows, ran, evaluated⟩ := bind_eq_ok_iff.mp evaluated
  obtain ⟨-, evaluated⟩ := check_eq_ok_iff.mp evaluated
  obtain ⟨passing, candidates, listed, values, selected⟩ :=
    run_in_spec returned (names.2.2 i col returned column).2 wide ran
  have answered : (∃ r ∈ stored, Answers outer outerAlias fns l r (.inQuery negated x q)) ↔
      ∃ w ∈ candidates, Equal fns tested w := by
    constructor
    · rintro ⟨r, inside, selects, j, v', w, returned', value', here, equal⟩
      cases returned.symm.trans returned'
      cases value.symm.trans value'
      obtain ⟨w', member, here'⟩ := values.exists_right ((selected r).mpr ⟨inside, selects⟩)
      cases here.symm.trans here'
      exact ⟨w, member, equal⟩
    · rintro ⟨w, member, equal⟩
      obtain ⟨r, passes, here⟩ := values.flip.exists_right member
      obtain ⟨inside, selects⟩ := (selected r).mp passes
      exact ⟨r, inside, selects, i, tested, w, returned, value, here, equal⟩
  refine ⟨tested, value, ?_⟩
  rw [answered]
  obtain ⟨rfl, found⟩ | ⟨none, rfl⟩ := evalIn_spec listed evaluated
  · cases negated <;> simp [found]
  have unanswered : ¬ ∃ w ∈ candidates, Equal fns tested w := by
    rintro ⟨w, member, equal⟩
    exact none w member equal
  cases negated with
  | false =>
    simp only [unanswered]
    split <;> simp
  | true =>
    have met : (candidates.any fun w => tested.isNull || w.isNull) = true ↔
        tested.isNull ∧ ∃ r ∈ stored,
          (q.scope outer outerAlias).Selects fns q.filter l r := by
      rw [List.any_eq_true]
      constructor
      · rintro ⟨w, member, null⟩
        obtain ⟨r, passes, here⟩ := values.flip.exists_right member
        obtain ⟨inside, selects⟩ := (selected r).mp passes
        rw [(shaped r inside).present i (nonNull rfl) w here, Bool.or_false] at null
        exact ⟨null, r, inside, selects⟩
      · rintro ⟨null, r, inside, selects⟩
        obtain ⟨w, member, -⟩ := values.exists_right ((selected r).mpr ⟨inside, selects⟩)
        exact ⟨w, member, by rw [null, Bool.true_or]⟩
    simp only [unanswered, Bool.false_or, met]
    split <;> simp_all

variable {hit answer : Prop}

/-- Marks that are never wrong about a hit agree with the answers exactly if no
answer is missed. -/
theorem marks_iff (sound : hit → answer) :
    ((negated = false ↔ hit) ↔ (negated = false ↔ answer)) ↔ (answer → hit) := by
  by_cases here : answer <;> by_cases found : hit <;> cases negated <;> simp_all

/-- The same when a negated result has to be known as well. -/
theorem marks_iff_of_known {known : Prop} (sound : hit → answer) (certain : answer → known) :
    ((negated = false ↔ hit) ↔ (negated = false ↔ answer) ∧ (negated → known)) ↔
      (answer → hit) ∧ (negated → known) := by
  by_cases here : answer <;> by_cases found : hit <;> cases negated <;> simp_all

end Exact

/-! ## Two small tables -/

namespace Flattened

def byte (d : Byte) : Value Byte := .data uint8 d

def unknown : Value Byte := .null uint8

/-- A table with one column of bytes. -/
def t : Relation where
  columns := [⟨"a", uint8⟩]
  pk := [0]
  name := "t"
  notNull := []

def u : Relation where
  columns := [⟨"b", uint8⟩]
  pk := [0]
  name := "u"
  notNull := [0]

def noAggregate (_ : List (Expr Byte)) (_ : List (Row Byte)) : Except Nerr (Row Byte) := .ok []

/-- `EXISTS (SELECT * FROM u WHERE u.b = t.a)` -/
def sameByte : SubConjunct Byte :=
  .existsQuery false ⟨u, "", true, [], some (.cmp .eq (.path ["u", "b"]) (.path ["t", "a"]))⟩

/-- `a NOT IN (SELECT b FROM u)` -/
def notIn : SubConjunct Byte := .inQuery true (.ident "a") ⟨u, "", false, [.ident "b"], none⟩

/-- A table like `u` whose column is two bytes wide. -/
def wideU : Relation := { u with columns := [⟨"b", ⟨.uint16, 0, 0⟩⟩] }

/-- `a IN (SELECT b FROM u)` where `b` is wider than `a` -/
def inWide : SubConjunct Byte := .inQuery false (.ident "a") ⟨wideU, "", false, [.ident "b"], none⟩

/-- Bytes and two-byte integers convert into each other, and have keys of their width. -/
def widthFns : Fns Byte :=
  { uint8Fns with
    coerce := fun v t =>
      match v with
      | .data _ d => .ok (.data t d)
      | other => .ok other
    encodeSortable
      | .data t d => .ok (if t.kind = .uint16 then [0, d] else [d])
      | .bool b => .ok [if b then 1 else 0]
      | .null _ => .error ⟨.invalidArgument, "types.encodeSortable", "NULL"⟩ }

/-- `EXISTS (SELECT count() FROM u)` -/
def counted : SubConjunct Byte := .existsQuery false ⟨u, "", false, [.call "count" []], none⟩

/-- The schema of `t JOIN u`. -/
def both : Relation where
  columns := [⟨"t.a", uint8⟩, ⟨"u.b", uint8⟩]
  pk := []
  name := "t+u"
  notNull := []

/-- The flattened conjunct on one outer row and some inner rows: what the join keeps,
and what the conjunct evaluates to on the outer row. -/
def bothWays (fns : Fns Byte) (outer : Relation) (conj : SubConjunct Byte)
    (stored : List (Row Byte)) (l : Row Byte) :
    Option (Except Nerr (List (Row Byte)) × Except Nerr (Value Byte)) :=
  (flattenSubqueryConjunct outer "t" conj).map fun sj =>
    (sj.run fns outer.toTable conj.query.table.toTable [l] stored,
      evalConjunct fns noAggregate outer "t" stored l conj)

end Flattened

end NextSQL.Sql
