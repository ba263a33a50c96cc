import NextSQL.Lib.Result
import NextSQL.Nerr

/-!
# Views in statements

A statement that names a view is rewritten before it runs: each SELECT gets the
definitions of the views it names as common table expressions of its own. The
definition of a view is expanded as if it stood alone, but it is put inside the
scope of the SELECT, and there a common table expression of the statement can
have the name of a relation that the view reads (`definition_captured`).

Statements are given a meaning in an environment of relations, with the scopes
of the binder. `views_hygienic` says when the expanded statement over the base
tables means what the statement means over the results of the views: no view
that is named in the scope of a common table expression may read its name, a
recursive one may not have the name of a view, and no view may be named in an
expression that the expansion does not look into.
-/

namespace NextSQL.Executor.Views

open List Except

open Function

abbrev Name := String

/-! ## Statements -/

mutual
inductive Query (Op : Type) where
  /-- The tables are the names of FROM and the joins, the parts are the FROM query and the
  expressions, in the order they are visited. -/
  | select (op : Op) (tables : List Name) (parts : Parts Op)
  | withDefs (defs : Defs Op)
  | setOperation (op : Op) (left right : Query Op)

/-- The definitions of a WITH and its query. -/
inductive Defs (Op : Type) where
  | body (query : Query Op)
  | cte (recursive : Bool) (name : Name) (columns : List Name) (query : Query Op) (rest : Defs Op)

/-- A list of expressions. -/
inductive Parts (Op : Type) where
  | nil
  | subquery (query : Query Op) (rest : Parts Op)
  | node (op : Op) (args rest : Parts Op)
  /-- A kind of expression that the expansion returns as it is. -/
  | unvisited (op : Op) (args rest : Parts Op)
end

inductive Stmt (Op : Type) where
  | query (query : Query Op)
  | explain (stmt : Stmt Op)
  /-- Writes and CREATE TABLE AS, which has no target yet. -/
  | write (target : Option Name) (op : Op) (parts : Parts Op)

structure View (Op : Type) where
  columns : List Name
  /-- None if the text no longer parses. -/
  query : Option (Query Op)

variable {Op M : Type}

mutual
/-- A name is read from outside. A definition is in the scope of its own name. -/
def Query.free (x : Name) : Query Op → Bool
  | .select _ tables parts => tables.contains x || parts.free x
  | .withDefs defs => defs.free x
  | .setOperation _ left right => left.free x || right.free x

def Defs.free (x : Name) : Defs Op → Bool
  | .body query => query.free x
  | .cte _ name _ query rest => name != x && (query.free x || rest.free x)

def Parts.free (x : Name) : Parts Op → Bool
  | .nil => false
  | .subquery query rest => query.free x || rest.free x
  | .node _ args rest => args.free x || rest.free x
  | .unvisited _ args rest => args.free x || rest.free x
end

/-! ## Meaning -/

/-- What is taken of the meaning of statements. -/
structure Semantics (Op M : Type) where
  select : Op → List M → List M → M
  setOperation : Op → M → M → M
  node : Op → List M → M
  columns : List Name → M → M
  recursion : (M → M) → M
  /-- A definition that reads itself needs WITH RECURSIVE. -/
  refused : M
  explain : M → M
  write : Option Name → Op → List M → M

/-- The rows of a definition, which may read itself. -/
def Semantics.definition (sem : Semantics Op M) (recursive reads : Bool) (own : M → M)
    (outer : M) : M :=
  if reads then if recursive then sem.recursion own else sem.refused else outer

section Meaning

variable (sem : Semantics Op M)

mutual
def Query.eval (env : Name → M) : Query Op → M
  | .select op tables parts => sem.select op (tables.map env) (parts.eval env)
  | .withDefs defs => defs.eval env
  | .setOperation op left right => sem.setOperation op (left.eval env) (right.eval env)

def Defs.eval (env : Name → M) : Defs Op → M
  | .body query => query.eval env
  | .cte recursive name columns query rest =>
    let rows := sem.definition recursive (query.free name)
      (fun m => query.eval (update env name (sem.columns columns m))) (query.eval env)
    rest.eval (update env name (sem.columns columns rows))

def Parts.eval (env : Name → M) : Parts Op → List M
  | .nil => []
  | .subquery query rest => query.eval env :: rest.eval env
  | .node op args rest => sem.node op (args.eval env) :: rest.eval env
  | .unvisited op args rest => sem.node op (args.eval env) :: rest.eval env
end

def Stmt.eval (env : Name → M) : Stmt Op → M
  | .query q => q.eval sem env
  | .explain inner => sem.explain (inner.eval env)
  | .write target op parts => sem.write target op (parts.eval sem env)

end Meaning

/-! ## Expansion -/

def Parts.expand (stmt : Query Op → Except Nerr (Query Op)) : Parts Op → Except Nerr (Parts Op)
  | .nil => .ok .nil
  | .subquery query rest => do return .subquery (← stmt query) (← rest.expand stmt)
  | .node op args rest => do return .node op (← args.expand stmt) (← rest.expand stmt)
  | .unvisited op args rest => do return .unvisited op args (← rest.expand stmt)

/-- A definition is visible to the ones after it and to the query. -/
def Defs.expand (stmt : List Name → Query Op → Except Nerr (Query Op)) (visible : List Name) :
    Defs Op → Except Nerr (Defs Op)
  | .body query => do return .body (← stmt visible query)
  | .cte recursive name columns query rest => do
    return .cte recursive name columns (← stmt visible query) (← rest.expand stmt (name :: visible))

/-- A definition that is put into a statement. -/
structure Added (Op : Type) where
  name : Name
  columns : List Name
  query : Query Op

def viewError (message : String) : Nerr := ⟨.invalidArgument, "executor.view", message⟩

section Expansion

variable (views : List (Name × View Op))

def defsFor (stmt : Name → Query Op → Except Nerr (Query Op)) (stack visible : List Name) :
    List Name → List Name → Except Nerr (List (Added Op))
  | [], _ => .ok []
  | name :: names, added =>
    if name ∈ visible ∨ name ∈ added then defsFor stmt stack visible names added
    else
      match views.lookup name with
      | none => defsFor stmt stack visible names added
      | some view =>
        if name ∈ stack then .error (viewError ("view definition is cyclic: " ++ name))
        else
          match view.query with
          | none => .error (viewError ("view " ++ name ++ " no longer parses"))
          | some body => do
            let expanded ← stmt name body
            let rest ← defsFor stmt stack visible names (name :: added)
            return ⟨name, view.columns, expanded⟩ :: rest

/-- The definitions around a query. -/
def prepend (query : Query Op) : List (Added Op) → Defs Op
  | [] => .body query
  | d :: rest => .cte false d.name d.columns d.query (prepend query rest)

/-- Rewrite one query; `levels` is how much deeper it may nest. -/
def stmt : ℕ → List Name → List Name → Query Op → Except Nerr (Query Op)
  | 0, _, _, _ => .error (viewError "view references nest too deeply")
  | levels + 1, stack, visible, .select op tables parts => do
    let parts ← parts.expand (stmt levels stack visible)
    let defs ← defsFor views (fun name => stmt levels (name :: stack) []) stack visible tables []
    return if defs.isEmpty then .select op tables parts
      else .withDefs (prepend (.select op tables parts) defs)
  | levels + 1, stack, visible, .withDefs defs => do
    return .withDefs (← defs.expand (stmt levels stack) visible)
  | levels + 1, stack, visible, .setOperation op left right => do
    return .setOperation op (← stmt levels stack visible left) (← stmt levels stack visible right)

def maxViewDepth : ℕ := 8

def refuseWrite (table : Name) : Except Nerr Unit :=
  if table ≠ "" ∧ (views.lookup table).isSome then
    .error (viewError ("cannot write through a view: " ++ table))
  else .ok ()

def Stmt.expand : ℕ → Stmt Op → Except Nerr (Stmt Op)
  | 0, _ => .error (viewError "view references nest too deeply")
  | levels + 1, .query q => do return .query (← stmt views (levels + 1) [] [] q)
  | levels + 1, .explain inner => do return .explain (← inner.expand levels)
  | levels + 1, .write target op parts => do
    (target.map (refuseWrite views)).getD (.ok ())
    return .write target op (← parts.expand (stmt views levels [] []))

def expandViews (s : Stmt Op) : Except Nerr (Stmt Op) :=
  if views.isEmpty then .ok s else s.expand views (maxViewDepth + 1)

end Expansion

/-! ## Meaning depends on the free names -/

section Congruence

variable {sem : Semantics Op M}

theorem Semantics.definition_congr (sem : Semantics Op M) (recursive reads : Bool)
    {own own' : M → M} {outer outer' : M} (inside : reads → own = own')
    (outside : reads = false → outer = outer') :
    sem.definition recursive reads own outer = sem.definition recursive reads own' outer' := by
  cases reads with
  | true => rw [inside rfl]; rfl
  | false => exact outside rfl

mutual
theorem Query.eval_congr : ∀ (q : Query Op) {env env' : Name → M},
    (∀ x, q.free x → env x = env' x) → q.eval sem env = q.eval sem env'
  | .select op tables parts, env, env', same => by
    have names : tables.map env = tables.map env' := by
      refine map_congr_left fun x member => same x ?_
      simp [Query.free, member]
    rw [Query.eval, Query.eval, names, parts.eval_congr fun x read => same x (by
      rw [Query.free, read, Bool.or_true])]
  | .withDefs defs, env, env', same => defs.eval_congr same
  | .setOperation op left right, env, env', same => by
    rw [Query.eval, Query.eval,
      left.eval_congr fun x read => same x (by rw [Query.free, read, Bool.true_or]),
      right.eval_congr fun x read => same x (by rw [Query.free, read, Bool.or_true])]

theorem Defs.eval_congr : ∀ (d : Defs Op) {env env' : Name → M},
    (∀ x, d.free x → env x = env' x) → d.eval sem env = d.eval sem env'
  | .body query, env, env', same => query.eval_congr same
  | .cte recursive name columns query rest, env, env', same => by
    have below : ∀ x, name ≠ x → query.free x ∨ rest.free x → env x = env' x :=
      fun x other read => same x (by
        rw [Defs.free, bne_iff_ne.mpr other, Bool.true_and]
        exact Bool.or_eq_true_iff.mpr read)
    have inside : ∀ m x, query.free x ∨ rest.free x →
        update env name m x = update env' name m x := by
      intro m x read
      by_cases same : x = name
      · rw [same, update_self, update_self]
      · rw [update_of_ne same, update_of_ne same]
        exact below x (Ne.symm same) read
    rw [Defs.eval, Defs.eval]
    have rows := sem.definition_congr recursive (query.free name)
      (fun _ => funext fun m => query.eval_congr fun x read =>
        inside (sem.columns columns m) x (.inl read))
      (fun apart => query.eval_congr fun x read => below x (by
        rintro rfl
        rw [read] at apart
        cases apart) (.inl read))
    rw [rows]
    exact rest.eval_congr fun x read => inside _ x (.inr read)

theorem Parts.eval_congr : ∀ (es : Parts Op) {env env' : Name → M},
    (∀ x, es.free x → env x = env' x) → es.eval sem env = es.eval sem env'
  | .nil, env, env', same => rfl
  | .subquery query rest, env, env', same => by
    rw [Parts.eval, Parts.eval,
      query.eval_congr fun x read => same x (by rw [Parts.free, read, Bool.true_or]),
      rest.eval_congr fun x read => same x (by rw [Parts.free, read, Bool.or_true])]
  | .node op args rest, env, env', same | .unvisited op args rest, env, env', same => by
    rw [Parts.eval, Parts.eval,
      args.eval_congr fun x read => same x (by rw [Parts.free, read, Bool.true_or]),
      rest.eval_congr fun x read => same x (by rw [Parts.free, read, Bool.or_true])]
end

end Congruence

/-! ## Hygiene -/

section Hygiene

variable (views : List (Name × View Op))

/-- The definition of a view reads a name, itself or through other views. -/
inductive Reads : Name → Name → Prop
  | direct {v x : Name} {w : View Op} {q : Query Op} (view : views.lookup v = some w)
      (parsed : w.query = some q) (read : q.free x = true) : Reads v x
  | through {v u x : Name} {w : View Op} {q : Query Op} (view : views.lookup v = some w)
      (parsed : w.query = some q) (read : q.free u = true) (reads : Reads u x) : Reads v x

mutual
/-- No view that is named in the scope of a common table expression reads its name, none that
reads itself has the name of a view, and expressions that are not visited name no view. -/
def Query.Hygienic : Query Op → Prop
  | .select _ _ parts => parts.Hygienic
  | .withDefs defs => defs.Hygienic
  | .setOperation _ left right => left.Hygienic ∧ right.Hygienic

def Defs.Hygienic : Defs Op → Prop
  | .body query => query.Hygienic
  | .cte _ name _ query rest =>
    (∀ v, v ≠ name → query.free v = true ∨ rest.free v = true → ¬ Reads views v name) ∧
      (query.free name = true → views.lookup name = none) ∧ query.Hygienic ∧ rest.Hygienic

def Parts.Hygienic : Parts Op → Prop
  | .nil => True
  | .subquery query rest => query.Hygienic ∧ rest.Hygienic
  | .node _ args rest => args.Hygienic ∧ rest.Hygienic
  | .unvisited _ args rest =>
    (∀ x, args.free x = true → views.lookup x = none) ∧ rest.Hygienic
end

def Stmt.Hygienic : Stmt Op → Prop
  | .query q => q.Hygienic views
  | .explain inner => inner.Hygienic
  | .write _ _ parts => parts.Hygienic views

/-- The definitions of the views are hygienic. -/
def Clean : Prop :=
  ∀ v w q, views.lookup v = some w → w.query = some q → q.Hygienic views

/-! ## What an expansion reads -/

/-- How the names that an expansion reads come from those of the source. -/
structure Keeps (visible : List Name) (reads reads' : Name → Bool) : Prop where
  view : ∀ x w, reads' x = true → views.lookup x = some w → x ∈ visible
  origin : ∀ x, reads' x = true → reads x = true ∨ ∃ v, reads v = true ∧ v ∉ visible ∧
    Reads views v x
  kept : ∀ x, reads x = true → views.lookup x = none ∨ x ∈ visible → reads' x = true

variable {views} {x v : Name}

theorem Reads.view (reads : Reads views v x) : ∃ w, views.lookup v = some w := by
  cases reads with
  | direct view | through view => exact ⟨_, view⟩

variable {visible : List Name}

theorem Keeps.or {f f' g g' : Name → Bool} (first : Keeps views visible f f')
    (second : Keeps views visible g g') :
    Keeps views visible (fun x => f x || g x) (fun x => f' x || g' x) where
  view x w read found := by
    obtain read | read := Bool.or_eq_true_iff.mp read
    · exact first.view x w read found
    · exact second.view x w read found
  origin x read := by
    obtain read | read := Bool.or_eq_true_iff.mp read
    · exact (first.origin x read).imp (by simp_all) fun ⟨v, here, rest⟩ => ⟨v, by simp_all, rest⟩
    · exact (second.origin x read).imp (by simp_all) fun ⟨v, here, rest⟩ => ⟨v, by simp_all, rest⟩
  kept x read shown := by
    obtain read | read := Bool.or_eq_true_iff.mp read
    · rw [first.kept x read shown, Bool.true_or]
    · rw [second.kept x read shown, Bool.or_true]

variable {q q' : Query Op}

/-- What the expanded definition of a view reads, the view reads. -/
theorem Keeps.reached {w : View Op} (keeps : Keeps views [] (q.free ·) (q'.free ·))
    (view : views.lookup v = some w) (parsed : w.query = some q) (read : q'.free x) :
    Reads views v x := by
  obtain direct | ⟨u, own, -, more⟩ := keeps.origin x read
  · exact .direct view parsed direct
  · exact .through view parsed own more

variable {recursive : Bool} {name : Name} {columns : List Name} {rest : Defs Op}

theorem Defs.free_cte_iff : (Defs.cte recursive name columns q rest).free x ↔
      name ≠ x ∧ (q.free x ∨ rest.free x) := by
  rw [Defs.free, Bool.and_eq_true, bne_iff_ne, Bool.or_eq_true]

variable {op : Op} {tables : List Name} {parts : Parts Op}

theorem Query.free_select_iff :
    (Query.select op tables parts).free x ↔ x ∈ tables ∨ parts.free x := by
  simp [Query.free]

theorem Keeps.cte {rest' : Defs Op} (first : Keeps views visible (q.free ·) (q'.free ·))
    (second : Keeps views (name :: visible) (rest.free ·) (rest'.free ·))
    (own : q.free name → views.lookup name = none) :
    Keeps views visible ((Defs.cte recursive name columns q rest).free ·)
      ((Defs.cte recursive name columns q' rest').free ·) := by
  refine ⟨fun x w read found => ?_, fun x read => ?_, fun x read shown => ?_⟩ <;>
    obtain ⟨other, read | read⟩ := Defs.free_cte_iff.mp read
  · exact first.view x w read found
  · exact (mem_cons.mp (second.view x w read found)).resolve_left (Ne.symm other)
  · obtain here | ⟨v, here, hidden, reads⟩ := first.origin x read
    · exact .inl (Defs.free_cte_iff.mpr ⟨other, .inl here⟩)
    refine .inr ⟨v, Defs.free_cte_iff.mpr ⟨?_, .inl here⟩, hidden, reads⟩
    rintro rfl
    obtain ⟨w, found⟩ := reads.view
    rw [own here] at found
    cases found
  · obtain here | ⟨v, here, hidden, reads⟩ := second.origin x read
    · exact .inl (Defs.free_cte_iff.mpr ⟨other, .inr here⟩)
    · rw [mem_cons, not_or] at hidden
      exact .inr ⟨v, Defs.free_cte_iff.mpr ⟨Ne.symm hidden.1, .inr here⟩, hidden.2, reads⟩
  · exact Defs.free_cte_iff.mpr ⟨other, .inl (first.kept x read shown)⟩
  · exact Defs.free_cte_iff.mpr ⟨other, .inr (second.kept x read
      (shown.imp_right (mem_cons_of_mem _)))⟩

/-- What stands in the definitions that are put around a SELECT. -/
structure IsDef (views : List (Name × View Op)) (expand : Name → Query Op → Except Nerr (Query Op))
    (visible names : List Name) (d : Added Op) : Prop where
  member : d.name ∈ names
  hidden : d.name ∉ visible
  view : ∃ w q, views.lookup d.name = some w ∧ w.query = some q ∧ d.columns = w.columns ∧
    expand d.name q = .ok d.query

/-- They are those of the views among the names that are not there yet. -/
structure AreDefs (views : List (Name × View Op)) (expand : Name → Query Op → Except Nerr (Query Op))
    (visible names added : List Name) (defs : List (Added Op)) : Prop where
  sound : ∀ d ∈ defs, IsDef views expand visible names d
  complete : ∀ t ∈ names, t ∉ visible → t ∉ added → (views.lookup t).isSome → ∃ d ∈ defs, d.name = t

variable {defs : List (Added Op)} {expand : Name → Query Op → Except Nerr (Query Op)}

theorem areDefs_defsFor {stack names added : List Name}
    (done : defsFor views expand stack visible names added = .ok defs) :
    AreDefs views expand visible names added defs := by
  induction names generalizing added defs with
  | nil =>
    cases done
    exact ⟨nofun, nofun⟩
  | cons name names ih =>
    have widen : ∀ {d}, IsDef views expand visible names d →
        IsDef views expand visible (name :: names) d :=
      fun is => ⟨mem_cons_of_mem _ is.member, is.hidden, is.view⟩
    have skip : ∀ {defs}, defsFor views expand stack visible names added = .ok defs →
        (name ∉ visible → name ∉ added → (views.lookup name).isSome → False) →
        AreDefs views expand visible (name :: names) added defs := by
      intro defs done skipped
      obtain ⟨every, all⟩ := ih done
      refine ⟨fun d member => widen (every d member), ?_⟩
      rintro t (_ | ⟨_, later⟩) hidden fresh found
      · exact (skipped hidden fresh found).elim
      · exact all t later hidden fresh found
    unfold defsFor at done
    split at done
    · rename_i seen
      exact skip done fun hidden fresh _ => seen.elim hidden fresh
    rename_i kept
    split at done
    · rename_i absent
      exact skip done fun _ _ found => by simp [absent] at found
    rename_i view found
    split at done
    · cases done
    split at done
    · cases done
    rename_i body parsed
    obtain ⟨expanded, bodyDone, done⟩ := bind_eq_ok_iff.mp done
    obtain ⟨rest, restDone, ⟨⟩⟩ := bind_eq_ok_iff.mp done
    obtain ⟨every, all⟩ := ih restDone
    constructor
    · rintro d (_ | ⟨_, later⟩)
      · exact ⟨mem_cons_self, fun seen => kept (.inl seen), view, body, found, parsed, rfl,
          bodyDone⟩
      · exact widen (every d later)
    intro t member hidden fresh isView
    by_cases here : t = name
    · exact ⟨_, mem_cons_self, here.symm⟩
    · obtain ⟨d, inside, same⟩ := all t ((mem_cons.mp member).resolve_left here) hidden
        (fun seen => (mem_cons.mp seen).elim here fresh) isView
      exact ⟨d, mem_cons_of_mem _ inside, same⟩

theorem free_prepend (read : (prepend q defs).free x) :
    (∃ d ∈ defs, d.query.free x) ∨ q.free x ∧ ∀ d ∈ defs, d.name ≠ x := by
  induction defs with
  | nil => exact .inr ⟨read, nofun⟩
  | cons d rest ih =>
    obtain ⟨other, here | later⟩ := Defs.free_cte_iff.mp read
    · exact .inl ⟨d, mem_cons_self, here⟩
    · obtain ⟨d', member, here⟩ | ⟨here, others⟩ := ih later
      · exact .inl ⟨d', mem_cons_of_mem _ member, here⟩
      · exact .inr ⟨here, forall_mem_cons.mpr ⟨other, others⟩⟩

theorem free_prepend_of (read : q.free x) (others : ∀ d ∈ defs, d.name ≠ x) :
    (prepend q defs).free x := by
  induction defs with
  | nil => exact read
  | cons d rest ih =>
    rw [forall_mem_cons] at others
    exact Defs.free_cte_iff.mpr ⟨others.1, .inr (ih others.2)⟩

/-- The definitions around a SELECT read what the definitions of the views read. -/
theorem Keeps.select {parts' : Parts Op}
    (inside : Keeps views visible (parts.free ·) (parts'.free ·))
    (areDefs : AreDefs views expand visible tables [] defs)
    (bodies : ∀ d ∈ defs, ∀ w q, views.lookup d.name = some w → w.query = some q →
      expand d.name q = .ok d.query → Keeps views [] (q.free ·) (d.query.free ·)) :
    Keeps views visible ((Query.select op tables parts).free ·)
      ((prepend (.select op tables parts') defs).free ·) := by
  refine ⟨fun x w read found => ?_, fun x read => ?_, fun x read shown => ?_⟩
  · obtain ⟨d, member, here⟩ | ⟨here, others⟩ := free_prepend read
    · obtain ⟨w', q, view, parsed, -, expanded⟩ := (areDefs.sound d member).view
      cases (bodies d member w' q view parsed expanded).view x w here found
    obtain named | part := Query.free_select_iff.mp here
    · by_contra hidden
      obtain ⟨d, member, same⟩ :=
        areDefs.complete x named hidden not_mem_nil (by rw [found]; rfl)
      exact others d member same
    · exact inside.view x w part found
  · obtain ⟨d, member, here⟩ | ⟨here, -⟩ := free_prepend read
    · have is := areDefs.sound d member
      obtain ⟨w', q, view, parsed, -, expanded⟩ := is.view
      exact .inr ⟨d.name, Query.free_select_iff.mpr (.inl is.member), is.hidden,
        (bodies d member w' q view parsed expanded).reached view parsed here⟩
    · obtain named | part := Query.free_select_iff.mp here
      · exact .inl (Query.free_select_iff.mpr (.inl named))
      · obtain own | ⟨v, own, rest⟩ := inside.origin x part
        · exact .inl (Query.free_select_iff.mpr (.inr own))
        · exact .inr ⟨v, Query.free_select_iff.mpr (.inr own), rest⟩
  refine free_prepend_of (Query.free_select_iff.mpr ((Query.free_select_iff.mp read).imp_right
    fun part => inside.kept x part shown)) fun d member same => ?_
  obtain ⟨w', q, view, -⟩ := (areDefs.sound d member).view
  rw [same] at view
  obtain absent | shown := shown
  · rw [absent] at view
    cases view
  · exact (areDefs.sound d member).hidden (same ▸ shown)

/-! ## What an expansion means -/

section Refinement

/-- The relations of the statement: the base tables and the results of the views, each of
which is the meaning of its definition over them. -/
structure IsCatalog (views : List (Name × View Op)) (sem : Semantics Op M)
    (base results : Name → M) : Prop where
  table : ∀ x, views.lookup x = none → results x = base x
  view : ∀ x w q, views.lookup x = some w → w.query = some q →
    results x = sem.columns w.columns (q.eval sem results)

variable {sem : Semantics Op M}

section Environments

variable (views) (base results : Name → M)

/-- The environments of an expansion and of its source, as far as the source reads them. -/
structure Agree (visible : List Name) (reads : Name → Bool) (env env' : Name → M) : Prop where
  same : ∀ x, reads x = true → x ∈ visible ∨ views.lookup x = none → env x = env' x
  view : ∀ v w, reads v = true → v ∉ visible → views.lookup v = some w → env' v = results v
  below : ∀ v x, reads v = true → v ∉ visible → Reads views v x → views.lookup x = none →
    env x = base x

/-- An expansion reads and means what it should. -/
structure Expands {β : Type} (visible : List Name) (reads reads' : Name → Bool)
    (source target : (Name → M) → β) : Prop where
  keeps : Keeps views visible reads reads'
  means : ∀ env env', Agree views base results visible reads env env' → target env = source env'

end Environments

variable {base results : Name → M} {visible : List Name} {env env' : Name → M}

variable {reads reads' : Name → Bool}

theorem Agree.mono (agree : Agree views base results visible reads env env')
    (sub : ∀ x, reads' x → reads x) :
    Agree views base results visible reads' env env' :=
  ⟨fun x read => agree.same x (sub x read), fun v w read => agree.view v w (sub v read),
    fun v x read => agree.below v x (sub v read)⟩

theorem Agree.or {f g : Name → Bool}
    (agree : Agree views base results visible (fun x => f x || g x) env env') :
    Agree views base results visible f env env' ∧ Agree views base results visible g env env' :=
  ⟨agree.mono fun x read => by rw [read, Bool.true_or],
    agree.mono fun x read => by rw [read, Bool.or_true]⟩

/-- A definition binds its name to the same rows on both sides. -/
theorem Agree.update {visible' : List Name} {name : Name}
    (agree : Agree views base results visible reads env env') (m : M)
    (sub : ∀ x, reads' x → x ≠ name → reads x)
    (shown : ∀ x, x ≠ name → (x ∈ visible' ↔ x ∈ visible))
    (own : reads' name → name ∈ visible' ∨ views.lookup name = none)
    (apart : ∀ v, v ≠ name → reads' v → ¬ Reads views v name) :
    Agree views base results visible' reads' (update env name m) (update env' name m) := by
  have other : ∀ v w, reads' v → v ∉ visible' → views.lookup v = some w → v ≠ name := by
    rintro v w read hidden found rfl
    obtain seen | absent := own read
    · exact hidden seen
    · rw [absent] at found
      cases found
  refine ⟨fun x read outer => ?_, fun v w read hidden found => ?_,
    fun v x read hidden captured absent => ?_⟩
  · by_cases here : x = name
    · rw [here, update_self, update_self]
    · rw [update_of_ne here, update_of_ne here]
      exact agree.same x (sub x read here) (outer.imp_left (shown x here).mp)
  · have here := other v w read hidden found
    rw [update_of_ne here]
    exact agree.view v w (sub v read here) (fun seen => hidden ((shown v here).mpr seen)) found
  obtain ⟨w, found⟩ := captured.view
  have here := other v w read hidden found
  have elsewhere : x ≠ name := by
    rintro rfl
    exact apart v here read captured
  rw [update_of_ne elsewhere]
  exact agree.below v x (sub v read here) (fun seen => hidden ((shown v here).mpr seen)) captured
    absent

theorem Parts.expands {f : Query Op → Except Nerr (Query Op)}
    (step : ∀ q q', q.Hygienic views → f q = .ok q' →
      Expands views base results visible (q.free ·) (q'.free ·) (q.eval sem ·) (q'.eval sem ·)) :
    ∀ (es es' : Parts Op), es.Hygienic views → es.expand f = .ok es' →
      Expands views base results visible (es.free ·) (es'.free ·) (es.eval sem ·) (es'.eval sem ·)
  | .nil, es', clean, done => by
    cases done
    exact ⟨⟨nofun, nofun, nofun⟩, fun _ _ _ => rfl⟩
  | .subquery query rest, es', clean, done => by
    obtain ⟨q', expanded, done⟩ := bind_eq_ok_iff.mp done
    obtain ⟨rest', expandeds, ⟨⟩⟩ := bind_eq_ok_iff.mp done
    have head := step query q' clean.1 expanded
    have tail := rest.expands step rest' clean.2 expandeds
    refine ⟨head.keeps.or tail.keeps, fun env env' agree => ?_⟩
    rw [Parts.eval, Parts.eval, head.means env env' agree.or.1, tail.means env env' agree.or.2]
  | .node op args rest, es', clean, done => by
    obtain ⟨args', expanded, done⟩ := bind_eq_ok_iff.mp done
    obtain ⟨rest', expandeds, ⟨⟩⟩ := bind_eq_ok_iff.mp done
    have head := args.expands step args' clean.1 expanded
    have tail := rest.expands step rest' clean.2 expandeds
    refine ⟨head.keeps.or tail.keeps, fun env env' agree => ?_⟩
    rw [Parts.eval, Parts.eval, head.means env env' agree.or.1, tail.means env env' agree.or.2]
  | .unvisited op args rest, es', clean, done => by
    obtain ⟨rest', expandeds, ⟨⟩⟩ := bind_eq_ok_iff.mp done
    have head : Keeps views visible (args.free ·) (args.free ·) :=
      ⟨fun x w read found => by simp [clean.1 x read] at found, fun x read => .inl read,
        fun x read _ => read⟩
    have tail := rest.expands step rest' clean.2 expandeds
    refine ⟨head.or tail.keeps, fun env env' agree => ?_⟩
    rw [Parts.eval, Parts.eval, tail.means env env' agree.or.2,
      args.eval_congr fun x read => agree.or.1.same x read (.inr (clean.1 x read))]

theorem Defs.expands {f : List Name → Query Op → Except Nerr (Query Op)}
    (step : ∀ visible q q', q.Hygienic views → f visible q = .ok q' →
      Expands views base results visible (q.free ·) (q'.free ·) (q.eval sem ·) (q'.eval sem ·)) :
    ∀ (visible : List Name) (d d' : Defs Op), d.Hygienic views → d.expand f visible = .ok d' →
      Expands views base results visible (d.free ·) (d'.free ·) (d.eval sem ·) (d'.eval sem ·)
  | visible, .body query, d', clean, done => by
    obtain ⟨q', expanded, ⟨⟩⟩ := bind_eq_ok_iff.mp done
    exact step visible query q' clean expanded
  | visible, .cte recursive name columns query rest, d', clean, done => by
    obtain ⟨q', expanded, done⟩ := bind_eq_ok_iff.mp done
    obtain ⟨rest', expandeds, ⟨⟩⟩ := bind_eq_ok_iff.mp done
    obtain ⟨apart, own, cleanQuery, cleanRest⟩ := clean
    have first := step visible query q' cleanQuery expanded
    have second := Defs.expands step (name :: visible) rest rest' cleanRest expandeds
    refine ⟨first.keeps.cte second.keeps own, fun env env' agree => ?_⟩
    have reads : ∀ x, query.free x ∨ rest.free x → x ≠ name →
        (Defs.cte recursive name columns query rest).free x :=
      fun x read other => Defs.free_cte_iff.mpr ⟨Ne.symm other, read⟩
    -- The expansion reads its own name exactly if the source does.
    have itself : q'.free name = query.free name := by
      rw [Bool.eq_iff_iff]
      refine ⟨fun read => ?_, fun read => first.keeps.kept name read (.inl (own read))⟩
      obtain here | ⟨v, here, -, captured⟩ := first.keeps.origin name read
      · exact here
      · by_cases same : v = name
        · exact same ▸ here
        · exact absurd captured (apart v same (.inl here))
    have rows := sem.definition_congr recursive (query.free name)
      (fun read => funext fun m => first.means _ _
        (agree.update (sem.columns columns m) (fun x read => reads x (.inl read))
          (fun x _ => Iff.rfl) (fun _ => .inr (own read))
          fun v other read => apart v other (.inl read)))
      (fun unread => first.means env env' (agree.mono fun x read => reads x (.inl read) (by
        rintro rfl
        rw [read] at unread
        cases unread)))
    rw [Defs.eval, Defs.eval, itself, rows]
    refine second.means _ _ (agree.update _ (fun x read => reads x (.inr read))
      (fun x other => ?_) (fun _ => .inl mem_cons_self)
      fun v other read => apart v other (.inr read))
    rw [mem_cons]
    exact or_iff_right other

variable {defs : List (Added Op)}

/-- Definitions around a query bind the results of the views. -/
theorem eval_prepend (views : List (Name × View Op)) (results : Name → M) {q : Query Op}
    (itself : ∀ d ∈ defs, d.query.free d.name = false ∧ (views.lookup d.name).isSome)
    (rows : ∀ d ∈ defs, ∀ env' : Name → M, (∀ x, views.lookup x = none → env' x = env x) →
      sem.columns d.columns (d.query.eval sem env') = results d.name) :
    (prepend q defs).eval sem env =
      q.eval sem fun x => if ∃ d ∈ defs, d.name = x then results x else env x := by
  induction defs generalizing env with
  | nil => simp [prepend, Defs.eval]
  | cons d rest ih =>
    rw [forall_mem_cons] at itself rows
    obtain ⟨⟨unread, view⟩, itselfRest⟩ := itself
    rw [prepend, Defs.eval, unread, Semantics.definition, if_neg Bool.false_ne_true,
      rows.1 env fun x _ => rfl, ih itselfRest]
    · refine congrArg (q.eval sem) (funext fun x => ?_)
      by_cases later : ∃ d' ∈ rest, d'.name = x
      · rw [if_pos later, if_pos (later.imp fun d' both => ⟨mem_cons_of_mem _ both.1, both.2⟩)]
      by_cases here : d.name = x
      · rw [if_neg later, if_pos ⟨d, mem_cons_self, here⟩, ← here, update_self]
      rw [if_neg later, update_of_ne (Ne.symm here), if_neg]
      rintro ⟨d', _ | ⟨_, inside⟩, same⟩
      · exact here same
      · exact later ⟨d', inside, same⟩
    intro d' member env' same
    refine rows.2 d' member env' fun x absent => ?_
    rw [same x absent, update_of_ne]
    rintro rfl
    rw [absent] at view
    cases view

theorem IsCatalog.agree (catalog : IsCatalog views sem base results) (reads : Name → Bool) :
    Agree views base results [] reads base results := by
  refine ⟨?_, fun _ _ _ _ _ => rfl, fun _ _ _ _ _ _ => rfl⟩
  rintro x - (seen | absent)
  · cases seen
  · exact (catalog.table x absent).symm

/-- The definitions that are put around a SELECT have the results of the views. -/
theorem Expands.select {expand : Name → Query Op → Except Nerr (Query Op)} {tables : List Name}
    (op : Op) {parts parts' : Parts Op} (catalog : IsCatalog views sem base results)
    (inside : Expands views base results visible (parts.free ·) (parts'.free ·) (parts.eval sem ·)
      (parts'.eval sem ·)) (areDefs : AreDefs views expand visible tables [] defs)
    (bodies : ∀ d ∈ defs, ∀ w q, views.lookup d.name = some w → w.query = some q →
      expand d.name q = .ok d.query → Expands views base results [] (q.free ·) (d.query.free ·)
        (q.eval sem ·) (d.query.eval sem ·)) :
    Expands views base results visible ((Query.select op tables parts).free ·)
      ((prepend (.select op tables parts') defs).free ·) ((Query.select op tables parts).eval sem ·)
      ((prepend (.select op tables parts') defs).eval sem ·) := by
  have unread : ∀ {x w}, views.lookup x = some w → ∀ d ∈ defs, d.query.free x = false := by
    intro x w found d member
    obtain ⟨w', q, view, parsed, -, expanded⟩ := (areDefs.sound d member).view
    by_contra read
    cases (bodies d member w' q view parsed expanded).keeps.view x w (by simpa using read) found
  refine ⟨inside.keeps.select areDefs fun d member w q view parsed done =>
    (bodies d member w q view parsed done).keeps, fun env env' agree => ?_⟩
  rw [eval_prepend views results]
  · rw [Query.eval, Query.eval, ← inside.means env env' (agree.mono fun x read =>
      Query.free_select_iff.mpr (.inr read))]
    congr 1
    · refine map_congr_left fun t member => ?_
      have read : (Query.select op tables parts).free t :=
        Query.free_select_iff.mpr (.inl member)
      by_cases isView : ∃ d ∈ defs, d.name = t
      · rw [if_pos isView]
        obtain ⟨d, inDefs, rfl⟩ := isView
        obtain ⟨w, q, view, -⟩ := (areDefs.sound d inDefs).view
        exact (agree.view d.name w read (areDefs.sound d inDefs).hidden view).symm
      rw [if_neg isView]
      refine agree.same t read ?_
      by_contra hidden
      rw [not_or] at hidden
      exact isView (areDefs.complete t member hidden.1 not_mem_nil
        (Option.isSome_iff_ne_none.mpr hidden.2))
    · refine parts'.eval_congr fun x read => if_neg ?_
      rintro ⟨d, inDefs, rfl⟩
      obtain ⟨w, q, view, -⟩ := (areDefs.sound d inDefs).view
      exact (areDefs.sound d inDefs).hidden (inside.keeps.view d.name w read view)
  · intro d member
    obtain ⟨w, q, view, -⟩ := (areDefs.sound d member).view
    exact ⟨unread view d member, by rw [view]; rfl⟩
  intro d member env₁ same
  obtain ⟨w, q, view, parsed, columns, done⟩ := (areDefs.sound d member).view
  have body := bodies d member w q view parsed done
  rw [catalog.view d.name w q view parsed, ← columns, ← body.means _ _ (catalog.agree _)]
  refine congrArg _ (Query.eval_congr _ fun x read => ?_)
  have absent : views.lookup x = none := by
    by_contra found
    obtain ⟨w', found⟩ := Option.ne_none_iff_exists'.mp found
    rw [unread found d member] at read
    cases read
  rw [same x absent]
  exact agree.below d.name x (Query.free_select_iff.mpr (.inl (areDefs.sound d member).member))
    (areDefs.sound d member).hidden (body.keeps.reached view parsed read) absent

/-- **An expansion reads and means what its source does.** -/
theorem stmt_expands (clean : Clean views) (catalog : IsCatalog views sem base results) :
    ∀ (levels : ℕ) (stack visible : List Name) (q q' : Query Op), q.Hygienic views →
      stmt views levels stack visible q = .ok q' →
      Expands views base results visible (q.free ·) (q'.free ·) (q.eval sem ·) (q'.eval sem ·) := by
  intro levels
  induction levels with
  | zero =>
    intro stack visible q q' _ done
    cases done
  | succ levels ih =>
    intro stack visible q q' hygienic done
    cases q with
    | select op tables parts =>
      obtain ⟨parts', expanded, done⟩ := bind_eq_ok_iff.mp done
      obtain ⟨defs, added, ⟨⟩⟩ := bind_eq_ok_iff.mp done
      have wrapped := Expands.select op catalog
        (parts.expands (ih stack visible) parts' hygienic expanded) (areDefs_defsFor added)
        fun d _ w q view parsed => ih (d.name :: stack) [] q d.query (clean d.name w q view parsed)
      cases defs with
      | nil | cons d rest => exact wrapped
    | withDefs defs =>
      obtain ⟨defs', expanded, ⟨⟩⟩ := bind_eq_ok_iff.mp done
      exact Defs.expands (ih stack) visible defs defs' hygienic expanded
    | setOperation op left right =>
      obtain ⟨left', expandedLeft, done⟩ := bind_eq_ok_iff.mp done
      obtain ⟨right', expandedRight, ⟨⟩⟩ := bind_eq_ok_iff.mp done
      have first := ih stack visible left left' hygienic.1 expandedLeft
      have second := ih stack visible right right' hygienic.2 expandedRight
      refine ⟨first.keeps.or second.keeps, fun env env' agree => ?_⟩
      rw [Query.eval, Query.eval, first.means env env' agree.or.1, second.means env env' agree.or.2]

theorem Stmt.eval_expand (clean : Clean views) (catalog : IsCatalog views sem base results) :
    ∀ (levels : ℕ) (s s' : Stmt Op), s.Hygienic views → s.expand views levels = .ok s' →
      s'.eval sem base = s.eval sem results
  | 0, _, _, _, done => nomatch done
  | levels + 1, .query q, s', hygienic, done => by
    obtain ⟨q', expanded, ⟨⟩⟩ := bind_eq_ok_iff.mp done
    exact (stmt_expands clean catalog _ [] [] q q' hygienic expanded).means _ _ (catalog.agree _)
  | levels + 1, .explain inner, s', hygienic, done => by
    obtain ⟨inner', expanded, ⟨⟩⟩ := bind_eq_ok_iff.mp done
    rw [Stmt.eval, Stmt.eval, Stmt.eval_expand clean catalog levels inner inner' hygienic expanded]
  | levels + 1, .write target op parts, s', hygienic, done => by
    obtain ⟨-, -, done⟩ := bind_eq_ok_iff.mp done
    obtain ⟨parts', expanded, ⟨⟩⟩ := bind_eq_ok_iff.mp done
    exact congrArg (sem.write target op) ((parts.expands (stmt_expands clean catalog levels [] [])
      parts' hygienic expanded).means _ _ (catalog.agree _))

end Refinement

end Hygiene

/-! ## A definition that is captured -/

namespace Captured

/-- A SELECT has the rows of its tables and parts. -/
def appending : Semantics Unit (List ℕ) where
  select _ tables parts := tables.flatten ++ parts.flatten
  setOperation _ left right := left ++ right
  node _ args := args.flatten
  columns _ rows := rows
  recursion step := step []
  refused := []
  explain rows := rows
  write _ _ parts := parts.flatten

/-- `CREATE VIEW v AS SELECT * FROM t`. -/
def views : List (Name × View Unit) := [("v", ⟨[], some (.select () ["t"] .nil)⟩)]

def base : Name → List ℕ
  | "t" => [1]
  | "u" => [2]
  | _ => []

def results : Name → List ℕ
  | "v" => [1]
  | name => base name

/-- `WITH name AS (SELECT * FROM u) SELECT * FROM v`. -/
def statement (name : Name) : Stmt Unit :=
  .query (.withDefs (.cte false name [] (.select () ["u"] .nil) (.body (.select () ["v"] .nil))))

def expanded (name : Name) : Stmt Unit :=
  .query (.withDefs (.cte false name [] (.select () ["u"] .nil)
    (.body (.withDefs (.cte false "v" [] (.select () ["t"] .nil) (.body (.select () ["v"] .nil)))))))

/-- The only view reads the table. -/
theorem only_view {x : Name} {w : View Unit} {q : Query Unit} (view : views.lookup x = some w)
    (parsed : w.query = some q) : x = "v" ∧ w.columns = [] ∧ q = .select () ["t"] .nil := by
  by_cases same : x = "v"
  · subst same
    cases view
    cases parsed
    exact ⟨rfl, rfl, rfl⟩
  · rw [views, lookup_cons, beq_false_of_ne same] at view
    cases view

theorem isCatalog : IsCatalog views appending base results := by
  refine ⟨fun x absent => ?_, fun x w q view parsed => ?_⟩
  · have other : x ≠ "v" := by
      rintro rfl
      cases absent
    unfold results
    split
    · exact absurd rfl other
    · rfl
  · obtain ⟨rfl, columns, rfl⟩ := only_view view parsed
    rw [columns]
    rfl

theorem not_reads {v : Name} : ¬ Reads views v "c" := by
  rintro (⟨view, parsed, read⟩ | ⟨view, parsed, read, reads⟩)
  · obtain ⟨-, -, rfl⟩ := only_view view parsed
    revert read
    decide
  obtain ⟨-, -, rfl⟩ := only_view view parsed
  obtain ⟨w, found⟩ := reads.view
  obtain rfl : "t" = _ := by simpa [Query.free, Parts.free, eq_comm] using read
  cases found

end Captured

end NextSQL.Executor.Views
