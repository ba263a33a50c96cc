import NextSQL.Lib.Update
import NextSQL.Executor.Volatile
import NextSQL.Lib.Run

/-!
# The cache of query results

A SELECT outside a transaction is bound against the catalog in memory, looks for
a stored result under the version of the database, and executes if there is
none. The version is the durable position of the log and the generation of the
catalog. A result is stored if the version is the same before and after the
execution.

A commit appends its records, makes them durable, becomes visible to new
snapshots and installs its catalog changes, one after another, while other
sessions go on. Between the second and the third of these steps the version
already counts the commit and a snapshot does not yet see it: a result computed
then is stored under a version at which it is wrong as soon as the commit is
visible. The catalog changes come last, and a view does not change the
generation.

If every execution takes its snapshot when no commit is between these steps and
its binding is current, and every query has only the forms that the volatility
walk goes into, an answer from the cache is what an execution would return
(`cache_coherent`).
-/

namespace NextSQL.Executor.ResultCache

open Function
open GuardedRuns List Option

/-- How queries are evaluated. A request is the text, the user and the parameters; an
execution depends on the moment only through the volatile calls. -/
structure Evaluation (Request Catalog Db Moment Res : Type) where
  stmt : Request → Catalog → Query
  run : Request → Catalog → Db → Moment → Res
  steady : ∀ q catalog, (stmt q catalog).callsVolatile = false →
    ∀ db m m', run q catalog db m = run q catalog db m'

/-- What a catalog change does in memory, and whether it advances the generation:
tables do, views do not. -/
structure CatalogChange (Catalog : Type) where
  install : Catalog → Catalog
  advances : Bool

/-- A commit that has appended its records, up to the installation of its changes. -/
structure Commit (Catalog Db : Type) where
  lsn : ℕ
  write : Db → Db
  change : Option (CatalogChange Catalog)
  visible : Bool

structure Version where
  lsn : ℕ
  cat : ℕ
deriving DecidableEq

structure Entry (Res : Type) where
  version : Version
  result : Res

/-- A SELECT that is being processed: `installs` says how many catalog changes had been
installed when it was bound. -/
structure Running (Request Catalog Res : Type) where
  request : Request
  catalog : Catalog
  installs : ℕ
  version : Option Version
  result : Option Res

/-- An answer from the cache, with what an execution at that moment would return. -/
structure Answer (Request Catalog Res : Type) where
  request : Request
  catalog : Catalog
  answer : Res
  fresh : Res

structure State (Request Catalog Db Res : Type) where
  nextLSN : ℕ
  durable : ℕ
  pending : List (Commit Catalog Db)
  db : Db
  catalog : Catalog
  generation : ℕ
  installs : ℕ
  cache : Request → Option (Entry Res)
  running : ℕ → Option (Running Request Catalog Res)
  answers : List (Answer Request Catalog Res)

inductive Label (Request Catalog Db Moment : Type) where
  /-- A record that is not of a commit. -/
  | log
  | append (write : Db → Db) (change : Option (CatalogChange Catalog))
  | flush (lsn : ℕ)
  | becomeVisible (n : ℕ)
  | install (n : ℕ)
  | bind (session : ℕ) (request : Request)
  | look (session : ℕ) (moment : Moment)
  | execute (session : ℕ) (moment : Moment)
  /-- The execution ends; a result that is too large is not stored. -/
  | finish (session : ℕ) (small : Bool)
  | evict (request : Request)

variable {Request Catalog Db Moment Res : Type}

namespace State

def create (db : Db) (catalog : Catalog) : State Request Catalog Db Res where
  nextLSN := 0
  durable := 0
  pending := []
  db := db
  catalog := catalog
  generation := 0
  installs := 0
  cache _ := none
  running _ := none
  answers := []

def version (s : State Request Catalog Db Res) : Version := ⟨s.durable, s.generation⟩

/-- Every durable commit is visible and its catalog changes are installed. -/
def settled (s : State Request Catalog Db Res) : Bool :=
  s.pending.all fun c => decide (s.durable < c.lsn)

/-- The pending commit at a place becomes visible; without catalog changes it is done. -/
def makeVisible (s : State Request Catalog Db Res) (n : ℕ) (c : Commit Catalog Db) :
    State Request Catalog Db Res :=
  { s with
    db := c.write s.db
    pending := if c.change.isSome then s.pending.set n { c with visible := true }
      else s.pending.eraseIdx n }

def installChange (s : State Request Catalog Db Res) (n : ℕ) (change : CatalogChange Catalog) :
    State Request Catalog Db Res :=
  { s with
    catalog := change.install s.catalog
    generation := if change.advances then s.generation + 1 else s.generation
    installs := s.installs + 1
    pending := s.pending.eraseIdx n }

variable [DecidableEq Request] (ev : Evaluation Request Catalog Db Moment Res)

/-- The lookup of a bound SELECT. -/
def look (s : State Request Catalog Db Res) (i : ℕ) (r : Running Request Catalog Res)
    (m : Moment) : State Request Catalog Db Res :=
  if !resultCacheable (ev.stmt r.request r.catalog) || s.version.lsn = 0 then s
  else
    match s.cache r.request with
    | some e =>
      if e.version = s.version then
        { s with
          running := update s.running i none
          answers := ⟨r.request, s.catalog, e.result, ev.run r.request s.catalog s.db m⟩ ::
            s.answers }
      else { s with running := update s.running i (some { r with version := s.version }) }
    | none => { s with running := update s.running i (some { r with version := s.version }) }

/-- The end of an execution with a result. -/
def finish (s : State Request Catalog Db Res) (i : ℕ) (r : Running Request Catalog Res)
    (result : Res) (small : Bool) : State Request Catalog Db Res :=
  { s with
    running := update s.running i none
    cache := if small && r.version = some s.version then
        update s.cache r.request (some ⟨s.version, result⟩)
      else s.cache }

def step? (s : State Request Catalog Db Res) :
    Label Request Catalog Db Moment → Option (State Request Catalog Db Res)
  | .log => some { s with nextLSN := s.nextLSN + 1 }
  | .append write change => some { s with
      nextLSN := s.nextLSN + 1
      pending := s.pending ++ [⟨s.nextLSN + 1, write, change, false⟩] }
  | .flush lsn => if s.durable ≤ lsn ∧ lsn ≤ s.nextLSN then some { s with durable := lsn } else none
  | .becomeVisible n => (s.pending[n]?).bind fun c =>
    if !c.visible && decide (c.lsn ≤ s.durable) then some (s.makeVisible n c) else none
  | .install n => (s.pending[n]?).bind fun c =>
    if c.visible then c.change.map (s.installChange n) else none
  | .bind i q => if (s.running i).isSome then none
      else some { s with
        running := update s.running i (some ⟨q, s.catalog, s.installs, none, none⟩) }
  | .look i m => (s.running i).bind fun r =>
    if r.version.isNone && r.result.isNone then some (s.look ev i r m) else none
  | .execute i m => (s.running i).bind fun r =>
    if r.result.isSome then none
    else some { s with
      running := update s.running i
        (some { r with result := some (ev.run r.request r.catalog s.db m) }) }
  | .finish i small => (s.running i).bind fun r =>
    r.result.map fun result => s.finish i r result small
  | .evict q => some { s with cache := update s.cache q none }

def Steps (s : State Request Catalog Db Res) (label : Label Request Catalog Db Moment)
    (s' : State Request Catalog Db Res) : Prop := s.step? ev label = some s'

/-- The binding of a session's SELECT is current. -/
def bound (s : State Request Catalog Db Res) (i : ℕ) : Bool :=
  (s.running i).all fun r => r.installs = s.installs

/-- The steps under which the cache is right: the queries have only forms that the
volatility walk goes into, lookups and executions use a current binding, and
executions take their snapshot when every durable commit is visible and installed. -/
def calm (s : State Request Catalog Db Res) : Label Request Catalog Db Moment → Bool
  | .bind _ q => (ev.stmt q s.catalog).walked
  | .look i _ => s.bound i
  | .execute i _ => s.bound i && s.settled
  | _ => true

end State

/-! ## The invariant -/

variable {ev : Evaluation Request Catalog Db Moment Res} {s s' : State Request Catalog Db Res}

/-- The result is that of an execution in the present state, of a query without
volatile calls, and no durable commit is still on its way. -/
structure Current (ev : Evaluation Request Catalog Db Moment Res)
    (s : State Request Catalog Db Res) (q : Request) (result : Res) : Prop where
  settled : s.settled = true
  quiet : (ev.stmt q s.catalog).callsVolatile = false
  computed : ∃ m, result = ev.run q s.catalog s.db m

/-- A SELECT in progress. -/
structure InProgress (ev : Evaluation Request Catalog Db Moment Res)
    (s : State Request Catalog Db Res) (r : Running Request Catalog Res) : Prop where
  earlier : r.installs ≤ s.installs
  same : r.installs = s.installs → r.catalog = s.catalog
  walked : (ev.stmt r.request r.catalog).walked = true
  cacheable : r.version.isSome → resultCacheable (ev.stmt r.request r.catalog) = true
  older : ∀ v ∈ r.version, v.lsn ≤ s.durable ∧ v.cat ≤ s.generation
  current : ∀ v ∈ r.version, ∀ result ∈ r.result, v = s.version → Current ev s r.request result

structure Coherent (ev : Evaluation Request Catalog Db Moment Res)
    (s : State Request Catalog Db Res) : Prop where
  logged : s.durable ≤ s.nextLSN ∧ ∀ c ∈ s.pending, c.lsn ≤ s.nextLSN
  shown : ∀ c ∈ s.pending, c.visible = true → c.lsn ≤ s.durable
  older : ∀ q, ∀ e ∈ s.cache q, e.version.lsn ≤ s.durable ∧ e.version.cat ≤ s.generation
  current : ∀ q, ∀ e ∈ s.cache q, e.version = s.version → Current ev s q e.result
  running : ∀ i, ∀ r ∈ s.running i, InProgress ev s r
  answered : ∀ a ∈ s.answers, a.answer = a.fresh ∧
    (ev.stmt a.request a.catalog).callsVolatile = false

theorem Current.transport {q : Request} {result : Res} (current : Current ev s q result)
    (settled : s.settled → s'.settled) (catalog : s'.catalog = s.catalog)
    (db : s'.db = s.db) : Current ev s' q result := by
  obtain ⟨still, quiet, m, computed⟩ := current
  exact ⟨settled still, by rw [catalog]; exact quiet, m, by rw [catalog, db]; exact computed⟩

variable {r : Running Request Catalog Res}

/-- A step that leaves the version, the data and the catalog as they are. -/
theorem InProgress.transport (progress : InProgress ev s r)
    (settled : s.settled → s'.settled) (catalog : s'.catalog = s.catalog)
    (db : s'.db = s.db) (installs : s'.installs = s.installs) (version : s'.version = s.version) :
    InProgress ev s' r := by
  have durable : s'.durable = s.durable := congrArg Version.lsn version
  have generation : s'.generation = s.generation := congrArg Version.cat version
  refine ⟨by rw [installs]; exact progress.earlier, ?_, progress.walked, progress.cacheable, ?_, ?_⟩
  · rw [installs, catalog]
    exact progress.same
  · rw [durable, generation]
    exact progress.older
  · intro v isVersion result isResult now
    rw [version] at now
    exact (progress.current v isVersion result isResult now).transport settled catalog db

/-- After the step no earlier version is that of the database: either the version has
moved on, or a durable commit was on its way before it. -/
structure Outdates (s s' : State Request Catalog Db Res) : Prop where
  durable : s.durable ≤ s'.durable
  generation : s.generation ≤ s'.generation
  moved : s'.version ≠ s.version ∨ (s'.version = s.version ∧ s.settled = false)

theorem Outdates.not_current {v : Version} {q : Request} {result : Res} (outdates : Outdates s s')
    (older : v.lsn ≤ s.durable ∧ v.cat ≤ s.generation)
    (current : v = s.version → Current ev s q result) : v ≠ s'.version := by
  intro now
  obtain moved | ⟨same, unsettled⟩ := outdates.moved
  · refine moved ?_
    rw [now] at older
    have lsn : s'.durable = s.durable := Nat.le_antisymm older.1 outdates.durable
    have cat : s'.generation = s.generation := Nat.le_antisymm older.2 outdates.generation
    unfold State.version
    rw [lsn, cat]
  · have settled := (current (now.trans same)).settled
    rw [unsettled] at settled
    cases settled

theorem InProgress.outdated (progress : InProgress ev s r) (outdates : Outdates s s')
    (installs : s.installs ≤ s'.installs)
    (catalog : s.installs = s'.installs → s'.catalog = s.catalog) : InProgress ev s' r := by
  refine ⟨Nat.le_trans progress.earlier installs, ?_, progress.walked, progress.cacheable, ?_, ?_⟩
  · intro now
    have before := progress.earlier
    have same : r.installs = s.installs := by omega
    rw [catalog (by omega)]
    exact progress.same same
  · intro v isVersion
    obtain ⟨lsn, cat⟩ := progress.older v isVersion
    exact ⟨Nat.le_trans lsn outdates.durable, Nat.le_trans cat outdates.generation⟩
  · intro v isVersion result isResult now
    exact absurd now (outdates.not_current (progress.older v isVersion)
      (progress.current v isVersion result isResult))

/-- The invariant after a step that outdates every version and keeps the cache, the
sessions and the answers. -/
theorem Coherent.outdated (coherent : Coherent ev s) (outdates : Outdates s s')
    (installs : s.installs ≤ s'.installs)
    (catalog : s.installs = s'.installs → s'.catalog = s.catalog)
    (logged : s'.durable ≤ s'.nextLSN ∧ ∀ c ∈ s'.pending, c.lsn ≤ s'.nextLSN)
    (shown : ∀ c ∈ s'.pending, c.visible → c.lsn ≤ s'.durable)
    (cache : s'.cache = s.cache) (running : s'.running = s.running)
    (answers : s'.answers = s.answers) : Coherent ev s' where
  logged := logged
  shown := shown
  older q e member := by
    rw [cache] at member
    obtain ⟨lsn, cat⟩ := coherent.older q e member
    exact ⟨Nat.le_trans lsn outdates.durable, Nat.le_trans cat outdates.generation⟩
  current q e member now := by
    rw [cache] at member
    exact absurd now (outdates.not_current (coherent.older q e member)
      (coherent.current q e member))
  running i r member := by
    rw [running] at member
    exact (coherent.running i r member).outdated outdates installs catalog
  answered := by
    rw [answers]
    exact coherent.answered

/-- The invariant after a step that leaves the version, the data and the catalog. -/
theorem Coherent.transport (coherent : Coherent ev s)
    (settled : s.settled → s'.settled) (catalog : s'.catalog = s.catalog)
    (db : s'.db = s.db) (installs : s'.installs = s.installs) (version : s'.version = s.version)
    (logged : s'.durable ≤ s'.nextLSN ∧ ∀ c ∈ s'.pending, c.lsn ≤ s'.nextLSN)
    (shown : ∀ c ∈ s'.pending, c.visible → c.lsn ≤ s'.durable)
    (cache : ∀ q, ∀ e ∈ s'.cache q, s.cache q = some e ∨
      (e.version = s.version ∧ Current ev s q e.result))
    (running : ∀ i, ∀ r ∈ s'.running i, s.running i = some r ∨ InProgress ev s r)
    (answered : ∀ a ∈ s'.answers, a ∈ s.answers ∨ (a.answer = a.fresh ∧
      (ev.stmt a.request a.catalog).callsVolatile = false)) : Coherent ev s' where
  logged := logged
  shown := shown
  older q e member := by
    have durable : s'.durable = s.durable := congrArg Version.lsn version
    have generation : s'.generation = s.generation := congrArg Version.cat version
    rw [durable, generation]
    obtain old | ⟨now, -⟩ := cache q e member
    · exact coherent.older q e old
    · rw [now]
      exact ⟨Nat.le_refl _, Nat.le_refl _⟩
  current q e member now := by
    rw [version] at now
    obtain old | ⟨-, current⟩ := cache q e member
    · exact (coherent.current q e old now).transport settled catalog db
    · exact current.transport settled catalog db
  running i r member := by
    obtain old | new := running i r member
    · exact (coherent.running i r old).transport settled catalog db installs version
    · exact new.transport settled catalog db installs version
  answered a member := (answered a member).elim (coherent.answered a) id

/-- A session changes its own query, and what it reads and writes of the cache. -/
theorem Coherent.session (coherent : Coherent ev s)
    {cache' : Request → Option (Entry Res)} {running' : ℕ → Option (Running Request Catalog Res)}
    {answers' : List (Answer Request Catalog Res)}
    (cache : ∀ q, ∀ e ∈ cache' q, s.cache q = some e ∨
      (e.version = s.version ∧ Current ev s q e.result))
    (running : ∀ i, ∀ r ∈ running' i, s.running i = some r ∨ InProgress ev s r)
    (answered : ∀ a ∈ answers', a ∈ s.answers ∨ (a.answer = a.fresh ∧
      (ev.stmt a.request a.catalog).callsVolatile = false)) :
    Coherent ev { s with cache := cache', running := running', answers := answers' } :=
  coherent.transport id rfl rfl rfl rfl coherent.logged coherent.shown cache running answered

variable {c : Commit Catalog Db}

/-- A pending commit that is durable shows that the state is not settled. -/
theorem unsettled_of_durable (member : c ∈ s.pending) (durable : c.lsn ≤ s.durable) :
    s.settled = false := by
  unfold State.settled
  rw [Bool.eq_false_iff, Ne, List.all_eq_true]
  intro every
  have := of_decide_eq_true (every c member)
  omega

theorem mem_update {β : Type} {f : ℕ → Option β} {i j : ℕ} {new : Option β} {b : β}
    (member : b ∈ update f i new j) : f j = some b ∨ new = some b := by
  obtain ⟨_, member⟩ | ⟨_, member⟩ := update_cases member
  · exact .inr member
  · exact .inl member

/-! ## The steps -/

/-- A commit becomes visible: no version of that moment was stored, since the commit
was durable already. -/
theorem becomeVisible_coherent {n : ℕ} (coherent : Coherent ev s) (found : s.pending[n]? = some c)
    (durable : c.lsn ≤ s.durable) : Coherent ev (s.makeVisible n c) := by
  have member : c ∈ s.pending := mem_of_getElem? found
  have kept : ∀ d ∈ (s.makeVisible n c).pending, d ∈ s.pending ∨ d = { c with visible := true } := by
    intro d inside
    unfold State.makeVisible at inside
    simp only at inside
    split at inside
    · exact (mem_or_eq_of_mem_set inside)
    · exact .inl (mem_of_mem_eraseIdx inside)
  refine coherent.outdated ⟨Nat.le_refl _, Nat.le_refl _, .inr ⟨rfl, unsettled_of_durable member durable⟩⟩
    (Nat.le_refl _) (fun _ => rfl) ⟨coherent.logged.1, ?_⟩ ?_ rfl rfl rfl
  · intro d inside
    obtain old | rfl := kept d inside
    · exact coherent.logged.2 d old
    · exact coherent.logged.2 c member
  · intro d inside visible
    obtain old | rfl := kept d inside
    · exact coherent.shown d old visible
    · exact durable

theorem install_coherent {n : ℕ} {change : CatalogChange Catalog} (coherent : Coherent ev s)
    (found : s.pending[n]? = some c) (visible : c.visible) :
    Coherent ev (s.installChange n change) := by
  have member : c ∈ s.pending := mem_of_getElem? found
  have unsettled := unsettled_of_durable member (coherent.shown c member visible)
  have generation : s.generation ≤ (s.installChange n change).generation := by
    change s.generation ≤ if change.advances then s.generation + 1 else s.generation
    split <;> omega
  have moved : (s.installChange n change).version ≠ s.version ∨
      ((s.installChange n change).version = s.version ∧ s.settled = false) := by
    by_cases same : (s.installChange n change).version = s.version
    · exact .inr ⟨same, unsettled⟩
    · exact .inl same
  refine coherent.outdated ⟨Nat.le_refl _, generation, moved⟩ (Nat.le_succ _) ?_
    ⟨coherent.logged.1, ?_⟩ ?_ rfl rfl rfl
  · intro same
    have : s.installs = s.installs + 1 := same
    omega
  · exact fun d inside => coherent.logged.2 d (mem_of_mem_eraseIdx inside)
  · exact fun d inside => coherent.shown d (mem_of_mem_eraseIdx inside)

theorem look_coherent {i : ℕ} {m : Moment} (coherent : Coherent ev s) (found : s.running i = some r)
    (unexecuted : r.result = none) (bound : r.installs = s.installs) :
    Coherent ev (s.look ev i r m) := by
  have progress := coherent.running i r found
  have catalog := progress.same bound
  unfold State.look
  split
  · exact coherent
  rename_i asked
  simp only [Bool.or_eq_true, Bool.not_eq_true', decide_eq_true_eq, not_or, Bool.not_eq_false] at asked
  -- Without a stored result the version is noted.
  have noted : Coherent ev { s with
      running := update s.running i (some { r with version := s.version }) } := by
    refine coherent.session (fun q e member => .inl member) ?_ fun a member => .inl member
    intro j r' member
    obtain old | new := mem_update member
    · exact .inl old
    cases new
    refine .inr { progress with cacheable := fun _ => asked.1, older := ?_, current := ?_ }
    · rintro v ⟨⟩
      exact ⟨Nat.le_refl _, Nat.le_refl _⟩
    · intro v _ result isResult
      rw [show r.result = none from unexecuted] at isResult
      cases isResult
  cases stored : s.cache r.request with
  | none => exact noted
  | some e =>
    simp only
    split
    · rename_i now
      obtain ⟨-, quiet, m', computed⟩ := coherent.current r.request e stored now
      refine coherent.session (fun q e member => .inl member) ?_ ?_
      · intro j r' member
        obtain old | new := mem_update member
        · exact .inl old
        · cases new
      intro a member
      obtain rfl | later := mem_cons.mp member
      · refine .inr ⟨?_, quiet⟩
        rw [computed]
        exact ev.steady r.request s.catalog quiet s.db m' m
      · exact .inl later
    · exact noted

variable [DecidableEq Request]

theorem execute_coherent {i : ℕ} {m : Moment} (coherent : Coherent ev s)
    (calm : s.calm ev (.execute i m)) (step : s.step? ev (.execute i m) = some s') :
    Coherent ev s' := by
  obtain ⟨r, found, step⟩ := bind_eq_some_iff.mp step
  split at step
  · cases step
  cases step
  obtain ⟨bound, settled⟩ : r.installs = s.installs ∧ s.settled := by
    simpa [State.calm, State.bound, found] using calm
  have progress := coherent.running i r found
  refine coherent.session (fun q e member => .inl member) ?_ fun a member => .inl member
  intro j r' member
  obtain old | new := mem_update member
  · exact .inl old
  cases new
  refine .inr { progress with current := ?_ }
  rintro v isVersion result ⟨⟩ _
  have walked := progress.walked
  have cacheable := progress.cacheable (isSome_of_mem isVersion)
  rw [progress.same bound] at walked cacheable ⊢
  exact ⟨settled, Query.not_callsVolatile_of_cacheable walked cacheable, m, rfl⟩

theorem finish_coherent {i : ℕ} {small : Bool} (coherent : Coherent ev s)
    (step : s.step? ev (.finish i small) = some s') : Coherent ev s' := by
  obtain ⟨r, found, step⟩ := bind_eq_some_iff.mp step
  obtain ⟨result, computed, rfl⟩ := map_eq_some_iff.mp step
  have progress := coherent.running i r found
  refine coherent.session ?_ ?_ fun a member => .inl member
  · intro q e member
    split at member
    · rename_i same
      rw [Bool.and_eq_true, decide_eq_true_eq] at same
      obtain ⟨here, member⟩ | ⟨_, member⟩ := update_cases member
      · cases member
        rw [here]
        exact .inr ⟨rfl, progress.current s.version same.2 result computed rfl⟩
      · exact .inl member
    · exact .inl member
  · intro j r' member
    obtain old | new := mem_update member
    · exact .inl old
    · cases new

theorem step_coherent {label : Label Request Catalog Db Moment} (coherent : Coherent ev s)
    (calm : s.calm ev label) (step : s.Steps ev label s') : Coherent ev s' := by
  unfold State.Steps at step
  cases label with
  | log =>
    cases step
    exact coherent.transport id rfl rfl rfl rfl
      ⟨Nat.le_succ_of_le coherent.logged.1, fun c member =>
        Nat.le_succ_of_le (coherent.logged.2 c member)⟩ coherent.shown
      (fun q e member => .inl member) (fun i r member => .inl member) fun a member => .inl member
  | append write change =>
    cases step
    have durable := coherent.logged.1
    refine coherent.transport ?_ rfl rfl rfl rfl ⟨Nat.le_succ_of_le durable, ?_⟩ ?_
      (fun q e member => .inl member) (fun i r member => .inl member) fun a member => .inl member
    · intro settled
      unfold State.settled at settled ⊢
      rw [all_append, settled, Bool.true_and, all_cons, all_nil, Bool.and_true]
      exact decide_eq_true (Nat.lt_succ_of_le durable)
    · refine forall_mem_append.mpr ⟨fun c old => Nat.le_succ_of_le (coherent.logged.2 c old), ?_⟩
      exact forall_mem_singleton.mpr (Nat.le_refl _)
    · intro c member visible
      obtain old | new := mem_append.mp member
      · exact coherent.shown c old visible
      · rw [mem_singleton.mp new] at visible
        cases visible
  | flush lsn =>
    simp only [State.step?] at step
    split at step
    · rename_i bounds
      cases step
      by_cases same : lsn = s.durable
      · subst same
        exact coherent
      refine coherent.outdated ⟨bounds.1, Nat.le_refl _, .inl ?_⟩ (Nat.le_refl _) (fun _ => rfl)
        ⟨bounds.2, coherent.logged.2⟩ ?_ rfl rfl rfl
      · exact fun equal => same (congrArg Version.lsn equal)
      · exact fun c member visible =>
          Nat.le_trans (coherent.shown c member visible) bounds.1
    · cases step
  | becomeVisible n =>
    obtain ⟨c, found, step⟩ := bind_eq_some_iff.mp step
    split at step
    · rename_i ready
      cases step
      rw [Bool.and_eq_true, decide_eq_true_eq] at ready
      exact becomeVisible_coherent coherent found ready.2
    · cases step
  | install n =>
    obtain ⟨c, found, step⟩ := bind_eq_some_iff.mp step
    split at step
    · rename_i visible
      obtain ⟨change, -, rfl⟩ := map_eq_some_iff.mp step
      exact install_coherent coherent found visible
    · cases step
  | bind i q =>
    simp only [State.step?] at step
    split at step
    · cases step
    cases step
    refine coherent.session (fun q e member => .inl member) ?_ fun a member => .inl member
    intro j r member
    obtain old | new := mem_update member
    · exact .inl old
    · cases new
      exact .inr ⟨Nat.le_refl _, fun _ => rfl, calm, nofun, nofun, nofun⟩
  | look i m =>
    obtain ⟨r, found, step⟩ := bind_eq_some_iff.mp step
    split at step
    · rename_i ready
      cases step
      rw [Bool.and_eq_true, isNone_iff_eq_none, isNone_iff_eq_none] at ready
      have bound : r.installs = s.installs := by
        simpa [State.calm, State.bound, found] using calm
      exact look_coherent coherent found ready.2 bound
    · cases step
  | execute i m => exact execute_coherent coherent calm step
  | finish i small => exact finish_coherent coherent step
  | evict q =>
    cases step
    refine coherent.session ?_ (fun i r member => .inl member) fun a member => .inl member
    intro q' e member
    by_cases here : q' = q
    · rw [here] at member
      rw [update_self] at member
      cases member
    · change e ∈ update s.cache q none q' at member
      rw [update_of_ne here] at member
      exact .inl member

namespace Counting

/-- One table with a counter in it; the only request reads the counter. -/
def counter : Evaluation Unit Unit ℕ ℕ ℕ where
  stmt _ _ := .select [.leaf] [] [] []
  run _ _ db _ := db
  steady _ _ _ _ _ _ := rfl

/-- The request `SELECT ARRAY(NOW()) FROM t`. -/
def clock : Evaluation Unit Unit ℕ ℕ ℕ where
  stmt _ _ := .select [.arrayCtor [.call "now" []]] [] [] []
  run _ _ _ moment := moment
  steady q catalog quiet := absurd quiet (by simp [Query.callsVolatile, anyCallsVolatile,
    QExpr.callsVolatile, isVolatileName])

/-- The counter goes up by one. -/
def increment : List (Label Unit Unit ℕ ℕ) := [.append (· + 1) none, .flush 1, .becomeVisible 0]

/-- A SELECT by a session, which is stored if it is executed. -/
def select (session : ℕ) : List (Label Unit Unit ℕ ℕ) :=
  [.bind session (), .look session 0, .execute session 0, .finish session true]

/-- A SELECT that is answered from the cache. -/
def again : List (Label Unit Unit ℕ ℕ) := [.bind 1 (), .look 1 1]

/-- The commit is durable and not yet visible while the SELECT executes. -/
def overtaken : List (Label Unit Unit ℕ ℕ) :=
  [.append (· + 1) none, .flush 1] ++ select 0 ++ [.becomeVisible 0]

end Counting

end NextSQL.Executor.ResultCache
