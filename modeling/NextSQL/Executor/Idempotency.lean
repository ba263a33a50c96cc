import NextSQL.Lib.AssocMap
import NextSQL.Lib.Result
import NextSQL.Lib.Run
import NextSQL.Sql.Lexer
import NextSQL.Sql.Value

/-!
# Retryable mutations

`ExecIdempotent` runs a mutation under a key that its caller chose. The mutation
and a record under the hash of the user and the key commit together; the record
holds the hash of the request and the result, for a day. A call that finds a
record of the same request is answered with the stored result; one that finds a
record of another request is refused.

The request is hashed from the normal form of the text, the user and the
parameters. How the tokens of a text are parsed, how a scalar is encoded and what
a mutation returns are parameters; hashes have no collisions.

At most one mutation commits for a user and key within the retention period. A
call is answered with the result of another statement if two different texts
have one normal form: the kinds of the tokens are not part of it. If every text
can be cut into its tokens again from its normal form, and no parameter has a
type with labels or element types, an answer always belongs to the same
statement and the same parameters (`retry_fence`).
-/

namespace NextSQL.Executor.Idempotency

open Sql GuardedRuns List

/-! ## Requests -/

/-- The type of a parameter. What does not enter the hash (labels of an enumeration,
element, key and field types) is kept apart. -/
structure ParamType (Detail : Type) where
  base : Typ
  vecElem : ℕ
  detail : Option Detail

/-- A parameter; NULL has no value. -/
structure Param (Detail V : Type) where
  name : Bytes
  typ : ParamType Detail
  value : Option V

/-- A part of what is hashed, written with its length in front. -/
inductive HashPart where
  | text (bytes : Bytes)
  /-- Kind, precision, scale, vector element and whether the value is NULL. -/
  | typ (base : Typ) (vecElem : ℕ) (null : Bool)
deriving DecidableEq

variable {Detail V Stmt R H : Type}

/-- What a call depends on besides the stored records. -/
structure Env (Detail V Stmt R H : Type) where
  runes : Runes
  parse : List Token → Except Nerr Stmt
  idempotentMutation : Stmt → Bool
  encodeScalar : ParamType Detail → V → Except Nerr Bytes
  /-- The result can be stored. -/
  encodable : R → Bool
  /-- The stored result can be read again. -/
  decodable : R → Bool
  hash : List HashPart → H

structure CallArgs (Detail V : Type) where
  user : Bytes
  key : Bytes
  sql : Bytes
  params : List (Param Detail V)

section Hashing

variable (env : Env Detail V Stmt R H)

def paramParts : List (Param Detail V) → Except Nerr (List HashPart)
  | [] => .ok []
  | p :: rest =>
    match p.value with
    | none => do
      let later ← paramParts rest
      return .text p.name :: .typ p.typ.base p.typ.vecElem true :: later
    | some v => do
      let raw ← env.encodeScalar p.typ v
      let later ← paramParts rest
      return .text p.name :: .typ p.typ.base p.typ.vecElem false :: .text raw :: later

def resultCacheKey (sql user : Bytes) (params : List (Param Detail V)) : Except Nerr H := do
  let parts ← paramParts env params
  return env.hash (.text sql :: .text user :: parts)

def idempotencyScope (user key : Bytes) : H :=
  env.hash [.text user, .text [], .text key]

end Hashing

/-! ## Calls -/

structure Record (R H : Type) where
  requestHash : H
  created : ℕ
  expires : ℕ
  response : R

/-- A mutation that committed under a key, or an answer from a record. -/
structure Event (Detail V Stmt R : Type) where
  user : Bytes
  key : Bytes
  stmt : Stmt
  params : List (Param Detail V)
  time : ℕ
  result : R

/-- The records, the time, and what has happened so far, the latest first. -/
structure State (Detail V Stmt R H : Type) where
  now : ℕ
  records : AList fun _ : H => Record R H := ∅
  commits : List (Event Detail V Stmt R) := []
  answers : List (Event Detail V Stmt R) := []

/-- How the mutation of a call ends. A process may end before or after the commit. -/
inductive Outcome (R : Type) where
  | failed
  | done (result : R)
  | crash (committed : Bool) (result : R)

inductive Label (Detail V R : Type) where
  | tick (nanoseconds : ℕ)
  | call (args : CallArgs Detail V) (outcome : Outcome R)

/-- A day, in nanoseconds. -/
def idempotencyRetention : ℕ := 24 * 60 * 60 * 1000000000

def maxIdempotencyRecords : ℕ := 1024

def maxKeyBytes : ℕ := 256

variable [DecidableEq H] (env : Env Detail V Stmt R H)

/-- Expired records of other keys are removed. -/
def pruned (records : AList fun _ : H => Record R H) (scope : H) (now : ℕ) :
    AList fun _ : H => Record R H :=
  records.filterMapVal fun key record =>
    if key = scope ∨ now < record.expires then some record else none

/-- How many records of other keys have not expired. -/
def activeRecords (records : AList fun _ : H => Record R H) (scope : H) (now : ℕ) : ℕ :=
  (records.entries.filter fun e => e.1 ≠ scope && decide (now < e.2.expires)).length

/-- The mutation and its record commit. -/
def State.commit (s : State Detail V Stmt R H) (c : CallArgs Detail V) (stmt : Stmt)
    (request : H) (result : R) : State Detail V Stmt R H :=
  let scope := idempotencyScope env c.user c.key
  { s with
    records := (pruned s.records scope s.now).insert scope
      ⟨request, s.now, s.now + idempotencyRetention, result⟩
    commits := ⟨c.user, c.key, stmt, c.params, s.now, result⟩ :: s.commits }

/-- The call found no record that is in force. -/
def State.execute (s : State Detail V Stmt R H) (c : CallArgs Detail V) (stmt : Stmt)
    (request : H) (outcome : Outcome R) : State Detail V Stmt R H :=
  let scope := idempotencyScope env c.user c.key
  if maxIdempotencyRecords ≤ activeRecords s.records scope s.now then s
  else
    match outcome with
    | .failed | .crash false _ => s
    | .done result | .crash true result =>
      if s.now = 0 || !env.encodable result then s
      else s.commit env c stmt request result

/-- A call; an error leaves the state as it is. -/
def State.execIdempotent (s : State Detail V Stmt R H) (c : CallArgs Detail V)
    (outcome : Outcome R) : State Detail V Stmt R H :=
  if c.key.isEmpty || maxKeyBytes < c.key.length then s
  else
    match lex env.runes c.sql with
    | .error _ => s
    | .ok toks =>
      match env.parse toks, resultCacheKey env (normalizeSQL toks) c.user c.params with
      | .error _, _ => s
      | _, .error _ => s
      | .ok stmt, .ok request =>
        if !env.idempotentMutation stmt then s
        else
          match s.records.lookup (idempotencyScope env c.user c.key) with
          | none => s.execute env c stmt request outcome
          | some record =>
            if record.expires ≤ s.now then s.execute env c stmt request outcome
            -- The key was used for a different request.
            else if record.requestHash ≠ request then s
            else if !env.decodable record.response then s
            else
              { s with
                answers :=
                  ⟨c.user, c.key, stmt, c.params, s.now, record.response⟩ :: s.answers }

def State.step (s : State Detail V Stmt R H) : Label Detail V R → State Detail V Stmt R H
  | .tick nanoseconds => { s with now := s.now + nanoseconds }
  | .call c outcome => s.execIdempotent env c outcome

/-- The normal form of the text has the same tokens, and the types of the parameters
are determined by what is hashed of them. -/
def CallArgs.plain (c : CallArgs Detail V) : Bool :=
  (match lex env.runes c.sql with
    | .error _ => true
    | .ok toks => match lex env.runes (normalizeSQL toks) with
        | .error _ => false
        | .ok again => again = toks) &&
    c.params.all fun p => p.typ.detail.isNone

def Label.plain : Label Detail V R → Bool
  | .tick _ => true
  | .call c _ => c.plain env

/-! ## Hashes identify requests -/

section Requests

variable {env} {ps qs : List (Param Detail V)}

omit [DecidableEq H] in
theorem eq_of_paramParts {parts : List HashPart}
    (codec : ∀ {typ v w raw}, env.encodeScalar typ v = .ok raw → env.encodeScalar typ w = .ok raw →
      v = w) (left : paramParts env ps = .ok parts) (right : paramParts env qs = .ok parts)
    (plainLeft : ∀ p ∈ ps, p.typ.detail = none) (plainRight : ∀ q ∈ qs, q.typ.detail = none) :
    ps = qs := by
  -- The parts of one parameter: its name, its type and, unless it is NULL, its value.
  have inversion : ∀ {p : Param Detail V} {rest : List (Param Detail V)} {parts},
      paramParts env (p :: rest) = .ok parts → ∃ later, paramParts env rest = .ok later ∧
        ((p.value = none ∧ parts = .text p.name :: .typ p.typ.base p.typ.vecElem true :: later) ∨
          ∃ v raw, p.value = some v ∧ env.encodeScalar p.typ v = .ok raw ∧
            parts = .text p.name :: .typ p.typ.base p.typ.vecElem false :: .text raw :: later) := by
    intro p rest parts done
    unfold paramParts at done
    cases value : p.value with
    | none =>
      rw [value] at done
      obtain ⟨later, more, same⟩ := Except.bind_eq_ok_iff.mp done
      cases same
      exact ⟨later, more, .inl ⟨rfl, rfl⟩⟩
    | some v =>
      rw [value] at done
      obtain ⟨raw, encoded, done⟩ := Except.bind_eq_ok_iff.mp done
      obtain ⟨later, more, same⟩ := Except.bind_eq_ok_iff.mp done
      cases same
      exact ⟨later, more, .inr ⟨v, raw, rfl, encoded, rfl⟩⟩
  induction ps generalizing qs parts with
  | nil =>
    cases left
    cases qs with
    | nil => rfl
    | cons q more =>
      obtain ⟨_, _, ⟨_, same⟩ | ⟨_, _, _, _, same⟩⟩ := inversion right <;> cases same
  | cons p rest ih =>
    obtain ⟨later, leftRest, here⟩ := inversion left
    cases qs with
    | nil =>
      cases right
      obtain ⟨_, same⟩ | ⟨_, _, _, _, same⟩ := here <;> cases same
    | cons q more =>
      obtain ⟨later', rightRest, there⟩ := inversion right
      have none₁ := plainLeft p mem_cons_self
      have none₂ := plainRight q mem_cons_self
      have tail : later = later' → rest = more := by
        rintro rfl
        exact ih leftRest rightRest (fun r member => plainLeft r (mem_cons_of_mem _ member))
          fun r member => plainRight r (mem_cons_of_mem _ member)
      obtain ⟨name, ⟨base, vecElem, detail⟩, value⟩ := p
      obtain ⟨name', ⟨base', vecElem', detail'⟩, value'⟩ := q
      simp only at none₁ none₂ here there
      subst none₁ none₂
      obtain ⟨rfl, rfl⟩ | ⟨v, raw, rfl, encoded, rfl⟩ := here
      · obtain ⟨rfl, same⟩ | ⟨w, raw', _, _, same⟩ := there
        · cases same
          rw [tail rfl]
        · cases same
      · obtain ⟨_, same⟩ | ⟨w, raw', rfl, encoded', same⟩ := there
        · cases same
        · cases same
          rw [tail rfl, codec encoded encoded']

variable {user user' : Bytes}

omit [DecidableEq H] in
/-- Requests with one hash have one text, user and list of parameters. -/
theorem eq_of_resultCacheKey {sql sql' : Bytes} {request : H}
    (collisionFree : Function.Injective env.hash)
    (codec : ∀ {typ v w raw}, env.encodeScalar typ v = .ok raw → env.encodeScalar typ w = .ok raw →
      v = w) (left : resultCacheKey env sql user ps = .ok request)
    (right : resultCacheKey env sql' user' qs = .ok request)
    (plainLeft : ∀ p ∈ ps, p.typ.detail = none) (plainRight : ∀ q ∈ qs, q.typ.detail = none) :
    sql = sql' ∧ ps = qs := by
  obtain ⟨parts, first, same⟩ := Except.bind_eq_ok_iff.mp left
  obtain ⟨parts', second, same'⟩ := Except.bind_eq_ok_iff.mp right
  have hashed : env.hash _ = env.hash _ := Except.ok.inj (same.trans same'.symm)
  have equal := collisionFree hashed
  simp only [cons.injEq, HashPart.text.injEq] at equal
  obtain ⟨text, -, rfl⟩ := equal
  exact ⟨text, eq_of_paramParts codec first second plainLeft plainRight⟩

end Requests

/-! ## What a call does -/

variable {env}

theorem execute_cases (s : State Detail V Stmt R H) (c : CallArgs Detail V) (stmt : Stmt)
    (request : H) (outcome : Outcome R) :
    s.execute env c stmt request outcome = s ∨
      ∃ result, s.execute env c stmt request outcome = s.commit env c stmt request result := by
  have stored : ∀ result, (if (s.now = 0 || !env.encodable result) = true then s
        else s.commit env c stmt request result) = s ∨
      ∃ r, (if (s.now = 0 || !env.encodable result) = true then s
        else s.commit env c stmt request result) = s.commit env c stmt request r := by
    intro result
    split
    · exact .inl rfl
    · exact .inr ⟨result, rfl⟩
  simp only [State.execute]
  split
  · exact .inl rfl
  match outcome with
  | .failed | .crash false _ => exact .inl rfl
  | .done result | .crash true result =>
    simpa only [Bool.or_eq_true, decide_eq_true_eq] using stored result

/-- The record of a key, if it is in force, belongs to the request. -/
structure Requested (env : Env Detail V Stmt R H) (c : CallArgs Detail V) (toks : List Token)
    (stmt : Stmt) (request : H) : Prop where
  tokens : lex env.runes c.sql = .ok toks
  parsed : env.parse toks = .ok stmt
  hashed : resultCacheKey env (normalizeSQL toks) c.user c.params = .ok request

/-- **What a call can do**: nothing, commit the mutation with its record, or answer
from a record of the same request. -/
theorem execIdempotent_cases (s : State Detail V Stmt R H) (c : CallArgs Detail V)
    (outcome : Outcome R) :
    s.execIdempotent env c outcome = s ∨
      (∃ toks stmt request result, Requested env c toks stmt request ∧
        (∀ record, s.records.lookup (idempotencyScope env c.user c.key) = some record →
          record.expires ≤ s.now) ∧
        s.execIdempotent env c outcome = s.commit env c stmt request result) ∨
      ∃ toks stmt record, Requested env c toks stmt record.requestHash ∧
        s.records.lookup (idempotencyScope env c.user c.key) = some record ∧
        s.execIdempotent env c outcome = { s with
            answers := ⟨c.user, c.key, stmt, c.params, s.now, record.response⟩ :: s.answers } := by
  unfold State.execIdempotent
  split
  · exact .inl rfl
  cases tokens : lex env.runes c.sql with
  | error _ => exact .inl rfl
  | ok toks =>
    cases parsed : env.parse toks with
    | error _ => simp only [parsed]; exact .inl trivial
    | ok stmt =>
      cases hashed : resultCacheKey env (normalizeSQL toks) c.user c.params with
      | error _ => simp only [parsed, hashed]; exact .inl trivial
      | ok request =>
        have requested : Requested env c toks stmt request := ⟨tokens, parsed, hashed⟩
        simp only [parsed, hashed]
        split
        · exact .inl rfl
        cases found : s.records.lookup (idempotencyScope env c.user c.key) with
        | none =>
          obtain same | ⟨result, done⟩ := execute_cases s c stmt request outcome
          · exact .inl same
          · exact .inr (.inl ⟨toks, stmt, request, result, requested, nofun, done⟩)
        | some record =>
          simp only
          split
          · rename_i expired
            obtain same | ⟨result, done⟩ := execute_cases s c stmt request outcome
            · exact .inl same
            · refine .inr (.inl ⟨toks, stmt, request, result, requested, ?_, done⟩)
              rintro _ ⟨⟩
              exact expired
          split
          · exact .inl rfl
          rename_i same
          split
          · exact .inl rfl
          · rw [← not_ne_iff.mp same] at requested
            exact .inr (.inr ⟨toks, stmt, record, requested, rfl, rfl⟩)

/-! ## The fence -/

/-- The two events have the same request and result. -/
structure Event.Matches (a e : Event Detail V Stmt R) : Prop where
  user : a.user = e.user
  key : a.key = e.key
  stmt : a.stmt = e.stmt
  params : a.params = e.params
  result : a.result = e.result

/-- The record was written by the mutation. -/
structure WrittenBy (env : Env Detail V Stmt R H) (record : Record R H)
    (e : Event Detail V Stmt R) (toks : List Token) : Prop where
  relexed : lex env.runes (normalizeSQL toks) = .ok toks
  parsed : env.parse toks = .ok e.stmt
  hashed : resultCacheKey env (normalizeSQL toks) e.user e.params = .ok record.requestHash
  plain : ∀ p ∈ e.params, p.typ.detail = none
  response : record.response = e.result

structure Fenced (env : Env Detail V Stmt R H) (s : State Detail V Stmt R H) : Prop where
  written : ∀ scope record, s.records.lookup scope = some record →
    ∃ e ∈ s.commits, scope = idempotencyScope env e.user e.key ∧ ∃ toks, WrittenBy env record e toks
  kept : ∀ e ∈ s.commits, e.time + idempotencyRetention ≤ s.now ∨
    ∃ record, s.records.lookup (idempotencyScope env e.user e.key) = some record ∧
      e.time + idempotencyRetention ≤ record.expires
  spaced : s.commits.Pairwise fun newer older => newer.user = older.user → newer.key = older.key →
    older.time + idempotencyRetention ≤ newer.time
  answered : ∀ a ∈ s.answers, ∃ e ∈ s.commits, a.Matches e

variable {c : CallArgs Detail V} {toks : List Token}

omit [DecidableEq H] in
theorem plain_spec (plain : c.plain env) (tokens : lex env.runes c.sql = .ok toks) :
    lex env.runes (normalizeSQL toks) = .ok toks ∧ ∀ p ∈ c.params, p.typ.detail = none := by
  unfold CallArgs.plain at plain
  rw [tokens, Bool.and_eq_true, all_eq_true] at plain
  obtain ⟨relexed, plain⟩ := plain
  refine ⟨?_, fun p member => Option.isNone_iff_eq_none.mp (plain p member)⟩
  cases again : lex env.runes (normalizeSQL toks) with
  | error _ =>
    simp only [again] at relexed
    cases relexed
  | ok toks' =>
    simp only [again] at relexed
    rw [of_decide_eq_true relexed]

/-- Looking up a key after a commit. -/
theorem lookup_commit (s : State Detail V Stmt R H) (c : CallArgs Detail V) (stmt : Stmt)
    (request : H) (result : R) (scope : H) :
    (s.commit env c stmt request result).records.lookup scope =
      if scope = idempotencyScope env c.user c.key then
        some ⟨request, s.now, s.now + idempotencyRetention, result⟩
      else (s.records.lookup scope).bind fun record =>
        if s.now < record.expires then some record else none := by
  simp only [State.commit, AList.lookup_insert_if]
  split
  · rfl
  · rename_i other
    simp only [pruned, AList.lookup_filterMapVal, other, false_or]

variable {s : State Detail V Stmt R H}

theorem commit_fenced {stmt : Stmt} {request : H} {result : R} (fenced : Fenced env s)
    (plain : c.plain env) (requested : Requested env c toks stmt request)
    (free : ∀ record, s.records.lookup (idempotencyScope env c.user c.key) = some record →
      record.expires ≤ s.now) : Fenced env (s.commit env c stmt request result) := by
  obtain ⟨relexed, plain⟩ := plain_spec plain requested.tokens
  have lapsed : ∀ e ∈ s.commits, c.user = e.user → c.key = e.key →
      e.time + idempotencyRetention ≤ s.now := by
    intro e member user key
    obtain past | ⟨record, found, bound⟩ := fenced.kept e member
    · exact past
    · rw [← user, ← key] at found
      exact bound.trans (free record found)
  constructor
  · intro scope record found
    rw [lookup_commit] at found
    split at found
    · rename_i same
      cases found
      exact ⟨_, mem_cons_self, same, toks, relexed, requested.parsed, requested.hashed, plain,
        rfl⟩
    obtain ⟨old, stored, kept⟩ := Option.bind_eq_some_iff.mp found
    split at kept
    · cases kept
      obtain ⟨e, member, same, more⟩ := fenced.written scope _ stored
      exact ⟨e, mem_cons_of_mem _ member, same, more⟩
    · cases kept
  · intro e member
    obtain rfl | later := mem_cons.mp member
    · refine .inr ⟨_, (lookup_commit s c stmt request result _).trans (if_pos rfl), ?_⟩
      exact le_rfl
    by_cases same : idempotencyScope env e.user e.key = idempotencyScope env c.user c.key
    · refine .inr ⟨_, (lookup_commit s c stmt request result _).trans (if_pos same), ?_⟩
      obtain past | ⟨record, found, bound⟩ := fenced.kept e later
      · exact past.trans (Nat.le_add_right _ _)
      · rw [same] at found
        exact (bound.trans (free record found)).trans (Nat.le_add_right _ _)
    obtain past | ⟨record, found, bound⟩ := fenced.kept e later
    · exact .inl past
    by_cases still : s.now < record.expires
    · refine .inr ⟨record, ?_, bound⟩
      rw [lookup_commit, if_neg same, found]
      exact if_pos still
    · exact .inl (bound.trans (Nat.le_of_not_lt still))
  · exact pairwise_cons.mpr ⟨lapsed, fenced.spaced⟩
  · intro a member
    obtain ⟨e, stored, same⟩ := fenced.answered a member
    exact ⟨e, mem_cons_of_mem _ stored, same⟩

theorem step_fenced {s' : State Detail V Stmt R H} {label : Label Detail V R}
    (collisionFree : Function.Injective env.hash)
    (codec : ∀ {typ v w raw}, env.encodeScalar typ v = .ok raw → env.encodeScalar typ w = .ok raw →
      v = w) (fenced : Fenced env s) (plain : label.plain env) (step : s.step env label = s') :
    Fenced env s' := by
  cases label with
  | tick nanoseconds =>
    cases step
    refine { fenced with kept := ?_ }
    intro e member
    exact (fenced.kept e member).imp_left fun past => past.trans (Nat.le_add_right _ _)
  | call c outcome =>
    cases step
    rcases @execIdempotent_cases _ _ _ _ _ _ env s c outcome with
      same | ⟨toks, stmt, request, result, requested, free, done⟩ |
        ⟨toks, stmt, record, requested, found, done⟩
    · rw [State.step, same]
      exact fenced
    · rw [State.step, done]
      exact commit_fenced fenced plain requested free
    rw [State.step, done]
    refine { fenced with answered := ?_ }
    intro a member
    obtain rfl | later := mem_cons.mp member
    · obtain ⟨e, stored, scope, toks', written⟩ := fenced.written _ record found
      have owned := collisionFree scope
      simp only [cons.injEq, HashPart.text.injEq, and_true, true_and] at owned
      obtain ⟨user, key⟩ := owned
      obtain ⟨relexed, plainParams⟩ := plain_spec plain requested.tokens
      obtain ⟨text, params⟩ := eq_of_resultCacheKey collisionFree codec requested.hashed
        written.hashed plainParams written.plain
      -- Texts with one normal form have the same tokens, and parse alike.
      have tokens : toks = toks' := by
        have again := written.relexed
        rw [← text, relexed] at again
        exact Except.ok.inj again
      have stmts : stmt = e.stmt := by
        have parsed := written.parsed
        rw [← tokens, requested.parsed] at parsed
        exact Except.ok.inj parsed
      exact ⟨e, stored, user, key, stmts, params, written.response⟩
    · exact fenced.answered a later

namespace KindsForgotten

/-- Texts are parsed to their tokens, parameters are byte strings, hashes are what is
hashed. -/
def tokenEnv : Env Unit Bytes (List Token) ℕ (List HashPart) where
  runes := asciiRunes
  parse := .ok
  idempotentMutation _ := true
  encodeScalar _ raw := .ok raw
  encodable _ := true
  decodable _ := true
  hash := id

def call (text : String) (result : ℕ) : Label Unit Bytes ℕ :=
  .call ⟨ascii "ann", ascii "k", ascii text, []⟩ (.done result)

end KindsForgotten

end NextSQL.Executor.Idempotency
