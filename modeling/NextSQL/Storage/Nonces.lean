import Mathlib.Algebra.Group.Nat.Defs
import Mathlib.Data.List.Nodup
import Mathlib.Data.List.Range
import NextSQL.Lib.Run

/-!
# Nonce counters

The undo log, the log and the data file each seal what they write under a data
key of their own, with a counter as the nonce. Each keeps a high-water mark on
disk, in its control file or in the superblock, and hands out the numbers of a
batch once the mark is past it: `sealRecordLocked` of `internal/undo/log.go`,
`reserveNonceLocked` of `internal/wal/log.go` and `reserveNonceBatchLocked` of
`internal/storage/file/manager.go`.

A write of the mark can fail, before or after it has reached the disk, and a
process can end at any time. The next one finds one of the marks that may be on
disk then. The log and the data file take a failed reservation back; the undo
log keeps the new limit in memory, goes on with numbers that no mark on disk is
past, and hands them out again after a restart (`undo_nonce_reused`). Without
such a failure, no number is handed out twice (`nonces_unique`).
-/

namespace NextSQL.Storage.Nonces

open GuardedRuns List

/-! ## The three counters -/

/-- Who keeps the counter. -/
inductive Sealer where
  | undo
  | wal
  | file
deriving DecidableEq, Repr

def nonceBatch : Nat := 65536

/-- The counters are 64-bit numbers. -/
def add64 (a b : Nat) : Nat := (a + b) % 2 ^ 64

/-- How a write of the mark ends. One that fails may have reached the disk. -/
inductive Write where
  | done
  | failed (reached : Bool)
deriving DecidableEq, Repr

/-- A counter: `nonceCur`, `nonceLim` and `nonceHigh`, or `genCursor`, `genLimit` and
`NextNonceGeneration`. -/
structure Counter where
  cur : Nat
  lim : Nat
  high : Nat
  isOpen : Bool
  /-- The marks that a restart may find on disk. -/
  found : List Nat
  /-- The numbers used to seal, the last one first. -/
  used : List Nat
deriving DecidableEq, Repr

namespace Counter

/-- Write the mark held in memory. -/
def persist (c : Counter) : Write → Counter
  | .done => { c with found := [c.high] }
  | .failed true => { c with found := c.high :: c.found }
  | .failed false => c

/-- Seal under the next number. -/
def take (c : Counter) : Counter := { c with cur := add64 c.cur 1, used := c.cur :: c.used }

/-- `sealRecordLocked`. The limit is part of the batch here, and a mark whose write has failed
stays in memory with the limit. -/
def sealRecord (c : Counter) (w : Write) : Counter :=
  if c.cur > c.lim then
    let raised := ({ c with lim := add64 c.high nonceBatch,
                            high := add64 c.high nonceBatch } : Counter).persist w
    if w = .done then raised.take else raised
  else c.take

/-- `reserveNonceLocked` -/
def reserveNonce (c : Counter) (w : Write) : Counter :=
  let start := if c.high = 0 then 1 else c.high
  let raised := ({ c with high := add64 start nonceBatch } : Counter).persist w
  if w = .done then { raised with cur := if start = 0 then 1 else start, lim := raised.high }
  else { raised with high := start }

/-- `reserveNonceBatchLocked` -/
def reserveNonceBatch (c : Counter) (w : Write) : Counter :=
  let start := c.high
  let raised := ({ c with high := add64 start nonceBatch } : Counter).persist w
  if w = .done then { raised with cur := if start = 0 then 1 else start, lim := raised.high }
  else { raised with high := start }

/-- `nextNonceLocked` and `nextGenerationLocked`, with the sealing that follows. -/
def sealNext (reserve : Counter → Write → Counter) (c : Counter) (w : Write) : Counter :=
  if c.cur ≥ c.lim then
    if w = .done then (reserve c w).take else reserve c w
  else c.take

/-- `AdvanceNonceTo` -/
def advanceNonceTo (c : Counter) (n : Nat) (w : Write) : Counter :=
  if n ≤ c.high then c else ({ c with high := n } : Counter).persist w

/-- The undo log's `Open` takes the batch after the mark. -/
def openUndo (c : Counter) (mark : Nat) (w : Write) : Counter :=
  let cur := add64 mark 1
  { ({ c with cur, lim := cur + nonceBatch - 1, high := cur + nonceBatch - 1 } : Counter).persist w
    with isOpen := w = .done }

/-- `Open` of the log and of the data file reserves a batch. -/
def openReserved (reserve : Counter → Write → Counter) (c : Counter) (mark : Nat) (w : Write) :
    Counter :=
  { reserve { c with cur := 0, lim := 0, high := mark } w with isOpen := w = .done }

end Counter

/-- All three start with the batch from 1 on, and with the mark written. -/
def create : Counter where
  cur := 1
  lim := nonceBatch
  high := nonceBatch
  isOpen := true
  found := [nonceBatch]
  used := []

inductive Label where
  | sealOne (w : Write)
  /-- Another write of the control file or of the superblock. -/
  | persist (w : Write)
  | advance (n : Nat) (w : Write)
  | stop
  | reopen (mark : Nat) (w : Write)
deriving DecidableEq, Repr

def next (k : Sealer) (c : Counter) : Label → Option Counter
  | .sealOne w =>
    if c.isOpen then
      some (match k with
        | .undo => c.sealRecord w
        | .wal => c.sealNext Counter.reserveNonce w
        | .file => c.sealNext Counter.reserveNonceBatch w)
    else none
  | .persist w => if c.isOpen ∧ k ≠ .undo then some (c.persist w) else none
  | .advance n w =>
    if c.isOpen ∧ k = .file ∧ n < 2 ^ 64 then some (c.advanceNonceTo n w) else none
  | .stop => some { c with isOpen := false }
  | .reopen mark w =>
    if c.isOpen = false ∧ mark ∈ c.found then
      some (match k with
        | .undo => c.openUndo mark w
        | .wal => c.openReserved Counter.reserveNonce mark w
        | .file => c.openReserved Counter.reserveNonceBatch mark w)
    else none

def Step (k : Sealer) (c : Counter) (label : Label) (c' : Counter) : Prop :=
  next k c label = some c'

/-- The undo log has to reserve before it seals. -/
def exhausted (c : Counter) : Bool := c.lim < c.cur

/-- No reservation of the undo log fails, and no mark passes the greatest 64-bit number. -/
def Reserves (k : Sealer) (c : Counter) : Label → Prop
  | .sealOne w => c.high + nonceBatch < 2 ^ 64 ∧ (k = .undo → exhausted c = true → w = .done)
  | .reopen mark _ => mark + nonceBatch < 2 ^ 64
  | .persist _ | .advance _ _ | .stop => True

instance (k : Sealer) (c : Counter) (label : Label) : Decidable (Reserves k c label) := by
  cases label with
  | sealOne w => exact inferInstanceAs (Decidable (_ ∧ _))
  | reopen mark w => exact inferInstanceAs (Decidable (_ < _))
  | persist w | advance n w | stop => exact isTrue trivial

/-! ## What is reserved -/

/-- The first number past a limit: the undo log's limits are the last numbers of their batches. -/
def past (k : Sealer) (lim : Nat) : Nat :=
  match k with
  | .undo => lim + 1
  | .wal | .file => lim

theorem past_mono (k : Sealer) {a b : Nat} (le : a ≤ b) : past k a ≤ past k b := by
  cases k with
  | undo => exact Nat.succ_le_succ le
  | wal | file => exact le

theorem past_eq {k : Sealer} (notUndo : k ≠ .undo) (lim : Nat) : past k lim = lim := by
  cases k with
  | undo => exact (notUndo rfl).elim
  | wal | file => rfl

/-- Every number used is behind every mark that may be on disk, and the numbers left in memory
are ahead of those used and behind the marks. -/
structure Sound (k : Sealer) (c : Counter) : Prop where
  unique : c.used.Nodup
  behind : ∀ n ∈ c.used, ∀ mark ∈ c.found, n < past k mark
  ahead : c.isOpen = true → ∀ n ∈ c.used, n < c.cur
  within : c.isOpen = true → c.cur ≤ past k c.lim
  limited : c.isOpen = true → c.lim ≤ c.high
  covered : c.isOpen = true → ∀ mark ∈ c.found, c.lim ≤ mark

variable {k : Sealer} {c c' : Counter} {w : Write} {mark : Nat}

theorem mem_found_persist (member : mark ∈ (c.persist w).found) :
    mark = c.high ∨ mark ∈ c.found := by
  cases w with
  | done => exact .inl (mem_singleton.mp member)
  | failed reached =>
    cases reached with
    | true => exact mem_cons.mp member
    | false => exact .inr member

/-- A write changes what may be found on the medium and nothing else. -/
theorem persist_eq : c.persist w = { c with found := (c.persist w).found } := by
  cases w with
  | done => rfl
  | failed reached => cases reached <;> rfl

@[simp] theorem used_persist : (c.persist w).used = c.used := by
  rw [persist_eq]

@[simp] theorem cur_persist : (c.persist w).cur = c.cur := by
  rw [persist_eq]

@[simp] theorem lim_persist : (c.persist w).lim = c.lim := by
  rw [persist_eq]

@[simp] theorem high_persist : (c.persist w).high = c.high := by
  rw [persist_eq]

@[simp] theorem isOpen_persist : (c.persist w).isOpen = c.isOpen := by
  rw [persist_eq]

/-- A mark at or past the limit may be written, and may stay in memory alone. -/
theorem Sound.persist (sound : Sound k c) (opened : c.isOpen) {high : Nat}
    (le : c.lim ≤ high) : Sound k (({ c with high } : Counter).persist w) := by
  have used : ∀ n ∈ c.used, n < past k high := fun n member =>
    ((sound.ahead opened n member).trans_le (sound.within opened)).trans_le (past_mono k le)
  refine ⟨by simpa using sound.unique, ?_, ?_, ?_, ?_, ?_⟩
  · intro n member mark possible
    obtain rfl | old := mem_found_persist possible
    · exact used n (by simpa using member)
    · exact sound.behind n (by simpa using member) mark old
  · intro _ n member
    simpa using sound.ahead opened n (by simpa using member)
  · intro _
    simpa using sound.within opened
  · intro _
    simpa using le
  · intro _ mark possible
    rw [lim_persist]
    obtain rfl | old := mem_found_persist possible
    · exact le
    · exact sound.covered opened mark old

theorem Sound.take (sound : Sound k c) (opened : c.isOpen) (room : c.cur < past k c.lim)
    (small : c.cur + 1 < 2 ^ 64) : Sound k c.take := by
  have succ : add64 c.cur 1 = c.cur + 1 := Nat.mod_eq_of_lt small
  refine ⟨?_, ?_, ?_, ?_, sound.limited, sound.covered⟩
  · exact nodup_cons.mpr ⟨fun member => lt_irrefl _ (sound.ahead opened _ member), sound.unique⟩
  · intro n member mark possible
    obtain rfl | old := mem_cons.mp member
    · exact room.trans_le (past_mono k (sound.covered opened mark possible))
    · exact sound.behind n old mark possible
  · intro _ n member
    change n < add64 c.cur 1
    rw [succ]
    obtain rfl | old := mem_cons.mp member
    · exact Nat.lt_succ_self _
    · exact (sound.ahead opened n old).trans (Nat.lt_succ_self _)
  · intro _
    change add64 c.cur 1 ≤ _
    rw [succ]
    exact room

/-- What a reservation of the log or of the data file leaves: the batch from the old mark on,
or nothing but perhaps a new mark on disk. -/
structure Reserved (c : Counter) (w : Write) (c' : Counter) : Prop where
  used : c'.used = c.used
  open_ : c'.isOpen = c.isOpen
  marks : ∀ mark ∈ c'.found, c.high ≤ mark ∨ mark ∈ c.found
  /-- The batch, if the mark is written. -/
  granted : w = .done → c.high ≤ c'.cur ∧ c'.cur < c'.lim ∧ c'.lim = c'.high ∧
    c'.lim < 2 ^ 64 ∧ c'.found = [c'.high]
  refused : w ≠ .done → c'.cur = c.cur ∧ c'.lim = c.lim ∧ c.high ≤ c'.high

theorem reserveNonceBatch_reserved (small : c.high + nonceBatch < 2 ^ 64) :
    Reserved c w (c.reserveNonceBatch w) := by
  have sum : add64 c.high nonceBatch = c.high + nonceBatch := Nat.mod_eq_of_lt small
  have batch : 1 < nonceBatch := by decide
  cases w with
  | done =>
    simp only [Counter.reserveNonceBatch, Counter.persist, if_true, sum]
    refine ⟨rfl, rfl, ?_, fun _ => ⟨?_, ?_, rfl, small, rfl⟩, fun other => (other rfl).elim⟩
    · intro mark possible
      rw [mem_singleton.mp possible]
      exact .inl (Nat.le_add_right _ _)
    · dsimp only
      split <;> omega
    · dsimp only
      split <;> omega
  | failed reached =>
    simp only [Counter.reserveNonceBatch, reduceCtorEq, if_false, sum]
    refine ⟨by simp, by simp, ?_, fun done => (nomatch done), fun _ => ⟨by simp, by simp, le_rfl⟩⟩
    intro mark possible
    obtain rfl | old := mem_found_persist possible
    · exact .inl (Nat.le_add_right _ _)
    · exact .inr old

theorem reserveNonce_reserved (small : c.high + nonceBatch < 2 ^ 64) :
    Reserved c w (c.reserveNonce w) := by
  have batch : nonceBatch = 65536 := rfl
  generalize isStart : (if c.high = 0 then 1 else c.high) = start
  have start_ne : start ≠ 0 := by
    rw [← isStart]
    split <;> omega
  have le : c.high ≤ start := by
    rw [← isStart]
    split <;> omega
  have sum : add64 start nonceBatch = start + nonceBatch := by
    refine Nat.mod_eq_of_lt ?_
    rw [← isStart]
    split <;> omega
  have fits : start + nonceBatch < 2 ^ 64 := by
    rw [← isStart]
    split <;> omega
  cases w with
  | done =>
    simp only [Counter.reserveNonce, Counter.persist, if_true, isStart, sum, if_neg start_ne]
    refine ⟨rfl, rfl, ?_, fun _ => ⟨le, ?_, rfl, fits, rfl⟩, fun other => (other rfl).elim⟩
    · intro mark possible
      rw [mem_singleton.mp possible]
      exact .inl (le.trans (Nat.le_add_right _ _))
    · dsimp only
      omega
  | failed reached =>
    simp only [Counter.reserveNonce, reduceCtorEq, if_false, isStart, sum]
    refine ⟨by simp, by simp, ?_, fun done => (nomatch done), fun _ => ⟨by simp, by simp, le⟩⟩
    intro mark possible
    obtain rfl | old := mem_found_persist possible
    · exact .inl (le.trans (Nat.le_add_right _ _))
    · exact .inr old

/-! ## Steps -/

/-- A reservation keeps the numbers apart, whether the counter is in use or just being opened,
as long as the mark it starts from is past the numbers used. -/
theorem Sound.reserved (notUndo : k ≠ .undo) (unique : c.used.Nodup)
    (behind : ∀ n ∈ c.used, ∀ mark ∈ c.found, n < past k mark)
    (start : ∀ n ∈ c.used, n < c.high) (reserved : Reserved c .done c') : Sound k c' := by
  have exact_ := past_eq notUndo
  obtain ⟨le, room, limit, -, marks⟩ := reserved.granted rfl
  refine ⟨reserved.used ▸ unique, ?_, ?_, ?_, fun _ => limit.le, ?_⟩
  · intro n member mark possible
    rw [reserved.used] at member
    obtain later | old := reserved.marks mark possible
    · rw [exact_]
      exact (start n member).trans_le later
    · exact behind n member mark old
  · intro _ n member
    rw [reserved.used] at member
    exact (start n member).trans_le le
  · intro _
    rw [exact_]
    exact room.le
  · intro _ mark possible
    rw [marks, mem_singleton] at possible
    exact possible ▸ limit.le

variable {reserve : Counter → Write → Counter}

theorem Sound.sealNext (notUndo : k ≠ .undo) (sound : Sound k c) (opened : c.isOpen)
    (small : c.high + nonceBatch < 2 ^ 64) (reserves : Reserved c w (reserve c w)) :
    Sound k (c.sealNext reserve w) := by
  have exact_ := past_eq notUndo
  have limited := sound.limited opened
  have within := sound.within opened
  rw [exact_] at within
  rw [Counter.sealNext]
  split
  next =>
    by_cases written : w = .done
    · rw [if_pos written]
      subst written
      have start : ∀ n ∈ c.used, n < c.high := fun n member =>
        (sound.ahead opened n member).trans_le (within.trans limited)
      have after := Sound.reserved notUndo sound.unique sound.behind start reserves
      obtain ⟨-, room, -, fits, -⟩ := reserves.granted rfl
      exact after.take (reserves.open_.trans opened) (by rw [exact_]; exact room) (by omega)
    rw [if_neg written]
    obtain ⟨sameCur, sameLim, le⟩ := reserves.refused written
    refine ⟨reserves.used ▸ sound.unique, ?_, ?_, ?_, ?_, ?_⟩
    · intro n member mark possible
      rw [reserves.used] at member
      obtain later | old := reserves.marks mark possible
      · rw [exact_]
        exact ((sound.ahead opened n member).trans_le (within.trans limited)).trans_le later
      · exact sound.behind n member mark old
    · intro _ n member
      rw [sameCur]
      exact sound.ahead opened n (reserves.used ▸ member)
    · intro _
      rw [sameCur, sameLim, exact_]
      exact within
    · intro _
      rw [sameLim]
      exact limited.trans le
    · intro _ mark possible
      rw [sameLim]
      obtain later | old := reserves.marks mark possible
      · exact limited.trans later
      · exact sound.covered opened mark old
  next room =>
    have room := Nat.lt_of_not_le room
    exact sound.take opened (by rw [exact_]; exact room) (by omega)

/-- The undo log seals, and its reservation, if it needs one, succeeds. -/
theorem Sound.sealRecord (sound : Sound .undo c) (opened : c.isOpen)
    (small : c.high + nonceBatch < 2 ^ 64) (succeeds : exhausted c → w = .done) :
    Sound .undo (c.sealRecord w) := by
  have limited := sound.limited opened
  have within : c.cur ≤ c.lim + 1 := sound.within opened
  have batch : nonceBatch = 65536 := rfl
  rw [Counter.sealRecord]
  split
  next spent =>
    obtain rfl : w = .done := succeeds (decide_eq_true spent)
    have sum : add64 c.high nonceBatch = c.high + nonceBatch := Nat.mod_eq_of_lt small
    rw [if_pos rfl, sum]
    refine Sound.take (k := .undo) ⟨sound.unique, ?_, fun _ => sound.ahead opened, ?_,
      fun _ => le_rfl, ?_⟩ opened ?_ ?_
    · intro n member mark possible
      obtain rfl := mem_singleton.mp possible
      have := sound.ahead opened n member
      change n < c.high + nonceBatch + 1
      omega
    · intro _
      change c.cur ≤ c.high + nonceBatch + 1
      omega
    · intro _ mark possible
      exact (mem_singleton.mp possible).ge
    · change c.cur < c.high + nonceBatch + 1
      omega
    · change c.cur + 1 < 2 ^ 64
      omega
  next room =>
    exact sound.take opened (Nat.lt_succ_of_le (Nat.le_of_not_lt room)) (by omega)

theorem Sound.openUndo (sound : Sound .undo c) (possible : mark ∈ c.found)
    (small : mark + nonceBatch < 2 ^ 64) : Sound .undo (c.openUndo mark w) := by
  have batch : nonceBatch = 65536 := rfl
  have sum : add64 mark 1 = mark + 1 := Nat.mod_eq_of_lt (by omega)
  have used : ∀ n ∈ c.used, n < mark + 1 := fun n member => sound.behind n member mark possible
  simp only [Counter.openUndo, sum]
  refine ⟨by simpa using sound.unique, ?_, ?_, ?_, ?_, ?_⟩
  · intro n member other may
    obtain rfl | old := mem_found_persist may
    · have := used n (by simpa using member)
      change n < mark + 1 + nonceBatch - 1 + 1
      omega
    · exact sound.behind n (by simpa using member) other old
  · intro _ n member
    simpa using used n (by simpa using member)
  · intro _
    simp only [cur_persist, lim_persist, past]
    omega
  · intro _
    simp
  · intro opened other may
    obtain rfl : w = .done := by simpa using opened
    rw [mem_singleton.mp may, lim_persist]

theorem Sound.openReserved (notUndo : k ≠ .undo) (sound : Sound k c) (possible : mark ∈ c.found)
    (reserves : Reserved { c with cur := 0, lim := 0, high := mark } w
      (reserve { c with cur := 0, lim := 0, high := mark } w)) :
    Sound k (c.openReserved reserve mark w) := by
  have exact_ := past_eq notUndo
  have used : ∀ n ∈ c.used, n < mark := fun n member => by
    have := sound.behind n member mark possible
    rwa [exact_] at this
  rw [Counter.openReserved]
  generalize reserve { c with cur := 0, lim := 0, high := mark } w = reopened at reserves ⊢
  by_cases written : w = .done
  · subst written
    have after := Sound.reserved (c := { c with cur := 0, lim := 0, high := mark }) notUndo
      sound.unique sound.behind used reserves
    obtain ⟨le, room, limit, -, marks⟩ := reserves.granted rfl
    refine ⟨after.unique, after.behind, fun _ n member => ?_, fun _ => ?_, fun _ => limit.le,
      fun _ other may => ?_⟩
    · exact (used n (reserves.used ▸ member)).trans_le le
    · rw [exact_]
      exact room.le
    · rw [marks, mem_singleton] at may
      exact may ▸ limit.le
  refine ⟨reserves.used ▸ sound.unique, ?_, ?_, ?_, ?_, ?_⟩
  · intro n member other may
    rw [reserves.used] at member
    obtain later | old := reserves.marks other may
    · rw [exact_]
      exact (used n member).trans_le later
    · exact sound.behind n member other old
  all_goals intro opened; simp [written] at opened

theorem Sound.step {label : Label} (sound : Sound k c) (guard : Reserves k c label)
    (taken : Step k c label c') : Sound k c' := by
  cases label with
  | sealOne w =>
    obtain ⟨opened, done⟩ := Option.ite_none_right_eq_some.mp taken
    cases done
    cases k with
    | undo => exact sound.sealRecord opened guard.1 (guard.2 rfl)
    | wal =>
      exact sound.sealNext (by decide) opened guard.1 (reserveNonce_reserved guard.1)
    | file =>
      exact sound.sealNext (by decide) opened guard.1 (reserveNonceBatch_reserved guard.1)
  | persist w =>
    obtain ⟨⟨opened, -⟩, done⟩ := Option.ite_none_right_eq_some.mp taken
    cases done
    exact sound.persist opened (sound.limited opened)
  | advance n w =>
    obtain ⟨⟨opened, -, -⟩, done⟩ := Option.ite_none_right_eq_some.mp taken
    cases done
    rw [Counter.advanceNonceTo]
    split
    next => exact sound
    next more =>
      exact sound.persist opened ((sound.limited opened).trans (Nat.le_of_not_le more))
  | stop =>
    cases taken
    refine ⟨sound.unique, sound.behind, ?_, ?_, ?_, ?_⟩
    all_goals intro opened; cases opened
  | reopen mark w =>
    obtain ⟨⟨-, possible⟩, done⟩ := Option.ite_none_right_eq_some.mp taken
    cases done
    cases k with
    | undo => exact sound.openUndo possible guard
    | wal => exact sound.openReserved (by decide) possible (reserveNonce_reserved guard)
    | file => exact sound.openReserved (by decide) possible (reserveNonceBatch_reserved guard)

theorem sound_create (k : Sealer) : Sound k create := by
  have batch : nonceBatch = 65536 := rfl
  refine ⟨nodup_nil, fun _ member => (nomatch member), fun _ _ member => (nomatch member),
    fun _ => ?_, fun _ => le_rfl, fun _ mark possible => (mem_singleton.mp possible).ge⟩
  cases k with
  | undo | wal | file => simp only [create, past]; omega

/-! ## Whole runs -/

/-- **Nonces are used once.** In every run of the counter of the undo log, of the log or of the
data file in which no reservation of the undo log fails and no mark passes 64 bits, with failed
writes of the mark in the other two, restarts and failed restarts anywhere, no number is used
twice to seal. -/
theorem nonces_unique {labels : List Label}
    (run : Run (Step k) (Reserves k) create labels c) : c.used.Nodup :=
  (run.invariant (Sound k) (sound_create k) fun sound guard taken =>
    sound.step guard taken).unique

/-- The log seals twice, a write of its control file fails half-way, and after a restart it
seals with a new batch. -/
theorem nonces_unique_restarted : ∃ c, Run (Step .wal) (Reserves .wal) create
    [.sealOne .done, .sealOne .done, .persist (.failed true), .stop, .reopen 65536 (.failed true),
      .reopen 131072 .done, .sealOne .done] c ∧ c.used = [131072, 2, 1] ∧ c.used.Nodup := by
  refine exists_run_that (next .wal) (fun c label => decide (Reserves .wal c label))
    of_decide_eq_true (fun c => c.used = [131072, 2, 1]) (by decide +kernel) fun c run used => ?_
  exact ⟨used, nonces_unique run⟩

/-- The undo log seals with the numbers of its first batch. -/
theorem run_first_batch {n : Nat} (le : n ≤ nonceBatch) :
    Run (Step .undo) unguarded create (replicate n (.sealOne .done))
      { create with cur := n + 1, used := (range' 1 n).reverse } := by
  have batch : nonceBatch = 65536 := rfl
  induction n with
  | zero => exact .nil
  | succ n ih =>
    rw [replicate_succ']
    refine .snoc (ih (Nat.le_of_succ_le le)) trivial ?_
    have room : ¬ (n + 1 > nonceBatch) := by omega
    have succ : add64 (n + 1) 1 = n + 1 + 1 := Nat.mod_eq_of_lt (by omega)
    have used : (range' 1 (n + 1)).reverse = (n + 1) :: (range' 1 n).reverse := by
      rw [range'_concat, reverse_append, Nat.add_comm]
      simp
    simp only [Step, next, create, Counter.sealRecord, if_true, if_neg room, Counter.take, succ,
      used]

/-- The write of the mark after the first batch fails; the undo log seals with the first number
of the next batch all the same, and with the same number after a restart. -/
theorem undo_nonce_reused : ∃ labels c, Run (Step .undo) unguarded create labels c ∧
    ¬ c.used.Nodup := by
  have first := run_first_batch (le_refl nonceBatch)
  generalize (range' 1 nonceBatch).reverse = batch at first
  have refused : Step .undo { create with cur := nonceBatch + 1, used := batch }
      (.sealOne (.failed false)) ⟨65537, 131072, 131072, true, [65536], batch⟩ := by
    simp [Step, next, create, Counter.sealRecord, Counter.persist, add64, nonceBatch]
  have sealed : Step .undo ⟨65537, 131072, 131072, true, [65536], batch⟩ (.sealOne .done)
      ⟨65538, 131072, 131072, true, [65536], 65537 :: batch⟩ := by
    simp [Step, next, Counter.sealRecord, Counter.take, add64]
  have stopped : Step .undo ⟨65538, 131072, 131072, true, [65536], 65537 :: batch⟩ .stop
      ⟨65538, 131072, 131072, false, [65536], 65537 :: batch⟩ := by
    rfl
  have reopened : Step .undo ⟨65538, 131072, 131072, false, [65536], 65537 :: batch⟩
      (.reopen 65536 .done) ⟨65537, 131072, 131072, true, [131072], 65537 :: batch⟩ := by
    simp [Step, next, Counter.openUndo, Counter.persist, add64, nonceBatch]
  have again : Step .undo ⟨65537, 131072, 131072, true, [131072], 65537 :: batch⟩ (.sealOne .done)
      ⟨65538, 131072, 131072, true, [131072], 65537 :: 65537 :: batch⟩ := by
    simp [Step, next, Counter.sealRecord, Counter.take, add64]
  refine ⟨_, _, ((((first.snoc trivial refused).snoc trivial sealed).snoc trivial stopped).snoc
    trivial reopened).snoc trivial again, ?_⟩
  simp

end NextSQL.Storage.Nonces
