import NextSQL.Wal.Log
import NextSQL.Lib.Run

/-!
# Concurrent calls on the log

Every call on the log runs under its mutex, and two of them release it on the
way. `AppendPageImages` takes its LSNs, seals the images without the mutex and
then appends them. A flush releases the mutex while it writes and syncs; and
since an append that finds the active segment full rotates, and a rotation
flushes, every append can release the mutex after it has read or taken its
LSNs and before its records are in the buffer.

The state of the calls that are under way is kept beside the log: the flush
that is at the disk, with what its call appends afterwards if it is a rotation,
and the calls that wait. A label is one section: it runs from the point where a
call takes the mutex to the point where it releases it.
-/

namespace NextSQL.Wal

open Log

/-! ## States -/

/-- A flush at the disk: how many records of the buffer it writes, the LSN that is durable
once it is done, and what its call appends afterwards if it is the flush of a rotation. -/
structure Writer where
  upto : Nat
  last : LSN
  landing : Option Landing
deriving DecidableEq, Repr

/-- A call that has released the mutex: page images that are being sealed, or a rotation
that waits for the flush at the disk. -/
inductive Task where
  | sealing (fs : List Frame)
  | rotating (ld : Landing)
deriving DecidableEq, Repr

/-- What a waiting call still has to append. -/
def Task.landing : Task → Landing
  | .sealing fs => .images fs
  | .rotating ld => ld

/-- The log and the calls under way. The records that went into the buffer, and those that a
failed hold cut out of it, are kept for reference. -/
structure World where
  log : Log
  writer : Option Writer
  tasks : List Task
  accepted : List Frame
  discarded : List Frame
deriving DecidableEq, Repr

namespace World

def create (segmentSize : Nat) (archiver pageDeltas : Bool) : World where
  log := Log.create segmentSize archiver pageDeltas
  writer := none
  tasks := []
  accepted := []
  discarded := []

/-- What the calls under way have numbered and not yet appended. -/
def holding (s : World) : List Landing :=
  s.tasks.map Task.landing ++ (s.writer.bind Writer.landing).toList

/-- The records that have an LSN and are not yet in the buffer. -/
def pending (s : World) : List Frame := s.holding.flatMap Landing.frames

/-! ## Sections -/

/-- The records of a call go into the buffer. -/
def arrive (s : World) (ld : Landing) : World :=
  { s with log := s.log.land ld, accepted := s.accepted ++ ld.frames }

/-- A rotation goes on after its flush. -/
def resumeRotation (s : World) (ld : Landing) (d : Disk) : World :=
  match s.log.finishRotate d with
  | (.error _, l) => { s with log := l }
  | (.ok (), l) => arrive { s with log := l } ld

/-- The flush of a rotation, when no other flush is at the disk. -/
def rotateFlush (s : World) (ld : Landing) (d : Disk) : World :=
  if s.log.durabilityErr.isSome then s
  else if s.log.flushable.1 = 0 then s.resumeRotation ld d
  else { s with writer := some ⟨s.log.flushable.1, s.log.flushable.2, some ld⟩ }

/-- `rotateLocked`: a held region forbids it, and it waits for the flush at the disk. -/
def startRotation (s : World) (ld : Landing) (d : Disk) : World :=
  if s.log.held.isSome then s
  else if s.writer.isSome then { s with tasks := s.tasks ++ [.rotating ld] }
  else s.rotateFlush ld d

/-- Append where there is room, after a rotation where there is none. -/
def place (s : World) (ld : Landing) (d : Disk) : World :=
  if s.log.crowded (bytes ld.frames) then s.startRotation ld d else s.arrive ld

/-- One section of a call. -/
inductive Label where
  | append (r : Record) (d : Disk)
  | reserve (txn : TxnID) (prev : LSN) (pages : List (PageID × Bytes)) (d : Disk)
  | land (call : Nat) (isSealed : Bool) (d : Disk)
  | hold (rs : List Record) (d : Disk)
  | release (commit : Bool)
  | flush (lsn : LSN)
  | wake (call : Nat) (d : Disk)
  | written (w : Written) (d : Disk)

/-- The sections by which a call gets LSNs. -/
def Label.takesLSN : Label → Bool
  | .append .. => true
  | .reserve .. => true
  | .hold .. => true
  | _ => false

/-- A call of `Flush` has nothing to wait for and something to write. -/
def flushes (s : World) (lsn : LSN) : Bool :=
  decide (s.log.durableLSN < lsn) && s.log.seg.isSome &&
    !(s.log.held.any fun h => decide (h.lsn ≤ lsn)) && s.writer.isNone &&
    s.log.durabilityErr.isNone && decide (s.log.flushable.1 ≠ 0)

def next (s : World) : Label → Option World
  | .append r d =>
    match s.log.prepare r d with
    | (.error _, l) => some { s with log := l }
    | (.ok f, l) => some (place { s with log := l } (.append f) d)
  | .reserve txn prev pages d =>
    if pages = [] then some s
    else match s.log.reserveImages txn prev pages d with
      | (.error _, l) => some { s with log := l }
      | (.ok fs, l) => some { s with log := l, tasks := s.tasks ++ [.sealing fs] }
  | .land call isSealed d =>
    match s.tasks[call]? with
    | some (.sealing fs) =>
      let rest := { s with tasks := s.tasks.eraseIdx call }
      some (if isSealed then rest.place (.images fs) d else rest)
    | _ => none
  | .hold rs d =>
    if rs = [] then some s
    else match s.log.prepareHeld rs d with
      | (.error _, l) => some { s with log := l }
      | (.ok fs, l) => some (place { s with log := l } (.held fs) d)
  | .release commit =>
    some { s with log := s.log.releaseHold commit, discarded := s.discarded ++ s.log.cutOut commit }
  | .flush lsn =>
    some (if s.flushes lsn then
      { s with writer := some ⟨s.log.flushable.1, s.log.flushable.2, none⟩ } else s)
  | .wake call d =>
    match s.tasks[call]? with
    | some (.rotating ld) =>
      if s.writer.isNone then
        some (rotateFlush { s with tasks := s.tasks.eraseIdx call } ld d)
      else none
    | _ => none
  | .written w d =>
    match s.writer with
    | none => none
    | some wr =>
      match s.log.finishFlush wr.upto wr.last w with
      | (.error _, l) => some { s with log := l, writer := none }
      | (.ok (), l) =>
        let rest := { s with log := l, writer := none }
        some (match wr.landing with
          | none => rest
          | some ld => rest.resumeRotation ld d)

/-- The section `label` can take the state `s` to the state `t`. -/
def Step (s : World) (label : Label) (t : World) : Prop := s.next label = some t

/-- A call gets LSNs only while no other call has records that are numbered and not yet
appended. -/
def Alone (s : World) (label : Label) : Prop := label.takesLSN = true → s.holding = []

instance (s : World) (label : Label) : Decidable (s.Alone label) := by
  unfold Alone
  infer_instance

end World

/-! ## What the functions of the log change -/

namespace Log

/-- The logs differ in their nonces and control files only. -/
def Rekeyed (l l' : Log) : Prop :=
  ∃ cur lim high c, l' = { l with nonceCur := cur, nonceLim := lim, nonceHigh := high, control := c }

theorem Rekeyed.refl (l : Log) : l.Rekeyed l := ⟨_, _, _, _, rfl⟩

theorem writeControl_eq (l : Log) (d : Disk) :
    ∃ c, (l.writeControl d).2 = { l with control := c } := by
  unfold writeControl
  cases d.control l.controlFile with
  | done => exact ⟨_, rfl⟩
  | failed e => exact ⟨l.control, rfl⟩
  | unsynced e => exact ⟨_, rfl⟩

theorem nextNonce_rekeyed (l : Log) (d : Disk) : l.Rekeyed (l.nextNonce d).2 := by
  unfold nextNonce
  split
  · exact ⟨_, _, _, _, rfl⟩
  unfold reserveNonce writeControl
  dsimp only
  cases d.control _ with
  | done | failed e | unsynced e => exact ⟨_, _, _, _, rfl⟩

variable {l l' : Log} {d : Disk}

/-- The record of an append gets the next LSN, which it does not take. -/
theorem prepare_spec {r : Record} {result : Except Nerr Frame}
    (prepared : l.prepare r d = (result, l')) :
    l.Rekeyed l' ∧ ∀ f, result = .ok f → f.record = { r with lsn := l.nextLSN } := by
  unfold prepare at prepared
  split at prepared
  · cases prepared
    exact ⟨.refl l, fun f done => (nomatch done)⟩
  split at prepared
  · cases prepared
    exact ⟨.refl l, fun f done => (nomatch done)⟩
  split at prepared
  · cases prepared
    exact ⟨.refl l, fun f done => (nomatch done)⟩
  have rekeyed := l.nextNonce_rekeyed d
  split at prepared
  next e l₁ taken =>
    cases prepared
    rw [taken] at rekeyed
    exact ⟨rekeyed, fun f done => (nomatch done)⟩
  next gen l₁ taken =>
    cases prepared
    rw [taken] at rekeyed
    obtain ⟨cur, lim, high, c, rfl⟩ := rekeyed
    exact ⟨⟨_, _, _, _, rfl⟩, fun f done => by cases done; rfl⟩

/-- A batch that takes its LSNs gets those that follow the last one taken. -/
theorem takeLSNs_spec : ∀ {records : List (LSN → LSN → Except Nerr Record)} {prev : LSN}
    {l l' : Log} {result : Except Nerr (List Frame)}, takeLSNs d records prev l = (result, l') →
      ∃ n, Log.Rekeyed { l with nextLSN := l.nextLSN + n } l' ∧
        ∀ fs, result = .ok fs → fs.map Frame.lsn = List.range' l.nextLSN n := by
  intro records
  induction records with
  | nil =>
    intro prev l l' result taken
    cases taken
    exact ⟨0, .refl _, fun fs done => by cases done; rfl⟩
  | cons record more ih =>
    intro prev l l' result taken
    rw [takeLSNs] at taken
    split at taken
    · cases taken
      exact ⟨0, .refl _, fun fs done => (nomatch done)⟩
    have rekeyed := l.nextNonce_rekeyed d
    split at taken
    next e l₁ nonce =>
      cases taken
      rw [nonce] at rekeyed
      exact ⟨0, rekeyed, fun fs done => (nomatch done)⟩
    next gen l₁ nonce =>
    rw [nonce] at rekeyed
    obtain ⟨cur, lim, high, c, rfl⟩ := rekeyed
    split at taken
    next e l₂ rest =>
      cases taken
      obtain ⟨n, ⟨cur', lim', high', c', rfl⟩, -⟩ := ih rest
      refine ⟨n + 1, ⟨cur', lim', high', c', ?_⟩, fun fs done => (nomatch done)⟩
      rw [Nat.add_right_comm, Nat.add_assoc]
    next fs l₂ rest =>
    cases taken
    obtain ⟨n, ⟨cur', lim', high', c', rfl⟩, numbered⟩ := ih rest
    refine ⟨n + 1, ⟨cur', lim', high', c', ?_⟩, ?_⟩
    · rw [Nat.add_right_comm, Nat.add_assoc]
    intro fs' done
    cases done
    rw [List.map_cons, List.range'_succ, numbered fs rfl]
    rfl

theorem prepareHeld_spec {rs : List Record} {result : Except Nerr (List Frame)}
    (prepared : l.prepareHeld rs d = (result, l')) :
    ∃ n, Log.Rekeyed { l with nextLSN := l.nextLSN + n } l' ∧
      ∀ fs, result = .ok fs → fs.map Frame.lsn = List.range' l.nextLSN n := by
  have refused (e : Nerr) : ∃ n, Log.Rekeyed { l with nextLSN := l.nextLSN + n } l ∧
      ∀ fs : List Frame, Except.error e = .ok fs → fs.map Frame.lsn = List.range' l.nextLSN n :=
    ⟨0, .refl l, fun fs done => (nomatch done)⟩
  unfold prepareHeld at prepared
  split at prepared
  · cases prepared
    exact refused _
  split at prepared
  · cases prepared
    exact refused _
  split at prepared
  · cases prepared
    exact refused _
  · exact takeLSNs_spec prepared

/-- The segments a rotation leaves: those there were and, unless the new file could not be
made, an empty one that starts at the next LSN. -/
structure Rotated (l l' : Log) : Prop where
  eq : ∃ closed seg id off number c, l' =
    { l with closed := closed, seg := seg, segID := id, segOff := off, nextSeg := number,
             control := c }
  segments : l'.segments = l.segments ∨ ∃ new : Segment, new.startLSN = l.nextLSN ∧
    new.frames = [] ∧ l'.segments = l.segments ++ [new]
  active : ∀ seg, l'.seg = some seg → seg.startLSN = l.nextLSN

theorem openNewSegment_rotated (l : Log) (d : Disk) (id : Nat) (inactive : l.seg = none) :
    l.Rotated (l.openNewSegment d id l.nextLSN).2 := by
  have none_seg : l.segments = l.closed := by simp [segments, inactive]
  have closed : ∀ seg, l.seg = some seg → seg.startLSN = l.nextLSN := by
    intro seg active
    rw [inactive] at active
    cases active
  unfold openNewSegment
  split
  · exact ⟨⟨_, _, _, _, _, _, rfl⟩, .inl rfl, closed⟩
  cases d.create id with
  | made preallocated =>
    refine ⟨⟨_, _, _, _, _, _, rfl⟩, .inr ⟨_, rfl, rfl, by rw [none_seg]; rfl⟩, ?_⟩
    intro seg active
    cases active
    rfl
  | failed e => exact ⟨⟨_, _, _, _, _, _, rfl⟩, .inl rfl, closed⟩
  | unsynced e =>
    refine ⟨⟨_, _, _, _, _, _, rfl⟩, .inr ⟨⟨id, l.nextLSN, [], 0, 0, l.segmentSize⟩, rfl, rfl,
      ?_⟩, closed⟩
    simp [segments, inactive]

theorem finishRotate_rotated (l : Log) (d : Disk) : l.Rotated (l.finishRotate d).2 := by
  unfold finishRotate
  dsimp only
  have opened := openNewSegment_rotated { l with closed := l.closed ++ l.seg.toList, seg := none } d
    (max (l.segID + 1) (l.nextSeg + 1)) rfl
  have same : Log.segments { l with closed := l.closed ++ l.seg.toList, seg := none } =
      l.segments := by simp [segments]
  split
  next e l' made =>
    rw [made] at opened
    obtain ⟨⟨closed, seg, id, off, number, c, rfl⟩, segs, active⟩ := opened
    rw [same] at segs
    exact ⟨⟨_, _, _, _, _, _, rfl⟩, segs, active⟩
  next l' made =>
  rw [made] at opened
  obtain ⟨⟨closed, seg, id, off, number, c, rfl⟩, segs, active⟩ := opened
  rw [same] at segs
  obtain ⟨c', written⟩ := writeControl_eq
    { l with closed := closed, seg := seg, segID := id, segOff := off, nextSeg := number,
             control := c } d
  rw [written]
  exact ⟨⟨_, _, _, _, _, _, rfl⟩, segs, active⟩

end Log

end NextSQL.Wal
