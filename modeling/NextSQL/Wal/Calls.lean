import NextSQL.Wal.Retention

/-!
# Calls that nothing interrupts

Where only the order of the calls on the log matters and the file system does
not fail, a call is one step: the sections of `NextSQL.Wal.Sections`, one right
after the other.

`Log.Dense` is what such calls keep: the records on disk and in the buffer have
the LSNs from 1 on, without a gap. Two things make a gap. A batch can take its
LSNs and then fail, because a held region forbids the rotation it needs; and
`ReleaseHold(false)` cuts records out whose LSNs are never used again.
-/

namespace NextSQL.Wal

open List Option

namespace Log

/-! ## Calls -/

/-- `ensureSpaceLocked`. -/
def ensureSpace (l : Log) (more : Nat) : Except Nerr Unit × Log :=
  if l.crowded more then
    if l.held.isSome then
      (.error ⟨.unavailable, "wal.rotate",
        "cannot rotate segment while a commit record is held pending replication"⟩, l)
    else match l.flushNow .done with
      | (.error e, l) => (.error e, l)
      | (.ok (), l) => l.finishRotate {}
  else (.ok (), l)

/-- The end of the three ways to append: room is made and the records go into the buffer. -/
def landAfterSpace (l : Log) (ld : Landing) : Except Nerr (List Frame) × Log :=
  match l.ensureSpace (bytes ld.frames) with
  | (.error e, l) => (.error e, l)
  | (.ok (), l) => (.ok ld.frames, l.land ld)

def append (l : Log) (r : Record) : Except Nerr (List Frame) × Log :=
  match l.prepare r {} with
  | (.error e, l) => (.error e, l)
  | (.ok f, l) => l.landAfterSpace (.append f)

def appendPageImages (l : Log) (txn : TxnID) (prev : LSN) (pages : List (PageID × Bytes)) :
    Except Nerr (List Frame) × Log :=
  if pages = [] then (.ok [], l)
  else match l.reserveImages txn prev pages {} with
    | (.error e, l) => (.error e, l)
    | (.ok fs, l) => l.landAfterSpace (.images fs)

def appendHeldBatch (l : Log) (rs : List Record) : Except Nerr (List Frame) × Log :=
  if rs = [] then (.ok [], l)
  else match l.prepareHeld rs {} with
    | (.error e, l) => (.error e, l)
    | (.ok fs, l) => l.landAfterSpace (.held fs)

/-! ## LSNs without a gap -/

/-- The records on disk and in the buffer have the LSNs from 1 to just below `next`. The file
system has not failed, and the segments are where a scan looks for them. -/
structure Dense (l : Log) (next : LSN) : Prop where
  lsns : (l.onDisk ++ l.buf).map Frame.lsn = List.range' 1 (next - 1)
  first : 1 ≤ next
  taken : next ≤ l.nextLSN
  upper : Upper l.segments
  starts : l.segments.Pairwise fun seg later => seg.startLSN ≤ later.startLSN
  started : ∀ seg ∈ l.segments, seg.startLSN ≤ l.nextLSN
  ids : ∀ seg ∈ l.segments, seg.id ≤ max l.segID l.nextSeg
  healthy : l.durabilityErr = none
  active : l.seg ≠ none

variable {l l' : Log} {next : LSN}

theorem dense_create (segmentSize : Nat) (archiver pageDeltas : Bool) :
    (create segmentSize archiver pageDeltas).Dense 1 where
  lsns := rfl
  first := le_rfl
  taken := le_rfl
  upper := pairwise_singleton _ _
  starts := pairwise_singleton _ _
  started := by simp [create, segments]
  ids := by simp [create, segments]
  healthy := rfl
  active := by simp [create]

theorem Dense.below (dense : l.Dense next) : ∀ f ∈ l.onDisk ++ l.buf, f.lsn < next := by
  intro f member
  have numbered : f.lsn ∈ range' 1 (next - 1) := dense.lsns ▸ mem_map_of_mem member
  have := mem_range'_1.mp numbered
  lia

variable {m : LSN}

theorem Dense.rekeyed (dense : l.Dense next) (le : l.nextLSN ≤ m)
    (same : Log.Rekeyed { l with nextLSN := m } l') : l'.Dense next := by
  obtain ⟨cur, lim, high, c, rfl⟩ := same
  exact { dense with
    taken := dense.taken.trans le
    started := fun seg inLog => (dense.started seg inLog).trans le }

variable {seg seg' : Segment}

/-- A relation between segments and later ones survives a change of the last segment, if
it does for the segments before it. -/
theorem pairwise_swap_last {R : Segment → Segment → Prop} {closed : List Segment}
    (before : (closed ++ [seg]).Pairwise R) (same : ∀ old, R old seg → R old seg') :
    (closed ++ [seg']).Pairwise R := by
  obtain ⟨among, -, across⟩ := pairwise_append.mp before
  refine pairwise_append.mpr ⟨among, pairwise_singleton _ _, ?_⟩
  intro old inClosed last isLast
  rw [mem_singleton.mp isLast]
  exact same old (across old inClosed seg (mem_singleton_self seg))

theorem Dense.written (dense : l.Dense next) (active : l.seg = some seg)
    (active' : l'.seg = some seg') (closed : l'.closed = l.closed)
    (start : seg'.startLSN = seg.startLSN) (id : seg'.id = seg.id)
    (moved : l'.onDisk ++ l'.buf = l.onDisk ++ l.buf) (counter : l'.nextLSN = l.nextLSN)
    (segID : l'.segID = l.segID) (nextSeg : l'.nextSeg = l.nextSeg)
    (healthy : l'.durabilityErr = l.durabilityErr) : l'.Dense next := by
  have segs : l.segments = l.closed ++ [seg] := by rw [segments, active]; rfl
  have segs' : l'.segments = l.closed ++ [seg'] := by rw [segments, active', closed]; rfl
  obtain ⟨lsns, first, taken, upper, starts, started, ids, sound, -⟩ := dense
  rw [segs] at upper starts started ids
  refine ⟨moved ▸ lsns, first, counter ▸ taken, ?_, ?_, ?_, ?_, healthy.trans sound, by simp [active']⟩
  · rw [segs']
    refine pairwise_swap_last upper fun old below => ?_
    rw [start]
    exact below
  · rw [segs']
    refine pairwise_swap_last starts fun old le => ?_
    rw [start]
    exact le
  · rw [forall_mem_append, forall_mem_singleton] at started
    rw [segs', counter, forall_mem_append, forall_mem_singleton, start]
    exact started
  · rw [forall_mem_append, forall_mem_singleton] at ids
    rw [segs', segID, nextSeg, forall_mem_append, forall_mem_singleton, id]
    exact ids

theorem Dense.flushNow (dense : l.Dense next) :
    ∃ l', l.flushNow .done = (.ok (), l') ∧ l'.Dense next ∧ l'.nextLSN = l.nextLSN ∧
      l'.onDisk = l.onDisk ++ l.buf.take l.flushable.1 ∧ l'.buf = l.buf.drop l.flushable.1 ∧
      l'.held = l.held.map fun h => { h with offset := h.offset - l.flushable.1 } := by
  unfold Log.flushNow
  rw [dense.healthy]
  by_cases none : l.flushable.1 = 0
  · exact ⟨l, by simp [none], dense, rfl, by simp [none], by simp [none], by simp [none]⟩
  obtain ⟨seg, active⟩ := ne_none_iff_exists'.mp dense.active
  simp only [if_neg none]
  simp only [finishFlush, active]
  refine ⟨_, rfl, dense.written active rfl rfl rfl rfl ?_ rfl rfl rfl rfl, rfl, ?_, rfl, rfl⟩
  · simp [consume, onDisk, segments, active]
  · simp [consume, onDisk, segments, active]

/-- A rotation succeeds: the number of the new file is not in use. -/
theorem Dense.finishRotate (dense : l.Dense next) :
    ∃ l', l.finishRotate {} = (.ok (), l') ∧ l'.Dense next ∧ l'.nextLSN = l.nextLSN ∧
      l'.onDisk = l.onDisk ∧ l'.buf = l.buf ∧ l'.held = l.held := by
  have unused :
      ¬ (l.closed ++ l.seg.toList).any (·.id == max (l.segID + 1) (l.nextSeg + 1)) = true := by
    simp only [List.any_eq_true, beq_iff_eq, not_exists, not_and]
    intro seg inLog same
    have := dense.ids seg inLog
    omega
  unfold Log.finishRotate openNewSegment writeControl
  simp only [if_neg unused]
  refine ⟨_, rfl, ?_, rfl, ?_, rfl, rfl⟩
  · refine ⟨?_, dense.first, dense.taken, ?_, ?_, ?_, ?_, dense.healthy, by simp⟩
    · simpa [onDisk, segments] using dense.lsns
    · refine pairwise_append.mpr ⟨dense.upper, pairwise_singleton _ _, ?_⟩
      intro seg inLog new isNew f written
      rw [mem_singleton.mp isNew]
      have onDisk : f ∈ l.onDisk := mem_flatMap.mpr ⟨seg, inLog, written⟩
      exact (dense.below f (mem_append_left _ onDisk)).trans_le dense.taken
    · refine pairwise_append.mpr ⟨dense.starts, pairwise_singleton _ _, ?_⟩
      intro seg inLog new isNew
      rw [mem_singleton.mp isNew]
      exact dense.started seg inLog
    · refine forall_mem_append.mpr ⟨dense.started, ?_⟩
      simp
    refine forall_mem_append.mpr ⟨?_, ?_⟩
    · intro seg inLog
      have := dense.ids seg inLog
      simp only
      omega
    · simp
  · simp [onDisk, segments]

/-! ## What the calls change -/

/-- A call leaves a held region where it is and writes nothing then; with nothing held, it may
write, and nothing is held afterwards. -/
structure Grown (l l' : Log) : Prop where
  free : l.held = none → l'.held = none ∧ l.onDisk <+: l'.onDisk
  kept : l.held ≠ none → l'.held = l.held ∧ l'.onDisk = l.onDisk ∧ l.buf <+: l'.buf

/-- A held region stands at the front of the buffer. -/
def Fronted (l : Log) : Prop := ∀ h, l.held = some h → h.offset = 0

theorem Grown.of_same (held : l'.held = l.held) (disk : l'.onDisk = l.onDisk)
    (buf : l.buf <+: l'.buf) : l.Grown l' :=
  ⟨fun none => ⟨held.trans none, disk ▸ prefix_rfl⟩, fun _ => ⟨held, disk, buf⟩⟩

theorem Grown.trans {l'' : Log} (first : l.Grown l') (second : l'.Grown l'') : l.Grown l'' where
  free none := by
    obtain ⟨none', wrote⟩ := first.free none
    obtain ⟨none'', wrote'⟩ := second.free none'
    exact ⟨none'', wrote.trans wrote'⟩
  kept some := by
    obtain ⟨held, disk, buf⟩ := first.kept some
    obtain ⟨held', disk', buf'⟩ := second.kept (held ▸ some)
    exact ⟨held'.trans held, disk'.trans disk, buf.trans buf'⟩

theorem Grown.fronted (grown : l.Grown l') (fronted : l.Fronted) : l'.Fronted := by
  intro h held
  cases before : l.held with
  | none => cases held.symm.trans (grown.free before).1
  | some _ =>
    have same := (grown.kept (by simp [before])).1
    exact fronted h (same ▸ held)

theorem Rekeyed.grown (same : Log.Rekeyed { l with nextLSN := m } l') : l.Grown l' := by
  obtain ⟨cur, lim, high, c, rfl⟩ := same
  exact .of_same rfl rfl prefix_rfl

theorem Dense.flush_grown (dense : l.Dense next) (fronted : l.Fronted) :
    ∃ l', l.flushNow .done = (.ok (), l') ∧ l'.Dense next ∧ l'.nextLSN = l.nextLSN ∧
      l.Grown l' ∧ l'.onDisk ++ l'.buf = l.onDisk ++ l.buf ∧ (l.held = none → l'.buf = []) := by
  obtain ⟨l', flushed, dense', counter, disk, buf, held⟩ := dense.flushNow
  have moved : l'.onDisk ++ l'.buf = l.onDisk ++ l.buf := by
    rw [disk, buf, append_assoc, take_append_drop]
  refine ⟨l', flushed, dense', counter, ⟨?_, ?_⟩, moved, ?_⟩
  · intro none
    exact ⟨by rw [held, none]; rfl, disk ▸ prefix_append _ _⟩
  · intro some
    obtain ⟨⟨offset, len, last, prevLast⟩, region⟩ := ne_none_iff_exists'.mp some
    obtain rfl : offset = 0 := fronted _ region
    simp only [flushable, region, take_zero, append_nil, drop_zero, map_some] at disk buf held
    exact ⟨held.trans region.symm, disk, buf ▸ prefix_rfl⟩
  · intro none
    simp [buf, flushable, none]

/-- Room is found, unless a held region forbids the rotation. -/
theorem Dense.ensureSpace {more : Nat} (dense : l.Dense next)
    (room : l.held = none ∨ l.crowded more = false) :
    ∃ l', l.ensureSpace more = (.ok (), l') ∧ l'.Dense next ∧ l'.nextLSN = l.nextLSN ∧
      l.Grown l' ∧ l'.onDisk ++ l'.buf = l.onDisk ++ l.buf := by
  unfold Log.ensureSpace
  by_cases crowded : l.crowded more
  · have none : l.held = none := room.resolve_right (by simp [crowded])
    have fronted : l.Fronted := fun h held => by rw [none] at held; cases held
    obtain ⟨l₁, flushed, dense₁, counter₁, grown₁, moved, -⟩ := dense.flush_grown fronted
    obtain ⟨l₂, rotated, dense₂, counter₂, disk, buf, held⟩ := dense₁.finishRotate
    simp only [crowded, none, flushed, rotated, if_true, isSome_none, Bool.false_eq_true, if_false]
    refine ⟨l₂, rfl, dense₂, counter₂.trans counter₁, ?_, ?_⟩
    · exact grown₁.trans (.of_same held disk (buf ▸ prefix_rfl))
    · rw [disk, buf, moved]
  · exact ⟨l, by simp [crowded], dense, rfl, .of_same rfl rfl prefix_rfl, rfl⟩

variable {ld : Landing} {n : Nat}

theorem Dense.land (dense : l.Dense next) (numbered : ld.frames.map Frame.lsn = range' next n)
    (le : l.nextLSN ≤ next + n) (counter : (l.land ld).nextLSN = next + n) :
    (l.land ld).Dense (l.land ld).nextLSN := by
  have disk : (l.land ld).onDisk = l.onDisk := by simp [onDisk, segments]
  have segs : (l.land ld).segments = l.segments := by simp [segments]
  have same : (l.land ld).segID = l.segID ∧ (l.land ld).nextSeg = l.nextSeg ∧
      (l.land ld).durabilityErr = l.durabilityErr := by cases ld <;> exact ⟨rfl, rfl, rfl⟩
  obtain ⟨lsns, first, taken, upper, starts, started, ids, healthy, active⟩ := dense
  have le : l.nextLSN ≤ (l.land ld).nextLSN := counter ▸ le
  refine ⟨?_, ?_, le_rfl, segs ▸ upper, segs ▸ starts, ?_, ?_, same.2.2.trans healthy, ?_⟩
  · have consecutive : range' 1 (next - 1) ++ range' (1 + (next - 1)) n =
        range' 1 (next - 1 + n) := range'_append_1
    rw [Nat.add_sub_cancel' first] at consecutive
    rw [disk, land_buf, ← append_assoc, map_append, lsns, numbered, consecutive, counter]
    congr 1
    lia
  · rw [counter]
    exact Nat.le_add_right_of_le first
  · intro seg inLog
    exact (started seg (segs ▸ inLog)).trans le
  · rw [segs, same.1, same.2.1]
    exact ids
  · rw [land_seg]
    exact active

theorem landAfterSpace_spec (ld : Landing) (dense : l.Dense next)
    (numbered : ld.frames.map Frame.lsn = range' next n) (le : l.nextLSN ≤ next + n)
    (counter : ∀ l' : Log, l'.nextLSN = l.nextLSN → (l'.land ld).nextLSN = next + n)
    (room : l.held = none ∨ l.crowded (bytes ld.frames) = false) :
    ∃ l', l.Grown l' ∧ l'.onDisk ++ l'.buf = l.onDisk ++ l.buf ∧
      l.landAfterSpace ld = (.ok ld.frames, l'.land ld) ∧
      (l'.land ld).Dense (l'.land ld).nextLSN := by
  obtain ⟨l', made, dense', same, grown, moved⟩ := dense.ensureSpace room
  refine ⟨l', grown, moved, ?_, dense'.land numbered (same ▸ le) (counter l' same)⟩
  rw [landAfterSpace, made]

/-- A held region forbids the rotation that is needed. -/
theorem landAfterSpace_blocked (full : ¬ (l.held = none ∨ l.crowded (bytes ld.frames) = false)) :
    (l.landAfterSpace ld).2 = l := by
  obtain ⟨held, crowded⟩ := not_or.mp full
  have held : l.held.isSome := isSome_iff_ne_none.mpr held
  simp only [Bool.not_eq_false] at crowded
  simp [landAfterSpace, ensureSpace, held, crowded]

theorem grown_land (ld : Landing) (open_ : ∀ fs, ld ≠ .held fs) : l.Grown (l.land ld) := by
  refine .of_same ?_ (by simp [onDisk, segments]) (by simp)
  cases ld with
  | append f => rfl
  | images fs => rfl
  | held fs => exact absurd rfl (open_ fs)

/-- A call of `Append` keeps the LSNs dense, whether it succeeds or not. -/
theorem Dense.append (dense : l.Dense l.nextLSN) (r : Record) :
    (l.append r).2.Dense (l.append r).2.nextLSN ∧ l.Grown (l.append r).2 := by
  unfold Log.append
  cases prepared : l.prepare r {} with
  | mk result l₁ =>
    obtain ⟨same, record⟩ := prepare_spec prepared
    have grown₁ : l.Grown l₁ := Rekeyed.grown same
    have counter : l₁.nextLSN = l.nextLSN := by
      obtain ⟨cur, lim, high, c, rfl⟩ := same
      rfl
    have dense₁ : l₁.Dense l.nextLSN := dense.rekeyed le_rfl same
    cases result with
    | error e => exact ⟨counter ▸ dense₁, grown₁⟩
    | ok f =>
      have lsn : f.lsn = l.nextLSN := by rw [Frame.lsn, record f rfl]
      by_cases room : l₁.held = none ∨ l₁.crowded (bytes [f]) = false
      · obtain ⟨l₂, grown₂, -, landed, dense₂⟩ :=
          landAfterSpace_spec (.append f) (n := 1) dense₁ (by simp [Landing.frames, lsn])
            (by lia) (fun _ _ => congrArg (· + 1) lsn) room
        dsimp only
        rw [landed]
        exact ⟨dense₂, (grown₁.trans grown₂).trans (grown_land (.append f) fun _ same => by cases same)⟩
      · rw [landAfterSpace_blocked room]
        exact ⟨counter ▸ dense₁, grown₁⟩

theorem takeLSNs_ok : ∀ (records : List (LSN → LSN → Except Nerr Record)) (prev : LSN) (l : Log),
    (∀ record ∈ records, ∀ lsn prev, ∃ r, record lsn prev = .ok r) →
      ∃ fs l', takeLSNs {} records prev l = (.ok fs, l') ∧ fs.length = records.length := by
  intro records
  induction records with
  | nil => exact fun prev l _ => ⟨[], l, rfl, rfl⟩
  | cons record more ih =>
    intro prev l valid
    obtain ⟨r, made⟩ := valid record (by simp) l.nextLSN prev
    have nonce : ∃ gen l', l.nextNonce {} = (.ok gen, l') := by
      unfold nextNonce reserveNonce writeControl
      split <;> exact ⟨_, _, rfl⟩
    obtain ⟨gen, l₁, taken⟩ := nonce
    obtain ⟨fs, l₂, rest, length⟩ := ih l₁.nextLSN { l₁ with nextLSN := l₁.nextLSN + 1 }
      fun record member => valid record (mem_cons_of_mem _ member)
    simp only [takeLSNs, made, taken, rest]
    exact ⟨_, _, rfl, by simp [length]⟩

variable {fs : List Frame}

/-- A batch that takes its LSNs and finds room keeps the LSNs dense. -/
theorem Dense.batch {records : List (LSN → LSN → Except Nerr Record)} {prev : LSN}
    (ld : List Frame → Landing) (frames : ∀ fs, (ld fs).frames = fs)
    (lands : ∀ (l : Log) fs, (l.land (ld fs)).nextLSN = l.nextLSN) (dense : l.Dense l.nextLSN)
    (taken : takeLSNs {} records prev l = (.ok fs, l'))
    (room : l'.held = none ∨ l'.crowded (bytes fs) = false) :
    ∃ l₂, l.Grown l₂ ∧ l₂.onDisk ++ l₂.buf = l.onDisk ++ l.buf ∧
      l'.landAfterSpace (ld fs) = (.ok fs, l₂.land (ld fs)) ∧
      (l₂.land (ld fs)).Dense (l₂.land (ld fs)).nextLSN := by
  obtain ⟨n, same, numbered⟩ := takeLSNs_spec taken
  have counter : l'.nextLSN = l.nextLSN + n := by
    obtain ⟨cur, lim, high, c, rfl⟩ := same
    rfl
  have kept : l'.onDisk ++ l'.buf = l.onDisk ++ l.buf := by
    obtain ⟨cur, lim, high, c, rfl⟩ := same
    rfl
  have dense₁ : l'.Dense l.nextLSN := dense.rekeyed (Nat.le_add_right _ _) same
  obtain ⟨l₂, grown, moved, landed, dense₂⟩ := landAfterSpace_spec (ld fs) (n := n) dense₁
    (by rw [frames]; exact numbered fs rfl) counter.le
    (fun l₂ same => (lands l₂ fs).trans (same.trans counter)) (by rw [frames]; exact room)
  exact ⟨l₂, (Rekeyed.grown same).trans grown, moved.trans kept, by rw [landed, frames], dense₂⟩

/-- The bytes of the physical record of a page image. -/
def pageImagePhysSize : Nat := headerSize + payloadHeaderSize + logicalPageSize + authTagSize

theorem length_encodingPutLSN {page : Bytes} (lsn : LSN) (size : page.length = logicalPageSize) :
    (encodingPutLSN page lsn).length = logicalPageSize := by
  rw [encodingPutLSN, if_neg (by rw [size]; decide)]
  simp only [length_append, length_take, length_drop, u64, length_map, length_range, size]
  decide

theorem reserveImages_bytes {txn : TxnID} : ∀ {pages : List (PageID × Bytes)} {prev : LSN}
    {l l' : Log} {fs : List Frame}, l.reserveImages txn prev pages {} = (.ok fs, l') →
      bytes fs = pages.length * pageImagePhysSize := by
  intro pages
  induction pages with
  | nil =>
    intro prev l l' fs taken
    cases taken
    simp [bytes]
  | cons page more ih =>
    intro prev l l' fs taken
    rw [reserveImages, map_cons, takeLSNs] at taken
    split at taken
    · cases taken
    next r made =>
    have size : r.body.length = logicalPageSize := by
      unfold imageRecord at made
      split at made
      next size =>
        cases made
        exact length_encodingPutLSN _ size
      · cases made
    split at taken
    · cases taken
    split at taken
    · cases taken
    next rest =>
    cases taken
    have tail := ih rest
    simp only [bytes, map_cons, sum_cons, Frame.size, size] at tail ⊢
    rw [tail, length_cons, Nat.succ_mul, Nat.add_comm]
    rfl

/-- Page images keep the LSNs dense, unless a held region forbids a rotation they need. -/
theorem Dense.appendPageImages {pages : List (PageID × Bytes)} (dense : l.Dense l.nextLSN)
    (txn : TxnID) (prev : LSN) (sized : ∀ page ∈ pages, page.2.length = logicalPageSize)
    (room : l.held = none ∨ l.crowded (pages.length * pageImagePhysSize) = false) :
    (l.appendPageImages txn prev pages).2.Dense (l.appendPageImages txn prev pages).2.nextLSN ∧
      l.Grown (l.appendPageImages txn prev pages).2 := by
  unfold Log.appendPageImages
  by_cases empty : pages = []
  · rw [if_pos empty]
    exact ⟨dense, .of_same rfl rfl prefix_rfl⟩
  rw [if_neg empty]
  have valid : ∀ record ∈ pages.map (imageRecord txn), ∀ lsn prev, ∃ r, record lsn prev = .ok r := by
    intro record member lsn prev
    obtain ⟨page, inBatch, rfl⟩ := mem_map.mp member
    rw [imageRecord, if_pos (sized page inBatch)]
    exact ⟨_, rfl⟩
  obtain ⟨fs, l₁, taken, -⟩ := takeLSNs_ok _ prev l valid
  have same := (takeLSNs_spec taken)
  have room : l₁.held = none ∨ l₁.crowded (bytes fs) = false := by
    obtain ⟨n, ⟨cur, lim, high, c, rfl⟩, -⟩ := same
    rw [reserveImages_bytes taken]
    exact room
  obtain ⟨l₂, grown, -, landed, dense₂⟩ :=
    dense.batch .images (fun _ => rfl) (fun _ _ => rfl) taken room
  rw [reserveImages, taken]
  dsimp only
  rw [landed]
  exact ⟨dense₂, grown.trans (grown_land (.images fs) nofun)⟩

/-- A batch is held at the front of the buffer, if the buffer is empty. -/
theorem Dense.appendHeldBatch {rs : List Record} (dense : l.Dense l.nextLSN) (any : rs ≠ [])
    (free : l.held = none) (empty : l.buf = []) :
    ∃ fs l', l.appendHeldBatch rs = (.ok fs, l') ∧ l'.Dense l'.nextLSN ∧ l'.onDisk = l.onDisk ∧
      l'.buf = fs ∧ fs.length = rs.length ∧ ∃ h, l'.held = some h ∧ h.offset = 0 := by
  obtain ⟨fs, l₁, taken, length⟩ := takeLSNs_ok (rs.map fun r _ _ => .ok r) 0 l (by
      intro record member lsn prev
      obtain ⟨r, -, rfl⟩ := mem_map.mp member
      exact ⟨r, rfl⟩)
  have free₁ : l₁.held = none := by
    obtain ⟨n, ⟨cur, lim, high, c, rfl⟩, -⟩ := takeLSNs_spec taken
    exact free
  obtain ⟨l₂, grown, moved, landed, dense₂⟩ :=
    dense.batch .held (fun _ => rfl) (fun _ _ => rfl) taken (.inl free₁)
  have prepared : l.prepareHeld rs {} = (.ok fs, l₁) := by
    rw [prepareHeld, dense.healthy]
    simp only [free, isSome_none, Bool.false_eq_true, if_false, dense.active]
    exact taken
  -- nothing was in the buffer, so a rotation wrote nothing
  obtain ⟨written, wrote⟩ := (grown.free free).2
  have nothing : written ++ l₂.buf = [] := by
    rw [← wrote, empty, append_assoc] at moved
    exact append_right_eq_self.mp (moved.trans (append_nil _))
  obtain ⟨rfl, empty₂⟩ := append_eq_nil_iff.mp nothing
  refine ⟨fs, l₂.land (.held fs), ?_, dense₂, ?_, ?_, by simpa using length, _, rfl, ?_⟩
  · rw [Log.appendHeldBatch, if_neg any, prepared]
    exact landed
  · rw [append_nil] at wrote
    simp [onDisk, segments] at wrote ⊢
    exact wrote.symm
  · rw [land_buf, empty₂]
    rfl
  · rw [empty₂]
    rfl

/-! ## Scanning -/

variable {start : Nat}

theorem lsns_append (fs gs : List Frame) (lsns : (fs ++ gs).map Frame.lsn = range' start n) :
    fs.map Frame.lsn = range' start fs.length ∧
      gs.map Frame.lsn = range' (start + fs.length) gs.length := by
  have length : fs.length + gs.length = n := by simpa using congrArg List.length lsns
  rw [← length, map_append, ← range'_append_1] at lsns
  exact append_inj lsns (by simp)

theorem Dense.lsns_onDisk (dense : l.Dense next) :
    l.onDisk.map Frame.lsn = range' 1 l.onDisk.length :=
  (lsns_append _ _ dense.lsns).1

theorem filter_eq_drop (le : start ≤ fs.length) (lsns : fs.map Frame.lsn = range' 1 fs.length) :
    fs.filter (fun f => decide (start + 1 ≤ f.lsn)) = fs.drop start := by
  obtain ⟨early, late⟩ := lsns_append (fs.take start) (fs.drop start)
    (by rw [take_append_drop]; exact lsns)
  have before : (fs.take start).filter (fun f => decide (start + 1 ≤ f.lsn)) = [] := by
    refine filter_eq_nil_iff.mpr fun f member => ?_
    have := mem_range'_1.mp (early ▸ mem_map_of_mem member)
    simp only [length_take] at this
    simp only [decide_eq_true_eq]
    lia
  have after : (fs.drop start).filter (fun f => decide (start + 1 ≤ f.lsn)) = fs.drop start := by
    refine filter_eq_self.mpr fun f member => ?_
    have := mem_range'_1.mp (late ▸ mem_map_of_mem member)
    simp only [length_take] at this
    simp only [decide_eq_true_eq]
    lia
  conv_lhs => rw [← take_append_drop start fs]
  rw [filter_append, before, after, nil_append]

/-- Nothing is skipped where all segments after the first start beyond the LSN. -/
theorem unskipped_all {start : LSN} : ∀ {segs : List Segment},
    (∀ seg ∈ segs.tail, start < seg.startLSN) → unskipped start segs = segs
  | [], _ => rfl
  | [_], _ => rfl
  | seg :: next :: rest, late => by
    have more : ∀ later ∈ (next :: rest).tail, start < later.startLSN :=
      fun later member => late later (mem_cons_of_mem next member)
    rw [unskipped, if_neg (not_le.mpr (late next (by simp))), unskipped_all more]

theorem unskipped_suffix {segs : List Segment} (start : LSN)
    (starts : segs.Pairwise fun seg later => seg.startLSN ≤ later.startLSN) :
    unskipped start segs <:+ segs := by
  induction segs using unskipped.induct start with
  | case1 | case2 seg => exact suffix_rfl
  | case3 seg next rest skip ih =>
    rw [unskipped, if_pos skip]
    exact (ih (pairwise_cons.mp starts).2).trans (suffix_cons _ _)
  | case4 seg next rest read ih =>
    obtain ⟨-, more⟩ := pairwise_cons.mp starts
    have late : ∀ later ∈ (seg :: next :: rest).tail, start < later.startLSN := by
      intro later member
      refine (not_le.mp read).trans_le ?_
      obtain rfl | behind := mem_cons.mp member
      · exact le_rfl
      · exact (pairwise_cons.mp more).1 later behind
    exact ⟨[], unskipped_all late⟩

/-- A scan delivers the records from its start on, and the last LSN it reports is that of the
last record on disk, or 0 if it reads no record. -/
theorem Dense.scanFrom (dense : l.Dense next) (le : start ≤ l.onDisk.length) :
    (l.scanFrom (start + 1)).1 = l.onDisk.drop start ∧
      (if (l.scanFrom (start + 1)).2 ≠ 0 then (l.scanFrom (start + 1)).2 else start) =
        l.onDisk.length := by
  have records : (l.scanFrom (start + 1)).1 = l.onDisk.drop start := by
    rw [← filter_eq_drop le dense.lsns_onDisk]
    exact scan_unskipped dense.upper _
  refine ⟨records, ?_⟩
  obtain ⟨skipped, all⟩ := unskipped_suffix (start + 1) dense.starts
  have disk : l.onDisk = skipped.flatMap Segment.frames ++
      (unskipped (start + 1) l.segments).flatMap Segment.frames := by
    rw [← flatMap_append, all]
    rfl
  have last : (l.scanFrom (start + 1)).2 =
      lastLSN ((unskipped (start + 1) l.segments).flatMap Segment.frames) 0 := rfl
  have lsns := dense.lsns_onDisk
  rcases eq_nil_or_concat' ((unskipped (start + 1) l.segments).flatMap Segment.frames) with
    nothing | ⟨more, f, read⟩
  · have none : l.onDisk.drop start = [] := by
      rw [← records, Log.scanFrom]
      simp [nothing]
    rw [last, nothing]
    have := drop_eq_nil_iff.mp none
    simp [lastLSN]
    lia
  rw [read, ← append_assoc] at disk
  rw [disk] at lsns ⊢
  have atEnd := (lsns_append _ _ lsns).2
  rw [last, read]
  simp [lastLSN] at atEnd ⊢
  lia

end Log

end NextSQL.Wal
