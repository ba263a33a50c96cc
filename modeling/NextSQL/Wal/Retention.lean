import NextSQL.Wal.Segments

/-!
# What scans, cuts and removals keep

Five functions trust the start LSN in the header of a segment. A scan skips a
segment whose successor starts at or before the LSN it was asked for; the three
removals take a segment whose successor starts at or before a horizon; and
`ClipTo` removes a segment that starts beyond the LSN to keep.

`segment_boundaries` shows that they may trust it as long as no batch rotates.
`held_commit_below_segment_start` is a run with a batch that does: the rotation
writes the next LSN into the header when the batch has taken its own.
-/

namespace NextSQL.Wal

open GuardedRuns Log List

/-! ## Scanning -/

/-- The segments a scan reads: it skips one whose successor starts at or before `start`. -/
def unskipped (start : LSN) : List Segment → List Segment
  | [] => []
  | [seg] => [seg]
  | seg :: next :: rest =>
    if next.startLSN ≤ start then unskipped start (next :: rest)
    else seg :: unskipped start (next :: rest)

namespace Log

/-- The records a scan of the intact segments delivers, and the LSN of the last one it read. -/
def scanFrom (l : Log) (start : LSN) : List Frame × LSN :=
  let start := if start = 0 then 1 else start
  let read := (unskipped start l.segments).flatMap Segment.frames
  (read.filter fun f => decide (start ≤ f.lsn), lastLSN read 0)

/-! ## Removing segments -/

/-- The smallest LSN that a pin asks to keep, or the one requested. -/
def retentionHorizon (l : Log) (requested : LSN) : LSN :=
  l.retentionPins.foldl (fun horizon pin =>
      if pin.2 ≠ 0 ∧ (horizon = 0 ∨ pin.2 < horizon) then pin.2 else horizon) requested

/-- Walk over the segments and remove those that may go. The walk ends early where `stops`
says that the budget, the archiver or the file system fails. -/
def sweep (removable : Segment → Segment → Bool) (stops : Segment → Bool) :
    List Segment → List Segment
  | [] => []
  | [seg] => [seg]
  | seg :: next :: rest =>
    if stops seg then seg :: next :: rest
    else if removable seg next then sweep removable stops (next :: rest)
    else seg :: sweep removable stops (next :: rest)

/-- The segments that are left are the closed ones, and the active one at the end. -/
def keep (l : Log) (kept : List Segment) : Log := { l with closed := kept.dropLast }

def discardCheckpointedSegments (l : Log) (stops : Segment → Bool) : Log :=
  if l.checkpoint = 0 ∨ l.redoLSN = 0 ∨ l.seg = none then l
  else l.keep (sweep (fun seg next => decide (seg.id < l.segID) &&
      decide (next.startLSN ≤ l.retentionHorizon l.redoLSN)) stops l.segments)

/-- The loop of `TrimToCap`: the oldest segments go until the rest is small enough, and the
first one that has to stay ends it. -/
def trim (capBytes segID : Nat) (horizon : LSN) (stops : Segment → Bool) :
    Nat → List Segment → List Segment
  | total, seg :: next :: rest =>
    if total ≤ capBytes ∨ segID ≤ seg.id ∨ stops seg = true ∨ horizon < next.startLSN then
      seg :: next :: rest
    else trim capBytes segID horizon stops (total - seg.size) (next :: rest)
  | _, segs => segs

def trimToCap (l : Log) (capBytes : Nat) (stops : Segment → Bool) : Except Nerr Unit × Log :=
  if capBytes = 0 then (.ok (), l)
  else if l.archiver then
    (.error ⟨.invalidArgument, "wal.TrimToCap",
      "an archived WAL is pruned by PITR retention, not by a size cap"⟩, l)
  else if l.checkpoint = 0 ∨ l.redoLSN = 0 ∨ l.seg = none then (.ok (), l)
  else (.ok (), l.keep (trim capBytes l.segID (l.retentionHorizon l.redoLSN) stops
    (l.segments.map Segment.size).sum l.segments))

def pruneArchivedBefore (l : Log) (oldest : LSN) (stops : Segment → Bool) :
    Except Nerr Unit × Log :=
  if oldest = 0 then
    (.error ⟨.invalidArgument, "wal.PruneArchivedBefore", "non-zero PITR horizon is required"⟩, l)
  else if ¬ l.archiver then
    (.error ⟨.unavailable, "wal.PruneArchivedBefore", "WAL archiver is not configured"⟩, l)
  else if l.checkpoint = 0 ∨ l.redoLSN = 0 ∨ l.seg = none then
    (.error ⟨.unavailable, "wal.PruneArchivedBefore", "durable checkpoint is required"⟩, l)
  else (.ok (), l.keep (sweep (fun seg next => decide (seg.id < l.segID) &&
      (decide (next.startLSN ≤ l.redoLSN) && decide (next.startLSN ≤ l.retentionHorizon oldest)))
      stops l.segments))

/-! ## Cutting the log -/

/-- `flushLocked` from start to end, with no other flush at the disk. -/
def flushNow (l : Log) (w : Written) : Except Nerr Unit × Log :=
  match l.durabilityErr with
  | some e => (.error e, l)
  | none => if l.flushable.1 = 0 then (.ok (), l) else l.finishFlush l.flushable.1 l.flushable.2 w

/-- A segment is removed if it starts beyond `limit`, and otherwise cut before the first
record beyond it. -/
def clip (limit : LSN) (seg : Segment) : Option Segment :=
  if limit < seg.startLSN then none
  else
    let kept := seg.frames.takeWhile fun f => decide (f.lsn ≤ limit)
    some { seg with frames := kept, synced := kept.length, torn := 0, reserved := 0 }

/-- `ClipTo`, after its flush. -/
def cutAfter (l : Log) (limit : LSN) (d : Disk) : Except Nerr Unit × Log :=
  let kept := l.segments.filterMap (clip limit)
  let cut : Log := { l with closed := kept, seg := none, nextLSN := limit + 1, durableLSN := limit,
                            redoLSN := min l.redoLSN (limit + 1) }
  match kept.getLast? with
  | none => cut.openNewSegment d 1 1
  | some last =>
    Log.writeControl { cut with closed := kept.dropLast, seg := some last, segID := last.id,
                                segOff := segmentHeaderSize + bytes last.frames,
                                nextSeg := if l.nextSeg ≤ last.id then last.id + 1 else l.nextSeg } d

/-- The flush of `ClipTo`; a log that is closed has nothing to flush. -/
def flushOpen (l : Log) (w : Written) : Except Nerr Unit × Log :=
  if l.seg.isSome then l.flushNow w else (.ok (), l)

def clipTo (l : Log) (limit : LSN) (w : Written) (d : Disk) : Except Nerr Unit × Log :=
  if limit = 0 then (.ok (), l)
  else match l.flushOpen w with
    | (.error e, l) => (.error e, l)
    | (.ok (), l) => l.cutAfter limit d

/-! ## What is kept -/

variable {segs : List Segment} {n : LSN} {seg : Segment} {f : Frame}

/-- A scan of segments with the upper boundary misses nothing. -/
theorem scan_unskipped (upper : Upper segs) (start : LSN) :
    ((unskipped start segs).flatMap Segment.frames).filter (fun f => decide (start ≤ f.lsn)) =
      (segs.flatMap Segment.frames).filter fun f => decide (start ≤ f.lsn) := by
  induction segs using unskipped.induct start with
  | case1 => rfl
  | case2 seg => rfl
  | case3 seg next rest skip ih =>
    obtain ⟨below, more⟩ := pairwise_cons.mp upper
    have none : seg.frames.filter (fun f => decide (start ≤ f.lsn)) = [] := by
      refine filter_eq_nil_iff.mpr fun f written => ?_
      have := below next (by simp) f written
      simp only [decide_eq_true_eq, not_le]
      exact this.trans_le skip
    rw [unskipped, if_pos skip, ih more, flatMap_cons (x := seg), filter_append, none, nil_append]
  | case4 seg next rest read ih =>
    obtain ⟨-, more⟩ := pairwise_cons.mp upper
    rw [unskipped, if_neg read, flatMap_cons, filter_append, ih more,
      flatMap_cons (x := seg), filter_append]

variable {stops : Segment → Bool}

theorem mem_sweep {removable : Segment → Segment → Bool} (upper : Upper segs)
    (early : ∀ seg next, removable seg next → next.startLSN ≤ n) (inLog : seg ∈ segs)
    (written : f ∈ seg.frames) (le : n ≤ f.lsn) : seg ∈ sweep removable stops segs := by
  induction segs using sweep.induct removable stops with
  | case1 => cases inLog
  | case2 seg => exact inLog
  | case3 first next rest stop =>
    rw [sweep, if_pos stop]
    exact inLog
  | case4 first next rest stop gone ih =>
    obtain ⟨below, more⟩ := pairwise_cons.mp upper
    rw [sweep, if_neg stop, if_pos gone]
    obtain rfl | later := mem_cons.mp inLog
    · have lt := (below next (by simp) f written).trans_le (early _ _ gone)
      exact absurd le (not_le.mpr lt)
    · exact ih more later
  | case5 first next rest stop stays ih =>
    obtain ⟨-, more⟩ := pairwise_cons.mp upper
    rw [sweep, if_neg stop, if_neg stays]
    obtain rfl | later := mem_cons.mp inLog
    · exact mem_cons_self
    · exact mem_cons_of_mem _ (ih more later)

theorem mem_trim {capBytes segID : Nat} {total : Nat} (upper : Upper segs) (inLog : seg ∈ segs)
    (written : f ∈ seg.frames) (le : n ≤ f.lsn) : seg ∈ trim capBytes segID n stops total segs := by
  induction total, segs using trim.induct capBytes segID n stops with
  | case1 total first next rest stays =>
    rw [trim, if_pos stays]
    exact inLog
  | case2 total first next rest gone ih =>
    obtain ⟨below, more⟩ := pairwise_cons.mp upper
    rw [trim, if_neg gone]
    obtain rfl | later := mem_cons.mp inLog
    · have lt := (below next (by simp) f written).trans_le
        (not_lt.mp fun lt => gone (.inr (.inr (.inr lt))))
      exact absurd le (not_le.mpr lt)
    · exact ih more later
  | case3 total segs small =>
    match segs, inLog with
    | [only], inLog => exact inLog
    | first :: next :: rest, _ => exact absurd rfl (small first next rest)

theorem getLast?_sweep (removable : Segment → Segment → Bool) (stops : Segment → Bool)
    (segs : List Segment) : (sweep removable stops segs).getLast? = segs.getLast? := by
  induction segs using sweep.induct removable stops with
  | case1 => rfl
  | case2 seg => rfl
  | case3 first next rest stop => rw [sweep, if_pos stop]
  | case4 first next rest stop gone ih =>
    rw [sweep, if_neg stop, if_pos gone, ih, getLast?_cons_cons]
  | case5 first next rest stop stays ih =>
    have some : ∃ last, (next :: rest).getLast? = some last :=
      Option.isSome_iff_exists.mp (by simp)
    obtain ⟨last, found⟩ := some
    rw [found] at ih
    rw [sweep, if_neg stop, if_neg stays, getLast?_cons_cons, found, getLast?_cons, ih]
    rfl

theorem getLast?_trim (capBytes segID : Nat) (horizon : LSN) (stops : Segment → Bool) (total : Nat)
    (segs : List Segment) :
    (trim capBytes segID horizon stops total segs).getLast? = segs.getLast? := by
  induction total, segs using trim.induct capBytes segID horizon stops with
  | case1 total first next rest stays => rw [trim, if_pos stays]
  | case2 total first next rest gone ih =>
    rw [trim, if_neg gone, ih, getLast?_cons_cons]
  | case3 total segs small =>
    match segs with
    | [] => rfl
    | [only] => rfl
    | first :: next :: rest => exact absurd rfl (small first next rest)

variable {l : Log} {kept : List Segment}

/-- A removal that leaves the active segment leaves what it keeps. -/
theorem mem_onDisk_keep (active : l.seg ≠ none) (last : kept.getLast? = l.segments.getLast?)
    (mem : ∀ seg ∈ l.segments, f ∈ seg.frames → seg ∈ kept) (written : f ∈ l.onDisk) :
    f ∈ (l.keep kept).onDisk := by
  have segments : (l.keep kept).segments = kept := by
    obtain ⟨seg, found⟩ := Option.ne_none_iff_exists'.mp active
    have end_ : kept.getLast? = some seg := by rw [last, segments, found]; simp
    rw [segments, keep, found]
    exact dropLast_append_getLast? seg end_
  obtain ⟨seg, inLog, inSeg⟩ := mem_flatMap.mp written
  rw [onDisk, segments]
  exact mem_flatMap.mpr ⟨seg, mem seg inLog inSeg, inSeg⟩

section

variable (upper : Upper l.segments) (written : f ∈ l.onDisk)

include upper written

/-- A sweep up to an LSN keeps the records from that LSN on. -/
theorem mem_keep_sweep {removable : Segment → Segment → Bool} (active : l.seg ≠ none)
    (early : ∀ seg next, removable seg next → next.startLSN ≤ n) (le : n ≤ f.lsn) :
    f ∈ (l.keep (sweep removable stops l.segments)).onDisk := by
  refine mem_onDisk_keep active (getLast?_sweep _ _ _) ?_ written
  intro seg inLog inSeg
  exact mem_sweep upper early inLog inSeg le

theorem mem_discard (le : l.retentionHorizon l.redoLSN ≤ f.lsn) :
    f ∈ (l.discardCheckpointedSegments stops).onDisk := by
  unfold discardCheckpointedSegments
  split
  · exact written
  next ready =>
  refine mem_keep_sweep upper written (fun none => ready (.inr (.inr none))) ?_ le
  intro seg next removable
  exact of_decide_eq_true (Bool.and_eq_true_iff.mp removable).2

theorem mem_trimToCap {capBytes : Nat} (le : l.retentionHorizon l.redoLSN ≤ f.lsn) :
    f ∈ (l.trimToCap capBytes stops).2.onDisk := by
  unfold trimToCap
  split
  · exact written
  split
  · exact written
  split
  · exact written
  next ready =>
  refine mem_onDisk_keep (fun none => ready (.inr (.inr none))) (getLast?_trim _ _ _ _ _ _) ?_
    written
  intro seg inLog inSeg
  exact mem_trim upper inLog inSeg le

theorem mem_prune {oldest : LSN} (le : min l.redoLSN (l.retentionHorizon oldest) ≤ f.lsn) :
    f ∈ (l.pruneArchivedBefore oldest stops).2.onDisk := by
  unfold pruneArchivedBefore
  split
  · exact written
  split
  · exact written
  split
  · exact written
  next ready =>
  refine mem_keep_sweep upper written (fun none => ready (.inr (.inr none))) ?_ le
  intro seg next removable
  simp only [Bool.and_eq_true, decide_eq_true_eq] at removable
  exact le_min removable.2.1 removable.2.2

end

variable {limit : LSN}

/-- In a segment with rising LSNs, what is not beyond the limit stands before the first record
that is. -/
theorem mem_takeWhile {fs : List Frame} (rising : Rising fs) (member : f ∈ fs) (le : f.lsn ≤ limit) :
    f ∈ fs.takeWhile fun f => decide (f.lsn ≤ limit) := by
  induction fs with
  | nil => cases member
  | cons g rest ih =>
    obtain ⟨before, more⟩ := pairwise_cons.mp rising
    obtain rfl | later := mem_cons.mp member
    · rw [takeWhile_cons_of_pos (by simpa using le)]
      exact mem_cons_self
    · have low : g.lsn ≤ limit := (before f later).le.trans le
      rw [takeWhile_cons_of_pos (by simpa using low)]
      exact mem_cons_of_mem _ (ih more later)

theorem mem_cutAfter (lower : Lower l.segments) (rising : Rising l.onDisk) (d : Disk)
    (written : f ∈ l.onDisk) (le : f.lsn ≤ limit) : f ∈ (l.cutAfter limit d).2.onDisk := by
  obtain ⟨seg, inLog, inSeg⟩ := mem_flatMap.mp written
  have here : Rising seg.frames := (pairwise_flatMap.mp rising).1 seg inLog
  obtain ⟨kept, clipped, stays⟩ : ∃ kept, clip limit seg = some kept ∧ f ∈ kept.frames :=
    ⟨_, if_neg (not_lt.mpr ((lower seg inLog f inSeg).trans le)), mem_takeWhile here inSeg le⟩
  have found : kept ∈ l.segments.filterMap (clip limit) :=
    mem_filterMap.mpr ⟨seg, inLog, clipped⟩
  unfold cutAfter
  dsimp only
  split
  next none => simp [getLast?_eq_none_iff.mp none] at found
  next last atEnd =>
  have same : ∀ l' : Log, (l'.writeControl d).2.segments = l'.segments := by
    intro l'
    obtain ⟨c, written⟩ := writeControl_eq l' d
    rw [written]
    rfl
  rw [onDisk, same]
  refine mem_flatMap.mpr ⟨kept, ?_, stays⟩
  change kept ∈ dropLast _ ++ [last]
  rwa [dropLast_append_getLast? last atEnd]

variable {w : Written}

/-- The flush of `ClipTo` keeps the order and the boundaries. -/
theorem flushOpen_kept {strict : Prop} {lds : List Landing} {accepted discarded : List Frame}
    (sound : l.view.Sound none lds accepted discarded) (bounded : l.Bounded strict lds) :
    (l.flushOpen w).2.view.Sound none lds accepted discarded ∧
      (l.flushOpen w).2.Bounded strict lds := by
  unfold flushOpen flushNow
  split
  · split
    · exact ⟨sound, bounded⟩
    next healthy =>
    split
    · exact ⟨sound, bounded⟩
    · have flushing : l.view.Sound (some ⟨l.flushable.1, l.flushable.2, none⟩) lds accepted
          discarded := World.flush_sound sound (by rw [healthy]; rfl)
      exact ⟨finishFlush_sound flushing rfl, bounded.finishFlush rfl⟩
  · exact ⟨sound, bounded⟩

end Log

namespace World

variable {s : World}

/-- **Segment boundaries.** In every state of every interleaving in which no call gets LSNs in
the window of another one and no batch rotates, the records of a segment lie between its start
and the start of the next one. A scan then delivers every record from its start on, `ClipTo`
keeps every record up to its limit, and the removals keep every record from the smallest LSN
they promise on, whatever checkpoint is installed and whatever the pins ask for. -/
theorem segment_boundaries {segmentSize : Nat} {archiver pageDeltas : Bool} {labels : List Label}
    (run : Run Step InPlace (create segmentSize archiver pageDeltas) labels s) :
    (∀ seg ∈ s.log.segments, ∀ f ∈ seg.frames, seg.startLSN ≤ f.lsn) ∧
    s.log.segments.Pairwise (fun seg later => ∀ f ∈ seg.frames, f.lsn < later.startLSN) ∧
    (∀ start, (s.log.scanFrom start).1 =
      s.log.onDisk.filter fun f => decide ((if start = 0 then 1 else start) ≤ f.lsn)) ∧
    (s.writer = none → ∀ limit w d, limit ≠ 0 → ∀ f ∈ (s.log.flushOpen w).2.onDisk,
      f.lsn ≤ limit → f ∈ (s.log.clipTo limit w d).2.onDisk) ∧
    ∀ checkpoint redo pins stops,
      let l := { s.log with checkpoint := checkpoint, redoLSN := redo, retentionPins := pins }
      ∀ f ∈ s.log.onDisk,
        (l.retentionHorizon redo ≤ f.lsn → f ∈ (l.discardCheckpointedSegments stops).onDisk ∧
          ∀ capBytes, f ∈ (l.trimToCap capBytes stops).2.onDisk) ∧
        ∀ oldest, min redo (l.retentionHorizon oldest) ≤ f.lsn →
          f ∈ (l.pruneArchivedBefore oldest stops).2.onDisk := by
  obtain ⟨sound, ranked⟩ :=
    run_ranked (run.mono fun inPlace => ⟨inPlace.1, fun _ : True => inPlace.2⟩)
  have upper := ranked.bounded.upper
  refine ⟨ranked.bounded.lower trivial, upper, fun start => scan_unskipped upper _, ?_, ?_⟩
  · intro idle limit w d later f written le
    have sound : s.log.view.Sound none s.holding s.accepted s.discarded := idle ▸ sound
    obtain ⟨sound, bounded⟩ := flushOpen_kept (w := w) sound ranked.bounded
    have rising : Rising (s.log.flushOpen w).2.onDisk :=
      (pairwise_append.mp (pairwise_append.mp sound.order).1).1
    have lower := bounded.lower trivial
    unfold Log.clipTo
    rw [if_neg later]
    split
    next flushed => rw [flushed] at written; exact written
    next flushed =>
      rw [flushed] at written lower rising
      exact mem_cutAfter lower rising d written le
  · intro checkpoint redo pins stops l f written
    have upper : Upper l.segments := upper
    exact ⟨fun le => ⟨mem_discard upper written le, fun _ => mem_trimToCap upper written le⟩,
      fun oldest le => mem_prune upper written le⟩

/-- Two transactions begin; the second record rotates the log. -/
def oneRotation : List Label :=
  [.append { type := .begin, txnID := 1 } {}, .append { type := .begin, txnID := 2 } {},
   .written .done {}, .flush 2, .written .done {}]

theorem segment_boundaries_one_rotation :
    ∃ s, Run Step InPlace (create 200 false false) oneRotation s ∧
      s.log.segments.map (fun seg => (seg.startLSN, seg.frames.map Frame.lsn)) =
        [(1, [1]), (2, [2])] ∧
      s.log.segments.Pairwise (fun seg later => ∀ f ∈ seg.frames, f.lsn < later.startLSN) := by
  refine exists_run_that next (fun s label => decide (s.InPlace label)) of_decide_eq_true
    (fun s => s.log.segments.map (fun seg => (seg.startLSN, seg.frames.map Frame.lsn)) =
      [(1, [1]), (2, [2])]) (by decide +kernel) fun s run segs => ?_
  exact ⟨segs, (segment_boundaries run).2.1⟩

/-- A commit record is held; it has LSN 2 and rotates the log. The new segment starts at
LSN 3 and holds the record with LSN 2. `ClipTo(2)` removes the segment, and the record. -/
theorem held_commit_below_segment_start : ∃ s, Run Step unguarded (create 200 false false)
        [.append { type := .begin, txnID := 1 } {}, .hold [{ type := .commit, txnID := 1 }] {},
         .written .done {}, .release true, .flush 2, .written .done {}] s ∧
      s.log.segments.map (fun seg => (seg.startLSN, seg.frames.map Frame.lsn)) =
        [(1, [1]), (3, [2])] ∧
      s.log.durableLSN = 2 ∧
      (s.log.clipTo 2 .done {}).2.onDisk.map Frame.lsn = [1] :=
  exists_run_of_exec next (fun _ _ => true) (fun _ => trivial) (by decide +kernel)

end World

end NextSQL.Wal
