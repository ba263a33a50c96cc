import NextSQL.Lib.Result
import NextSQL.Wal.Physical
import NextSQL.Wal.Segments
import Mathlib.Data.List.Nodup

/-!
# Scanning damaged segments

`ScanFrom` reads the segment files byte by byte. Where a record does not read
back it has to tell a torn tail, which it cuts off, from damage to a record that
was durable, which it reports. It decides by the LSN in the header of the
record, and a header that does not parse counts as torn.

The log is one that a run left, its files may have lost what was not synced,
and one file may have any bytes at all. `scan_delivers_durable` says exactly
when a scan then delivers every durable record or fails, and
`durable_record_scanned_away` is a file in which a damaged header hides a
durable record.
-/

namespace NextSQL.Wal

open ByteFields GuardedRuns List

/-! ## Reading a segment -/

/-- What stands at a place of a segment: nothing more, damage, or a record of so many bytes. -/
inductive Read where
  | stop
  | corrupt (e : Nerr)
  | record (r : Record) (need : Nat)
deriving DecidableEq, Repr

/-- What does not read back is damage if it names a durable LSN. Otherwise the file is cut
there. -/
def tailOrCorrupt (durable recLSN : LSN) : Read :=
  if recLSN ≠ 0 ∧ recLSN ≤ durable ∧ durable ≠ 0 then
    .corrupt ⟨.corruption, "wal.ScanFrom", "authenticated prefix is damaged"⟩
  else .stop

/-- One turn of the loop in `scanLocked`, on the rest of a file. -/
def readRecord (c : Cipher) (durable : LSN) (rest : Bytes) : Read :=
  if rest.length < headerSize then .stop
  else if isZeroHeader (rest.take headerSize) then .stop
  else match parseHeader (rest.take headerSize) with
    | .error _ => tailOrCorrupt durable 0
    | .ok h =>
      if rest.length < headerSize + h.ctLen then tailOrCorrupt durable h.lsn
      else match decodePhysical c (rest.take headerSize) (slice rest headerSize h.ctLen) with
        | .error _ => tailOrCorrupt durable h.lsn
        | .ok r => .record r (headerSize + h.ctLen)

/-- The loop over the records of a file. A record takes more than one byte, so as many turns
as there are bytes are enough. -/
def readRecords (c : Cipher) (durable : LSN) : Nat → Bytes → List Record × Option Nerr
  | 0, _ => ([], none)
  | turns + 1, rest =>
    match readRecord c durable rest with
    | .stop => ([], none)
    | .corrupt e => ([], some e)
    | .record r need =>
      let (rs, e) := readRecords c durable turns (rest.drop need)
      (r :: rs, e)

/-- A segment file: the number in its name, and its bytes. -/
abbrev SegmentFile := Nat × Bytes

def openSegment (ident : Identity) (file : SegmentFile) : Except Nerr SegmentHeader :=
  if file.2.length < segmentHeaderSize then .error ⟨.io, "diskio.ReadFullAt", "short read"⟩
  else match decodeSegmentHeader file.2 ident with
    | .error e => .error e
    | .ok h =>
      if h.id ≠ file.1 then .error ⟨.corruption, "wal.openSegment", "segment id mismatch"⟩
      else .ok h

def readSegment (c : Cipher) (ident : Identity) (durable : LSN) (file : SegmentFile) :
    Except Nerr (List Record) :=
  match openSegment ident file with
  | .error e => .error e
  | .ok _ =>
    match readRecords c durable file.2.length (file.2.drop segmentHeaderSize) with
    | (_, some e) => .error e
    | (rs, none) => .ok rs

/-- The records of the segments that are not skipped. -/
def scanSegments (c : Cipher) (ident : Identity) (durable start : LSN) :
    List SegmentFile → Except Nerr (List Record)
  | [] => .ok []
  | [file] => readSegment c ident durable file
  | file :: next :: files =>
    match openSegment ident next with
    | .error e => .error e
    | .ok h =>
      if h.startLSN ≤ start then scanSegments c ident durable start (next :: files)
      else match readSegment c ident durable file with
        | .error e => .error e
        | .ok rs => (scanSegments c ident durable start (next :: files)).map (rs ++ ·)

/-- `ScanFrom` on the files of a directory, with the durable LSN of the control file. -/
def scanFrom (c : Cipher) (ident : Identity) (durable start : LSN) (files : List SegmentFile) :
    Except Nerr (List Record × LSN) :=
  let start := if start = 0 then 1 else start
  match scanSegments c ident durable start files with
  | .error e => .error e
  | .ok rs =>
    .ok (rs.filter fun r => decide (start ≤ r.lsn), (rs.getLast?.map Record.lsn).getD 0)

/-- The records `RedoUntil` replays: those of a scan from the redo LSN, up to a limit if there
is one. -/
def redoRecords (c : Cipher) (ident : Identity) (durable redoLSN limit : LSN)
    (files : List SegmentFile) : Except Nerr (List Record) :=
  match scanFrom c ident durable redoLSN files with
  | .error e => .error e
  | .ok (rs, _) => .ok (if limit = 0 then rs else rs.filter fun r => decide (r.lsn ≤ limit))

/-! ## Files of a log -/

/-- The file of a segment. What was not synced may be cut off at any byte; behind the records
stand the zeros that were reserved. -/
def Stored (c : Cipher) (ident : Identity) (seg : Segment) (file : SegmentFile) : Prop :=
  file.1 = seg.id ∧ ∃ zeros size : Nat,
    segmentHeaderSize + bytes (seg.frames.take seg.synced) ≤ size ∧
    file.2 = (encodeSegmentHeader ident ⟨seg.id, seg.startLSN⟩ ++
      (seg.frames.flatMap (physical c) ++ List.replicate zeros 0)).take size

/-- A record opens at this place. -/
def opens (c : Cipher) (rest : Bytes) : Bool :=
  match parseHeader (rest.take headerSize) with
  | .error _ => false
  | .ok h => decide (headerSize + h.ctLen ≤ rest.length) &&
      (decodePhysical c (rest.take headerSize) (slice rest headerSize h.ctLen)).isOk

/-- A sealed record whose bytes changed does not open: at the first place where the bytes are
not those of the record that was written there, nothing opens. -/
def authentic (c : Cipher) : List Frame → Bytes → Bool
  | [], rest => !opens c rest
  | f :: fs, rest =>
    if (physical c f).isPrefixOf rest then authentic c fs (rest.drop f.size)
    else !opens c rest

/-- How many records, from the first on, still have their bytes. -/
def unchanged (c : Cipher) : List Frame → Bytes → Nat
  | [], _ => 0
  | f :: fs, rest =>
    if (physical c f).isPrefixOf rest then unchanged c fs (rest.drop f.size) + 1 else 0

/-- At this place stands a header that parses and names a durable LSN. -/
def loud (durable : LSN) (rest : Bytes) : Bool :=
  match parseHeader (rest.take headerSize) with
  | .error _ => false
  | .ok h => decide (h.lsn ≤ durable)

/-! ## What a scan reads -/

section Reading

variable {c : Cipher} {durable : LSN} {f : Frame} {fs : List Frame} {rest : Bytes}

theorem headerSize_le_size (f : Frame) : headerSize ≤ f.size := by
  unfold Frame.size
  omega

/-- The magic number is not zero. -/
theorem parseHeader_zero {hdr : Bytes} (zero : isZeroHeader hdr) :
    ∃ e, parseHeader hdr = .error e := by
  have magics : getLE (slice hdr 0 4) ≠ magic := by
    rw [getLE_zeros]
    · decide
    · intro b member
      have inside : b ∈ hdr := mem_of_mem_drop (mem_of_mem_take member)
      exact beq_iff_eq.mp (all_eq_true.mp zero b inside)
  unfold parseHeader
  split
  · exact ⟨_, rfl⟩
  · exact ⟨_, rfl⟩

variable {size : Nat}

/-- The header of a record that was written parses, whatever follows it. -/
theorem parse_front (fits : f.Fits) (long : headerSize ≤ size) (rest : Bytes) :
    parseHeader (((physical c f ++ rest).take size).take headerSize) =
      .ok ⟨c.version, f.lsn, f.size - headerSize⟩ := by
  have whole : headerSize ≤ (physical c f).length := by
    rw [length_physical]
    exact headerSize_le_size f
  rw [take_take, Nat.min_eq_left long, take_append_of_le_length whole]
  exact parse_physical c fits

theorem readRecord_physical (fits : f.Fits) (rest : Bytes) :
    readRecord c durable (physical c f ++ rest) = .record f.record f.size := by
  have size := length_physical c f
  have long := headerSize_le_size f
  have total : (physical c f ++ rest).length = f.size + rest.length := by
    rw [length_append, size]
  have front : (physical c f ++ rest).take headerSize = (physical c f).take headerSize :=
    take_append_of_le_length (by rw [size]; exact long)
  have back : slice (physical c f ++ rest) headerSize (f.size - headerSize) =
      (physical c f).drop headerSize := by
    rw [slice_append _ (by rw [size]; omega), slice]
    exact take_of_length_le (by rw [length_drop, size])
  have parsed := parse_physical c fits
  have nonzero : ¬ isZeroHeader ((physical c f).take headerSize) = true := by
    intro zero
    obtain ⟨e, failed⟩ := parseHeader_zero zero
    cases parsed.symm.trans failed
  rw [readRecord, front, if_neg (by rw [total]; omega), if_neg nonzero, parsed]
  dsimp only
  rw [if_neg (by rw [total]; omega), back, decode_physical c fits, Nat.add_sub_cancel' long]

theorem tailOrCorrupt_eq {lsn : LSN} (some : lsn ≠ 0) :
    tailOrCorrupt durable lsn = if decide (lsn ≤ durable) then
      .corrupt ⟨.corruption, "wal.ScanFrom", "authenticated prefix is damaged"⟩ else .stop := by
  unfold tailOrCorrupt
  by_cases le : lsn ≤ durable
  · have durables : durable ≠ 0 := by lia
    simp [some, le, durables]
  · simp [le]

/-- Where nothing opens, a scan stops, and it reports damage if the header names a durable
LSN. -/
theorem readRecord_closed (closed : opens c rest = false) :
    readRecord c durable rest = if loud durable rest then
      .corrupt ⟨.corruption, "wal.ScanFrom", "authenticated prefix is damaged"⟩ else .stop := by
  unfold readRecord loud
  cases parsed : parseHeader (rest.take headerSize) with
  | error e =>
    simp only [tailOrCorrupt, Bool.false_eq_true, if_false, ne_eq, not_true_eq_false, false_and]
    split <;> [rfl; split <;> rfl]
  | ok h =>
    have fields := parsed
    simp only [parseHeader, Except.ite_error_eq_ok_iff] at fields
    obtain ⟨long, -, -, -, -, some, -, done⟩ := fields
    have some : h.lsn ≠ 0 := by cases done; exact some
    have long : ¬ rest.length < headerSize := by
      rw [length_take] at long
      omega
    have nonzero : ¬ isZeroHeader (rest.take headerSize) = true := by
      intro zero
      obtain ⟨e, failed⟩ := parseHeader_zero zero
      cases parsed.symm.trans failed
    rw [if_neg long, if_neg nonzero]
    dsimp only
    rw [opens, parsed] at closed
    dsimp only at closed
    split
    · exact tailOrCorrupt_eq some
    next fits =>
    rw [decide_eq_true (not_lt.mp fits), Bool.true_and] at closed
    cases decoded : decodePhysical c (rest.take headerSize) (slice rest headerSize h.ctLen) with
    | error e => exact tailOrCorrupt_eq some
    | ok r =>
      rw [decoded] at closed
      cases closed

theorem bytes_cons (f : Frame) (fs : List Frame) : bytes (f :: fs) = f.size + bytes fs := by
  rw [bytes, map_cons, sum_cons]
  rfl

theorem unchanged_le (c : Cipher) (fs : List Frame) (rest : Bytes) : unchanged c fs rest ≤ rest.length := by
  induction fs generalizing rest with
  | nil => exact zero_le
  | cons f fs ih =>
    rw [unchanged]
    split
    next same =>
      have long := (List.isPrefixOf_iff_prefix.mp same).length_le
      have some := headerSize_le_size f
      have header : headerSize = 40 := rfl
      have rest_le := ih (rest.drop f.size)
      rw [length_physical] at long
      rw [length_drop] at rest_le
      omega
    · exact zero_le

theorem readRecords_damaged {turns : Nat} (fits : ∀ f ∈ fs, f.Fits)
    (sealed_ : authentic c fs rest) (enough : unchanged c fs rest < turns) :
    readRecords c durable turns rest = ((fs.take (unchanged c fs rest)).map Frame.record,
      if loud durable (rest.drop (bytes (fs.take (unchanged c fs rest)))) then
        some ⟨.corruption, "wal.ScanFrom", "authenticated prefix is damaged"⟩ else none) := by
  induction fs generalizing rest turns with
  | nil =>
    obtain ⟨turns, rfl⟩ := Nat.exists_eq_succ_of_ne_zero (Nat.ne_of_gt enough)
    have closed : opens c rest = false := by simpa [authentic] using sealed_
    rw [readRecords, readRecord_closed closed]
    simp only [unchanged, take_zero, bytes, map_nil, sum_nil, drop_zero]
    cases loud durable rest <;> rfl
  | cons f fs ih =>
    obtain ⟨turns, rfl⟩ := Nat.exists_eq_succ_of_ne_zero
      (Nat.ne_of_gt (lt_of_le_of_lt (zero_le) enough))
    rw [forall_mem_cons] at fits
    by_cases same : (physical c f).isPrefixOf rest
    · rw [authentic, if_pos same] at sealed_
      rw [unchanged, if_pos same] at enough ⊢
      obtain ⟨more, rfl⟩ := isPrefixOf_iff_prefix.mp same
      have after : (physical c f ++ more).drop f.size = more :=
        drop_left' (length_physical c f)
      rw [after] at sealed_ enough ⊢
      rw [readRecords, readRecord_physical fits.1]
      dsimp only
      rw [after, ih fits.2 sealed_ (by omega), take_succ_cons, bytes_cons, ← drop_drop, after]
      rfl
    · rw [authentic, if_neg same] at sealed_
      have closed : opens c rest = false := by simpa using sealed_
      rw [unchanged, if_neg same, readRecords, readRecord_closed closed]
      simp only [take_zero, bytes, map_nil, sum_nil, drop_zero]
      cases loud durable rest <;> rfl

theorem readRecords_zeros (turns zeros : Nat) :
    readRecords c durable turns (replicate zeros 0) = ([], none) := by
  cases turns with
  | zero => rfl
  | succ turns =>
    have stop : readRecord c durable (replicate zeros 0) = .stop := by
      unfold readRecord
      split
      · rfl
      · rw [if_pos]
        simp [isZeroHeader]
    rw [readRecords, stop]

/-- A record that is cut off within its bytes is taken for a torn tail, if it was not
durable. -/
theorem readRecord_torn (fits : f.Fits) (late : durable < f.lsn) (short : size < f.size)
    (rest : Bytes) : readRecord c durable ((physical c f ++ rest).take size) = .stop := by
  have length : ((physical c f ++ rest).take size).length = size := by
    rw [length_take, length_append, length_physical]
    omega
  unfold readRecord
  rw [length]
  split
  · rfl
  next long =>
  split
  · rfl
  rw [parse_front fits (not_lt.mp long)]
  dsimp only
  rw [if_pos (by omega), tailOrCorrupt, if_neg]
  exact fun durables => not_le.mpr late durables.2.1

theorem readRecords_cut {turns synced zeros : Nat} (fits : ∀ f ∈ fs, f.Fits)
    (enough : ((fs.flatMap (physical c) ++ replicate zeros 0).take size).length ≤ turns)
    (long : bytes (fs.take synced) ≤ size) (late : ∀ f ∈ fs.drop synced, durable < f.lsn) :
    ∃ gs, gs <+: fs ∧ fs.take synced <+: gs ∧
      readRecords c durable turns ((fs.flatMap (physical c) ++ replicate zeros 0).take size) =
          (gs.map Frame.record, none) := by
  induction fs generalizing turns size synced with
  | nil =>
    refine ⟨[], prefix_rfl, by simp, ?_⟩
    rw [flatMap_nil, nil_append, take_replicate]
    exact readRecords_zeros _ _
  | cons f fs ih =>
    rw [forall_mem_cons] at fits
    rw [flatMap_cons, append_assoc] at enough ⊢
    by_cases whole : f.size ≤ size
    · have cut : (physical c f ++ (fs.flatMap (physical c) ++ replicate zeros 0)).take size =
          physical c f ++
            (fs.flatMap (physical c) ++ replicate zeros 0).take (size - f.size) := by
        rw [take_append, length_physical, take_of_length_le]
        rw [length_physical]
        exact whole
      rw [cut, length_append, length_physical] at enough
      have some := headerSize_le_size f
      have header : headerSize = 40 := rfl
      obtain ⟨turns, rfl⟩ := Nat.exists_eq_succ_of_ne_zero (show turns ≠ 0 by omega)
      have later : ∃ gs, gs <+: fs ∧ fs.take (synced - 1) <+: gs ∧ readRecords c durable turns
            ((fs.flatMap (physical c) ++ replicate zeros 0).take (size - f.size)) =
              (gs.map Frame.record, none) := by
        refine ih fits.2 (by omega) ?_ ?_
        · cases synced with
          | zero => exact zero_le
          | succ synced =>
            rw [take_succ_cons, bytes_cons] at long
            rw [Nat.add_sub_cancel]
            omega
        · cases synced with
          | zero => exact fun g member => late g (mem_cons_of_mem f member)
          | succ synced => exact late
      obtain ⟨gs, front, kept, read⟩ := later
      refine ⟨f :: gs, cons_prefix_cons.mpr ⟨rfl, front⟩, ?_, ?_⟩
      · cases synced with
        | zero => exact nil_prefix
        | succ synced => exact cons_prefix_cons.mpr ⟨rfl, kept⟩
      rw [cut, readRecords, readRecord_physical fits.1]
      dsimp only
      rw [drop_left' (length_physical c f), read]
      rfl
    have none : synced = 0 := by
      cases synced with
      | zero => rfl
      | succ synced =>
        rw [take_succ_cons, bytes_cons] at long
        omega
    subst none
    refine ⟨[], nil_prefix, by simp, ?_⟩
    cases turns with
    | zero => rfl
    | succ turns =>
      rw [readRecords, readRecord_torn fits.1 (late f mem_cons_self) (not_le.mp whole)]
      rfl

end Reading

/-! ## What a scan of a directory reads -/

section Directories

variable {c : Cipher} {ident : Identity} {durable start : LSN}

/-- A record that a scan has to deliver. -/
def Needed (start durable : LSN) (f : Frame) : Prop := start ≤ f.lsn ∧ f.lsn ≤ durable

instance (start durable : LSN) (f : Frame) : Decidable (Needed start durable f) :=
  inferInstanceAs (Decidable (_ ∧ _))

/-- The segments of a log, as a scan relies on them: every number fits into its field, records
lie below the start of every later segment and are in the order of their LSNs, and what is
durable is synced. -/
structure Readable (durable : LSN) (segs : List Segment) : Prop where
  frames : ∀ seg ∈ segs, ∀ f ∈ seg.frames, f.Fits
  headers : ∀ seg ∈ segs, (SegmentHeader.mk seg.id seg.startLSN).Fits
  upper : Log.Upper segs
  synced : ∀ seg ∈ segs, ∀ f ∈ seg.frames.drop seg.synced, durable < f.lsn
  order : (segs.flatMap Segment.frames).Pairwise fun f g => f.lsn < g.lsn

variable {seg : Segment} {segs : List Segment}

theorem Readable.tail (readable : Readable durable (seg :: segs)) : Readable durable segs where
  frames later member := readable.frames later (mem_cons_of_mem _ member)
  headers later member := readable.headers later (mem_cons_of_mem _ member)
  upper := (pairwise_cons.mp readable.upper).2
  synced later member := readable.synced later (mem_cons_of_mem _ member)
  order := by
    have order := readable.order
    rw [flatMap_cons] at order
    exact (pairwise_append.mp order).2.1

/-- A segment is skipped only if no record of it is needed. -/
theorem Readable.skipped {next : Segment} (readable : Readable durable (seg :: next :: segs))
    (skip : next.startLSN ≤ start) : ∀ f ∈ seg.frames, ¬ Needed start durable f := by
  intro f written needed
  have below := (pairwise_cons.mp readable.upper).1 next mem_cons_self f written
  exact absurd (below.trans_le (skip.trans needed.1)) (lt_irrefl _)

variable {f : Frame}

theorem Readable.apart (readable : Readable durable (seg :: segs)) (here : f ∈ seg.frames) :
    f ∉ segs.flatMap Segment.frames := by
  intro there
  have order := readable.order
  rw [flatMap_cons] at order
  exact absurd ((pairwise_append.mp order).2.2 f here f there) (lt_irrefl _)

theorem Readable.once {n : Nat} (readable : Readable durable (seg :: segs))
    (early : f ∈ seg.frames.take n) : f ∉ seg.frames.drop n := by
  intro late
  have order := readable.order
  rw [flatMap_cons, ← take_append_drop n seg.frames] at order
  exact absurd ((pairwise_append.mp (pairwise_append.mp order).1).2.2 f early f late) (lt_irrefl _)

theorem openSegment_stored {file : SegmentFile} (stored : Stored c ident seg file)
    (fits : (SegmentHeader.mk seg.id seg.startLSN).Fits) :
    openSegment ident file = .ok ⟨seg.id, seg.startLSN⟩ := by
  obtain ⟨id, bytes⟩ := file
  obtain ⟨rfl, zeros, size, long, rfl⟩ := stored
  have header := length_encodeSegmentHeader ident ⟨seg.id, seg.startLSN⟩
  rw [take_append, take_of_length_le (by rw [header]; omega)]
  unfold openSegment
  rw [if_neg (by rw [length_append, header]; omega), decode_encodeSegmentHeader ident fits]
  simp

theorem readSegment_stored (start : LSN) {file : SegmentFile} (stored : Stored c ident seg file)
    (fits : (SegmentHeader.mk seg.id seg.startLSN).Fits) (frames : ∀ f ∈ seg.frames, f.Fits)
    (synced : ∀ f ∈ seg.frames.drop seg.synced, durable < f.lsn) :
    ∃ gs, gs ⊆ seg.frames ∧ (∀ f ∈ seg.frames, Needed start durable f → f ∈ gs) ∧
      readSegment c ident durable file = .ok (gs.map Frame.record) := by
  have opened := openSegment_stored stored fits
  obtain ⟨id, content⟩ := file
  obtain ⟨rfl, zeros, size, long, rfl⟩ := stored
  have header := length_encodeSegmentHeader ident ⟨seg.id, seg.startLSN⟩
  rw [take_append, take_of_length_le (by rw [header]; omega), header] at opened ⊢
  let rest := (seg.frames.flatMap (physical c) ++ replicate zeros 0).take
    (size - segmentHeaderSize)
  obtain ⟨gs, front, kept, read⟩ : ∃ gs, gs <+: seg.frames ∧ seg.frames.take seg.synced <+: gs ∧
      readRecords c durable (segmentHeaderSize + rest.length) rest = (gs.map Frame.record, none) :=
    readRecords_cut frames (Nat.le_add_left _ _) (by omega) synced
  refine ⟨gs, front.subset, ?_, ?_⟩
  · intro f written needed
    rw [← take_append_drop seg.synced seg.frames] at written
    obtain early | late := mem_append.mp written
    · exact kept.subset early
    · exact absurd needed.2 (not_le.mpr (synced f late))
  · unfold readSegment
    rw [opened]
    rw [drop_left' header, length_append, header, read]

/-- The result of a scan: it fails, or it reads some of the records. Whether it then reads all
the records needed depends on a condition, which always holds if it fails. -/
def Outcome (start durable : LSN) (frames : List Frame) (condition : Prop)
    (result : Except Nerr (List Record)) : Prop :=
  (∃ e, result = .error e ∧ condition) ∨ ∃ gs, result = .ok (gs.map Frame.record) ∧ gs ⊆ frames ∧
      ((∀ f ∈ frames, Needed start durable f → f ∈ gs) ↔ condition)

section Outcomes

variable {condition : Prop} {frames : List Frame} {result : Except Nerr (List Record)} {seg : Segment}
variable {segs : List Segment}

/-- A segment is skipped that has no record needed. -/
theorem Outcome.skip (outcome : Outcome start durable frames condition result)
    (idle : ∀ f ∈ seg.frames, ¬ Needed start durable f) :
    Outcome start durable (seg.frames ++ frames) condition result := by
  refine outcome.imp id fun ⟨gs, ok, sub, complete⟩ =>
    ⟨gs, ok, subset_append_of_subset_right _ sub, ?_⟩
  rw [← complete, forall_mem_append]
  exact and_iff_right fun f here needed => absurd needed (idle f here)

theorem Outcome.read {gs₀ : List Frame}
    (outcome : Outcome start durable (segs.flatMap Segment.frames) condition result)
    (readable : Readable durable (seg :: segs)) (sub₀ : gs₀ ⊆ seg.frames)
    (complete₀ : ∀ f ∈ seg.frames, Needed start durable f → f ∈ gs₀) :
    Outcome start durable ((seg :: segs).flatMap Segment.frames) condition
      (result.map (gs₀.map Frame.record ++ ·)) := by
  obtain ⟨e, rfl, holds⟩ | ⟨gs, rfl, sub, complete⟩ := outcome
  · exact .inl ⟨e, rfl, holds⟩
  refine .inr ⟨gs₀ ++ gs, by rw [map_append]; rfl, ?_, ?_⟩
  · rw [flatMap_cons]
    exact append_subset.mpr ⟨subset_append_of_subset_left _ sub₀,
      subset_append_of_subset_right _ sub⟩
  rw [← complete, flatMap_cons, forall_mem_append]
  constructor
  · rintro ⟨-, late⟩ f there needed
    refine (mem_append.mp (late f there needed)).resolve_left fun here => ?_
    exact readable.apart (sub₀ here) there
  · exact fun late => ⟨fun f here needed => mem_append_left _ (complete₀ f here needed),
      fun f there needed => mem_append_right _ (late f there needed)⟩

end Outcomes

variable {files : List SegmentFile}

/-- A scan of files that lost at most what was not synced delivers every record needed. -/
theorem scan_stored (start : LSN) (readable : Readable durable segs)
    (stored : Forall₂ (Stored c ident) segs files) :
    ∃ gs, scanSegments c ident durable start files = .ok (gs.map Frame.record) ∧
      gs ⊆ segs.flatMap Segment.frames ∧
      ∀ f ∈ segs.flatMap Segment.frames, Needed start durable f → f ∈ gs := by
  induction stored with
  | nil => exact ⟨[], rfl, nil_subset _, fun f member => absurd member (not_mem_nil)⟩
  | @cons seg file segs files here later ih =>
    obtain ⟨gs₀, sub₀, complete₀, read⟩ := readSegment_stored start here
      (readable.headers seg mem_cons_self) (readable.frames seg mem_cons_self)
      (readable.synced seg mem_cons_self)
    obtain ⟨gs, ok, sub, complete⟩ := ih readable.tail
    cases later with
    | nil =>
      refine ⟨gs₀, read, ?_, ?_⟩
      · simpa using sub₀
      · simpa using complete₀
    | @cons next nextFile segs files there rest =>
      have opened := openSegment_stored there
        (readable.headers next (mem_cons_of_mem _ mem_cons_self))
      rw [scanSegments, opened]
      dsimp only
      split
      next skip =>
        refine ⟨gs, ok, ?_, ?_⟩
        · rw [flatMap_cons]
          exact subset_append_of_subset_right _ sub
        · rw [flatMap_cons, forall_mem_append]
          exact ⟨fun f inSeg needed => absurd needed (readable.skipped skip f inSeg), complete⟩
      rw [read, ok]
      refine ⟨gs₀ ++ gs, by rw [map_append]; rfl, ?_, ?_⟩
      · rw [flatMap_cons]
        exact append_subset.mpr ⟨subset_append_of_subset_left _ sub₀,
          subset_append_of_subset_right _ sub⟩
      · rw [flatMap_cons, forall_mem_append]
        exact ⟨fun f inSeg needed => mem_append_left _ (complete₀ f inSeg needed),
          fun f inRest needed => mem_append_right _ (complete f inRest needed)⟩

/-- The first of the segments is skipped because the next one starts early enough. -/
def skips (start : LSN) : List Segment → Bool
  | [] => false
  | next :: _ => decide (next.startLSN ≤ start)

variable {after : List Segment}

/-- What a scan does with a file in front of files that lost at most what was not synced. -/
theorem scan_cons_stored {gs : List Frame} (file : SegmentFile) (readable : Readable durable after)
    (stored : Forall₂ (Stored c ident) after files)
    (ok : scanSegments c ident durable start files = .ok (gs.map Frame.record)) :
    scanSegments c ident durable start (file :: files) =
      if skips start after then .ok (gs.map Frame.record)
      else match readSegment c ident durable file with
        | .error e => .error e
        | .ok rs => .ok (rs ++ gs.map Frame.record) := by
  cases stored with
  | nil =>
    have none : gs.map Frame.record = [] := (Except.ok.inj ok).symm
    rw [scanSegments, skips, none]
    cases readSegment c ident durable file with
    | error e => rfl
    | ok rs => simp
  | @cons next nextFile segs files here later =>
    have opened := openSegment_stored here (readable.headers next mem_cons_self)
    rw [scanSegments, opened, ok, skips]
    simp only [decide_eq_true_eq]
    rfl

/-- The alteration of a file does no harm: the file does not open any more; or the first place
that does not read back has a header that parses and names a durable LSN, and the file is read;
or else no record is needed that stands behind that place, nor one of the segment before, if
the start LSN now in the file lets that be skipped. -/
def Harmless (c : Cipher) (ident : Identity) (durable start : LSN) (before : List Segment)
    (seg : Segment) (after : List Segment) (content : Bytes) : Prop :=
  match openSegment ident (seg.id, content) with
  | .error _ => True
  | .ok h =>
    let rest := content.drop segmentHeaderSize
    let kept := unchanged c seg.frames rest
    (skips start after = false ∧ loud durable (rest.drop (bytes (seg.frames.take kept))) = true) ∨
    ((h.startLSN ≤ start → ∀ prev ∈ before.getLast?, ∀ f ∈ prev.frames, ¬ Needed start durable f) ∧
      ∀ f ∈ seg.frames.drop kept, ¬ Needed start durable f)

instance (before : List Segment) (seg : Segment) (after : List Segment) (content : Bytes) :
    Decidable (Harmless c ident durable start before seg after content) := by
  unfold Harmless
  cases openSegment ident (seg.id, content) <;> dsimp only <;> infer_instance

variable {seg : Segment} {content : Bytes} {h : SegmentHeader}

theorem readSegment_damaged (opened : openSegment ident (seg.id, content) = .ok h)
    (fits : ∀ f ∈ seg.frames, f.Fits)
    (sealed_ : authentic c seg.frames (content.drop segmentHeaderSize)) :
    readSegment c ident durable (seg.id, content) =
      let rest := content.drop segmentHeaderSize
      let kept := unchanged c seg.frames rest
      if loud durable (rest.drop (bytes (seg.frames.take kept))) then
        .error ⟨.corruption, "wal.ScanFrom", "authenticated prefix is damaged"⟩
      else .ok ((seg.frames.take kept).map Frame.record) := by
  have long : ¬ content.length < segmentHeaderSize := by
    intro short
    rw [openSegment, if_pos short] at opened
    cases opened
  have enough : unchanged c seg.frames (content.drop segmentHeaderSize) < content.length := by
    have le := unchanged_le c seg.frames (content.drop segmentHeaderSize)
    have header : segmentHeaderSize = 64 := rfl
    rw [length_drop] at le
    omega
  unfold readSegment
  rw [opened]
  dsimp only
  rw [readRecords_damaged fits sealed_ enough]
  cases loud durable _ <;> rfl

section

variable (readable : Readable durable (seg :: after))
  (stored : List.Forall₂ (Stored c ident) after files)
  (sealed_ : authentic c seg.frames (content.drop segmentHeaderSize) = true)

include readable stored sealed_

/-- A damaged file in front of files that lost at most what was not synced. -/
theorem scan_damaged_first : Outcome start durable ((seg :: after).flatMap Segment.frames)
      (Harmless c ident durable start [] seg after content)
      (scanSegments c ident durable start ((seg.id, content) :: files)) := by
  obtain ⟨gs, ok, sub, complete⟩ := scan_stored start readable.tail stored
  rw [scan_cons_stored _ readable.tail stored ok, flatMap_cons]
  by_cases skip : skips start after
  · have idle : ∀ f ∈ seg.frames, ¬ Needed start durable f := by
      cases after with
      | nil => cases skip
      | cons next rest => exact readable.skipped (of_decide_eq_true skip)
    have harmless : Harmless c ident durable start [] seg after content := by
      unfold Harmless
      split
      · trivial
      · exact .inr ⟨fun _ prev none => (nomatch none), fun f late => idle f (mem_of_mem_drop late)⟩
    rw [if_pos skip]
    exact Outcome.skip (.inr ⟨gs, rfl, sub, iff_of_true complete harmless⟩) idle
  rw [if_neg skip]
  cases opened : openSegment ident (seg.id, content) with
  | error e =>
    refine .inl ⟨e, ?_, ?_⟩
    · rw [readSegment, opened]
    · rw [Harmless, opened]
      trivial
  | ok h =>
    rw [readSegment_damaged opened (readable.frames seg mem_cons_self) sealed_, Harmless,
      opened]
    set kept := unchanged c seg.frames (content.drop segmentHeaderSize)
    by_cases noisy : loud durable
        ((content.drop segmentHeaderSize).drop (bytes (seg.frames.take kept)))
    · rw [if_pos noisy]
      exact .inl ⟨_, rfl, .inl ⟨Bool.not_eq_true _ ▸ skip, noisy⟩⟩
    rw [if_neg noisy]
    refine .inr ⟨seg.frames.take kept ++ gs, by rw [map_append], ?_, ?_⟩
    · exact append_subset.mpr ⟨subset_append_of_subset_left _ (take_subset _ _),
        subset_append_of_subset_right _ sub⟩
    constructor
    · refine fun all => .inr ⟨fun _ prev none => (nomatch none), fun f late needed => ?_⟩
      have here : f ∈ seg.frames := mem_of_mem_drop late
      obtain early | there := mem_append.mp (all f (mem_append_left _ here) needed)
      · exact readable.once early late
      · exact readable.apart here (sub there)
    rintro (⟨-, noise⟩ | ⟨-, idle⟩)
    · exact absurd noise noisy
    refine forall_mem_append.mpr ⟨fun f here needed => ?_, fun f there needed =>
      mem_append_right _ (complete f there needed)⟩
    rw [← take_append_drop kept seg.frames] at here
    obtain early | late := mem_append.mp here
    · exact mem_append_left _ early
    · exact absurd needed (idle f late)

/-- A scan from a damaged file on fails exactly if the file is read and the damage is seen. -/
theorem scan_first_fails (opened : openSegment ident (seg.id, content) = .ok h) :
    (∃ e, scanSegments c ident durable start ((seg.id, content) :: files) = .error e) ↔
      skips start after = false ∧ loud durable ((content.drop segmentHeaderSize).drop
        (bytes (seg.frames.take (unchanged c seg.frames (content.drop segmentHeaderSize))))) =
          true := by
  obtain ⟨gs, ok, -, -⟩ := scan_stored start readable.tail stored
  rw [scan_cons_stored _ readable.tail stored ok,
    readSegment_damaged opened (readable.frames seg mem_cons_self) sealed_]
  dsimp only
  cases skips start after with
  | true => simp
  | false => cases loud durable _ <;> simp

end

/-- The file before the damaged one is skipped because of the start LSN now in the latter. -/
theorem Outcome.lose {prev : Segment} {result : Except Nerr (List Record)}
    (outcome : Outcome start durable ((seg :: after).flatMap Segment.frames)
      (Harmless c ident durable start [] seg after content) result)
    (readable : Readable durable (prev :: seg :: after))
    (opened : openSegment ident (seg.id, content) = .ok h) (skip : h.startLSN ≤ start)
    (fails : (∃ e, result = .error e) ↔ skips start after = false ∧
      loud durable ((content.drop segmentHeaderSize).drop
        (bytes (seg.frames.take (unchanged c seg.frames (content.drop segmentHeaderSize))))) =
          true) :
    Outcome start durable ((prev :: seg :: after).flatMap Segment.frames)
      (Harmless c ident durable start [prev] seg after content) result := by
  unfold Harmless at outcome ⊢
  rw [opened] at outcome ⊢
  obtain ⟨e, failed, -⟩ | ⟨gs, ok, sub, complete⟩ := outcome
  · exact .inl ⟨e, failed, .inl (fails.mp ⟨e, failed⟩)⟩
  have quiet : ¬ (skips start after = false ∧ _) := fun noisy => by
    obtain ⟨e, failed⟩ := fails.mpr noisy
    cases ok.symm.trans failed
  refine .inr ⟨gs, ok, ?_, ?_⟩
  · rw [flatMap_cons]
    exact subset_append_of_subset_right _ sub
  have lost : (∀ f ∈ prev.frames, Needed start durable f → f ∈ gs) ↔
      ∀ f ∈ prev.frames, ¬ Needed start durable f :=
    ⟨fun all f here needed => readable.apart here (sub (all f here needed)),
      fun idle f here needed => absurd needed (idle f here)⟩
  rw [flatMap_cons, forall_mem_append, lost, complete]
  simp only [or_iff_right quiet, skip, true_implies, getLast?_singleton, getLast?_nil]
  simp

/-- A damaged file among files that lost at most what was not synced. -/
theorem scan_damaged {before : List Segment} {filesBefore : List SegmentFile}
    (readable : Readable durable (before ++ seg :: after))
    (storedBefore : Forall₂ (Stored c ident) before filesBefore)
    (stored : Forall₂ (Stored c ident) after files)
    (sealed_ : authentic c seg.frames (content.drop segmentHeaderSize)) :
    Outcome start durable ((before ++ seg :: after).flatMap Segment.frames)
      (Harmless c ident durable start before seg after content)
      (scanSegments c ident durable start (filesBefore ++ (seg.id, content) :: files)) := by
  induction storedBefore with
  | nil => exact scan_damaged_first readable stored sealed_
  | @cons prev file before filesBefore here later ih =>
    have outcome := ih readable.tail
    obtain ⟨gs₀, sub₀, complete₀, read⟩ := readSegment_stored start here
      (readable.headers prev mem_cons_self) (readable.frames prev mem_cons_self)
      (readable.synced prev mem_cons_self)
    cases later with
    | nil =>
      simp only [nil_append, cons_append] at outcome readable ⊢
      rw [scanSegments]
      cases opened : openSegment ident (seg.id, content) with
      | error e =>
        refine .inl ⟨e, rfl, ?_⟩
        rw [Harmless, opened]
        trivial
      | ok h =>
        dsimp only
        by_cases skip : h.startLSN ≤ start
        · rw [if_pos skip]
          exact outcome.lose readable opened skip
            (scan_first_fails readable.tail stored sealed_ opened)
        have same : Harmless c ident durable start [prev] seg after content =
            Harmless c ident durable start [] seg after content := by
          unfold Harmless
          rw [opened]
          simp [skip]
        rw [if_neg skip, read, same]
        exact outcome.read readable sub₀ complete₀
    | @cons next nextFile before filesBefore there rest =>
      have opened := openSegment_stored there (readable.headers next (by simp))
      have same : Harmless c ident durable start (prev :: next :: before) seg after content =
          Harmless c ident durable start (next :: before) seg after content := by
        unfold Harmless
        rw [getLast?_cons_cons]
      rw [same]
      simp only [cons_append] at outcome readable ⊢
      rw [scanSegments, opened]
      dsimp only
      split
      next skip =>
        rw [flatMap_cons]
        exact outcome.skip (readable.skipped skip)
      · rw [read]
        exact outcome.read readable sub₀ complete₀

/-- Records with different LSNs are told apart by what is delivered. -/
theorem mem_of_record {frames gs : List Frame} (order : frames.Pairwise fun f g => f.lsn < g.lsn)
    (sub : gs ⊆ frames) (here : f ∈ frames) : f.record ∈ gs.map Frame.record ↔ f ∈ gs := by
  refine ⟨fun delivered => ?_, mem_map_of_mem⟩
  obtain ⟨g, read, same⟩ := mem_map.mp delivered
  have distinct : (frames.map Frame.lsn).Nodup :=
    pairwise_map.mpr (order.imp ne_of_lt)
  have equal : g = f :=
    inj_on_of_nodup_map distinct (sub read) here (congrArg Record.lsn same)
  exact equal ▸ read

end Directories

/-! ## What a scan of a log delivers -/

/-- A scan fails, or it delivers every record from its start through the durable LSN. -/
def Complete (l : Log) (start durable : LSN) (result : Except Nerr (List Record × LSN)) : Prop :=
  ∀ rs last, result = .ok (rs, last) →
    ∀ f ∈ l.onDisk, start ≤ f.lsn → f.lsn ≤ durable → f.record ∈ rs

/-- The redo fails, or it replays every record from its start through the durable LSN that is
not beyond the limit. -/
def Replays (l : Log) (redoLSN limit durable : LSN) (result : Except Nerr (List Record)) : Prop :=
  ∀ rs, result = .ok rs → ∀ f ∈ l.onDisk, redoLSN ≤ f.lsn → f.lsn ≤ durable →
    limit = 0 ∨ f.lsn ≤ limit → f.record ∈ rs

/-- The LSN at which a scan starts. -/
def firstLSN (start : LSN) : LSN := if start = 0 then 1 else start

section Logs

variable {c : Cipher} {ident : Identity} {durable start : LSN} {l : Log} {files : List SegmentFile}
variable {condition : Prop}

theorem complete_iff (readable : Readable durable l.segments)
    (outcome : Outcome (firstLSN start) durable l.onDisk condition
      (scanSegments c ident durable (firstLSN start) files)) :
    Complete l start durable (scanFrom c ident durable start files) ↔ condition := by
  have some : ∀ f ∈ l.onDisk, 1 ≤ f.lsn := by
    intro f written
    obtain ⟨seg, inLog, inSeg⟩ := mem_flatMap.mp written
    exact (readable.frames seg inLog f inSeg).lsn.1
  have needed : ∀ f ∈ l.onDisk, (start ≤ f.lsn ↔ firstLSN start ≤ f.lsn) := by
    intro f written
    have := some f written
    unfold firstLSN
    split <;> lia
  unfold Complete scanFrom
  dsimp only
  rw [← firstLSN]
  obtain ⟨e, failed, holds⟩ | ⟨gs, ok, sub, complete⟩ := outcome
  · rw [failed]
    exact iff_of_true (fun rs last impossible => (nomatch impossible)) holds
  rw [ok, ← complete]
  constructor
  · intro delivered f written asked
    have member := delivered _ _ rfl f written ((needed f written).mpr asked.1) asked.2
    exact (mem_of_record readable.order sub written).mp (mem_of_mem_filter member)
  intro read rs last same f written first last
  cases same
  have first := (needed f written).mp first
  refine mem_filter.mpr ⟨mem_map_of_mem (read f written ⟨first, last⟩), ?_⟩
  exact decide_eq_true first

theorem Complete.replays (complete : Complete l start durable (scanFrom c ident durable start files))
    (limit : LSN) : Replays l start limit durable (redoRecords c ident durable start limit files) := by
  intro rs replayed f written first last within
  unfold redoRecords at replayed
  split at replayed
  · cases replayed
  next all end_ scanned =>
  cases replayed
  have member := complete _ _ scanned f written first last
  split
  · exact member
  next bounded =>
    refine mem_filter.mpr ⟨member, decide_eq_true (within.resolve_left bounded)⟩

end Logs

namespace World

theorem readable_of_run {segmentSize : Nat} {archiver pageDeltas : Bool} {labels : List Label}
    {s : World} {durable : LSN}
    (run : Run Step Alone (create segmentSize archiver pageDeltas) labels s)
    (frames : ∀ f ∈ s.log.onDisk, f.Fits)
    (headers : ∀ seg ∈ s.log.segments, (SegmentHeader.mk seg.id seg.startLSN).Fits)
    (le : durable ≤ s.log.durableLSN) : Readable durable s.log.segments := by
  have sound := run_sound run
  refine ⟨?_, headers, run_upper run, ?_, ?_⟩
  · exact fun seg inLog f written => frames f (mem_flatMap.mpr ⟨seg, inLog, written⟩)
  · intro seg inLog f late
    have lost : f ∈ s.log.unsynced := mem_flatMap.mpr ⟨seg, inLog, late⟩
    exact le.trans_lt (sound.durable f (mem_append_left _ (mem_append_left _ lost)))
  · exact (pairwise_append.mp (pairwise_append.mp sound.order).1).1

/-- **No durable record is lost silently, where the damage is seen.** The log is one that calls
made one after the other leave, or calls that get LSNs only while no other call has records
under way; its numbers fit into their fields. A scan of files that lost at most what was not
synced delivers every durable record. If one of the files has any other bytes, and a sealed
record whose bytes changed does not open, then a scan delivers every durable record or fails
if and only if the alteration does no harm; and so does the redo, if it does none. -/
theorem scan_delivers_durable {segmentSize : Nat} {archiver pageDeltas : Bool}
    {labels : List Label} {s : World} {durable : LSN} (c : Cipher) (ident : Identity)
    (run : Run Step Alone (create segmentSize archiver pageDeltas) labels s)
    (frames : ∀ f ∈ s.log.onDisk, f.Fits)
    (headers : ∀ seg ∈ s.log.segments, (SegmentHeader.mk seg.id seg.startLSN).Fits)
    (le : durable ≤ s.log.durableLSN) :
    (∀ files, List.Forall₂ (Stored c ident) s.log.segments files → ∀ start,
      Complete s.log start durable (scanFrom c ident durable start files) ∧
      ∀ limit, Replays s.log start limit durable (redoRecords c ident durable start limit files)) ∧
    ∀ before seg after filesBefore content filesAfter, s.log.segments = before ++ seg :: after →
      List.Forall₂ (Stored c ident) before filesBefore →
      List.Forall₂ (Stored c ident) after filesAfter →
      authentic c seg.frames (content.drop segmentHeaderSize) = true → ∀ start,
        let files := filesBefore ++ (seg.id, content) :: filesAfter
        (Complete s.log start durable (scanFrom c ident durable start files) ↔
          Harmless c ident durable (firstLSN start) before seg after content) ∧
        (Harmless c ident durable (firstLSN start) before seg after content → ∀ limit,
          Replays s.log start limit durable (redoRecords c ident durable start limit files)) := by
  have readable := readable_of_run run frames headers le
  refine ⟨?_, ?_⟩
  · intro files stored start
    obtain ⟨gs, ok, sub, complete⟩ := scan_stored (firstLSN start) readable stored
    have outcome : Outcome (firstLSN start) durable s.log.onDisk True
        (scanSegments c ident durable (firstLSN start) files) :=
      .inr ⟨gs, ok, sub, iff_of_true complete trivial⟩
    have all := (complete_iff readable outcome).mpr trivial
    exact ⟨all, all.replays⟩
  intro before seg after filesBefore content filesAfter split storedBefore storedAfter sealed_
    start files
  have parts : Readable durable (before ++ seg :: after) := split ▸ readable
  have outcome : Outcome (firstLSN start) durable
      ((before ++ seg :: after).flatMap Segment.frames) _
      (scanSegments c ident durable (firstLSN start) files) :=
    scan_damaged parts storedBefore storedAfter sealed_
  rw [← split] at outcome
  have iff := complete_iff readable outcome
  exact ⟨iff, fun harmless => (iff.mpr harmless).replays⟩

/-- A cipher for the examples: the payload stays as it is, and sixteen zeros are the tag. -/
def plain : Cipher where
  version := 1
  sealBytes generation _ plaintext := (le 12 generation, plaintext ++ List.replicate 16 0)
  openBytes _ _ ciphertext :=
    if ciphertext.drop (ciphertext.length - 16) = List.replicate 16 0 then
      some (ciphertext.take (ciphertext.length - 16))
    else none
  version_lt := by decide
  length_nonce _ _ _ := length_le _ _
  length_ciphertext _ _ plaintext := by simp [authTagSize]
  opens _ _ plaintext := by simp

/-- The identity of the database in the examples. -/
def anywhere : Identity where
  database := List.replicate 16 7
  file := List.replicate 16 8
  length_database := rfl
  length_file := rfl

/-- The segment of a log with one durable record. -/
def oneRecord : Segment :=
  { id := 1, startLSN := 1, frames := [⟨1, { type := .begin, lsn := 1, txnID := 5 }⟩], synced := 1,
    reserved := 4096 }

/-- The bytes of that record in the file, with some bytes in their place. -/
def replaced (offset : Nat) (bytes : Bytes) : Bytes :=
  let file := encodeSegmentHeader anywhere ⟨1, 1⟩ ++ oneRecord.frames.flatMap (physical plain)
  file.take offset ++ bytes ++ file.drop (offset + bytes.length)

theorem oneRecord_fits : (∀ f ∈ oneRecord.frames, f.Fits) ∧
    (SegmentHeader.mk oneRecord.id oneRecord.startLSN).Fits := by
  refine ⟨?_, ⟨by decide, by decide⟩, ⟨by decide, by decide⟩⟩
  intro f member
  rw [mem_singleton.mp member]
  exact ⟨by decide, ⟨by decide, by decide⟩, by decide, by decide, by decide, by decide⟩

/-- The last byte of the record is changed. The header is as it was, and the scan fails. -/
theorem scan_delivers_durable_changed_tag : ∃ s, Run Step Alone (create 4096 false false)
        [.append { type := .begin, txnID := 5 } {}, .flush 1, .written .done {}] s ∧
      s.log.durableLSN = 1 ∧
      Complete s.log 1 1
        (scanFrom plain anywhere 1 1 ([] ++ (oneRecord.id, replaced 147 [1]) :: [])) ∧
      (scanFrom plain anywhere 1 1 ([] ++ (oneRecord.id, replaced 147 [1]) :: [])).isOk = false := by
  obtain ⟨s, run, durable, segs⟩ : ∃ s, Run Step Alone (create 4096 false false)
          [.append { type := .begin, txnID := 5 } {}, .flush 1, .written .done {}] s ∧
        s.log.durableLSN = 1 ∧ s.log.segments = [] ++ oneRecord :: [] :=
    exists_run_of_exec next (fun s label => decide (s.Alone label)) of_decide_eq_true
      (by decide +kernel)
  refine ⟨s, run, durable, ?_, by decide +kernel⟩
  have frames : ∀ f ∈ s.log.onDisk, f.Fits := by
    intro f written
    rw [Log.onDisk, segs] at written
    exact oneRecord_fits.1 f (by simpa using written)
  have headers : ∀ seg ∈ s.log.segments, (SegmentHeader.mk seg.id seg.startLSN).Fits := by
    intro seg inLog
    rw [segs] at inLog
    rw [mem_singleton.mp inLog]
    exact oneRecord_fits.2
  have detected : ∀ content,
      authentic plain oneRecord.frames (content.drop segmentHeaderSize) →
      Harmless plain anywhere 1 (firstLSN 1) [] oneRecord [] content →
      Complete s.log 1 1 (scanFrom plain anywhere 1 1 ([] ++ (oneRecord.id, content) :: [])) :=
    fun content sealed_ harmless =>
      ((scan_delivers_durable plain anywhere run frames headers durable.ge).2 [] oneRecord [] []
        content [] segs .nil .nil sealed_ 1).1.mpr harmless
  exact detected _ (by decide +kernel) (by decide +kernel)

/-- The header of the durable record is overwritten with zeros, or its first byte is changed:
the scan returns no record and no error. -/
theorem durable_record_scanned_away : ∃ s, Run Step Alone (create 4096 false false)
        [.append { type := .begin, txnID := 5 } {}, .flush 1, .written .done {}] s ∧
      s.log.durableLSN = 1 ∧ s.log.segments = [oneRecord] ∧
      scanFrom plain anywhere 1 1 [(1, replaced 0 [])] = .ok (oneRecord.frames.map Frame.record, 1) ∧
      scanFrom plain anywhere 1 1 [(1, replaced 64 (List.replicate 40 0))] = .ok ([], 0) ∧
      scanFrom plain anywhere 1 1 [(1, replaced 64 [0])] = .ok ([], 0) :=
  exists_run_of_exec next (fun s label => decide (s.Alone label)) of_decide_eq_true
    (by decide +kernel)

end World

end NextSQL.Wal
