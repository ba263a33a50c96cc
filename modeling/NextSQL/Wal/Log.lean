import NextSQL.Format
import NextSQL.Nerr

/-!
# The write-ahead log

Records are sealed and collected in a buffer, and a flush writes the front of
the buffer to the active segment and syncs it. A segment that has no room left
is closed and a new one opened (rotation). The commit records of a replicated
batch are appended as one held region, which no flush writes until the hold is
released.

A sealed record is modelled by the record and the nonce counter it is sealed
under, and the buffer by the list of such frames; the offsets into the buffer
count frames. The functions here run with the log's mutex held. A call that
releases the mutex on the way is cut into several of them, and
`NextSQL.Wal.Sections` puts the parts together.

How the file system answers is an argument: `Disk` says what becomes of the
control files and segments that are made, `Written` how a write and the sync
after it end.
-/

namespace NextSQL.Wal

/-! ## Records -/

inductive RecType where
  | begin
  | insert
  | delete
  | update
  | pageImage
  | commit
  | abort
  | checkpoint
  | treeMeta
  | allocState
  | undo
  | change
  | pageDelta
deriving DecidableEq, Repr

structure Record where
  type : RecType
  flags : Nat := 0
  lsn : LSN := 0
  txnID : TxnID := 0
  prevLSN : LSN := 0
  pageID : PageID := 0
  body : Bytes := []
deriving DecidableEq, Repr

/-- A sealed record: the record and the nonce counter it is sealed under. -/
structure Frame where
  gen : Nat
  record : Record
deriving DecidableEq, Repr

def headerSize : Nat := 40
def payloadHeaderSize : Nat := 28
def authTagSize : Nat := 16
def segmentHeaderSize : Nat := 64
def logicalPageSize : Nat := 16384
def pageLSNOffset : Nat := 16
def nonceBatch : Nat := 65536

namespace Frame

def lsn (f : Frame) : LSN := f.record.lsn

/-- The bytes of the physical record. -/
def size (f : Frame) : Nat := headerSize + payloadHeaderSize + f.record.body.length + authTagSize

end Frame

/-- The bytes of several physical records. -/
def bytes (fs : List Frame) : Nat := (fs.map Frame.size).sum

/-- The LSN of the last record of a batch. -/
def lastLSN (fs : List Frame) (none : LSN) : LSN := (fs.getLast?.map Frame.lsn).getD none

/-- A number in eight bytes, the lowest first. -/
def u64 (n : Nat) : Bytes := (List.range 8).map fun i => Fin.ofNat 256 (n / 256 ^ i)

/-- The LSN goes into the page it is the LSN of. -/
def encodingPutLSN (page : Bytes) (lsn : LSN) : Bytes :=
  if page.length < pageLSNOffset + 8 then page
  else page.take pageLSNOffset ++ u64 lsn ++ page.drop (pageLSNOffset + 8)

/-! ## The state -/

/-- A segment file: its header, the records written to it, how many of them a finished sync
covers, the bytes of a record that was cut short, and the bytes reserved when it was made. -/
structure Segment where
  id : Nat
  startLSN : LSN
  frames : List Frame := []
  synced : Nat := 0
  torn : Nat := 0
  reserved : Nat := 0
deriving DecidableEq, Repr

/-- The size of the file. -/
def Segment.size (seg : Segment) : Nat :=
  max seg.reserved (segmentHeaderSize + bytes seg.frames + seg.torn)

/-- The fields of the control file that change. -/
structure Control where
  nextLSN : LSN
  durableLSN : LSN
  checkpoint : LSN
  redoLSN : LSN
  nextSegment : Nat
  nextTxn : TxnID
  nonceHigh : Nat
  pageDeltas : Bool
deriving DecidableEq, Repr

/-- The held region of the buffer. -/
structure Held where
  offset : Nat
  len : Nat
  lsn : LSN
  prevLast : LSN
deriving DecidableEq, Repr

structure Log where
  nextLSN : LSN
  durableLSN : LSN
  checkpoint : LSN
  redoLSN : LSN
  nextSeg : Nat
  nextTxn : TxnID
  nonceCur : Nat
  nonceLim : Nat
  nonceHigh : Nat
  buf : List Frame
  bufLast : LSN
  /-- The closed segments of the directory, the oldest first. -/
  closed : List Segment
  /-- The active segment; there is none once the log is closed. -/
  seg : Option Segment
  segID : Nat
  segOff : Nat
  durabilityErr : Option Nerr
  segmentSize : Nat
  archiver : Bool
  pageDeltas : Bool
  retentionPins : List (Nat × LSN)
  held : Option Held
  control : Control
deriving DecidableEq, Repr

/-- The control file is replaced, stays as it was, or is replaced and the sync of the
directory fails. -/
inductive Replaced where
  | done
  | failed (e : Nerr)
  | unsynced (e : Nerr)
deriving DecidableEq, Repr

/-- A segment file is made, with all its bytes reserved or not, is not made, or is left
behind by a failed sync. -/
inductive Created where
  | made (preallocated : Bool)
  | failed (e : Nerr)
  | unsynced (e : Nerr)
deriving DecidableEq, Repr

/-- How the file system answers during a section: what becomes of a control file that is
written, and of a segment that is made. -/
structure Disk where
  control : Control → Replaced := fun _ => .done
  create : Nat → Created := fun _ => .made true

/-- How a flush ends: nothing is written because the hook before the write fails, the write
stops short after some records and some bytes of the next, the sync fails, or all is well. -/
inductive Written where
  | refused (e : Nerr)
  | short (whole torn : Nat)
  | unsynced (e : Nerr)
  | done
deriving DecidableEq, Repr

namespace Log

/-- The segments of the directory, the oldest first. -/
def segments (l : Log) : List Segment := l.closed ++ l.seg.toList

/-- The records in the segment files, in file order. -/
def onDisk (l : Log) : List Frame := l.segments.flatMap Segment.frames

/-- The records a finished sync covers. -/
def syncedFrames (l : Log) : List Frame :=
  l.segments.flatMap fun seg => seg.frames.take seg.synced

/-! ## The control file and nonces -/

def controlFile (l : Log) : Control where
  nextLSN := l.nextLSN
  durableLSN := l.durableLSN
  checkpoint := l.checkpoint
  redoLSN := l.redoLSN
  nextSegment := l.nextSeg
  nextTxn := l.nextTxn
  nonceHigh := l.nonceHigh
  pageDeltas := l.pageDeltas

def writeControl (l : Log) (d : Disk) : Except Nerr Unit × Log :=
  match d.control l.controlFile with
  | .done => (.ok (), { l with control := l.controlFile })
  | .failed e => (.error e, l)
  | .unsynced e => (.error e, { l with control := l.controlFile })

def reserveNonce (l : Log) (d : Disk) : Except Nerr Unit × Log :=
  let start := if l.nonceHigh = 0 then 1 else l.nonceHigh
  match ({ l with nonceHigh := start + nonceBatch } : Log).writeControl d with
  | (.error e, l) => (.error e, { l with nonceHigh := start })
  | (.ok (), l) => (.ok (), { l with nonceCur := start, nonceLim := l.nonceHigh })

def nextNonce (l : Log) (d : Disk) : Except Nerr Nat × Log :=
  if l.nonceCur < l.nonceLim then (.ok l.nonceCur, { l with nonceCur := l.nonceCur + 1 })
  else match l.reserveNonce d with
    | (.error e, l) => (.error e, l)
    | (.ok (), l) => (.ok l.nonceCur, { l with nonceCur := l.nonceCur + 1 })

/-! ## Segments -/

/-- The log has no room for so many bytes in the active segment. A segment with nothing in it
takes a record of any size. -/
def crowded (l : Log) (more : Nat) : Bool :=
  decide (l.segmentSize < l.segOff + bytes l.buf + more) &&
    (decide (segmentHeaderSize < l.segOff) || decide (l.buf ≠ []))

/-- A file of that number may be there already; it is then not opened. -/
def openNewSegment (l : Log) (d : Disk) (id : Nat) (start : LSN) : Except Nerr Unit × Log :=
  let new (preallocated : Bool) : Segment :=
    { id := id, startLSN := start, reserved := if preallocated then l.segmentSize else 0 }
  if l.closed.any (·.id == id) then (.error ⟨.io, "wal.createSegment", "create"⟩, l)
  else match d.create id with
    | .made preallocated =>
      (.ok (), { l with seg := some (new preallocated), segID := id,
                        segOff := segmentHeaderSize, nextSeg := max l.nextSeg id })
    | .failed e => (.error e, l)
    | .unsynced e => (.error e, { l with closed := l.closed ++ [new true] })

/-- The end of `rotateLocked`, after its flush: the active segment is closed and the next one
starts at the next LSN. -/
def finishRotate (l : Log) (d : Disk) : Except Nerr Unit × Log :=
  let next := max (l.segID + 1) (l.nextSeg + 1)
  match ({ l with closed := l.closed ++ l.seg.toList, seg := none } : Log).openNewSegment d next
      l.nextLSN with
  | (.error e, l) => (.error e, l)
  | (.ok (), l) => l.writeControl d

/-! ## Appending -/

/-- What a call appends once there is room for it: a single record, whose LSN is taken only
now, the page images of a batch, or a batch of commit records to hold. -/
inductive Landing where
  | append (f : Frame)
  | images (fs : List Frame)
  | held (fs : List Frame)
deriving DecidableEq, Repr

def Landing.frames : Landing → List Frame
  | .append f => [f]
  | .images fs => fs
  | .held fs => fs

/-- The checks and the sealing at the start of `appendLocked`. The record gets the next LSN,
which is not yet taken. -/
def prepare (l : Log) (r : Record) (d : Disk) : Except Nerr Frame × Log :=
  match l.durabilityErr with
  | some e => (.error e, l)
  | none =>
    if l.seg = none then (.error ⟨.internal, "wal.Append", "log is closed"⟩, l)
    else if r.type = .pageDelta ∧ ¬ l.pageDeltas then
      (.error ⟨.invalidArgument, "wal.Append",
        "page delta on a log that has not enabled page deltas"⟩, l)
    else match l.nextNonce d with
      | (.error e, l) => (.error e, l)
      | (.ok gen, l) => (.ok ⟨gen, { r with lsn := l.nextLSN }⟩, l)

/-- The loop by which a batch takes its LSNs. Each record may depend on its own LSN and on
that of the record before it. A failure leaves the LSNs taken so far behind. -/
def takeLSNs (d : Disk) : List (LSN → LSN → Except Nerr Record) → LSN → Log →
    Except Nerr (List Frame) × Log
  | [], _, l => (.ok [], l)
  | record :: more, prev, l =>
    match record l.nextLSN prev with
    | .error e => (.error e, l)
    | .ok r =>
      match l.nextNonce d with
      | (.error e, l) => (.error e, l)
      | (.ok gen, l) =>
        match takeLSNs d more l.nextLSN { l with nextLSN := l.nextLSN + 1 } with
        | (.error e, l') => (.error e, l')
        | (.ok fs, l') => (.ok (⟨gen, { r with lsn := l.nextLSN }⟩ :: fs), l')

/-- One record of `AppendPageImages`: the image carries its own LSN. -/
def imageRecord (txn : TxnID) (page : PageID × Bytes) (lsn prev : LSN) : Except Nerr Record :=
  if page.2.length = logicalPageSize then
    .ok { type := .pageImage, txnID := txn, prevLSN := prev, pageID := page.1,
          body := encodingPutLSN page.2 lsn }
  else .error ⟨.invalidArgument, "wal.AppendPageImages", "page image has wrong size"⟩

/-- The first section of `AppendPageImages`: it takes the LSNs, and the images are sealed
without the mutex. -/
def reserveImages (l : Log) (txn : TxnID) (prev : LSN) (pages : List (PageID × Bytes))
    (d : Disk) : Except Nerr (List Frame) × Log :=
  takeLSNs d (pages.map (imageRecord txn)) prev l

/-- `AppendHeldBatch` up to the point where it needs room. -/
def prepareHeld (l : Log) (rs : List Record) (d : Disk) : Except Nerr (List Frame) × Log :=
  match l.durabilityErr with
  | some e => (.error e, l)
  | none =>
    if l.held.isSome then (.error ⟨.internal, "wal.AppendHeld", "a record is already held"⟩, l)
    else if l.seg = none then (.error ⟨.internal, "wal.AppendHeld", "log is closed"⟩, l)
    else takeLSNs d (rs.map fun r _ _ => .ok r) 0 l

/-- Sealed records go to the end of the buffer. -/
def put (l : Log) (fs : List Frame) : Log :=
  { l with buf := l.buf ++ fs, bufLast := lastLSN fs l.bufLast }

/-- The end of the three ways to append. -/
def land (l : Log) : Landing → Log
  | .append f => { l.put [f] with nextLSN := f.lsn + 1 }
  | .images fs => l.put fs
  | .held fs =>
    { l.put fs with
      held := some { offset := l.buf.length, len := fs.length, lsn := lastLSN fs 0,
                     prevLast := l.bufLast } }

/-- A hold ends. If the commit failed, the held region is cut out of the buffer. -/
def releaseHold (l : Log) (commit : Bool) : Log :=
  match l.held with
  | none => l
  | some h =>
    if commit then { l with held := none }
    else { l with buf := l.buf.take h.offset ++ l.buf.drop (h.offset + h.len),
                  bufLast := if l.bufLast = h.lsn then h.prevLast else l.bufLast,
                  held := none }

/-- The records `releaseHold` cuts out. -/
def cutOut (l : Log) (commit : Bool) : List Frame :=
  match l.held with
  | none => []
  | some h => if commit then [] else (l.buf.drop h.offset).take h.len

/-! ## Flushing -/

/-- How much of the buffer a flush may write, and the LSN that is durable afterwards. -/
def flushable (l : Log) : Nat × LSN :=
  match l.held with
  | none => (l.buf.length, l.bufLast)
  | some h => (h.offset, h.prevLast)

/-- The front of the buffer has reached the active segment. -/
def consume (l : Log) (seg : Segment) (upto torn : Nat) : Log :=
  { l with seg := some { seg with frames := seg.frames ++ l.buf.take upto, torn := seg.torn + torn },
           segOff := l.segOff + bytes (l.buf.take upto) + torn,
           buf := l.buf.drop upto,
           held := l.held.map fun h => { h with offset := h.offset - upto } }

/-- The end of `flushLocked`, with the mutex taken again. A failed sync, and a write that
stopped short of the end, leave the log refusing every further append and flush. -/
def finishFlush (l : Log) (upto : Nat) (last : LSN) (w : Written) : Except Nerr Unit × Log :=
  match l.seg with
  | none => (.error ⟨.io, "wal.Flush", "write"⟩, l)
  | some seg =>
    match w with
    | .refused e => (.error e, l)
    | .short whole torn =>
      if whole = 0 ∧ torn = 0 then (.error ⟨.io, "wal.Flush", "write"⟩, l)
      else (.error ⟨.io, "wal.Flush", "write"⟩, { l.consume seg (min whole upto) torn with
          durabilityErr := some ⟨.io, "wal.Flush", "write"⟩ })
    | .unsynced e => (.error e, { l.consume seg upto 0 with durabilityErr := some e })
    | .done =>
      let l := l.consume seg upto 0
      (.ok (), { l with seg := l.seg.map fun seg => { seg with synced := seg.frames.length },
                        durableLSN := max l.durableLSN last })

/-! ## A new log -/

/-- A new log, with its first segment. -/
def create (segmentSize : Nat) (archiver pageDeltas : Bool) : Log where
  nextLSN := 1
  durableLSN := 0
  checkpoint := 0
  redoLSN := 1
  nextSeg := 1
  nextTxn := 1
  nonceCur := 1
  nonceLim := nonceBatch
  nonceHigh := nonceBatch
  buf := []
  bufLast := 0
  closed := []
  seg := some { id := 1, startLSN := 1, reserved := segmentSize }
  segID := 1
  segOff := segmentHeaderSize
  durabilityErr := none
  segmentSize := segmentSize
  archiver := archiver
  pageDeltas := pageDeltas
  retentionPins := []
  held := none
  control :=
    { nextLSN := 1, durableLSN := 0, checkpoint := 0, redoLSN := 1, nextSegment := 1,
      nextTxn := 1, nonceHigh := nonceBatch, pageDeltas := pageDeltas }

end Log

end NextSQL.Wal
