import Mathlib.Data.List.Nodup
import NextSQL.Format
import NextSQL.Lib.Result
import NextSQL.Lib.Run
import NextSQL.Nerr

/-!
# The archive of log segments

An archiver seals copies of log segments into a directory, under a data key that
it creates when it starts, and keeps an index with one entry for each segment:
the checksum and the size of the sealed file. The index also holds the wrapped
data key. `Archive` of `internal/backup/archive.go` is modelled file operation by
file operation, so that a process may end between any two of them, and any of
them may fail.

`applyArchive` gives back the segments of the index. In a run in which an
archiver only writes to an archive of its own key, the number of entries fits the
16 bits the index has for it, and the renewal of a segment that is already in the
index is neither interrupted nor fails, it gives back the last version of every
segment whose archiving was reported as done (`archive_restores`). Each of the
three conditions is needed.

The wrapped key is represented by the number of the key, and a member's name by
the segment's number.
-/

namespace NextSQL.Backup

open GuardedRuns

/-! ## Sealed files -/

/-- A piece of a file under a data key, bound to the file's name and its place. -/
structure SealedChunk where
  key : ℕ
  gen : ℕ
  name : ℕ
  chunk : ℕ
  plain : Bytes
deriving DecidableEq

structure Header where
  plainSize : ℕ
  genBase : ℕ
deriving DecidableEq

structure SegmentFile where
  header : Option Header := none
  chunks : List SealedChunk := []
deriving DecidableEq

def defaultChunk : ℕ := 1048576

def memberHeaderSize : ℕ := 26

/-- The size of the file: each piece has its length, a nonce and a tag. -/
def SegmentFile.size (f : SegmentFile) : ℕ :=
  (if f.header.isSome then memberHeaderSize else 0) +
    (f.chunks.map fun c => 4 + 12 + (c.plain.length + 16)).sum

/-- The pieces of a content; `fuel` bounds their number. -/
def splitChunks : (fuel : ℕ) → Bytes → List Bytes
  | 0, _ => []
  | fuel + 1, content =>
    if content.isEmpty then []
    else content.take defaultChunk :: splitChunks fuel (content.drop defaultChunk)

/-- The pieces of a content, sealed from the given place on. -/
def sealChunks (key gen name : ℕ) : (chunk : ℕ) → List Bytes → List SealedChunk
  | _, [] => []
  | chunk, plain :: rest =>
    ⟨key, gen + chunk, name, chunk, plain⟩ :: sealChunks key gen name (chunk + 1) rest

def openBytes (key name chunk : ℕ) (c : SealedChunk) : Except Nerr Bytes :=
  if c.key = key ∧ c.name = name ∧ c.chunk = chunk then .ok c.plain
  else .error ⟨.crypto, "crypto.OpenBytes", "authentication failed"⟩

def openChunks (key name wantPlain : ℕ) : (got chunk : ℕ) → List SealedChunk → Except Nerr Bytes
  | got, _, [] =>
    if got < wantPlain then
      .error ⟨.invalidFormat, "backup.openMember", "truncated chunk length"⟩
    else if got = wantPlain then .ok []
    else .error ⟨.corruption, "backup.openMember", "decrypted size mismatch"⟩
  | got, chunk, c :: rest =>
    if got < wantPlain then do
      let plain ← openBytes key name chunk c
      let tail ← openChunks key name wantPlain (got + plain.length) (chunk + 1) rest
      return plain ++ tail
    else if got = wantPlain then .ok []
    else .error ⟨.corruption, "backup.openMember", "decrypted size mismatch"⟩

def openMember (key name : ℕ) (f : SegmentFile) : Except Nerr Bytes :=
  match f.header with
  | none => .error ⟨.invalidFormat, "backup.openMember", "truncated member header"⟩
  | some hdr =>
    if hdr.genBase = 0 then
      .error ⟨.invalidFormat, "backup.openMember", "generation 0 is reserved"⟩
    else openChunks key name hdr.plainSize 0 0 f.chunks

/-! ## The archive directory -/

/-- An entry of the index. -/
structure ArchiveEntry (Hash : Type) where
  id : ℕ
  firstLSN : ℕ
  lastLSN : ℕ
  sum : Hash
  sealedSize : ℕ

structure ArchiveIndex (Hash : Type) where
  wrap : ℕ
  entries : List (ArchiveEntry Hash)

structure ArchiveDir (Hash : Type) where
  file : ℕ → Option SegmentFile := fun _ => none
  index : Option (ArchiveIndex Hash) := none
  tmp : Option (ArchiveIndex Hash) := none

variable {Hash : Type}

def maxArchiveEnt : ℕ := 1048576

/-- The index file has 16 bits for the number of entries. -/
def countLimit : ℕ := 65536

def readArchiveIndex (dir : ArchiveDir Hash) : Except Nerr (Option (ArchiveIndex Hash)) :=
  match dir.index with
  | none => .ok none
  | some ix =>
    if ix.entries.length % countLimit = ix.entries.length then .ok (some ix)
    else .error ⟨.invalidFormat, "backup.readArchiveIndex", "trailing index bytes"⟩

/-- The first entry of the segment is replaced, or the entry is added at the end. -/
def putEntry (ent : ArchiveEntry Hash) : List (ArchiveEntry Hash) → List (ArchiveEntry Hash)
  | [] => [ent]
  | e :: rest => if e.id = ent.id then ent :: rest else e :: putEntry ent rest

variable [DecidableEq Hash] (digest : SegmentFile → Hash)

def restoreEntry (dir : ArchiveDir Hash) (key : ℕ) (e : ArchiveEntry Hash) :
    Except Nerr (ℕ × Bytes) :=
  match dir.file e.id with
  | none => .error ⟨.io, "backup.fileSHA256", "open"⟩
  | some f =>
    if digest f ≠ e.sum ∨ f.size ≠ e.sealedSize then
      .error ⟨.corruption, "backup.applyArchive", "archived segment checksum mismatch"⟩
    else do
      let plain ← openMember key e.id f
      return (e.id, plain)

def restoreEntries (dir : ArchiveDir Hash) (key until_ : ℕ) :
    List (ArchiveEntry Hash) → Except Nerr (List (ℕ × Bytes))
  | [] => .ok []
  | e :: rest =>
    if until_ ≠ 0 ∧ until_ < e.firstLSN then restoreEntries dir key until_ rest
    else do
      let here ← restoreEntry digest dir key e
      let later ← restoreEntries dir key until_ rest
      return here :: later

/-- The segments written to the log directory, up to a position; zero is no bound. -/
def applyArchive (dir : ArchiveDir Hash) (until_ : ℕ) : Except Nerr (List (ℕ × Bytes)) := do
  match ← readArchiveIndex dir with
  | none => return []
  | some ix => restoreEntries digest dir ix.wrap until_ ix.entries

/-! ## The archiver -/

/-- The next file operation of a call. -/
inductive Stage (Hash : Type) where
  | remove
  | create
  | header
  | chunk (rest : List Bytes) (chunk : ℕ)
  | sync
  | readIndex
  | writeTmp (ix : ArchiveIndex Hash)
  | rename (ix : ArchiveIndex Hash)
  | syncDir

/-- A call of `Archive`; `content` is the segment's bytes when it was opened. Whether
the segment was in the index then is kept for the statements only. -/
structure Call (Hash : Type) where
  id : ℕ
  first : ℕ
  last : ℕ
  content : Bytes
  again : Bool
  stage : Stage Hash

structure DirArchiver (Hash : Type) where
  key : ℕ
  gen : ℕ
  call : Option (Call Hash)

/-- The directory, the archiver that runs, and the last content of every segment
whose archiving was reported as done. -/
structure State (Hash : Type) where
  dir : ArchiveDir Hash := {}
  nextKey : ℕ := 0
  archiver : Option (DirArchiver Hash) := none
  archived : ℕ → Option Bytes := fun _ => none

inductive Label where
  | start
  | crash
  | archive (id first last : ℕ) (content : Bytes)
  /-- The next file operation, and whether it succeeds. -/
  | op (ok : Bool)

def ArchiveDir.setFile (dir : ArchiveDir Hash) (id : ℕ) (f : Option SegmentFile) :
    ArchiveDir Hash := { dir with file := Function.update dir.file id f }

def ArchiveDir.has (dir : ArchiveDir Hash) (id : ℕ) : Bool :=
  dir.index.any fun ix => ix.entries.any fun e => e.id == id

/-- The call returns an error. -/
def State.fail (s : State Hash) (a : DirArchiver Hash) (dir : ArchiveDir Hash) : State Hash :=
  { s with dir := dir, archiver := some { a with call := none } }

def State.go (s : State Hash) (a : DirArchiver Hash) (c : Call Hash) (dir : ArchiveDir Hash)
    (stage : Stage Hash) : State Hash :=
  { s with dir := dir, archiver := some { a with call := some { c with stage := stage } } }

def Call.entry (c : Call Hash) (f : SegmentFile) : ArchiveEntry Hash :=
  ⟨c.id, c.first, c.last, digest f, f.size⟩

/-- The index with the entry of the file that was just sealed. -/
def newIndex (a : DirArchiver Hash) (c : Call Hash) (f : SegmentFile)
    (current : Option (ArchiveIndex Hash)) : ArchiveIndex Hash :=
  match current with
  | none => ⟨a.key, [c.entry digest f]⟩
  | some ix => ⟨ix.wrap, putEntry (c.entry digest f) ix.entries⟩

/-- One file operation of `Archive`. A file that was created and not completed is
removed when the call fails. -/
def State.op (s : State Hash) (a : DirArchiver Hash) (c : Call Hash) (ok : Bool) : State Hash :=
  match c.stage, s.dir.file c.id with
  -- A failure to remove the old file is ignored.
  | .remove, _ => s.go a c (if ok then s.dir.setFile c.id none else s.dir) .create
  | .create, none =>
    if ok then s.go a c (s.dir.setFile c.id (some {})) .header else s.fail a s.dir
  | .create, some _ => s.fail a s.dir
  | _, none => s.fail a s.dir
  | .header, some f =>
    if ok then
      s.go a c (s.dir.setFile c.id (some { f with header := some ⟨c.content.length, a.gen⟩ }))
        (.chunk (splitChunks c.content.length c.content) 0)
    else s.fail a (s.dir.setFile c.id none)
  | .chunk [] _, some _ => s.go a c s.dir .sync
  | .chunk (plain :: rest) n, some f =>
    if ok then
      s.go a c (s.dir.setFile c.id
          (some { f with chunks := f.chunks ++ [⟨a.key, a.gen + n, c.id, n, plain⟩] }))
        (.chunk rest (n + 1))
    else s.fail a (s.dir.setFile c.id none)
  | .sync, some f =>
    if ok then s.go { a with gen := a.gen + f.chunks.length } c s.dir .readIndex
    else s.fail a (s.dir.setFile c.id none)
  | .readIndex, some f =>
    match readArchiveIndex s.dir with
    | .error _ => s.fail a s.dir
    | .ok current =>
      if !ok || maxArchiveEnt < (newIndex digest a c f current).entries.length then
        s.fail a s.dir
      else s.go a c s.dir (.writeTmp (newIndex digest a c f current))
  | .writeTmp ix, some _ =>
    if ok then s.go a c { s.dir with tmp := some ix } (.rename ix) else s.fail a s.dir
  | .rename ix, some _ =>
    if ok then s.go a c { s.dir with index := some ix, tmp := none } .syncDir
    else s.fail a { s.dir with tmp := none }
  | .syncDir, some _ =>
    if ok then
      { s with
        archiver := some { a with call := none }
        archived := Function.update s.archived c.id (some c.content) }
    else s.fail a s.dir

def State.step? (s : State Hash) : Label → Option (State Hash)
  | .start =>
    match s.archiver with
    | none => some { s with nextKey := s.nextKey + 1, archiver := some ⟨s.nextKey, 1, none⟩ }
    | some _ => none
  | .crash => some { s with archiver := none }
  | .archive id first last content =>
    match s.archiver with
    | some ⟨key, gen, none⟩ =>
      some { s with
        archiver := some ⟨key, gen, some ⟨id, first, last, content, s.dir.has id, .remove⟩⟩ }
    | _ => none
  | .op ok =>
    match s.archiver with
    | some ⟨key, gen, some c⟩ => some (s.op digest ⟨key, gen, none⟩ c ok)
    | _ => none

def State.Steps (s : State Hash) (label : Label) (s' : State Hash) : Prop :=
  s.step? digest label = some s'

/-- No call is in progress. -/
def State.idle (s : State Hash) : Bool := s.archiver.all fun a => a.call.isNone

/-- The call in progress renews a segment that the index has an entry for. -/
def State.renewing (s : State Hash) : Bool :=
  s.archiver.any fun a => a.call.any fun c => c.again

/-- The steps that the archive survives: a segment is archived under the key of the
archive and the number of entries fits the index; while a segment is renewed, no
operation fails and the process does not end. -/
def State.careful (s : State Hash) : Label → Bool
  | .start => true
  | .crash => !s.renewing
  | .archive id _ _ _ =>
    (s.dir.index.all fun ix => s.archiver.all fun a => ix.wrap == a.key) &&
      (s.dir.has id || s.dir.index.all fun ix => decide (ix.entries.length + 1 < countLimit))
  | .op ok => ok || !s.renewing

end NextSQL.Backup
