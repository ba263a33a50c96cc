import NextSQL.Lib.Run
import NextSQL.Storage.Allocator

/-!
# The allocator through a crash

The allocator state reaches the disk in two ways. Every structure change, every
commit and every checkpoint logs the next page id, the head of the freelist and
the number of free pages as they are in memory. A flush of the allocator writes
the freelist pages in place and the same three numbers into the superblock.
After a crash redo takes the numbers of the last record that counts and
`allocator.Open` reads the freelist pages as they are in the file, after redo
has put back the images of them that checkpoints logged.

A log record of a transaction stands alone in the log, and a crash may leave
any part of the log that was not synced. The records of a structure change, of
a commit and of a checkpoint are appended under the engine's mutex, one group
at a time. While a flush runs nothing else happens to the allocator, and a
crash then leaves any of its writes.

The pages a tree consists of are read off the page images in the log.
-/

namespace NextSQL.Storage

open GuardedRuns Recovery

/-- The engine, as far as the allocator and its records are concerned. `written` is the free
list as the last flush wrote it, and `freeAt` the free list at the time of each allocator
record, by LSN; no step depends on these two. -/
structure PageStore where
  alloc : Allocator
  mem : Superblock
  pages : Pages Content
  super : Superblock
  log : List (Record Content)
  durable : Nat
  redoFrom : Nat
  running : List TxnID
  persisting : Bool
  written : List PageID
  freeAt : LSN → List PageID

namespace PageStore

def create : PageStore where
  alloc := ⟨1, [], [], false, 0⟩
  mem := ⟨⟨0, 0⟩, ⟨1, 0, 0⟩⟩
  pages _ := none
  super := ⟨⟨0, 0⟩, ⟨1, 0, 0⟩⟩
  log := []
  durable := 0
  redoFrom := 0
  running := []
  persisting := false
  written := []
  freeAt _ := []

/-! ## The log -/

def records (start : LSN) (t : TxnID) : List (Body Content) → List (Record Content)
  | [] => []
  | body :: rest => ⟨start, t, body⟩ :: records (start + 1) t rest

/-- Append one record. -/
def append (s : PageStore) (t : TxnID) (body : Body Content) : PageStore :=
  { s with log := s.log ++ [⟨s.log.length + 1, t, body⟩] }

/-- Append the records of a transaction up to its commit record; the last one before it is an
allocator record. -/
def logGroup (s : PageStore) (t : TxnID) (pre : List (Body Content)) (body : Body Content) :
    PageStore :=
  { s with
    log := s.log ++ records (s.log.length + 1) t (pre ++ [body, .commit])
    freeAt := Function.update s.freeAt (s.log.length + pre.length + 1) s.alloc.free }

/-- The last allocator record that counts in what redo scans. -/
def lastAlloc (recs : List (Record Content)) : Option (LSN × AllocState) :=
  recs.latest fun r => (allocOf (committed recs) r).map (r.lsn, ·)

/-- The last root that counts in what redo scans. -/
def lastTree (recs : List (Record Content)) : Option TreeMeta :=
  recs.latest (treeOf (committed recs))

/-- What redo scans when the first `upTo` records survive. -/
def scanned (s : PageStore) (upTo : Nat) : List (Record Content) :=
  (s.log.take upTo).drop s.redoFrom

/-- A page image of a tree page. -/
def childrenOf (isCommitted : TxnID → Bool) (id : PageID) (r : Record Content) :
    Option (List PageID) :=
  match r.body with
  | .pageImage p (.node children) => if p = id ∧ isCommitted r.txn then some children else none
  | _ => none

/-- The pages a page refers to, by its last image that counts. -/
def links (log : List (Record Content)) (id : PageID) : List PageID :=
  (log.latest (childrenOf (committed log) id)).getD []

/-- The pages of a tree. -/
inductive Reaches (links : PageID → List PageID) (root : PageID) : PageID → Prop where
  | root : Reaches links root root
  | child {id child : PageID} (parent : Reaches links root id) (link : child ∈ links id) :
      Reaches links root child

/-! ## A crash -/

/-- The superblock as a flush writes it. -/
def flushed (s : PageStore) : Superblock := { s.mem with alloc := s.alloc.persistedState }

/-- Writes of freelist pages, of which some survive. -/
def overlay (pages : Pages Content) (writes : List (PageID × Content))
    (survives : PageID → Bool) : Pages Content := fun id =>
  match writes.lookup id with
  | some content => if survives id then some ⟨0, content⟩ else pages id
  | none => pages id

/-- The pages after a crash. -/
def disk (s : PageStore) (survives : PageID → Bool) : Pages Content :=
  if s.persisting then
    overlay s.pages (Allocator.metaPages s.alloc.meta s.alloc.free) survives
  else s.pages

/-- The superblock after a crash. -/
def superAfter (s : PageStore) (survives : Bool) : Superblock :=
  if s.persisting && survives then s.flushed else s.super

/-- The allocator record a crash leaves as the last one, with its LSN; the superblock holds
the state, under LSN zero, if there is none. -/
def lastRecord (s : PageStore) (upTo : Nat) (superSurvives : Bool) : LSN × AllocState :=
  (lastAlloc (s.scanned upTo)).getD (0, (s.superAfter superSurvives).alloc)

/-- The engine after an open. -/
def opened (s : PageStore) (upTo : Nat) (file : DataFile Content) (a : Allocator) : PageStore :=
  { s with
    alloc := a
    mem := file.super
    pages := file.pages
    super := file.super
    log := s.log.take upTo
    durable := upTo
    running := []
    persisting := false
    written := a.free }

/-- A crash that leaves `upTo` records and some of the writes of a flush, and the next open. -/
def reopen (s : PageStore) (upTo : Nat) (survives : PageID → Bool) (superSurvives : Bool)
    (steps : Nat) : Option (Except Nerr PageStore) :=
  match redo ⟨s.disk survives, s.superAfter superSurvives⟩ (s.scanned upTo) with
  | .error e => some (.error e)
  | .ok file =>
    (Allocator.reload steps file.pages file.super.alloc).map (·.map (s.opened upTo file))

/-! ## Steps -/

inductive Label where
  | setCapPages (pages : PageID)
  | alloc
  | release (id : PageID)
  | begin_ (t : TxnID)
  | abort (t : TxnID)
  | noteTree (t : TxnID) (tree : TreeMeta)
  | logStructure (t : TxnID) (nodes : List (PageID × List PageID))
  | commit (t : TxnID) (nodes : List (PageID × List PageID))
  | checkpoint (t : TxnID)
  | installCheckpoint (redo : Nat)
  | writeSuperblock
  | persist
  | persisted
  | writeBack (id : PageID) (lsn : LSN) (children : List PageID)
  | syncLog (upTo : Nat)
  | reopen (upTo : Nat) (survives : PageID → Bool) (superSurvives : Bool) (steps : Nat)

/-- A page that was handed out and not taken back. -/
def InUse (s : PageStore) (id : PageID) : Prop :=
  id ≠ 0 ∧ id < s.alloc.next ∧ id ∉ s.alloc.free ∧ id ∉ s.alloc.meta

instance (s : PageStore) (id : PageID) : Decidable (s.InUse id) := by
  unfold InUse
  infer_instance

/-- A transaction id that was not used yet. -/
def Fresh (s : PageStore) (t : TxnID) : Prop := ∀ r ∈ s.log, r.txn ≠ t

instance (s : PageStore) (t : TxnID) : Decidable (s.Fresh t) := by
  unfold Fresh
  infer_instance

def image (node : PageID × List PageID) : Body Content := .pageImage node.1 (.node node.2)

/-- The images of the freelist pages that a checkpoint logs. -/
def metaImages (s : PageStore) : Option (List (Body Content)) :=
  s.alloc.meta.mapM fun id => (s.pages id).map fun page => .pageImage id page.content

/-- The allocator of an engine changes, and the superblock in memory with it. -/
def withAlloc (s : PageStore) (a : Allocator) : PageStore :=
  { s with alloc := a, mem := { s.mem with alloc := a.state } }

def isCheckpoint (r : Record Content) : Bool :=
  match r.body with
  | .checkpoint _ => true
  | _ => false

/-- The steps while no flush runs. -/
def stepAtRest (s : PageStore) : Label → Option PageStore
  | .setCapPages pages => some { s with alloc := { s.alloc with capPages := pages } }
  | .alloc => s.alloc.alloc.toOption.map fun got => s.withAlloc got.2
  | .release id => (s.alloc.release id).toOption.map s.withAlloc
  | .begin_ t =>
    if s.Fresh t ∧ t ∉ s.running then
      some { s.append t .begin_ with running := t :: s.running }
    else none
  | .abort t =>
    if t ∈ s.running then some { s.append t .abort with running := s.running.filter (· ≠ t) }
    else none
  -- `NoteTree`: the root changes in memory and is logged under the running transaction
  | .noteTree t tree =>
    if t ∈ s.running ∧ validatePrimaryTree tree s.mem.alloc.next = .ok () then
      some { s.append t (.treeMeta tree) with mem := { s.mem with tree := tree } }
    else none
  | .logStructure t nodes =>
    if s.Fresh t ∧ t ∉ s.running ∧ nodes ≠ [] ∧ ∀ node ∈ nodes, s.InUse node.1 then
      some (s.logGroup t (.begin_ :: nodes.map image) (.allocState s.mem.alloc))
    else none
  | .commit t nodes =>
    if t ∈ s.running ∧ ∀ node ∈ nodes, s.InUse node.1 then
      some { s.logGroup t (nodes.map image) (.allocState s.mem.alloc) with
             running := s.running.filter (· ≠ t) }
    else none
  | .checkpoint t =>
    if s.Fresh t ∧ t ∉ s.running then
      s.metaImages.map fun images => s.logGroup t (.begin_ :: images) (.checkpoint s.mem)
    else none
  | .installCheckpoint redo =>
    if s.redoFrom ≤ redo ∧ ((s.log.take s.durable).drop redo).any isCheckpoint then
      some { s with redoFrom := redo }
    else none
  -- the end of a checkpoint, and every write of a page that needs new nonces
  | .writeSuperblock => some { s with super := s.mem }
  | .persist =>
    if s.alloc.dirty then some { s with alloc := s.alloc.grow, persisting := true } else some s
  | .writeBack id lsn children =>
    if s.InUse id then
      some { s with pages := Function.update s.pages id (some ⟨lsn, .node children⟩) }
    else none
  | .syncLog upTo =>
    if s.durable ≤ upTo ∧ upTo ≤ s.log.length then some { s with durable := upTo } else none
  | .persisted | .reopen .. => none

def next (s : PageStore) (label : Label) : Option PageStore :=
  match label with
  | .reopen upTo survives superSurvives steps =>
    if s.durable ≤ upTo ∧ upTo ≤ s.log.length then
      (s.reopen upTo survives superSurvives steps).bind Except.toOption
    else none
  | .persisted =>
    if s.persisting then
      some { s with
        alloc := { s.alloc with dirty := false }
        mem := s.flushed
        super := s.flushed
        pages := s.disk fun _ => true
        persisting := false
        written := s.alloc.free }
    else none
  | label => if s.persisting then none else s.stepAtRest label

def Step (s : PageStore) (label : Label) (t : PageStore) : Prop := s.next label = some t

/-! ## When the state survives -/

/-- The numbers of surviving records that a crash can leave. -/
def cuts (s : PageStore) : List Nat := List.range' s.durable (s.log.length + 1 - s.durable)

/-- The free list is empty, or as the last flush wrote it. -/
def Current (s : PageStore) : Prop := s.alloc.free = [] ∨ s.alloc.free = s.written

/-- An image of a freelist page. -/
def isFreelist (r : Record Content) : Bool :=
  match r.body with
  | .pageImage _ (.freelist _ _) => true
  | _ => false

/-- There is a durable allocator record, no record that a crash can leave as the last one names
a freelist page, and redo has no image of one. -/
def Unnamed (s : PageStore) : Prop :=
  (∀ upTo ∈ s.cuts, (lastAlloc (s.scanned upTo)).any fun last => last.2.freeHead = 0) ∧
    ∀ r ∈ s.log.drop s.redoFrom, isFreelist r = false

/-- There is a durable root record, or no record that a crash can leave as the last one has
free pages. -/
def Rooted (s : PageStore) : Prop :=
  (lastTree (s.scanned s.durable)).isSome = true ∨
    ∀ upTo ∈ s.cuts, (lastAlloc (s.scanned upTo)).all fun last => last.2.freeCount = 0

/-- In the log as a whole, the root and every page that a page outside of the free list refers
to are outside of the free list too; and the root is below the next page id on file. -/
def Tidy (s : PageStore) : Prop :=
  (lastTree (s.scanned s.log.length)).all (fun tree =>
      decide (validatePrimaryTree tree s.super.alloc.next = .ok ())) = true ∧
    (s.alloc.free = [] ∨
      (lastTree (s.scanned s.log.length)).any (fun tree => decide (tree.root ∉ s.alloc.free)) ∧
        ∀ r ∈ s.log, match r.body with
          | .pageImage id _ => id ∈ s.alloc.free ∨ ∀ child ∈ links s.log id, child ∉ s.alloc.free
          | _ => True)

instance (s : PageStore) : Decidable s.Current := by
  unfold Current
  infer_instance

instance (s : PageStore) : Decidable s.Unnamed := by
  unfold Unnamed
  infer_instance

instance (s : PageStore) : Decidable s.Rooted := by
  unfold Rooted
  infer_instance

instance (s : PageStore) : Decidable s.Tidy := by
  unfold Tidy
  have (r : Record Content) : Decidable (match r.body with
      | .pageImage id _ => id ∈ s.alloc.free ∨ ∀ child ∈ links s.log id, child ∉ s.alloc.free
      | _ => True) := by
    split <;> infer_instance
  infer_instance

/-- The condition on a step. Allocator records and the superblock are written while the free
list is empty or on disk as it is; what is logged refers to no free page; the redo boundary
passes the last root record only while there are no free pages; the freelist pages change only
while no record that may be loaded names them. -/
def Orderly (s : PageStore) (label : Label) : Prop :=
  match label with
  | .logStructure .. | .commit .. | .checkpoint _ =>
    s.Current ∧ ∀ t ∈ s.next label, t.Tidy
  | .installCheckpoint redo => Rooted { s with redoFrom := redo }
  | .writeSuperblock => s.Current
  | .persist => s.alloc.dirty = true → s.alloc.free = s.written ∨ s.Unnamed
  | _ => True

instance (s : PageStore) (label : Label) : Decidable (s.Orderly label) := by
  cases label <;> unfold Orderly <;> infer_instance

end PageStore

end NextSQL.Storage
