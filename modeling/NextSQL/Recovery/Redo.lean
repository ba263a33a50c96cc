import NextSQL.Lib.Latest
import NextSQL.Nerr
import NextSQL.Undo.Log

/-!
# Redo

After a crash the records of the log from the redo boundary on are replayed
onto the data file (`internal/recovery/recover.go`). A record counts if the log
holds the commit record of its transaction; a checkpoint record always counts.
Page records are applied in the order of the log, each to a page that is older
than the record. The tree root and the allocator state are those of the last
record that gives them.

What a page holds besides its LSN is an arbitrary type here. A delta names the
page it applies to by LSN and digest; the digest is taken for the content, and
the runs of the delta for the page they make of it.
-/

namespace NextSQL.Recovery

/-! ## Records and the data file -/

/-- The allocator fields of the superblock. -/
structure AllocState where
  next : PageID
  freeHead : PageID
  freeCount : Nat
deriving DecidableEq, Repr

structure TreeMeta where
  root : PageID
  height : Nat
deriving DecidableEq, Repr

structure Superblock where
  tree : TreeMeta
  alloc : AllocState
deriving DecidableEq, Repr

/-- A logical page: its LSN, and everything else on it. -/
structure Page (α : Type) where
  lsn : LSN
  content : α
deriving DecidableEq, Repr

structure PageDelta (α : Type) where
  baseLSN : LSN
  base : α
  content : α
deriving DecidableEq, Repr

inductive Body (α : Type) where
  | begin_
  | commit
  | abort
  | undo (entry : Undo.Record)
  | pageImage (id : PageID) (content : α)
  | pageDelta (id : PageID) (delta : PageDelta α)
  | treeMeta (tree : TreeMeta)
  | allocState (alloc : AllocState)
  | checkpoint (super : Superblock)
  | change
deriving DecidableEq, Repr

structure Record (α : Type) where
  lsn : LSN
  txn : TxnID
  body : Body α
deriving DecidableEq, Repr

/-- The pages of the data file that can be read. -/
abbrev Pages (α : Type) := PageID → Option (Page α)

structure DataFile (α : Type) where
  pages : Pages α
  super : Superblock

variable {α : Type}

/-! ## Replaying one record -/

def applyPage (pages : Pages α) (lsn : LSN) (id : PageID) (content : α) :
    Except Nerr (Pages α) :=
  if id = 0 then .error ⟨.corruption, "recovery.applyPage", "page image missing page id"⟩
  else if (pages id).any (lsn ≤ ·.lsn) then .ok pages
  else .ok (Function.update pages id (some ⟨lsn, content⟩))

/-- A page that is not yet at the delta must be the delta's base. -/
def applyPageDelta [DecidableEq α] (pages : Pages α) (lsn : LSN) (id : PageID)
    (delta : PageDelta α) : Except Nerr (Pages α) :=
  if id = 0 then
    .error ⟨.corruption, "recovery.applyPageDelta", "page delta missing page id"⟩
  else if delta.baseLSN = 0 then
    .error ⟨.corruption, "recovery.applyPageDelta", "undecodable page delta"⟩
  else
    match pages id with
    | none =>
      .error ⟨.corruption, "recovery.applyPageDelta",
        s!"page {id} is unreadable for the delta at LSN {lsn}"⟩
    | some existing =>
      let found := existing.lsn
      let needed := delta.baseLSN
      if lsn ≤ found then .ok pages
      else if found ≠ needed ∨ existing.content ≠ delta.base then
        .error ⟨.corruption, "recovery.applyPageDelta",
          s!"page {id} is at LSN {found}; the delta at LSN {lsn} needs base LSN {needed}"⟩
      else .ok (Function.update pages id (some ⟨lsn, delta.content⟩))

def Body.isCommit : Body α → Bool
  | .commit => true
  | _ => false

/-- The transactions with a commit record. -/
def committed (recs : List (Record α)) (t : TxnID) : Bool :=
  recs.any fun r => r.txn = t && r.body.isCommit

/-- What the loop over the records keeps. -/
structure Replay (α : Type) where
  pages : Pages α
  tree : Option TreeMeta
  alloc : Option AllocState

section

variable [DecidableEq α]

def Replay.step (isCommitted : TxnID → Bool) (st : Replay α) (r : Record α) :
    Except Nerr (Replay α) :=
  match r.body with
  | .checkpoint super =>
    .ok { st with
      tree := if super.tree.root ≠ 0 ∨ super.tree.height ≠ 0 then some super.tree else st.tree
      alloc := if super.alloc.next ≠ 0 then some super.alloc else st.alloc }
  | body =>
    if isCommitted r.txn then
      match body with
      | .pageImage id content =>
        (applyPage st.pages r.lsn id content).map ({ st with pages := · })
      | .pageDelta id delta =>
        (applyPageDelta st.pages r.lsn id delta).map ({ st with pages := · })
      | .treeMeta tree => .ok { st with tree := some tree }
      | .allocState alloc => .ok { st with alloc := some alloc }
      | _ => .ok st
    else .ok st

/-- `SetPrimaryTree` refuses a root that is not below the next page id on file. -/
def validatePrimaryTree (tree : TreeMeta) (next : PageID) : Except Nerr Unit :=
  if tree.root = 0 then
    if tree.height ≠ 0 then
      .error ⟨.corruption, "file.decodeSuperblock", "primary tree height without root"⟩
    else .ok ()
  else if tree.height = 0 then
    .error ⟨.corruption, "file.decodeSuperblock", "primary tree root without height"⟩
  else if next ≤ tree.root then
    .error ⟨.corruption, "file.decodeSuperblock", "primary tree root is not allocated"⟩
  else .ok ()

/-- The root goes into the superblock before the allocator state does. -/
def setSuperblock (super : Superblock) (tree : Option TreeMeta) (alloc : Option AllocState) :
    Except Nerr Superblock := do
  if let some t := tree then validatePrimaryTree t super.alloc.next
  pure ⟨tree.getD super.tree, alloc.getD super.alloc⟩

/-- `RedoUntil` on the records scanned from the redo boundary. -/
def redo (file : DataFile α) (recs : List (Record α)) : Except Nerr (DataFile α) := do
  let st ← recs.foldlM (Replay.step (committed recs)) ⟨file.pages, none, none⟩
  let super ← setSuperblock file.super st.tree st.alloc
  pure ⟨st.pages, super⟩

/-! ## Pages, root and allocator state one by one -/

/-- What a record does to the pages. -/
def replayPage (isCommitted : TxnID → Bool) (pages : Pages α) (r : Record α) :
    Except Nerr (Pages α) :=
  match r.body with
  | .pageImage id content =>
    if isCommitted r.txn then applyPage pages r.lsn id content else .ok pages
  | .pageDelta id delta =>
    if isCommitted r.txn then applyPageDelta pages r.lsn id delta else .ok pages
  | _ => .ok pages

end

/-- The root a record gives. -/
def treeOf (isCommitted : TxnID → Bool) (r : Record α) : Option TreeMeta :=
  match r.body with
  | .checkpoint super =>
    if super.tree.root ≠ 0 ∨ super.tree.height ≠ 0 then some super.tree else none
  | .treeMeta tree => if isCommitted r.txn then some tree else none
  | _ => none

/-- The allocator state a record gives. -/
def allocOf (isCommitted : TxnID → Bool) (r : Record α) : Option AllocState :=
  match r.body with
  | .checkpoint super => if super.alloc.next ≠ 0 then some super.alloc else none
  | .allocState alloc => if isCommitted r.txn then some alloc else none
  | _ => none

section

variable [DecidableEq α] {isCommitted : TxnID → Bool} {recs : List (Record α)}

theorem Replay.step_eq (st : Replay α) (r : Record α) :
    Replay.step isCommitted st r = (replayPage isCommitted st.pages r).map fun pages =>
        ⟨pages, (treeOf isCommitted r).or st.tree, (allocOf isCommitted r).or st.alloc⟩ := by
  obtain ⟨lsn, txn, body⟩ := r
  cases body with
  | checkpoint super =>
    simp only [Replay.step, replayPage, treeOf, allocOf, Except.map]
    congr 2
    · split <;> rfl
    · split <;> rfl
  | begin_ | commit | abort | undo entry | change | treeMeta tree | allocState alloc =>
    simp only [Replay.step, replayPage, treeOf, allocOf, Except.map]
    split <;> rfl
  | pageImage id content | pageDelta id delta =>
    simp only [Replay.step, replayPage, treeOf, allocOf]
    split <;> rfl

/-- The pages are replayed record by record; of root and allocator state the latest counts. -/
theorem foldlM_step_eq (st : Replay α) : recs.foldlM (Replay.step isCommitted) st =
      (recs.foldlM (replayPage isCommitted) st.pages).map fun pages =>
        ⟨pages, (recs.latest (treeOf isCommitted)).or st.tree,
          (recs.latest (allocOf isCommitted)).or st.alloc⟩ := by
  induction recs generalizing st with
  | nil => rfl
  | cons r rest ih =>
    rw [List.foldlM_cons, List.foldlM_cons, Replay.step_eq]
    cases replayPage isCommitted st.pages r with
    | error e => rfl
    | ok pages =>
      refine (ih _).trans ?_
      simp only [List.latest_cons, Option.or_assoc]
      rfl

end

/-! ## Records that do not count -/

variable {recs more : List (Record α)}

theorem committed_append {t : TxnID} :
    committed (recs ++ more) t = (committed recs t || committed more t) := by
  simp [committed]

end NextSQL.Recovery
