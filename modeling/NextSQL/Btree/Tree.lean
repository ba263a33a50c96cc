import NextSQL.Btree.Node

/-!
# The tree and its check

A tree is a set of pages, the id of its root page and its height. Beside them
the state has the page allocator and the hints of the last insertion. An
operation that fails leaves the pages as it has written them so far.

`descend` and `checkLocked` only read. `checkLocked` walks the tree and then
the chain of the leaves; the least and the greatest key that the walk of a
subtree also returns are not used by anyone and are left out.
-/

namespace NextSQL.Btree

/-- A page: a node, or a page without a node header. -/
inductive Page where
  | leaf (n : Node LeafEntry)
  | internal (n : Node InternalEntry)
  | other
deriving DecidableEq

/-- The page allocator. -/
structure Allocator where
  /-- The free pages, the one freed last first. -/
  free : List PageID
  /-- The first page id never handed out. -/
  next : PageID
  next_pos : 0 < next
  free_nodup : free.Nodup
  free_lt : ∀ id ∈ free, id ≠ 0 ∧ id < next

namespace Allocator

/-- A page that can be handed out. -/
def Available (a : Allocator) (id : PageID) : Prop := id ∈ a.free ∨ a.next ≤ id

instance (a : Allocator) (id : PageID) : Decidable (a.Available id) :=
  inferInstanceAs (Decidable (_ ∨ _))

def alloc (a : Allocator) : PageID × Allocator :=
  match same : a.free with
  | id :: rest => (id, {
      free := rest
      next := a.next
      next_pos := a.next_pos
      free_nodup := (List.nodup_cons.mp (same ▸ a.free_nodup)).2
      free_lt := fun other member => a.free_lt other (same ▸ List.mem_cons_of_mem id member) })
  | [] => (a.next, {
      free := []
      next := a.next + 1
      next_pos := Nat.succ_pos _
      free_nodup := List.nodup_nil
      free_lt := fun _ member => (List.not_mem_nil member).elim })

end Allocator

/-- A tree. -/
structure Tree where
  pages : PageID → Option Page
  alloc : Allocator
  root : PageID
  height : Nat
  /-- The page that records root and height; zero for the primary tree. -/
  metaPage : PageID
  /-- Root and height as recorded there, or in the superblock. -/
  noted : PageID × Nat
  hintRight : PageID
  /-- Empty if there is none. -/
  hintMax : Key
  hintParent : PageID

/-- An operation on a tree. -/
abbrev TreeM := EStateM Nerr Tree

namespace Tree

variable (t : Tree)

/-! ## Reading pages -/

def pin (id : PageID) : Except Nerr Page :=
  if id = 0 then
    .error ⟨.invalidArgument, "format.PageID", "page id 0 is reserved for the superblock"⟩
  else match t.pages id with
    | some p => .ok p
    | none => .error ⟨.corruption, "storage.Pin", "page isolated; no recoverable image"⟩

/-- `pin` and `expectType`, for a leaf. -/
def pinLeaf (id : PageID) : Except Nerr (Node LeafEntry) := do
  match ← t.pin id with
  | .leaf n => .ok n
  | _ => .error ⟨.corruption, "btree.expectType", "unexpected page type"⟩

def pinInternal (id : PageID) : Except Nerr (Node InternalEntry) := do
  match ← t.pin id with
  | .internal n => .ok n
  | _ => .error ⟨.corruption, "btree.expectType", "unexpected page type"⟩

def readHeader (id : PageID) : Except Nerr NodeHeader := do
  match ← t.pin id with
  | .leaf n => .ok n.hdr
  | .internal n => .ok n.hdr
  | .other => .error ⟨.corruption, "btree.readHeader", "missing node header"⟩

/-- The levels under a page, from the root down to a leaf. The pages left behind are
returned with the leaf, the last one first. -/
def descendFrom (key : Key) : Nat → PageID → List PageID → Except Nerr (PageID × List PageID)
  | 0, id, up => .ok (id, up)
  | level + 1, id, up => do
    let n ← t.pinInternal id
    let child := childForKey n.hdr.leftmost n.collect key
    if child = 0 then
      .error ⟨.corruption, "btree.descend", "internal node has no child"⟩
    else descendFrom key level child (id :: up)

def descend (key : Key) : Except Nerr (PageID × List PageID) :=
  t.descendFrom key (t.height - 1) t.root []

/-! ## The check -/

/-- A node with the lower bound of its keys. -/
abbrev Place := Option Key × PageID

/-- The children of an internal page, each with its lower bound. -/
def places (lo : Option Key) (n : Node InternalEntry) : List Place :=
  (lo, n.hdr.leftmost) :: n.collect.map fun e => (some e.key, e.child)

/-- The upper bound of a node: the lower bound of its right neighbour. -/
def upperBound (right : List Place) (hi : Option Key) : Option Key :=
  match right with
  | [] => hi
  | place :: _ => place.1

/-- Are the keys strictly increasing? -/
def increasing {ρ : Type} [Record ρ] : List ρ → Bool
  | a :: b :: rest => decide (Record.key a < Record.key b) && increasing (b :: rest)
  | _ => true

/-- Visit the nodes of a list, from left to right. -/
def walkAll (visit : PageID → Option Key → Option Key → List PageID →
      Except Nerr (List PageID × List PageID)) :
    List Place → Option Key → List PageID → Except Nerr (List PageID × List PageID)
  | [], _, seen => .ok ([], seen)
  | (lo, id) :: right, hi, seen => do
    let (leaves, seen) ← visit id lo (upperBound right hi) seen
    let (more, seen) ← walkAll visit right hi seen
    .ok (leaves ++ more, seen)

/-- The leaves under a page `level` levels over the leaves, and the pages seen. -/
def walk : Nat → PageID → Option Key → Option Key → List PageID →
    Except Nerr (List PageID × List PageID)
  | 0, id, lo, hi, seen =>
    if id ∈ seen then .error ⟨.corruption, "btree.Check", "page cycle"⟩
    else do
      let n ← t.pinLeaf id
      if id ≠ t.root ∧ n.collect = [] then
        .error ⟨.corruption, "btree.Check", "empty non-root leaf"⟩
      else if increasing n.collect = false then
        .error ⟨.corruption, "btree.Check", "leaf keys are not strictly increasing"⟩
      else if ∃ l ∈ lo, ∃ first ∈ n.collect.head?, first.key < l then
        .error ⟨.corruption, "btree.Check", "leaf key is below separator"⟩
      else if ∃ h ∈ hi, ∃ last ∈ n.collect.getLast?, h ≤ last.key then
        .error ⟨.corruption, "btree.Check", "leaf key is not below high separator"⟩
      else .ok ([id], id :: seen)
  | level + 1, id, lo, hi, seen =>
    if id ∈ seen then .error ⟨.corruption, "btree.Check", "page cycle"⟩
    else do
      let n ← t.pinInternal id
      if n.hdr.leftmost = 0 then
        .error ⟨.corruption, "btree.Check", "internal node missing leftmost child"⟩
      else if increasing n.collect = false then
        .error ⟨.corruption, "btree.Check", "internal separators are not strictly increasing"⟩
      else walkAll (walk level) (places lo n) hi (id :: seen)

/-- The pointers of the leaves, `prev` being the leaf before them. -/
def checkChain : PageID → List PageID → Except Nerr Unit
  | _, [] => .ok ()
  | prev, id :: rest => do
    let hdr ← t.readHeader id
    if hdr.prev ≠ prev then
      .error ⟨.corruption, "btree.Check",
        s!"leaf {id} prev pointer got {hdr.prev} want {prev}"⟩
    else if hdr.next ≠ rest.headD 0 then
      .error ⟨.corruption, "btree.Check", s!"leaf {id} next pointer"⟩
    else checkChain id rest

def checkLeafChain (leaves : List PageID) : Except Nerr Unit :=
  if leaves = [] then .error ⟨.corruption, "btree.Check", "tree has no leaves"⟩
  else t.checkChain 0 leaves

def checkLocked : Except Nerr Unit :=
  if t.height < 1 then
    .error ⟨.corruption, "btree.Check", "invalid height"⟩
  else if t.metaPage = 0 ∧ t.noted ≠ (t.root, t.height) then
    .error ⟨.corruption, "btree.Check", "in-memory root does not match superblock"⟩
  else do
    let (leaves, _) ← t.walk (t.height - 1) t.root none none []
    t.checkLeafChain leaves

/-- The tree passes its check. -/
def Check : Prop := t.checkLocked = .ok ()

instance : Decidable t.Check :=
  match same : t.checkLocked with
  | .ok () => isTrue same
  | .error _ => isFalse fun ok => nomatch same.symm.trans ok

end Tree

/-! ## Writing pages -/

namespace TreeM

/-- Read something of the tree. -/
def reading {α : Type} (read : Tree → Except Nerr α) : TreeM α := fun t =>
  match read t with
  | .ok a => .ok a t
  | .error e => .error e t

/-- Look at something of the tree. -/
def asking {α : Type} (ask : Tree → α) : TreeM α := fun t => .ok (ask t) t

/-- A result that does not depend on the tree. -/
def ofExcept {α : Type} (result : Except Nerr α) : TreeM α := reading fun _ => result

/-- Install a page. -/
def write (id : PageID) (p : Page) : TreeM Unit :=
  modify fun t => { t with pages := Function.update t.pages id (some p) }

def newPage : TreeM PageID := fun t =>
  .ok t.alloc.alloc.1 { t with
    alloc := t.alloc.alloc.2
    pages := Function.update t.pages t.alloc.alloc.1 (some .other) }

/-- Record root and height. -/
def persist : TreeM Unit := modify fun t => { t with noted := (t.root, t.height) }

/-- Rewrite the header of a node. -/
def setHeader (id : PageID) (change : NodeHeader → NodeHeader) : TreeM Unit := do
  match ← reading (·.pin id) with
  | .leaf n => write id (.leaf (n.writeHeader (change n.hdr)))
  | .internal n => write id (.internal (n.writeHeader (change n.hdr)))
  | .other => throw ⟨.corruption, "btree.readHeader", "missing node header"⟩

def setSiblingPrev (id prev : PageID) : TreeM Unit :=
  setHeader id fun hdr => { hdr with prev }

def clearHint : TreeM Unit :=
  modify fun t => { t with hintRight := 0, hintMax := [], hintParent := 0 }

/-- Remember the leaf of an insertion, if it is not left of the one remembered. -/
def noteRight (id : PageID) (key : Key) : TreeM Unit :=
  modify fun t =>
    if t.hintRight = 0 ∨ t.hintRight = id ∨ t.hintMax = [] ∨ t.hintMax < key then
      { t with hintRight := id, hintMax := key }
    else t

/-- A page with the records, or the error of a full page. -/
def rebuilt {ρ : Type} [Record ρ] (hdr : NodeHeader) (records : List ρ) : TreeM (Node ρ) :=
  match Node.rebuild hdr records with
  | some n => pure n
  | none => throw ⟨.pageFull, "page.Insert", "page is full"⟩

end TreeM

end NextSQL.Btree
