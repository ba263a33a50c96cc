import NextSQL.Btree.Tree

/-!
# Insertion

`Txn.Insert` looks for the key with `leafRaw` and, when it is absent, puts the
record on the leaf found there (`insertOnLeaf`). Both may use the rightmost
leaf remembered from the last insertion and not search the tree. A full leaf is
split, and the separator of the new page goes up the path of the search as far
as the internal pages are full.

A path is a list of internal pages, the deepest one first.
-/

namespace NextSQL.Btree

namespace Tree

/-! ## Looking for a key -/

/-- The leaf remembered, if the key is right of it and it still is the last leaf. -/
def leafRawHint (t : Tree) (key : Key) : Option (PageID × Node LeafEntry) :=
  if t.hintRight = 0 ∨ t.hintMax = [] ∨ key ≤ t.hintMax then none
  else match t.pinLeaf t.hintRight with
    | .ok n => if n.hdr.next = 0 then some (t.hintRight, n) else none
    | .error _ => none

/-- A remembered leaf that is no longer the last one, or no leaf, is forgotten. -/
def hintStale (t : Tree) (key : Key) : Bool :=
  !decide (t.hintRight = 0 ∨ t.hintMax = [] ∨ key ≤ t.hintMax) && (t.leafRawHint key).isNone

end Tree

namespace TreeM

open Tree

/-- The leaf of a key, and the key's value there. -/
def leafRaw (key : Key) : TreeM (PageID × Option Bytes) := do
  match ← asking (·.leafRawHint key) with
  | some (leafID, n) => pure (leafID, (findLeafSlot n key).map Prod.snd)
  | none =>
    if ← asking (·.hintStale key) then clearHint
    let (leafID, _) ← reading (·.descend key)
    let n ← reading (·.pinLeaf leafID)
    pure (leafID, (findLeafSlot n key).map Prod.snd)

/-! ## Separators -/

/-- A new root over the old one and its new right neighbour. -/
def newRoot (left : PageID) (sep : Key) (right : PageID) : TreeM Unit := do
  let id ← newPage
  let e ← ofExcept (encodeInternal sep right)
  let n ← rebuilt ⟨0, 0, left⟩ [e]
  write id (.internal n)
  modify fun t => { t with root := id, height := t.height + 1 }
  persist

/-- The split of `splitInternalAndInsert`: half of the separators go to a new page, and the
one between the halves goes up with it. -/
def splitInternal (leftID : PageID) (hdr : NodeHeader) (all : List InternalEntry) :
    TreeM (Key × PageID) := do
  match all[all.length / 2]? with
  | none => throw ⟨.internal, "btree.splitInternal", "empty internal node"⟩
  | some promote =>
    let rightID ← newPage
    let left ← rebuilt ⟨0, 0, hdr.leftmost⟩ (all.take (all.length / 2))
    let right ← rebuilt ⟨0, 0, promote.child⟩ (all.drop (all.length / 2 + 1))
    write rightID (.internal right)
    write leftID (.internal left)
    pure (promote.key, rightID)

/-- The separator of a new page goes into the page over it. A page that is full is split,
and the separator between the halves goes on to the page over that. -/
def insertSeparator : List PageID → Key → PageID → TreeM Unit
  | [], sep, right => do newRoot (← get).root sep right
  | parentID :: up, sep, right => do
    let n ← reading (·.pinInternal parentID)
    let e ← ofExcept (encodeInternal sep right)
    -- the separator is appended only if it is the last one
    match if n.maxKey.all (· < sep) then n.append e else none with
    | some appended => write parentID (.internal appended)
    | none =>
      let all := Slots.sortBy Record.key (n.collect ++ [e])
      if internalFits all then
        let n' ← rebuilt n.hdr all
        write parentID (.internal n')
      else
        let (promote, rightID) ← splitInternal parentID n.hdr all
        insertSeparator up promote rightID

/-! ## Splitting a leaf -/

/-- The next leaf, if there is one, points back to the new page. -/
def linkBack (next rightID : PageID) : TreeM Unit :=
  if next ≠ 0 then setSiblingPrev next rightID else pure ()

/-- Divide the records of a leaf and a new one over the leaf and a new page. -/
def splitLeafAndInsert (leftID : PageID) (up : List PageID) (hdr : NodeHeader)
    (ents : List LeafEntry) (neu : LeafEntry) : TreeM Unit := do
  clearHint
  let all := Slots.sortBy Record.key (ents ++ [neu])
  if all.length < 2 then
    throw ⟨.invalidArgument, "btree.splitLeaf", "cannot split a single record"⟩
  else
    match splitLeafIndex all with
    | none => throw ⟨.invalidArgument, "btree.splitLeaf", "records cannot be split across two pages"⟩
    | some mid =>
      let sep := ((all.drop mid).head?.map LeafEntry.key).getD []
      let rightID ← newPage
      let left ← rebuilt ⟨hdr.prev, rightID, 0⟩ (all.take mid)
      let right ← rebuilt ⟨leftID, hdr.next, 0⟩ (all.drop mid)
      write rightID (.leaf right)
      write leftID (.leaf left)
      linkBack hdr.next rightID
      insertSeparator up sep rightID

/-- Append a separator to the remembered parent, if it is an internal page whose last
separator is smaller and that has room. -/
def tryAppendSeparator (parentID : PageID) (sep : Key) (right : PageID) : TreeM Bool := do
  match ← asking (·.pinInternal parentID) with
  | .error _ => pure false
  | .ok n =>
    let e ← ofExcept (encodeInternal sep right)
    if n.lastKey.all (· < sep) then
      match n.append e with
      | some appended =>
        write parentID (.internal appended)
        pure true
      | none => pure false
    else pure false

/-- The first part of `attachRight`: the remembered parent is tried before any search. -/
def attachHinted (sep : Key) (rightID : PageID) : TreeM Bool := do
  let hinted ← asking Tree.hintParent
  if hinted ≠ 0 then tryAppendSeparator hinted sep rightID else pure false

/-- The last part of `attachRight`: the parent of the new leaf is remembered. -/
def rememberParent (sep : Key) (up : List PageID) : TreeM Unit :=
  if up = [] then modify fun t => { t with hintParent := t.root }
  else do
    match ← asking (·.descend sep) with
    | .ok (_, parent :: _) => modify fun t => { t with hintParent := parent }
    | _ => pure ()

/-- The separator of a leaf that was split off at the right end of another. -/
def attachRight (leftMax sep : Key) (rightID : PageID) : TreeM Unit := do
  if ← attachHinted sep rightID then pure ()
  else
    modify fun t => { t with hintParent := 0 }
    let (_, up) ← reading (·.descend leftMax)
    insertSeparator up sep rightID
    rememberParent sep up

/-- Leave a full leaf as it is and put a greater key on a new page. -/
def splitLeafAppend (leafID : PageID) (n : Node LeafEntry) (leftMax : Key) (neu : LeafEntry) :
    TreeM Unit := do
  modify fun t => { t with hintRight := 0, hintMax := [] }
  let rightID ← newPage
  match (Node.init ⟨leafID, n.hdr.next, 0⟩ : Node LeafEntry).append neu with
  | none => throw ⟨.pageFull, "page.Append", "page is full"⟩
  | some right =>
    write rightID (.leaf right)
    write leafID (.leaf (n.writeHeader { n.hdr with next := rightID }))
    linkBack n.hdr.next rightID
    noteRight rightID neu.key
    attachRight leftMax neu.key rightID

/-! ## Insertion -/

/-- What `insertAt` and the batch do with a full leaf: the greatest key known decides
between the two ways to split. -/
def fullLeaf (t : Tree) (leafID : PageID) (n : Node LeafEntry) (key : Key) : Option Key :=
  if t.hintRight = leafID ∧ t.hintMax ≠ [] ∧ t.hintMax < key then some t.hintMax
  else n.maxKey.filter (· < key)

def insertAt (key : Key) (value : Bytes) (checkDup : Bool) : TreeM Unit := do
  let (leafID, up) ← reading (·.descend key)
  let n ← reading (·.pinLeaf leafID)
  if checkDup && (findLeafSlot n key).isSome then
    throw ⟨.alreadyExists, "btree.Insert", "duplicate key"⟩
  else
    let neu ← ofExcept (encodeLeaf key value)
    let (n', done) := n.insert neu
    write leafID (.leaf n')
    if done then noteRight leafID key
    else
      match ← asking (fullLeaf · leafID n' key) with
      | some leftMax => splitLeafAppend leafID n' leftMax neu
      | none =>
        if n'.collect = [] then
          throw ⟨.invalidArgument, "btree.Insert", "record exceeds page capacity"⟩
        else splitLeafAndInsert leafID up n'.hdr n'.collect neu

/-- Insert on a leaf already known. A full leaf is searched for again and split. -/
def insertOnLeaf (leafID : PageID) (key : Key) (value : Bytes) : TreeM Unit := do
  match ← asking (·.pin leafID) with
  | .error _ => insertAt key value false
  | .ok (.leaf n) =>
    let neu ← ofExcept (encodeLeaf key value)
    let (n', done) := n.insert neu
    write leafID (.leaf n')
    if done then noteRight leafID key
    else
      clearHint
      insertAt key value false
  | .ok _ =>
    clearHint
    insertAt key value false

/-- The tree part of `Txn.Insert`. A version found under the key is a duplicate if it is
visible; one that is not is replaced by an update, which is no insertion. -/
def insert (key : Key) (value : Bytes) : TreeM Unit := do
  let (leafID, found) ← leafRaw key
  match found with
  | some _ => throw ⟨.alreadyExists, "btree.Txn.Insert", "duplicate key"⟩
  | none => insertOnLeaf leafID key value

end TreeM

end NextSQL.Btree
