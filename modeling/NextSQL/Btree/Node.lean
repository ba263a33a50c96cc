import Mathlib.Data.Fintype.Basic
import NextSQL.Format
import NextSQL.Nerr
import NextSQL.Lib.Slots

/-!
# Node pages

A node of the tree is a slotted page whose slot zero holds the node header. The
other slots hold records: a key and a value on a leaf, a separator and a child
on an internal page. Records are written through `encodeLeaf` and
`encodeInternal` only, so their types carry what these two check.

The records of a page take its upper end, `upper` on, and the slot directory
its lower end. `Insert` takes a free slot before it grows the directory and
packs the records before it gives up; `Append` does neither. A page type
carries what `Validate` checks: the directory ends below the records and the
records fit between `upper` and the end of the page.
-/

namespace NextSQL.Btree

def logicalPageSize : Nat := 16384

def pageHeaderSize : Nat := 48

def slotSize : Nat := 4

/-- The size of the node header record. -/
def headerSize : Nat := 28

def maxKeySize : Nat := 2048

def maxPayload : Nat := logicalPageSize - pageHeaderSize - headerSize - 2 * slotSize

def maxLeafRecord : Nat := (logicalPageSize - pageHeaderSize - headerSize - 3 * slotSize) / 2

structure NodeHeader where
  prev : PageID
  next : PageID
  leftmost : PageID
deriving DecidableEq, Repr

/-! ## Records -/

/-- What `checkKey` accepts. -/
def KeyOk (key : Key) : Prop := 0 < key.length ∧ key.length ≤ maxKeySize

instance (key : Key) : Decidable (KeyOk key) := inferInstanceAs (Decidable (_ ∧ _))

def checkKey (key : Key) : Except Nerr (PLift (KeyOk key)) :=
  if empty : key.length = 0 then
    .error ⟨.invalidArgument, "btree.checkKey", "key must not be empty"⟩
  else if long : maxKeySize < key.length then
    .error ⟨.invalidArgument, "btree.checkKey", "key exceeds maximum size"⟩
  else .ok ⟨Nat.pos_of_ne_zero empty, Nat.le_of_not_lt long⟩

/-- A record of a leaf. -/
structure LeafEntry where
  key : Key
  value : Bytes
  keyOk : KeyOk key
  fits : 4 + key.length + value.length ≤ maxLeafRecord
deriving DecidableEq

/-- A record of an internal page. -/
structure InternalEntry where
  key : Key
  child : PageID
  keyOk : KeyOk key
  userData : child ≠ 0
deriving DecidableEq

def encodeLeaf (key : Key) (value : Bytes) : Except Nerr LeafEntry := do
  let ⟨keyOk⟩ ← checkKey key
  if fits : 4 + key.length + value.length ≤ maxLeafRecord then
    .ok ⟨key, value, keyOk, fits⟩
  else .error ⟨.invalidArgument, "btree.encodeLeaf", "record exceeds page capacity"⟩

def encodeInternal (key : Key) (child : PageID) : Except Nerr InternalEntry := do
  let ⟨keyOk⟩ ← checkKey key
  if superblock : child = 0 then
    .error ⟨.invalidArgument, "format.PageID", "page id 0 is reserved for the superblock"⟩
  else .ok ⟨key, child, keyOk, superblock⟩

/-- What the page code needs to know of a record. -/
class Record (ρ : Type) where
  key : ρ → Key
  size : ρ → Nat

def leafRecordSize (e : LeafEntry) : Nat := 4 + e.key.length + e.value.length

def internalRecordSize (e : InternalEntry) : Nat := 2 + e.key.length + 8

instance : Record LeafEntry := ⟨LeafEntry.key, leafRecordSize⟩

instance : Record InternalEntry := ⟨InternalEntry.key, internalRecordSize⟩

@[simp] theorem record_key_leaf (e : LeafEntry) : Record.key e = e.key := rfl

@[simp] theorem record_size_leaf (e : LeafEntry) :
    Record.size e = 4 + e.key.length + e.value.length := rfl

@[simp] theorem record_size_internal (e : InternalEntry) :
    Record.size e = 2 + e.key.length + 8 := rfl

variable {key : Key}

@[simp] theorem checkKey_of_ok (keyOk : KeyOk key) : checkKey key = .ok ⟨keyOk⟩ := by
  rw [checkKey, dif_neg keyOk.1.ne', dif_neg (not_lt.mpr keyOk.2)]

theorem encodeLeaf_of_fits {value : Bytes} (keyOk : KeyOk key)
    (fits : 4 + key.length + value.length ≤ maxLeafRecord) :
    encodeLeaf key value = .ok ⟨key, value, keyOk, fits⟩ := by
  simp only [encodeLeaf, checkKey_of_ok keyOk, dif_pos fits]
  rfl

theorem encodeInternal_of_ok {child : PageID} (keyOk : KeyOk key) (userData : child ≠ 0) :
    encodeInternal key child = .ok ⟨key, child, keyOk, userData⟩ := by
  simp only [encodeInternal, checkKey_of_ok keyOk, dif_neg userData]
  rfl

/-! ## Slotted pages -/

section Pages

variable {ρ : Type} [Record ρ]

/-- The bytes of some records. -/
def payload (records : List ρ) : Nat := (records.map Record.size).sum

@[simp] theorem payload_nil : payload ([] : List ρ) = 0 := rfl

@[simp] theorem payload_cons (r : ρ) (records : List ρ) :
    payload (r :: records) = Record.size r + payload records := rfl

@[simp] theorem payload_append (xs ys : List ρ) :
    payload (xs ++ ys) = payload xs + payload ys := by
  simp [payload]

variable {xs ys : List ρ}

theorem payload_perm (perm : xs.Perm ys) : payload xs = payload ys :=
  (perm.map _).sum_eq

/-- A node page. Slot zero, the header, is `hdr`; `slots` are the others. -/
structure Node (ρ : Type) [Record ρ] where
  hdr : NodeHeader
  slots : List (Option ρ)
  /-- Where the records begin. -/
  upper : Nat
  lower_le : pageHeaderSize + slotSize * (1 + slots.length) ≤ upper
  records_le : upper + (headerSize + payload slots.reduceOption) ≤ logicalPageSize
deriving DecidableEq

namespace Node

/-- The records on the page, in slot order. -/
def live (n : Node ρ) : List ρ := n.slots.reduceOption

/-- Where the slot directory ends. -/
def lower (n : Node ρ) : Nat := pageHeaderSize + slotSize * (1 + n.slots.length)

/-- A new page that holds the header only. -/
def init (hdr : NodeHeader) : Node ρ where
  hdr
  slots := []
  upper := logicalPageSize - headerSize
  lower_le := by simp [logicalPageSize, headerSize, pageHeaderSize, slotSize]
  records_le := by simp [logicalPageSize, headerSize]

def writeHeader (n : Node ρ) (hdr : NodeHeader) : Node ρ := { n with hdr }

/-- Pack the records to the end of the page. -/
def compact (n : Node ρ) : Node ρ where
  hdr := n.hdr
  slots := n.slots
  upper := logicalPageSize - (headerSize + payload n.slots.reduceOption)
  lower_le := by
    have := n.lower_le
    have := n.records_le
    omega
  records_le := by
    have := n.records_le
    omega

/-- The next slot, with no search for a free one. -/
def append (n : Node ρ) (r : ρ) : Option (Node ρ) :=
  if fits : n.lower + (Record.size r + slotSize) ≤ n.upper then
    some {
      hdr := n.hdr
      slots := n.slots ++ [some r]
      upper := n.upper - Record.size r
      lower_le := by
        simp only [lower] at fits
        simp only [List.length_append, List.length_singleton]
        rw [show 1 + (n.slots.length + 1) = (1 + n.slots.length) + 1 by omega, Nat.mul_add]
        omega
      records_le := by
        have := n.records_le
        simp only [List.reduceOption_append, List.reduceOption_singleton, Option.toList_some,
          payload_append, payload_cons, payload_nil]
        omega }
  else none

/-- The bytes `Insert` needs: the record, and a slot if none is free. -/
def need (n : Node ρ) (r : ρ) : Nat :=
  Record.size r + if (n.slots.findIdx? Option.isNone).isSome then 0 else slotSize

/-- `Insert` into a page that has the space. -/
def put (n : Node ρ) (r : ρ) (fits : n.lower + n.need r ≤ n.upper) : Node ρ where
  hdr := n.hdr
  slots := Slots.place n.slots r
  upper := n.upper - Record.size r
  lower_le := by
    rw [Slots.length_place]
    simp only [lower, need] at fits
    split at fits
    next reused =>
      simp only [reused, if_true, Nat.add_zero]
      omega
    next fresh =>
    simp only [fresh, slotSize] at fits ⊢
    simp only [Bool.false_eq_true, if_false]
    omega
  records_le := by
    have := n.records_le
    rw [payload_perm (Slots.reduceOption_place n.slots r), payload_cons]
    simp only [need] at fits
    omega

/-- The page as `Insert` leaves it, and whether the record is on it. A page found
full has been packed. -/
def insert (n : Node ρ) (r : ρ) : Node ρ × Bool :=
  if fits : n.lower + n.need r ≤ n.upper then (n.put r fits, true)
  else if fits : n.compact.lower + n.compact.need r ≤ n.compact.upper then
    (n.compact.put r fits, true)
  else (n.compact, false)

/-- A new page with the records, put on it one by one; none if it gets full. -/
def rebuild (hdr : NodeHeader) (records : List ρ) : Option (Node ρ) :=
  records.foldlM (fun n r => match n.insert r with
    | (n', true) => some n'
    | (_, false) => none) (init hdr)

/-- The greatest key on the page. -/
def maxKey (n : Node ρ) : Option Key :=
  n.live.foldl (fun max r => match max with
    | none => some (Record.key r)
    | some k => if k < Record.key r then some (Record.key r) else some k) none

/-- The key of the last slot in use. -/
def lastKey (n : Node ρ) : Option Key := n.live.getLast?.map Record.key

/-- The records in key order. -/
def collect (n : Node ρ) : List ρ := Slots.sortBy Record.key n.live

/-- The records of a page together with one more, by key. -/
abbrev collectWith (n : Node ρ) (e : ρ) : List ρ := Slots.sortBy Record.key (n.collect ++ [e])

end Node

/-- The bytes a page with the records takes. -/
def pageBytes (records : List ρ) : Nat :=
  pageHeaderSize + slotSize * (1 + records.length) + headerSize + payload records

end Pages

/-! ## Leaves -/

def leafFits (ents : List LeafEntry) : Bool :=
  ents.all (fun e => leafRecordSize e ≤ maxLeafRecord) && pageBytes ents ≤ logicalPageSize

/-- The last slot that holds the key, and its value. -/
def findLeafSlot (n : Node LeafEntry) (key : Key) : Option (Nat × Bytes) :=
  n.slots.zipIdx.foldl (fun found slot => match slot with
    | (some e, i) => if e.key = key then some (i, e.value) else found
    | (none, _) => found) none

/-- Where a leaf is cut: as close to the middle as the two pages allow. -/
def splitLeafIndex (ents : List LeafEntry) : Option Nat :=
  let target := ents.length / 2
  (List.range' 1 (ents.length - 1)).foldl (fun best mid =>
    if leafFits (ents.take mid) && leafFits (ents.drop mid) then
      match best with
      | none => some mid
      | some other =>
        -- the distance to the middle, whichever side it is on
        let delta (i : Nat) := (i - target) + (target - i)
        if delta mid < delta other then some mid else best
    else best) none

/-! ## Internal pages -/

def internalFits (ents : List InternalEntry) : Bool :=
  ents.all (fun e => decide (KeyOk e.key) && internalRecordSize e ≤ maxPayload) &&
    pageBytes ents ≤ logicalPageSize

/-- The last child whose separator the key reaches. -/
def childForKey : PageID → List InternalEntry → Key → PageID
  | child, [], _ => child
  | child, e :: rest, key => if e.key ≤ key then childForKey e.child rest key else child

end NextSQL.Btree
