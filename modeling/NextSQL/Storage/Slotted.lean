import Mathlib.Data.List.Sort
import NextSQL.Format
import NextSQL.Lib.Result
import NextSQL.Nerr

/-!
# Validating a slotted page

`Page.Validate` reads the header and the slot directory of a page, sorts the
live slots by their start and compares each with the next one. A live slot
without bytes defeats the comparison: when it starts where another slot starts
and is sorted behind it, that slot is not compared with the one that follows.
The slots of a page that is accepted share no byte exactly when those that
start at an empty slot share none (`validate_sound`).
-/

namespace NextSQL.Storage.Slotted

open ByteFields List

def logicalPageSize : Nat := 16384
def pageHeaderSize : Nat := 48
def slotSize : Nat := 4

/-- `encoding.U16` -/
def u16 (buf : Bytes) (offset : Nat) : Nat := getLE (slice buf offset 2)

def slotCount (buf : Bytes) : Nat := u16 buf 32
def lower (buf : Bytes) : Nat := u16 buf 34
def upper (buf : Bytes) : Nat := u16 buf 36

/-- The offset and the length of a record. -/
def slot (buf : Bytes) (i : Nat) : Nat × Nat :=
  let o := pageHeaderSize + i * slotSize
  (u16 buf o, u16 buf (o + 2))

structure Interval where
  lo : Nat
  hi : Nat
deriving DecidableEq, Repr

/-- The slots that are not free, in the order of the directory. -/
def live (buf : Bytes) : List Interval :=
  (range (slotCount buf)).filterMap fun i =>
    let (off, length) := slot buf i
    if length = 0 ∧ off = 0 then none else some ⟨off, off + length⟩

/-- The insertion sort by the start. The part that is sorted is held from right to left. -/
def sortByStart (rs : List Interval) : List Interval :=
  (rs.foldl (fun sorted r => sorted.orderedInsert (fun a b => b.lo ≤ a.lo) r) []).reverse

/-- The comparison of neighbours. -/
def overlapping : List Interval → Bool
  | a :: b :: rest => decide (b.lo < a.hi ∧ a.lo < b.hi) || overlapping (b :: rest)
  | _ => false

def validate (buf : Bytes) : Except Nerr Unit :=
  let fail (code : Code) (message : String) := .error ⟨code, "page.Validate", message⟩
  if buf.length ≠ logicalPageSize then fail .invalidFormat "logical page has wrong size"
  else if slice buf 0 4 ≠ [78, 83, 81, 76] then fail .invalidFormat "bad page magic"
  else if u16 buf 4 ≠ 1 then fail .invalidFormat "unsupported page format version"
  else if u16 buf 6 < 1 ∨ 6 < u16 buf 6 then fail .invalidFormat "unknown page type"
  else if (logicalPageSize - pageHeaderSize) / slotSize < slotCount buf then
    fail .corruption "invalid slot count"
  else if lower buf ≠ pageHeaderSize + slotCount buf * slotSize then
    fail .corruption "lower pointer does not match slot directory"
  else if upper buf < lower buf ∨ logicalPageSize < upper buf then
    fail .corruption "invalid upper pointer"
  else if (live buf).any fun r => r.lo < upper buf || logicalPageSize < r.hi || r.hi < r.lo then
    fail .corruption "slot outside record area"
  else if overlapping (sortByStart (live buf)) then fail .corruption "overlapping slots"
  else .ok ()

variable {rs all : List Interval}

theorem sortByStart_spec (rs : List Interval) :
    (sortByStart rs).Perm rs ∧ (sortByStart rs).Pairwise fun a b => a.lo ≤ b.lo := by
  let before (a b : Interval) : Prop := b.lo ≤ a.lo
  have : Std.Total before := ⟨fun a b => le_total b.lo a.lo⟩
  have : IsTrans Interval before := ⟨fun a b c ab bc => bc.trans ab⟩
  have sorts : sortByStart rs = (rs.reverse.insertionSort before).reverse := by
    rw [sortByStart, insertionSort, foldr_reverse]
  rw [sorts]
  refine ⟨(reverse_perm _).trans ((perm_insertionSort _ _).trans (reverse_perm rs)), ?_⟩
  exact pairwise_reverse.mpr (pairwise_insertionSort before _)

/-! ## Shared bytes -/

/-- The intervals share no byte. -/
def Apart (a b : Interval) : Prop := ∀ x, a.lo ≤ x → x < a.hi → b.lo ≤ x → x < b.hi → False

/-- An empty interval starts where the interval starts. -/
def Masked (rs : List Interval) (a : Interval) : Prop := ∃ z ∈ rs, z.lo = a.lo ∧ z.hi = z.lo

/-- Intervals that start at an empty one share no byte with others. -/
def MaskedApart (rs : List Interval) : Prop :=
  rs.Pairwise fun a b => Masked rs a ∨ Masked rs b → Apart a b

/-- The neighbours decide, where no empty interval stands between them. -/
theorem apart_of_neighbours (sorted : rs.Pairwise fun a b => a.lo ≤ b.lo)
    (proper : ∀ r ∈ rs, r.lo ≤ r.hi) (inside : rs ⊆ all) (passed : overlapping rs = false)
    (masked : rs.Pairwise fun a b => Masked all a ∨ Masked all b → Apart a b) :
    rs.Pairwise Apart := by
  induction rs with
  | nil => exact .nil
  | cons a rest ih =>
    obtain ⟨behind, sorted⟩ := pairwise_cons.mp sorted
    obtain ⟨first, masked⟩ := pairwise_cons.mp masked
    cases rest with
    | nil => exact pairwise_singleton _ _
    | cons c more =>
      simp only [overlapping, Bool.or_eq_false_iff, decide_eq_false_iff_not] at passed
      refine pairwise_cons.mpr ⟨fun b member => ?_, ih sorted
        (fun r later => proper r (mem_cons_of_mem a later))
        (fun r later => inside (mem_cons_of_mem a later)) passed.2 masked⟩
      have start := behind c mem_cons_self
      have size := proper c (mem_cons_of_mem a mem_cons_self)
      by_cases reaches : c.lo < a.hi
      · -- the next one is empty and starts with this one
        exact first b member (.inl ⟨c, inside (mem_cons_of_mem a mem_cons_self), by omega, by omega⟩)
      have later : c.lo ≤ b.lo := by
        obtain rfl | after := mem_cons.mp member
        · exact le_rfl
        · exact (pairwise_cons.mp sorted).1 b after
      intro x
      omega

theorem apart_symm {a b : Interval} (apart : Apart a b) : Apart b a :=
  fun x inB belowB inA belowA => apart x inA belowA inB belowB

/-- **What an accepted page promises.** Its live slots lie in the record area, and no two of
them share a byte, if those at whose start an empty slot stands do not. -/
theorem validate_sound {buf : Bytes} (accepted : validate buf = .ok ()) :
    (∀ r ∈ live buf, upper buf ≤ r.lo ∧ r.hi ≤ logicalPageSize) ∧
      ((live buf).Pairwise Apart ↔ MaskedApart (live buf)) := by
  simp only [validate, Except.ite_error_eq_ok_iff] at accepted
  obtain ⟨-, -, -, -, -, -, -, within, passed, -⟩ := accepted
  have within : ∀ r ∈ live buf, upper buf ≤ r.lo ∧ r.hi ≤ logicalPageSize ∧ r.lo ≤ r.hi := by
    simpa [and_assoc] using within
  obtain ⟨perm, sorted⟩ := sortByStart_spec (live buf)
  refine ⟨fun r member => ⟨(within r member).1, (within r member).2.1⟩, ?_, fun masked => ?_⟩
  · intro apart
    refine apart.imp ?_
    exact fun here _ => here
  refine (perm.pairwise_iff apart_symm).mp (apart_of_neighbours sorted
    (fun r member => (within r (perm.mem_iff.mp member)).2.2) perm.subset
    (Bool.eq_false_iff.mpr passed) ?_)
  refine (perm.pairwise_iff fun here either => ?_).mpr masked
  exact apart_symm (here either.symm)

/-- A page with these slots. -/
def pageOf (slots : List (Nat × Nat)) : Bytes :=
  let directory := slots.flatMap fun s => le 2 s.1 ++ le 2 s.2
  [78, 83, 81, 76] ++ le 2 1 ++ le 2 2 ++ le 8 1 ++ le 8 0 ++ le 8 0 ++ le 2 slots.length ++
    le 2 (48 + directory.length) ++ le 2 1000 ++ replicate 10 0 ++ directory ++
    replicate (16336 - directory.length) 0

/-- Two records beside each other, and one of no bytes between them. -/
theorem validate_sound_beside : validate (pageOf [(1010, 5), (1010, 0), (1000, 10)]) = .ok () ∧
    ((live (pageOf [(1010, 5), (1010, 0), (1000, 10)])).Pairwise Apart ↔
      MaskedApart (live (pageOf [(1010, 5), (1010, 0), (1000, 10)]))) :=
  have accepted : validate (pageOf [(1010, 5), (1010, 0), (1000, 10)]) = .ok () := by decide +kernel
  ⟨accepted, (validate_sound accepted).2⟩

/-- The first slot covers the third. The second is empty and starts with the first, so that the
first and the third are no neighbours. -/
theorem validate_accepts_overlap :
    validate (pageOf [(1000, 10), (1000, 0), (1005, 3)]) = .ok () ∧
      ¬ (live (pageOf [(1000, 10), (1000, 0), (1005, 3)])).Pairwise Apart := by
  have slots : live (pageOf [(1000, 10), (1000, 0), (1005, 3)]) =
      [⟨1000, 1010⟩, ⟨1000, 1000⟩, ⟨1005, 1008⟩] := by decide +kernel
  refine ⟨by decide +kernel, fun apart => ?_⟩
  rw [slots, pairwise_cons] at apart
  exact apart.1 ⟨1005, 1008⟩ (by decide) 1005 (by decide) (by decide) (by decide) (by decide)

end NextSQL.Storage.Slotted
