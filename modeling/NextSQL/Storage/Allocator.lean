import Mathlib.Data.List.Nodup
import NextSQL.Recovery.Redo

/-!
# The page allocator

The allocator hands out page ids from a list of free pages or, when there is
none, from the end of the file (`internal/storage/allocator`). `Flush` writes
the free list to freelist pages, which the allocator takes for itself and links
into a chain, and writes the next page id, the head of the chain and the length
of the list into the superblock. `reload` reads them back and refuses a chain
that does not fit these three numbers.

`reload_metaPages` shows that a chain written for a free list is read back as
that list.
-/

namespace NextSQL.Storage

open Recovery List

/-- A page of the data file: of the freelist, with the link kept in `TxnMeta`, or of a tree,
with the pages it refers to. -/
inductive Content where
  | freelist (ids : List PageID) (link : PageID)
  | node (children : List PageID)
deriving DecidableEq, Repr

def idsPerMetaPage : Nat := 1024

/-- `PageID.UserData` -/
def userData (id : PageID) : Except Nerr Unit :=
  if id = 0 then
    .error ⟨.invalidArgument, "format.PageID", "page id 0 is reserved for the superblock"⟩
  else .ok ()

/-- The set of free ids, `set` in the source, is that of the list. -/
structure Allocator where
  next : PageID
  free : List PageID
  «meta» : List PageID
  dirty : Bool
  capPages : PageID
deriving DecidableEq, Repr

namespace Allocator

/-! ## Handing out and taking back -/

/-- `freeHeadLocked` -/
def freeHead (a : Allocator) : PageID :=
  if a.free = [] ∨ a.meta = [] then 0 else a.meta.headD 0

/-- What `SetAllocStateMem` is given. -/
def state (a : Allocator) : AllocState := ⟨a.next, a.freeHead, a.free.length⟩

def alloc (a : Allocator) : Except Nerr (PageID × Allocator) :=
  match a.free.getLast? with
  | some id => .ok (id, { a with free := a.free.dropLast, dirty := true })
  | none =>
    if a.capPages ≠ 0 ∧ a.capPages ≤ a.next then
      .error ⟨.exhausted, "allocator.Alloc", "storage cap exceeded"⟩
    else do
      userData a.next
      pure (a.next, { a with next := a.next + 1, dirty := true })

/-- `Free` -/
def release (a : Allocator) (id : PageID) : Except Nerr Allocator := do
  userData id
  if a.next ≤ id then
    throw ⟨.invalidArgument, "allocator.Free", "page id was never allocated"⟩
  else if id ∈ a.free then
    throw ⟨.invalidArgument, "allocator.Free", "page id is already free"⟩
  else if id ∈ a.meta then
    throw ⟨.invalidArgument, "allocator.Free", "cannot free allocator metadata page"⟩
  else pure { a with free := a.free ++ [id], dirty := true }

/-! ## Writing the free list -/

/-- The number of freelist pages `persist` needs; it never gives one back. -/
def need (a : Allocator) : Nat :=
  let n := if a.free = [] then 0 else (a.free.length + idsPerMetaPage - 1) / idsPerMetaPage
  let n := if n = 0 ∧ a.meta ≠ [] then 1 else n
  if n < a.meta.length then a.meta.length else n

/-- The freelist pages that are missing are taken from the end of the file. -/
def grow (a : Allocator) : Allocator :=
  { a with
    next := a.next + (a.need - a.meta.length)
    «meta» := a.meta ++ List.range' a.next (a.need - a.meta.length) }

/-- The freelist pages, each with its part of the list and the link to the next one. -/
def metaPages : List PageID → List PageID → List (PageID × Content)
  | [], _ => []
  | pid :: rest, free =>
    (pid, .freelist (free.take idsPerMetaPage) (rest.headD 0)) ::
      metaPages rest (free.drop idsPerMetaPage)

/-- What `persist` gives to `SetAllocState` at its end. -/
def persistedState (a : Allocator) : AllocState := ⟨a.next, a.meta.headD 0, a.free.length⟩

/-! ## Reading it back -/

/-- The ids of one freelist page, added to those found before. -/
def readIds (next : PageID) : List PageID → List PageID → Except Nerr (List PageID)
  | free, [] => .ok free
  | free, id :: ids => do
    userData id
    if next ≤ id then
      throw ⟨.corruption, "allocator.Open", "free page id is beyond the allocation high-water mark"⟩
    else if id ∈ free then
      throw ⟨.corruption, "allocator.Open", "duplicate free page id"⟩
    else readIds next (free ++ [id]) ids

/-- The walk along the chain; `none` if it needs more steps. -/
def readChain (pages : Pages Content) (next : PageID) :
    Nat → PageID → List PageID → List PageID → Option (Except Nerr (List PageID × List PageID))
  | 0, _, _, _ => none
  | steps + 1, cur, seen, free =>
    if cur = 0 then some (.ok (seen, free))
    else if cur ∈ seen then
      some (.error ⟨.corruption, "allocator.Open", "freelist cycle"⟩)
    else
      match (pages cur).map Page.content with
      | none => some (.error ⟨.io, "file.ReadLogical", "unreadable page"⟩)
      | some (.node _) =>
        some (.error ⟨.corruption, "allocator.Open", "freelist page has wrong type"⟩)
      | some (.freelist ids link) =>
        match readIds next free ids with
        | .error e => some (.error e)
        | .ok free' => readChain pages next steps link (seen ++ [cur]) free'

/-- `reloadLocked` -/
def reload (steps : Nat) (pages : Pages Content) (st : AllocState) :
    Option (Except Nerr Allocator) :=
  if st.freeHead = 0 ∧ st.freeCount ≠ 0 then
    some (.error ⟨.corruption, "allocator.Open", "freelist count without head"⟩)
  else
    (readChain pages st.next steps st.freeHead [] []).map fun read => do
      let (seen, free) ← read
      if seen.any (· ∈ free) then
        throw ⟨.corruption, "allocator.Open", "freelist metadata page is listed as free"⟩
      else if free.length ≠ st.freeCount then
        throw ⟨.corruption, "allocator.Open", "freelist count mismatch"⟩
      else pure ⟨st.next, free, seen, false, 0⟩

/-! ## The allocator's own invariant -/

/-- Free pages and freelist pages are different pages that were handed out. -/
structure Sound (a : Allocator) : Prop where
  distinct : (a.free ++ a.meta).Nodup
  positive : ∀ id ∈ a.free ++ a.meta, id ≠ 0
  below : ∀ id ∈ a.free ++ a.meta, id < a.next
  started : a.next ≠ 0

variable {a b : Allocator} {id : PageID}

theorem free_alloc (done : a.alloc = .ok (id, b)) :
    b.meta = a.meta ∧ a.next ≤ b.next ∧ b.dirty ∧
      (a.free = b.free ++ [id] ∧ b.next = a.next ∨
        a.free = [] ∧ b.free = [] ∧ id = a.next ∧ b.next = a.next + 1) := by
  unfold alloc at done
  cases last : a.free.getLast? with
  | some x =>
    rw [last] at done
    have split : a.free = a.free.dropLast ++ [x] := by
      obtain ⟨front, same⟩ := getLast?_eq_some_iff.mp last
      rw [same, dropLast_concat]
    cases done
    exact ⟨rfl, le_rfl, rfl, .inl ⟨split, rfl⟩⟩
  | none =>
    rw [last] at done
    have empty := getLast?_eq_none_iff.mp last
    dsimp only at done
    split at done
    · cases done
    unfold userData at done
    split at done
    · cases done
    · cases done
      exact ⟨rfl, Nat.le_succ _, rfl, .inr ⟨empty, empty, rfl, rfl⟩⟩

theorem Sound.alloc (sound : a.Sound) (done : a.alloc = .ok (id, b)) : b.Sound := by
  obtain ⟨sameMeta, le, -, ⟨free, next⟩ | ⟨empty, empty', -, next⟩⟩ := free_alloc done
  · have sub : (b.free ++ b.meta).Sublist (a.free ++ a.meta) := by
      rw [sameMeta, free]
      exact (sublist_append_left _ _).append_right _
    exact ⟨sub.nodup sound.distinct, fun x member => sound.positive x (sub.subset member),
      fun x member => next ▸ sound.below x (sub.subset member), next ▸ sound.started⟩
  · have same : b.free ++ b.meta = a.free ++ a.meta := by rw [sameMeta, empty, empty']
    exact ⟨same ▸ sound.distinct, same ▸ sound.positive,
      fun x member => (sound.below x (same ▸ member)).trans_le le, by rw [next]; exact Nat.succ_ne_zero _⟩

theorem free_release (done : a.release id = .ok b) :
    b = { a with free := a.free ++ [id], dirty := true } ∧
      id ≠ 0 ∧ id < a.next ∧ id ∉ a.free ∧ id ∉ a.meta := by
  unfold release userData at done
  by_cases zero : id = 0
  · rw [if_pos zero] at done
    cases done
  rw [if_neg zero] at done
  by_cases beyond : a.next ≤ id
  · simp only [if_pos beyond] at done
    cases done
  by_cases already : id ∈ a.free
  · simp only [if_neg beyond, if_pos already] at done
    cases done
  by_cases own : id ∈ a.meta
  · simp only [if_neg beyond, if_neg already, if_pos own] at done
    cases done
  simp only [if_neg beyond, if_neg already, if_neg own] at done
  cases done
  exact ⟨rfl, zero, Nat.lt_of_not_le beyond, already, own⟩

theorem Sound.release (sound : a.Sound) (done : a.release id = .ok b) : b.Sound := by
  obtain ⟨rfl, positive, below, fresh, foreign⟩ := free_release done
  have mem : ∀ x, x ∈ (a.free ++ [id]) ++ a.meta ↔ x = id ∨ x ∈ a.free ++ a.meta := by
    intro x
    simp only [mem_append, mem_singleton]
    tauto
  refine ⟨?_, ?_, ?_, sound.started⟩
  · have perm : ((a.free ++ [id]) ++ a.meta).Perm (id :: (a.free ++ a.meta)) := by
      rw [append_assoc]
      exact perm_middle
    rw [perm.nodup_iff, nodup_cons, mem_append]
    exact ⟨not_or.mpr ⟨fresh, foreign⟩, sound.distinct⟩
  · intro x member
    obtain rfl | old := (mem x).mp member
    · exact positive
    · exact sound.positive x old
  · intro x member
    obtain rfl | old := (mem x).mp member
    · exact below
    · exact sound.below x old

/-! ## What a flush writes -/

theorem need_eq_max (a : Allocator) :
    a.need = max ((a.free.length + idsPerMetaPage - 1) / idsPerMetaPage) a.meta.length := by
  have blocks : (if a.free = [] then 0
      else (a.free.length + idsPerMetaPage - 1) / idsPerMetaPage) =
        (a.free.length + idsPerMetaPage - 1) / idsPerMetaPage := by
    split
    next empty => rw [empty]; rfl
    · rfl
  have one : a.meta ≠ [] → 1 ≤ a.meta.length := length_pos_iff.mpr
  rw [need, blocks]
  split
  next h =>
    have := one h.2
    split <;> omega
  · split <;> omega

/-- There is a freelist page for every block of the list. -/
theorem length_le_need (a : Allocator) : a.free.length ≤ idsPerMetaPage * a.need := by
  rw [need_eq_max]
  refine le_trans ?_ (Nat.mul_le_mul_left _ (le_max_left _ _))
  unfold idsPerMetaPage
  omega

/-- A free list that has room on the freelist pages needs no more of them. -/
theorem grow_of_fits (fits : a.free.length ≤ idsPerMetaPage * a.meta.length) : a.grow = a := by
  have need : a.need = a.meta.length := by
    rw [need_eq_max]
    refine Nat.max_eq_right ?_
    unfold idsPerMetaPage at *
    omega
  rw [grow, need, Nat.sub_self, range'_zero, append_nil]
  rfl

theorem length_meta_grow (a : Allocator) : a.grow.meta.length = a.need := by
  have le : a.meta.length ≤ a.need := a.need_eq_max ▸ le_max_right _ _
  simp only [grow, length_append, length_range']
  omega

theorem Sound.grow (sound : a.Sound) : a.grow.Sound := by
  have le : a.next ≤ a.grow.next := Nat.le_add_right _ _
  have mem : ∀ x, x ∈ a.grow.free ++ a.grow.meta → x ∈ a.free ++ a.meta ∨
      (a.next ≤ x ∧ x < a.grow.next) := by
    intro x member
    simp only [Allocator.grow, ← append_assoc] at member
    obtain old | new := mem_append.mp member
    · exact .inl old
    · exact .inr (mem_range'_1.mp new)
  refine ⟨?_, ?_, ?_, ?_⟩
  · simp only [Allocator.grow, ← append_assoc]
    refine Nodup.append sound.distinct nodup_range' ?_
    intro x old new
    exact absurd (sound.below x old) (not_lt.mpr (mem_range'_1.mp new).1)
  · intro x member
    obtain old | ⟨ge, -⟩ := mem x member
    · exact sound.positive x old
    · exact fun zero => sound.started (Nat.le_zero.mp (zero ▸ ge))
  · intro x member
    obtain old | ⟨-, lt⟩ := mem x member
    · exact (sound.below x old).trans_le le
    · exact lt
  · exact fun zero => sound.started (Nat.le_zero.mp (zero ▸ le))

/-- The file holds these pages, whatever their LSNs. -/
def Holds (pages : Pages Content) (writes : List (PageID × Content)) : Prop :=
  ∀ w ∈ writes, (pages w.1).map Page.content = some w.2

theorem map_fst_metaPages (ids free : List PageID) : (metaPages ids free).map Prod.fst = ids := by
  induction ids generalizing free with
  | nil => rfl
  | cons pid rest ih => rw [metaPages, map_cons, ih]

variable {ids : List PageID}

theorem freelist_of_mem_metaPages {free : List PageID} {w : PageID × Content}
    (member : w ∈ metaPages ids free) : ∃ part link, w.2 = .freelist part link := by
  induction ids generalizing free with
  | nil => cases member
  | cons pid rest ih =>
    obtain rfl | later := mem_cons.mp member
    · exact ⟨_, _, rfl⟩
    · exact ih later

/-! ## Reading back what was written -/

variable {next : PageID}

theorem readIds_ok : ∀ {free : List PageID}, (free ++ ids).Nodup → (∀ x ∈ ids, x ≠ 0 ∧ x < next) →
      readIds next free ids = .ok (free ++ ids) := by
  induction ids with
  | nil =>
    intro free _ _
    rw [append_nil, readIds]
  | cons x rest ih =>
    intro free distinct inside
    obtain ⟨positive, below⟩ := inside x mem_cons_self
    have fresh : x ∉ free := by
      intro member
      exact (nodup_append.mp distinct).2.2 x member x mem_cons_self rfl
    have step : readIds next free (x :: rest) = readIds next (free ++ [x]) rest := by
      simp [readIds, userData, positive, not_le.mpr below, fresh, bind, Except.bind]
    rw [step, ih (by simpa using distinct) fun y member => inside y (mem_cons_of_mem x member)]
    simp

variable {pages : Pages Content}

/-- A chain written for a list is walked to its end, and gives that list. -/
theorem readChain_metaPages : ∀ {free seen found : List PageID}, Holds pages (metaPages ids free) →
      free.length ≤ idsPerMetaPage * ids.length → (seen ++ ids).Nodup → (∀ x ∈ ids, x ≠ 0) →
      (found ++ free).Nodup → (∀ x ∈ free, x ≠ 0 ∧ x < next) → ∀ steps, ids.length < steps →
      readChain pages next steps (ids.headD 0) seen found =
        some (.ok (seen ++ ids, found ++ free)) := by
  induction ids with
  | nil =>
    intro free seen found _ fits _ _ _ _ steps enough
    obtain ⟨steps, rfl⟩ := Nat.exists_eq_succ_of_ne_zero (Nat.ne_of_gt enough)
    have empty : free = [] := length_eq_zero_iff.mp (Nat.le_zero.mp fits)
    simp [readChain, empty]
  | cons pid rest ih =>
    intro free seen found holds fits distinct positive distinctFree inside steps enough
    obtain ⟨steps, rfl⟩ := Nat.exists_eq_succ_of_ne_zero (Nat.ne_of_gt (Nat.zero_lt_of_lt enough))
    have page := holds _ mem_cons_self
    have fresh : pid ∉ seen := fun member =>
      (nodup_append.mp distinct).2.2 pid member pid mem_cons_self rfl
    have parts : found ++ free =
        (found ++ free.take idsPerMetaPage) ++ free.drop idsPerMetaPage := by
      rw [append_assoc, take_append_drop]
    have ids : readIds next found (free.take idsPerMetaPage) =
        .ok (found ++ free.take idsPerMetaPage) :=
      readIds_ok (Nodup.of_append_left (parts ▸ distinctFree))
        fun x member => inside x (mem_of_mem_take member)
    rw [headD_cons, readChain, if_neg (positive pid mem_cons_self), if_neg fresh, page]
    dsimp only
    rw [ids]
    dsimp only
    rw [ih (fun w member => holds w (mem_cons_of_mem _ member)) ?_ (by simpa using distinct)
      (fun x member => positive x (mem_cons_of_mem pid member)) (parts ▸ distinctFree)
      (fun x member => inside x (mem_of_mem_drop member)) steps
      (Nat.lt_of_succ_lt_succ enough)]
    · simp
    · rw [length_drop, length_cons] at *
      lia

theorem readChain_mono {more : Nat} {result : Except Nerr (List PageID × List PageID)} :
    ∀ {steps : Nat} {cur : PageID} {seen free : List PageID},
      readChain pages next steps cur seen free = some result →
        readChain pages next (steps + more) cur seen free = some result := by
  intro steps
  induction steps with
  | zero => exact fun done => (nomatch done)
  | succ steps ih =>
    intro cur seen free done
    rw [Nat.add_right_comm, readChain]
    rw [readChain] at done
    by_cases ended : cur = 0
    · rw [if_pos ended] at done ⊢
      exact done
    rw [if_neg ended] at done ⊢
    by_cases cycle : cur ∈ seen
    · rw [if_pos cycle] at done ⊢
      exact done
    rw [if_neg cycle] at done ⊢
    cases content : (pages cur).map Page.content with
    | none =>
      rw [content] at done
      exact done
    | some page =>
      rw [content] at done
      cases page with
      | node children => exact done
      | freelist ids link =>
        dsimp only at done ⊢
        cases read : readIds next free ids with
        | error e =>
          rw [read] at done
          exact done
        | ok free' =>
          rw [read] at done
          exact ih done

theorem reload_mono {st : AllocState} {steps more : Nat} {result : Except Nerr Allocator}
    (done : reload steps pages st = some result) : reload (steps + more) pages st = some result := by
  unfold reload at *
  by_cases headless : st.freeHead = 0 ∧ st.freeCount ≠ 0
  · rw [if_pos headless] at done ⊢
    exact done
  rw [if_neg headless] at done ⊢
  obtain ⟨read, walked, same⟩ := Option.map_eq_some_iff.mp done
  rw [readChain_mono walked, ← same]
  rfl

/-- **What a flush wrote is read back.** -/
theorem reload_metaPages (sound : a.Sound) (fits : a.free.length ≤ idsPerMetaPage * a.meta.length)
    (holds : Holds pages (metaPages a.meta a.free)) {steps : Nat} (enough : a.meta.length < steps) :
    reload steps pages a.persistedState = some (.ok { a with dirty := false, capPages := 0 }) := by
  have inside : ∀ x ∈ a.free, x ≠ 0 ∧ x < a.next := fun x member =>
    ⟨sound.positive x (mem_append_left _ member), sound.below x (mem_append_left _ member)⟩
  have read : readChain pages a.next steps (a.meta.headD 0) [] [] = some (.ok (a.meta, a.free)) :=
    readChain_metaPages holds fits (Nodup.of_append_right sound.distinct)
      (fun x member => sound.positive x (mem_append_right _ member))
      (Nodup.of_append_left sound.distinct) inside steps enough
  have headed : ¬(a.persistedState.freeHead = 0 ∧ a.persistedState.freeCount ≠ 0) := by
    rintro ⟨noHead, some⟩
    cases ids : a.meta with
    | nil =>
      rw [ids] at fits
      exact some (Nat.le_zero.mp fits)
    | cons pid rest =>
      refine sound.positive pid (mem_append_right _ (ids ▸ mem_cons_self)) ?_
      simpa [persistedState, ids] using noHead
  have apart : ∀ x ∈ a.meta, x ∉ a.free := fun x own member =>
    (nodup_append.mp sound.distinct).2.2 x member x own rfl
  rw [reload, if_neg headed]
  dsimp only [persistedState] at *
  rw [read]
  simpa [bind, Except.bind, pure, Except.pure] using apart

end Allocator

end NextSQL.Storage
