import NextSQL.Storage.PageStore

/-!
# What a crash brings back

For every part of the log that a crash may leave, `Loads` says what the next
open finds: the last allocator record names no freelist page, or the chain of
the last flush with the list it had then; the tree of the log has no free page;
and the pages redo changes are no freelist pages. `OnDisk` says that the file
holds the chain of the last flush.

Records of transactions that do not commit change nothing of this
(`Loads.append_open`). A group of records ends with an allocator record and a
commit record, and only the two of them count (`Sound.logGroup`).
-/

namespace NextSQL.Storage.PageStore

open GuardedRuns Recovery List

/-! ## Records that do not change what is loaded -/

section Windows

variable {recs more : List (Record Content)}

/-- Records of transactions that do not commit, none of them a checkpoint. -/
structure Open (recs more : List (Record Content)) : Prop where
  noCommit : ∀ r ∈ more, r.body.isCommit = false
  noCheckpoint : ∀ r ∈ more, isCheckpoint r = false
  pending : ∀ r ∈ more, committed recs r.txn = false

theorem Open.committed_eq (still : Open recs more) : committed (recs ++ more) = committed recs := by
  funext t
  have none : committed more t = false := by
    simp only [committed, any_eq_false]
    intro r member
    simp [still.noCommit r member]
  rw [committed_append, none, Bool.or_false]

variable {r : Record Content}

theorem Open.silent (still : Open recs more) (member : r ∈ more) :
    allocOf (committed recs) r = none ∧ treeOf (committed recs) r = none := by
  have noCheckpoint := still.noCheckpoint r member
  have pending := still.pending r member
  obtain ⟨lsn, txn, body⟩ := r
  cases body <;> simp_all [allocOf, treeOf, isCheckpoint]

theorem Open.lastAlloc_eq (still : Open recs more) : lastAlloc (recs ++ more) = lastAlloc recs := by
  rw [lastAlloc, still.committed_eq]
  refine latest_append_silent fun r member => ?_
  rw [(still.silent member).1]
  rfl

theorem Open.lastTree_eq (still : Open recs more) : lastTree (recs ++ more) = lastTree recs := by
  rw [lastTree, still.committed_eq]
  exact latest_append_silent fun r member => (still.silent member).2

theorem Open.links_eq (still : Open recs more) : links (recs ++ more) = links recs := by
  funext id
  rw [links, still.committed_eq, latest_append_silent]
  · rfl
  intro r member
  unfold childrenOf
  split
  · rw [if_neg (by simp [still.pending r member])]
  · rfl

end Windows

/-! ## The invariant -/

/-- The pages that committed images change are no freelist pages, and below a page id. -/
def NodesBelow (s : PageStore) (log : List (Record Content)) (bound : PageID) : Prop :=
  ∀ r ∈ log, committed log r.txn = true → ∀ id children,
    r.body = .pageImage id (.node children) → id ∉ s.alloc.meta ∧ id < bound

/-- An allocator record that `reload` accepts: it names no chain, or the one of the last
flush. -/
def Loadable (s : PageStore) (st : AllocState) (free : List PageID) : Prop :=
  st.next ≠ 0 ∧ st.next ≤ s.alloc.next ∧ st.freeCount = free.length ∧
    (st.freeHead = 0 ∧ free = [] ∨ st.freeHead = s.alloc.meta.headD 0 ∧ free = s.written ∧
        s.written.length ≤ idsPerMetaPage * s.alloc.meta.length ∧
        ∀ id ∈ s.written ++ s.alloc.meta, id < st.next)

/-- No page of the tree that the log holds is free. -/
def Apart (log : List (Record Content)) (tree : Option TreeMeta) (free : List PageID) : Prop :=
  free = [] ∨ ∃ loaded, tree = some loaded ∧ loaded.root ∉ free ∧
    ∀ id, id ∉ free → ∀ child ∈ links log id, child ∉ free

/-- What a crash that leaves `log` brings back. -/
def Loads (s : PageStore) (log : List (Record Content)) : Prop :=
  match lastAlloc (log.drop s.redoFrom) with
  | none =>
    s.super.alloc.freeHead = 0 ∧ s.super.alloc.freeCount = 0 ∧ s.alloc.meta = [] ∧
      s.written = [] ∧ lastTree (log.drop s.redoFrom) = none ∧ s.NodesBelow log 0
  | some (lsn, st) =>
    s.Loadable st (s.freeAt lsn) ∧ s.NodesBelow log st.next ∧
      (∀ tree, lastTree (log.drop s.redoFrom) = some tree →
        validatePrimaryTree tree s.super.alloc.next = .ok () ∧
          validatePrimaryTree tree st.next = .ok ()) ∧
      Apart log (lastTree (log.drop s.redoFrom)) (s.freeAt lsn)

/-- The freelist pages in the file are those of the last flush, also while the same list is
written again, and redo puts back no other content. -/
structure OnDisk (s : PageStore) : Prop where
  chain : Allocator.Sound { s.alloc with free := s.written }
  fits : s.written.length ≤ idsPerMetaPage * s.alloc.meta.length
  same : s.persisting = true → s.alloc.free = s.written
  pages : ∀ survives, Allocator.Holds (s.disk survives) (Allocator.metaPages s.alloc.meta s.written)
  images : ∀ r ∈ s.log.drop s.redoFrom, ∀ id ∈ s.alloc.meta, ∀ ids link,
    r.body = .pageImage id (.freelist ids link) →
      ∀ survives, (s.disk survives id).map Page.content = some (.freelist ids link)

/-- The superblock in memory follows the allocator. -/
def Mirrored (s : PageStore) : Prop :=
  s.mem.alloc.next = s.alloc.next ∧ s.mem.alloc.freeCount = s.alloc.free.length ∧
    (s.mem.alloc.freeHead = s.alloc.freeHead ∨
      s.alloc.free = s.written ∧ s.mem.alloc.freeHead = s.alloc.meta.headD 0)

/-- Page records are images of pages other than the superblock, and a checkpoint record has an
allocator state. -/
def Plain (r : Record Content) : Prop :=
  match r.body with
  | .pageImage id _ => id ≠ 0
  | .pageDelta .. => False
  | .checkpoint super => super.alloc.next ≠ 0
  | _ => True

def isImage (r : Record Content) : Bool :=
  match r.body with
  | .pageImage .. => true
  | _ => false

structure Sound (s : PageStore) : Prop where
  alloc : s.alloc.Sound
  super : s.super.alloc.next ≠ 0 ∧ s.super.alloc.next ≤ s.alloc.next
  mirrored : s.persisting = false → s.Mirrored
  bounds : s.redoFrom ≤ s.durable ∧ s.durable ≤ s.log.length
  lsns : s.log.map Record.lsn = List.range' 1 s.log.length
  plain : ∀ r ∈ s.log, Plain r
  running : ∀ t ∈ s.running, committed s.log t = false ∧ ∀ r ∈ s.log, r.txn = t → isImage r = false
  ordered : s.log.Pairwise fun first later => first.body.isCommit = true → later.txn ≠ first.txn
  loads : ∀ upTo, s.durable ≤ upTo → upTo ≤ s.log.length → s.Loads (s.log.take upTo)
  disk : s.OnDisk ∨ s.persisting = true ∧ s.Unnamed
  room : s.persisting = true → s.alloc.free.length ≤ idsPerMetaPage * s.alloc.meta.length
  unlogged : s.freeAt 0 = []

variable {s t : PageStore} {log more : List (Record Content)} {lsn : LSN} {st : AllocState}

theorem validatePrimaryTree_mono {tree : TreeMeta} {m n : PageID} (le : m ≤ n)
    (valid : validatePrimaryTree tree m = .ok ()) : validatePrimaryTree tree n = .ok () := by
  unfold validatePrimaryTree at *
  split
  next zero => simpa [zero] using valid
  next nonzero =>
  rw [if_neg nonzero] at valid
  split
  next flat => simp [flat] at valid
  next tall =>
  rw [if_neg tall] at valid
  split at valid
  · cases valid
  · rw [if_neg (by lia)]

theorem Open.drop (still : Open log more) (n : Nat) : Open (log.drop n) more :=
  ⟨still.noCommit, still.noCheckpoint, fun r member => by
    have none := still.pending r member
    simp only [committed, any_eq_false] at none ⊢
    exact fun x inside => none x (mem_of_mem_drop inside)⟩

/-- Steps that leave the chain, and do not lower the next page id, keep what is loaded. -/
theorem Loads.frame (loads : s.Loads log) (redo : t.redoFrom = s.redoFrom)
    (sameMeta : t.alloc.meta = s.alloc.meta) (sameWritten : t.written = s.written)
    (next : s.alloc.next ≤ t.alloc.next) (super : s.super.alloc.next ≤ t.super.alloc.next)
    (bare : lastAlloc (log.drop s.redoFrom) = none →
      t.super.alloc.freeHead = 0 ∧ t.super.alloc.freeCount = 0)
    (freeAt : ∀ r ∈ log, t.freeAt r.lsn = s.freeAt r.lsn) : t.Loads log := by
  unfold Loads NodesBelow Loadable at *
  rw [redo, sameMeta, sameWritten]
  split at loads
  next none =>
    obtain ⟨-, -, rest⟩ := loads
    exact ⟨(bare none).1, (bare none).2, rest⟩
  next lsn st found =>
  obtain ⟨⟨positive, le, count, named⟩, nodes, tree, apart⟩ := loads
  obtain ⟨r, member, value⟩ := exists_of_latest found
  obtain ⟨_, -, same⟩ := Option.map_eq_some_iff.mp value
  obtain rfl := (Prod.ext_iff.mp same).1
  rw [freeAt r (mem_of_mem_drop member)]
  exact ⟨⟨positive, le.trans next, count, named⟩, nodes,
    fun loaded isLast => ⟨validatePrimaryTree_mono super (tree loaded isLast).1,
      (tree loaded isLast).2⟩, apart⟩

/-- Records that do not count change nothing. -/
theorem Loads.append_open (loads : s.Loads log) (within : s.redoFrom ≤ log.length)
    (still : Open log more) : s.Loads (log ++ more) := by
  have window := still.drop s.redoFrom
  have nodes : ∀ bound, s.NodesBelow log bound → s.NodesBelow (log ++ more) bound := by
    intro bound below r member isCommitted
    rw [still.committed_eq] at isCommitted
    obtain old | new := mem_append.mp member
    · exact below r old isCommitted
    · rw [still.pending r new] at isCommitted
      cases isCommitted
  unfold Loads at *
  rw [drop_append_of_le_length within, window.lastAlloc_eq, window.lastTree_eq]
  split at loads
  next none =>
    exact ⟨loads.1, loads.2.1, loads.2.2.1, loads.2.2.2.1, loads.2.2.2.2.1,
      nodes 0 loads.2.2.2.2.2⟩
  next lsn st found =>
  refine ⟨loads.1, nodes st.next loads.2.1, loads.2.2.1, ?_⟩
  unfold Apart at *
  rw [still.links_eq]
  exact loads.2.2.2

/-! ## Steps on the allocator -/

variable {a : Allocator} {m : Superblock}

theorem OnDisk.frame (onDisk : s.OnDisk) (rest : s.persisting = false)
    (sameMeta : a.meta = s.alloc.meta) (next : s.alloc.next ≤ a.next) :
    OnDisk { s with alloc := a, mem := m } := by
  have same : ∀ survives, disk { s with alloc := a, mem := m } survives = s.disk survives := by
    intro survives
    simp [disk, rest]
  refine ⟨?_, ?_, ?_, ?_, ?_⟩
  · obtain ⟨distinct, positive, below, started⟩ := onDisk.chain
    rw [← sameMeta] at distinct positive below
    exact ⟨distinct, positive, fun id member => (below id member).trans_le next,
      fun zero => started (Nat.le_zero.mp (zero ▸ next))⟩
  · exact sameMeta ▸ onDisk.fits
  · exact fun running => absurd running (by simp [rest])
  · intro survives
    rw [same]
    exact sameMeta ▸ onDisk.pages survives
  · intro r member id own ids link body survives
    rw [same]
    exact onDisk.images r member id (sameMeta ▸ own) ids link body survives

variable {upTo : Nat}

theorem Sound.loads_bare (sound : s.Sound) (durable : s.durable ≤ upTo)
    (within : upTo ≤ s.log.length) (none : lastAlloc ((s.log.take upTo).drop s.redoFrom) = none) :
    (s.super.alloc.freeHead = 0 ∧ s.super.alloc.freeCount = 0) ∧ s.alloc.meta = [] ∧
      s.written = [] := by
  have loads := sound.loads upTo durable within
  unfold Loads at loads
  rw [none] at loads
  exact ⟨⟨loads.1, loads.2.1⟩, loads.2.2.1, loads.2.2.2.1⟩

theorem Sound.onDisk (sound : s.Sound) (rest : s.persisting = false) : s.OnDisk :=
  sound.disk.resolve_right (by simp [rest])

section

variable (sound : s.Sound) (rest : s.persisting = false) (allocSound : a.Sound)
  (sameMeta : a.meta = s.alloc.meta) (next : s.alloc.next ≤ a.next)

include sound rest allocSound sameMeta next

theorem Sound.reallocate (mirrored : Mirrored { s with alloc := a, mem := m }) :
    Sound { s with alloc := a, mem := m } :=
  { sound with
    alloc := allocSound
    super := ⟨sound.super.1, sound.super.2.trans next⟩
    mirrored := fun _ => mirrored
    loads := fun upTo durable within => (sound.loads upTo durable within).frame rfl sameMeta rfl
      next (le_rfl) (fun none => (sound.loads_bare durable within none).1) fun _ _ => rfl
    disk := .inl ((sound.onDisk rest).frame rest sameMeta next)
    room := fun running => absurd running (by simp [rest]) }

theorem Sound.withAlloc : (s.withAlloc a).Sound :=
  sound.reallocate rest allocSound sameMeta next ⟨rfl, rfl, .inl rfl⟩

end

/-! ## Steps on the log -/

variable {r : Record Content}

theorem Sound.lsn_le (sound : s.Sound) (member : r ∈ s.log) : r.lsn ≤ s.log.length := by
  have inside : r.lsn ∈ s.log.map Record.lsn := mem_map_of_mem member
  rw [sound.lsns, mem_range'_1] at inside
  lia

variable {running : List TxnID} {freeAt : LSN → List PageID} {whole : List (Record Content)}

/-- What the log as it is brings back does not depend on records to come. -/
theorem Sound.loads_frame (sound : s.Sound)
    (sameFree : ∀ lsn ≤ s.log.length, freeAt lsn = s.freeAt lsn) (durable : s.durable ≤ upTo)
    (within : upTo ≤ s.log.length) :
    Loads { s with log := whole, running := running, mem := m, freeAt := freeAt }
      (s.log.take upTo) :=
  (sound.loads upTo durable within).frame rfl rfl rfl (le_rfl) (le_rfl)
    (fun none => (sound.loads_bare durable within none).1)
    fun _ member => sameFree _ (sound.lsn_le (mem_of_mem_take member))

theorem Sound.loads_open (sound : s.Sound)
    (sameFree : ∀ lsn ≤ s.log.length, freeAt lsn = s.freeAt lsn) (still : Open s.log more) :
    Loads { s with log := whole, running := running, mem := m, freeAt := freeAt }
      (s.log ++ more) := by
  have before : Loads { s with log := whole, running := running, mem := m, freeAt := freeAt }
      (s.log.take s.log.length) := sound.loads_frame sameFree sound.bounds.2 (le_rfl)
  rw [take_length] at before
  exact before.append_open (sound.bounds.1.trans sound.bounds.2) still

variable {u : TxnID}

theorem Sound.grow_log (sound : s.Sound) (rest : s.persisting = false)
    (lsns : more.map Record.lsn = range' (s.log.length + 1) more.length)
    (plain : ∀ r ∈ more, Plain r) (one : ∀ r ∈ more, r.txn = u)
    (pending : committed s.log u = false)
    (ordered : more.Pairwise fun first later => first.body.isCommit = true → later.txn ≠ first.txn)
    (stillRunning : ∀ v ∈ running, committed (s.log ++ more) v = false ∧
      ∀ r ∈ s.log ++ more, r.txn = v → isImage r = false) (sameAlloc : m.alloc = s.mem.alloc)
    (sameFree : ∀ lsn ≤ s.log.length, freeAt lsn = s.freeAt lsn)
    (images : ∀ r ∈ more, ∀ id ∈ s.alloc.meta, ∀ ids link,
      r.body = .pageImage id (.freelist ids link) →
        (s.pages id).map Page.content = some (.freelist ids link))
    (loads : ∀ n, 0 < n → n ≤ more.length →
      Loads { s with log := s.log ++ more, running := running, mem := m, freeAt := freeAt }
        (s.log ++ more.take n)) :
    Sound { s with log := s.log ++ more, running := running, mem := m, freeAt := freeAt } where
  alloc := sound.alloc
  super := sound.super
  mirrored isAtRest := by
    have mirrored := sound.mirrored isAtRest
    unfold Mirrored at *
    rw [sameAlloc]
    exact mirrored
  bounds := ⟨sound.bounds.1, sound.bounds.2.trans (by simp)⟩
  lsns := by
    rw [map_append, sound.lsns, lsns, length_append, Nat.add_comm _ 1, range'_append_1]
  plain r member := (mem_append.mp member).elim (sound.plain r) (plain r)
  running := stillRunning
  ordered := by
    refine pairwise_append.mpr ⟨sound.ordered, ordered, ?_⟩
    intro first old later new isCommit
    rw [one later new]
    rintro rfl
    simp only [committed, any_eq_false] at pending
    exact pending first old (by simp [isCommit])
  loads upTo durable within := by
    by_cases old : upTo ≤ s.log.length
    · rw [take_append_of_le_length old]
      exact sound.loads_frame sameFree durable old
    · rw [take_append, take_of_length_le (Nat.le_of_not_le old)]
      rw [length_append] at within
      exact loads _ (by omega) (by omega)
  disk := by
    have onDisk := sound.onDisk rest
    refine .inl { onDisk with images := ?_ }
    intro r member id own ids link body survives
    rw [drop_append_of_le_length (sound.bounds.1.trans sound.bounds.2)] at member
    obtain old | new := mem_append.mp member
    · exact onDisk.images r old id own ids link body survives
    · rw [PageStore.disk, if_neg (by simp [rest])]
      exact images r new id own ids link body
  room persisting := absurd persisting (by simp [rest])
  unlogged := (sameFree 0 (zero_le)).trans sound.unlogged

variable {body : Body Content}

/-- A record that is neither a commit, a checkpoint nor a page image. -/
theorem Sound.append (sound : s.Sound) (rest : s.persisting = false)
    (pending : committed s.log u = false) (noCommit : body.isCommit = false)
    (noCheckpoint : ∀ super, body ≠ .checkpoint super)
    (noImage : ∀ id content, body ≠ .pageImage id content)
    (noDelta : ∀ id delta, body ≠ .pageDelta id delta)
    (stillRunning : ∀ v ∈ running, v ∈ s.running ∨ s.Fresh v) (sameAlloc : m.alloc = s.mem.alloc) :
    Sound { s.append u body with running := running, mem := m } := by
  have still : Open s.log [⟨s.log.length + 1, u, body⟩] := by
    refine ⟨?_, ?_, ?_⟩
    · simpa using noCommit
    · simp only [mem_singleton, forall_eq, isCheckpoint]
    · simpa using pending
  have notImage : ∀ r ∈ [(⟨s.log.length + 1, u, body⟩ : Record Content)], isImage r = false := by
    simp only [mem_singleton, forall_eq, isImage]
  refine sound.grow_log rest (u := u) (by simp) ?_ (by simp) pending (by simp) ?_ sameAlloc
    (fun _ _ => rfl) ?_ ?_
  · simp only [mem_singleton, forall_eq, Plain]
  · intro v member
    have before : committed s.log v = false ∧ ∀ r ∈ s.log, r.txn = v → isImage r = false := by
      obtain old | fresh := stillRunning v member
      · exact sound.running v old
      refine ⟨?_, fun r inside same => absurd same (fresh r inside)⟩
      simp only [committed, any_eq_false]
      intro r inside
      simp [fresh r inside]
    refine ⟨still.committed_eq ▸ before.1, fun r inside same => ?_⟩
    exact (mem_append.mp inside).elim (fun old => before.2 r old same) (notImage r)
  · intro r member id own ids link isImage
    rw [mem_singleton.mp member] at isImage
    exact absurd isImage (noImage id _)
  · intro n positive le
    rw [take_of_length_le (Nat.succ_le_of_lt positive)]
    exact sound.loads_open (fun _ _ => rfl) still

/-! ## Groups of records -/

variable {start : LSN} {bodies : List (Body Content)}

theorem map_lsn_records :
    (records start u bodies).map Record.lsn = range' start bodies.length := by
  induction bodies generalizing start with
  | nil => rfl
  | cons body rest ih => rw [records, map_cons, ih, length_cons, range'_succ]

@[simp] theorem map_body_records : (records start u bodies).map Record.body = bodies := by
  induction bodies generalizing start with
  | nil => rfl
  | cons body rest ih => rw [records, map_cons, ih]

theorem txn_of_mem_records (member : r ∈ records start u bodies) : r.txn = u := by
  induction bodies generalizing start with
  | nil => cases member
  | cons body rest ih =>
    obtain rfl | later := mem_cons.mp member
    · rfl
    · exact ih later

theorem body_mem_of_mem_records (member : r ∈ records start u bodies) : r.body ∈ bodies := by
  have inside : r.body ∈ (records start u bodies).map Record.body := mem_map_of_mem member
  rwa [map_body_records] at inside

@[simp] theorem length_records : (records start u bodies).length = bodies.length := by
  rw [← length_map Record.body, map_body_records]

theorem records_append {first second : List (Body Content)} : records start u (first ++ second) =
      records start u first ++ records (start + first.length) u second := by
  induction first generalizing start with
  | nil => rfl
  | cons body rest ih =>
    rw [cons_append, records, ih, records, cons_append, length_cons,
      Nat.add_right_comm, Nat.add_assoc]

/-- What a group of records may hold before its allocator record: no commit, no checkpoint, no
delta and no image of page zero. -/
def Quiet (body : Body Content) : Prop :=
  match body with
  | .commit | .checkpoint _ | .pageDelta .. | .treeMeta _ | .allocState _ => False
  | .pageImage id _ => id ≠ 0
  | _ => True

/-- An allocator record of the engine's state in memory. -/
def Snapshots (s : PageStore) (body : Body Content) : Prop :=
  body = .allocState s.mem.alloc ∨ body = .checkpoint s.mem

theorem committed_records {v : TxnID} :
    committed (records start u bodies) v = (decide (u = v) && bodies.any Body.isCommit) := by
  induction bodies generalizing start with
  | nil => simp [committed, records]
  | cons body rest ih =>
    rw [records, ← singleton_append, committed_append, ih]
    by_cases same : u = v <;> simp [committed, same]

/-- The state in memory is one that can be loaded, as long as the free list is current. -/
theorem Sound.loadable (sound : s.Sound) (rest : s.persisting = false) (current : s.Current) :
    s.Loadable s.mem.alloc s.alloc.free := by
  obtain ⟨next, count, head⟩ := sound.mirrored rest
  have onDisk := sound.onDisk rest
  have named : s.alloc.free = s.written → s.mem.alloc.freeHead = s.alloc.meta.headD 0 →
      s.Loadable s.mem.alloc s.alloc.free := by
    intro same isHead
    refine ⟨next ▸ sound.alloc.started, next.le, count, .inr ⟨isHead, same, onDisk.fits, ?_⟩⟩
    exact fun id member => next ▸ onDisk.chain.below id member
  obtain own | ⟨same, isHead⟩ := head
  · by_cases empty : s.alloc.free = []
    · refine ⟨next ▸ sound.alloc.started, next.le, count, .inl ⟨?_, empty⟩⟩
      rw [own, Allocator.freeHead, if_pos (.inl empty)]
    have same : s.alloc.free = s.written := current.resolve_left empty
    have some : s.alloc.meta ≠ [] := by
      intro none
      have fits := onDisk.fits
      rw [none, ← same] at fits
      exact empty (length_eq_zero_iff.mp (Nat.le_zero.mp fits))
    refine named same ?_
    rw [own, Allocator.freeHead, if_neg (not_or.mpr ⟨empty, some⟩)]
  · exact named same isHead

/-- The committed images of tree pages, with one more transaction in the log. -/
theorem Sound.nodesBelow (sound : s.Sound) (one : ∀ r ∈ more, r.txn = u)
    (noImages : ∀ r ∈ s.log, r.txn = u → isImage r = false)
    (inUse : ∀ r ∈ more, ∀ id children, r.body = .pageImage id (.node children) → s.InUse id) :
    s.NodesBelow (s.log ++ more) s.alloc.next := by
  have all := sound.loads s.log.length sound.bounds.2 (le_rfl)
  rw [take_length] at all
  have before : s.NodesBelow s.log s.alloc.next := by
    intro r member isCommitted id children body
    unfold Loads at all
    split at all
    · obtain ⟨notMeta, below⟩ := all.2.2.2.2.2 r member isCommitted id children body
      exact absurd below (Nat.not_lt_zero _)
    · obtain ⟨notMeta, below⟩ := all.2.1 r member isCommitted id children body
      exact ⟨notMeta, below.trans_le all.1.2.1⟩
  intro r member isCommitted id children body
  obtain old | new := mem_append.mp member
  · refine before r old ?_ id children body
    have other : r.txn ≠ u := by
      intro same
      have no := noImages r old same
      simp [isImage, body] at no
    have none : committed more r.txn = false := by
      simp only [committed, any_eq_false]
      intro x inside
      simp [one x inside, Ne.symm other]
    rwa [committed_append, none, Bool.or_false] at isCommitted
  · obtain ⟨-, below, -, notMeta⟩ := inUse r new id children body
    exact ⟨notMeta, below⟩

variable {log : List (Record Content)}

theorem links_eq_nil {id : PageID} (noImage : ∀ r ∈ log, ∀ content, r.body ≠ .pageImage id content) :
    links log id = [] := by
  have none : log.latest (childrenOf (committed log) id) = none := by
    refine latest_eq_none_iff.mpr fun r member => ?_
    unfold childrenOf
    split
    next p children body =>
      rw [if_neg]
      rintro ⟨rfl, -⟩
      exact noImage r member _ body
    · rfl
  rw [links, none]
  rfl

/-- A tidy log keeps the pages of the tree apart from the free list. -/
theorem Tidy.apart (tidy : s.Tidy) :
    Apart s.log (lastTree (s.log.drop s.redoFrom)) s.alloc.free := by
  obtain ⟨-, empty | ⟨rooted, closed⟩⟩ := tidy
  · exact .inl empty
  rw [scanned, take_length] at rooted
  obtain ⟨tree, found, outside⟩ : ∃ tree, lastTree (s.log.drop s.redoFrom) = some tree ∧
      tree.root ∉ s.alloc.free := by
    cases found : lastTree (s.log.drop s.redoFrom) with
    | none => simp [found] at rooted
    | some tree => exact ⟨tree, rfl, by simpa [found] using rooted⟩
  refine .inr ⟨tree, found, outside, ?_⟩
  intro id notFree child link
  by_cases imaged : ∃ r ∈ s.log, ∃ content, r.body = .pageImage id content
  · obtain ⟨r, member, content, body⟩ := imaged
    have clause := closed r member
    rw [body] at clause
    exact (clause.resolve_left notFree) child link
  · rw [links_eq_nil fun r member content body => imaged ⟨r, member, content, body⟩] at link
    cases link

/-- The allocator state of the last record of a log that snapshots it. -/
theorem Sound.loads_snapshot (sound : s.Sound) (rest : s.persisting = false) (current : s.Current)
    (last : lastAlloc (log.drop s.redoFrom) = some (lsn, s.mem.alloc))
    (free : freeAt lsn = s.alloc.free) (nodes : s.NodesBelow log s.alloc.next)
    (valid : ∀ tree, lastTree (log.drop s.redoFrom) = some tree →
      validatePrimaryTree tree s.super.alloc.next = .ok ())
    (apart : Apart log (lastTree (log.drop s.redoFrom)) s.alloc.free) :
    Loads { s with log := whole, running := running, mem := m, freeAt := freeAt } log := by
  have next := (sound.mirrored rest).1
  unfold Loads
  rw [last]
  dsimp only
  rw [free]
  refine ⟨sound.loadable rest current, next.symm ▸ nodes, fun tree isLast => ?_, apart⟩
  exact ⟨valid tree isLast, validatePrimaryTree_mono (next.symm ▸ sound.super.2) (valid tree isLast)⟩

variable {recs : List (Record Content)}

/-- A commit record of a transaction without root record changes no root. -/
theorem lastTree_commit (noTree : ∀ r ∈ recs, r.txn = u → ∀ tree, r.body ≠ .treeMeta tree) :
    lastTree (recs ++ [⟨lsn, u, .commit⟩]) = lastTree recs := by
  rw [lastTree, latest_append_silent (by simp [treeOf])]
  refine latest_congr fun r member => ?_
  unfold treeOf
  split
  · rfl
  next tree body =>
    have other : u ≠ r.txn := fun same => noTree r member same.symm tree body
    rw [committed_append]
    simp [committed, other]
  · rfl

/-- A commit record of a transaction without images of tree pages links nothing. -/
theorem links_commit
    (noNode : ∀ r ∈ recs, r.txn = u → ∀ id children, r.body ≠ .pageImage id (.node children)) :
    links (recs ++ [⟨lsn, u, .commit⟩]) = links recs := by
  funext id
  rw [links, latest_append_silent (by simp [childrenOf])]
  refine congrArg (Option.getD · []) (latest_congr fun r member => ?_)
  unfold childrenOf
  split
  next p children body =>
    have other : u ≠ r.txn := fun same => noNode r member same.symm p children body
    rw [committed_append]
    simp [committed, other]
  · rfl

/-- A snapshot of the allocator state at the end of a log is the last one, if it counts. -/
theorem lastAlloc_snapshot {more : List (Record Content)} (snapshot : s.Snapshots body)
    (started : s.mem.alloc.next ≠ 0) (silent : ∀ r ∈ more, r.body = .commit)
    (counts : committed (recs ++ ⟨lsn, u, body⟩ :: more) u ∨ body = .checkpoint s.mem) :
    lastAlloc (recs ++ ⟨lsn, u, body⟩ :: more) = some (lsn, s.mem.alloc) := by
  have value : allocOf (committed (recs ++ ⟨lsn, u, body⟩ :: more)) ⟨lsn, u, body⟩ =
      some s.mem.alloc := by
    obtain rfl | rfl := snapshot
    · simp_all [allocOf]
    · simp [allocOf, started]
  have none : more.latest (fun r => (allocOf (committed (recs ++ ⟨lsn, u, body⟩ :: more)) r).map
      (r.lsn, ·)) = none := by
    refine latest_eq_none_iff.mpr fun r member => ?_
    simp [allocOf, silent r member]
  rw [lastAlloc, latest_append, latest_cons, none, value]
  rfl

variable {pre : List (Body Content)}

theorem Quiet.open_ (quiet : ∀ body ∈ pre, Quiet body) (pending : committed log u = false) :
    Open log (records start u pre) := by
  refine ⟨?_, ?_, ?_⟩
  · intro r member
    have calm := quiet _ (body_mem_of_mem_records member)
    cases body : r.body <;> simp_all [Quiet, Body.isCommit]
  · intro r member
    have calm := quiet _ (body_mem_of_mem_records member)
    cases body : r.body <;> simp_all [Quiet, isCheckpoint]
  · exact fun r member => (txn_of_mem_records member) ▸ pending

theorem Open.take (still : Open log more) (n : Nat) : Open log (more.take n) :=
  ⟨fun r member => still.noCommit r (mem_of_mem_take member),
    fun r member => still.noCheckpoint r (mem_of_mem_take member),
    fun r member => still.pending r (mem_of_mem_take member)⟩

theorem Open.append_alloc (still : Open log more) (pending : committed log u = false) :
    Open log (more ++ [⟨lsn, u, .allocState st⟩]) := by
  refine ⟨?_, ?_, ?_⟩ <;> intro r member <;> rcases mem_append.mp member with early | late
  · exact still.noCommit r early
  · rw [mem_singleton.mp late]
    rfl
  · exact still.noCheckpoint r early
  · rw [mem_singleton.mp late]
    rfl
  · exact still.pending r early
  · rw [mem_singleton.mp late]
    exact pending

/-- The records of a structure change, a commit or a checkpoint: images of pages in use, and
for a checkpoint those of the freelist pages in the file. -/
structure Grouped (s : PageStore) (u : TxnID) (pre : List (Body Content)) (body : Body Content) :
    Prop where
  snapshot : s.Snapshots body
  quiet : ∀ b ∈ pre, Quiet b
  pending : committed s.log u = false
  noImages : ∀ r ∈ s.log, r.txn = u → isImage r = false
  checkpointed : body = .checkpoint s.mem → s.Fresh u ∧
    ∀ b ∈ pre, ∀ id children, b ≠ .pageImage id (.node children)
  inUse : ∀ b ∈ pre, ∀ id children, b = .pageImage id (.node children) → s.InUse id
  images : ∀ b ∈ pre, ∀ id ids link, b = .pageImage id (.freelist ids link) →
    (s.pages id).map Page.content = some (.freelist ids link)

namespace Grouped

variable {u : TxnID} {pre : List (Body Content)} {body : Body Content}

/-- The records before the commit record. -/
def beforeCommit (s : PageStore) (u : TxnID) (pre : List (Body Content)) (body : Body Content) :
    List (Record Content) :=
  records (s.log.length + 1) u pre ++ [⟨s.log.length + pre.length + 1, u, body⟩]

theorem records_eq : records (s.log.length + 1) u (pre ++ [body, .commit]) =
    beforeCommit s u pre body ++ [⟨s.log.length + pre.length + 2, u, .commit⟩] := by
  rw [records_append, Nat.add_right_comm, beforeCommit, append_assoc]
  rfl

@[simp] theorem length_beforeCommit : (beforeCommit s u pre body).length = pre.length + 1 := by
  simp [beforeCommit]

variable {r : Record Content}

theorem txn_of_mem_beforeCommit (member : r ∈ beforeCommit s u pre body) : r.txn = u := by
  have inside : r ∈ records (s.log.length + 1) u (pre ++ [body, .commit]) := by
    rw [records_eq]
    exact mem_append_left _ member
  exact txn_of_mem_records inside

theorem body_of_mem_beforeCommit (member : r ∈ beforeCommit s u pre body) :
    r.body ∈ pre ∨ r.body = body := by
  obtain early | late := mem_append.mp member
  · exact .inl (body_mem_of_mem_records early)
  · rw [mem_singleton.mp late]
    exact .inr rfl

variable (group : s.Grouped u pre body)

include group

theorem noImage (id : PageID) (content : Content) : body ≠ .pageImage id content := by
  rcases group.snapshot with rfl | rfl <;> simp

theorem notCommit (member : r ∈ beforeCommit s u pre body) : r.body.isCommit = false := by
  obtain early | same := body_of_mem_beforeCommit member
  · have calm := group.quiet _ early
    cases body : r.body <;> simp_all [Quiet, Body.isCommit]
  · rw [same]
    rcases group.snapshot with rfl | rfl <;> rfl

theorem plain (started : s.mem.alloc.next ≠ 0) (member : r ∈ beforeCommit s u pre body) :
    Plain r := by
  unfold Plain
  obtain early | same := body_of_mem_beforeCommit member
  · have calm := group.quiet _ early
    cases body : r.body <;> simp_all [Quiet]
  rw [same]
  obtain rfl | rfl := group.snapshot
  · trivial
  · exact started

/-- Commit records stay at the end of their transactions. -/
theorem ordered : (records (s.log.length + 1) u (pre ++ [body, .commit])).Pairwise
    fun first later => first.body.isCommit = true → later.txn ≠ first.txn := by
  rw [records_eq, pairwise_append]
  refine ⟨pairwise_of_forall_mem_list ?_, pairwise_singleton _ _, ?_⟩
  · intro first member later _ isCommit
    rw [group.notCommit member] at isCommit
    cases isCommit
  · intro first member later _ isCommit
    rw [group.notCommit member] at isCommit
    cases isCommit

theorem nodesBelow (sound : s.Sound) (one : ∀ r ∈ more, r.txn = u)
    (bodies : ∀ r ∈ more, r.body ∈ pre ∨ r.body = body ∨ r.body = .commit) :
    s.NodesBelow (s.log ++ more) s.alloc.next := by
  refine sound.nodesBelow one group.noImages fun r member id children isNode => ?_
  obtain early | same | same := bodies r member
  · exact group.inUse _ early id children isNode
  · exact absurd (same.symm.trans isNode) (group.noImage id _)
  · rw [same] at isNode
    cases isNode

/-- The commit record of a checkpoint changes neither root nor links. -/
theorem checkpoint_commit {n : Nat} (within : n ≤ s.log.length)
    (isCheckpoint : body = .checkpoint s.mem) (done : Record Content)
    (isCommit : done = ⟨done.lsn, u, .commit⟩) :
    lastTree ((s.log ++ (beforeCommit s u pre body ++ [done])).drop n) =
        lastTree ((s.log ++ beforeCommit s u pre body).drop n) ∧
      links (s.log ++ (beforeCommit s u pre body ++ [done])) =
        links (s.log ++ beforeCommit s u pre body) := by
  obtain ⟨fresh, noNodes⟩ := group.checkpointed isCheckpoint
  have own : ∀ r ∈ s.log ++ beforeCommit s u pre body, r.txn = u →
      r.body ∈ pre ∨ r.body = .checkpoint s.mem := by
    intro r member same
    obtain old | new := mem_append.mp member
    · exact absurd same (fresh r old)
    · exact isCheckpoint ▸ body_of_mem_beforeCommit new
  rw [← append_assoc, isCommit]
  constructor
  · rw [drop_append_of_le_length (within.trans (by simp))]
    refine lastTree_commit fun r member same tree isTree => ?_
    obtain inside | isIt := own r (mem_of_mem_drop member) same
    · have calm := group.quiet _ inside
      simp [isTree, Quiet] at calm
    · rw [isIt] at isTree
      cases isTree
  · refine links_commit fun r member same id children isNode => ?_
    obtain inside | isIt := own r member same
    · exact noNodes _ inside id children isNode
    · rw [isIt] at isNode
      cases isNode

end Grouped

/-- A structure change, a commit or a checkpoint logs its records. -/
theorem Sound.logGroup (sound : s.Sound) (rest : s.persisting = false) (current : s.Current)
    (group : s.Grouped u pre body) (stillRunning : ∀ v ∈ running, v ∈ s.running ∧ v ≠ u)
    (tidy : (s.logGroup u pre body).Tidy) :
    Sound { s.logGroup u pre body with running := running } := by
  have started : s.mem.alloc.next ≠ 0 := (sound.mirrored rest).1 ▸ sound.alloc.started
  have within := sound.bounds.1.trans sound.bounds.2
  have whole : (s.logGroup u pre body).log = s.log ++ (Grouped.beforeCommit s u pre body ++
      [⟨s.log.length + pre.length + 2, u, .commit⟩]) := by
    rw [PageStore.logGroup, Grouped.records_eq]
  have sameFree : ∀ lsn ≤ s.log.length,
      Function.update s.freeAt (s.log.length + pre.length + 1) s.alloc.free lsn = s.freeAt lsn :=
    fun lsn le => Function.update_of_ne (by lia) _ _
  have valid : ∀ tree, lastTree ((s.logGroup u pre body).log.drop s.redoFrom) = some tree →
      validatePrimaryTree tree s.super.alloc.next = .ok () := by
    intro tree isLast
    have all := tidy.1
    rw [scanned, take_length] at all
    change lastTree ((s.logGroup u pre body).log.drop s.redoFrom) |>.all _ at all
    rw [isLast] at all
    exact of_decide_eq_true all
  have apart := tidy.apart
  rw [whole] at valid apart
  have open_ : Open s.log (records (s.log.length + 1) u pre) := Quiet.open_ group.quiet group.pending
  refine sound.grow_log rest (u := u) ?_ ?_ ?_ group.pending group.ordered ?_ rfl sameFree ?_ ?_
  · rw [map_lsn_records, length_records]
  · rw [Grouped.records_eq]
    refine forall_mem_append.mpr ⟨fun r early => group.plain started early, ?_⟩
    exact forall_mem_singleton.mpr trivial
  · exact fun r member => txn_of_mem_records member
  · intro v member
    obtain ⟨old, other⟩ := stillRunning v member
    refine ⟨?_, fun r inside same => ?_⟩
    · rw [committed_append, (sound.running v old).1, committed_records]
      simp [Ne.symm other]
    · obtain early | late := mem_append.mp inside
      · exact (sound.running v old).2 r early same
      · exact absurd ((txn_of_mem_records late).symm.trans same) (Ne.symm other)
  · intro r member id _ ids link isImage
    obtain early | late := mem_append.mp (body_mem_of_mem_records member)
    · exact group.images _ early id ids link isImage
    obtain same | same := mem_pair.mp late
    · exact absurd (same.symm.trans isImage) (group.noImage id _)
    · rw [same] at isImage
      cases isImage
  intro n positive le
  rw [Grouped.records_eq] at le ⊢
  obtain early | rfl | rfl : n ≤ pre.length ∨ n = pre.length + 1 ∨ n = pre.length + 2 := by
    simp only [length_append, Grouped.length_beforeCommit, length_singleton] at le
    omega
  · rw [take_append_of_le_length (by simp; omega), Grouped.beforeCommit,
      take_append_of_le_length (by simpa using early)]
    exact sound.loads_open sameFree (open_.take n)
  · rw [take_append_of_le_length (by simp), take_of_length_le (by simp)]
    obtain rfl | rfl := group.snapshot
    · exact sound.loads_open sameFree (open_.append_alloc group.pending)
    -- the checkpoint record counts before its transaction commits
    obtain ⟨sameTree, sameLinks⟩ := group.checkpoint_commit within rfl
      ⟨s.log.length + pre.length + 2, u, .commit⟩ rfl
    refine sound.loads_snapshot rest current ?_ (Function.update_self _ _ _) ?_ ?_ ?_
    · rw [drop_append_of_le_length within, Grouped.beforeCommit, ← append_assoc]
      exact lastAlloc_snapshot (.inr rfl) started (by simp) (.inr rfl)
    · exact group.nodesBelow sound (fun r => Grouped.txn_of_mem_beforeCommit) fun r member =>
        (Grouped.body_of_mem_beforeCommit member).imp_right .inl
    · exact sameTree ▸ valid
    · unfold Apart at *
      rw [← sameTree, ← sameLinks]
      exact apart
  rw [take_of_length_le (by simp)]
  refine sound.loads_snapshot rest current ?_ (Function.update_self _ _ _) ?_ valid apart
  · rw [drop_append_of_le_length within, Grouped.beforeCommit, append_assoc, ← append_assoc]
    exact lastAlloc_snapshot group.snapshot started (by simp)
      (.inl (by simp [committed, Body.isCommit]))
  · rw [← Grouped.records_eq]
    refine group.nodesBelow sound (fun r => txn_of_mem_records) fun r member => ?_
    simpa using body_mem_of_mem_records member

end NextSQL.Storage.PageStore
