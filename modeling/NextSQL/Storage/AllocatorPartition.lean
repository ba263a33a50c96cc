import NextSQL.Storage.AllocatorSteps

/-!
# Every page belongs to one part

The allocator over the file it writes to. The pages below the next id are the
superblock, the freelist pages, the pages in use and the free pages, and each
is in one of these parts only (`run_partition`). The pages in use are not in
the source: they are those that `Alloc` returned and `Free` did not take back.
-/

namespace NextSQL.Storage

open GuardedRuns Recovery List

/-- The allocator, the pages and the superblock's numbers of its file, and the pages in use. -/
structure AllocatorFile where
  alloc : Allocator
  pages : Pages Content
  mem : AllocState
  inUse : List PageID

namespace AllocatorFile

/-- A new file; the cap is given with `SetCapPages`. -/
def created (capPages : PageID) : AllocatorFile :=
  ⟨⟨1, [], [], false, capPages⟩, fun _ => none, ⟨1, 0, 0⟩, []⟩

variable (s : AllocatorFile)

/-- `Flush`, all of whose writes go through. -/
def flush : AllocatorFile :=
  if s.alloc.dirty then
    { s with
      alloc := { s.alloc.grow with dirty := false }
      pages := PageStore.overlay s.pages
        (Allocator.metaPages s.alloc.grow.meta s.alloc.grow.free) fun _ => true
      mem := s.alloc.grow.persistedState }
  else s

/-- `Reload` changes the allocator only when the whole chain is read. -/
def reload (steps : Nat) : Option (Except Nerr Unit × AllocatorFile) :=
  (Allocator.reload steps s.pages s.mem).map fun
    | .ok a => (.ok (), { s with alloc := { a with capPages := s.alloc.capPages } })
    | .error e => (.error e, s)

inductive Op where
  | alloc
  | release (id : PageID)
  | flushReload (steps : Nat)
  -- a flush that ends with an error has written some of its pages, and perhaps the superblock
  | flushFails (survives : PageID → Bool) (noted : Bool)
  | setCapPages (pages : PageID)

def step? : Op → Option AllocatorFile
  | .alloc =>
    match s.alloc.alloc with
    | .error _ => some s
    | .ok (id, a) => some { s with alloc := a, mem := a.state, inUse := id :: s.inUse }
  | .release id =>
    match s.alloc.release id with
    | .error _ => some s
    | .ok a => some { s with alloc := a, mem := a.state, inUse := s.inUse.erase id }
  | .flushReload steps => (s.flush.reload steps).map Prod.snd
  | .flushFails survives noted =>
    if s.alloc.dirty then
      some { s with
        alloc := s.alloc.grow
        pages := PageStore.overlay s.pages
          (Allocator.metaPages s.alloc.grow.meta s.alloc.grow.free) survives
        mem := if noted then s.alloc.grow.persistedState else s.mem }
    else none
  | .setCapPages pages => some { s with alloc := { s.alloc with capPages := pages } }

/-- The parts of the file: the superblock, the free pages, the freelist, the pages in use. -/
def parts : List PageID := 0 :: (s.alloc.free ++ s.alloc.meta ++ s.inUse)

/-- Each page is in one part, and the file holds what a clean allocator has. -/
structure Kept : Prop where
  parts : s.parts.Perm (range s.alloc.next)
  clean : s.alloc.dirty = false → s.mem = s.alloc.persistedState ∧
    s.alloc.free.length ≤ idsPerMetaPage * s.alloc.meta.length ∧
    Allocator.Holds s.pages (Allocator.metaPages s.alloc.meta s.alloc.free)

variable {s} {t : AllocatorFile} {id : PageID} {a : Allocator}

section

variable (kept : s.Kept)

include kept

theorem Kept.sound : s.alloc.Sound := by
  have distinct := kept.parts.nodup_iff.mpr nodup_range
  have below : ∀ id ∈ s.parts, id < s.alloc.next := fun id member =>
    mem_range.mp (kept.parts.mem_iff.mp member)
  rw [AllocatorFile.parts, nodup_cons] at distinct
  refine ⟨distinct.2.of_append_left, ?_, fun id member =>
    below id (mem_cons_of_mem 0 (mem_append_left _ member)), Nat.ne_of_gt (below 0 mem_cons_self)⟩
  rintro id member rfl
  exact distinct.1 (mem_append_left _ member)

/-- The pages in use are the others. -/
theorem Kept.mem_inUse_iff :
    id ∈ s.inUse ↔ id ≠ 0 ∧ id < s.alloc.next ∧ id ∉ s.alloc.free ∧ id ∉ s.alloc.meta := by
  have distinct := kept.parts.nodup_iff.mpr nodup_range
  have mem := kept.parts.mem_iff (a := id)
  rw [mem_range] at mem
  simp only [AllocatorFile.parts, nodup_cons, nodup_append, mem_cons, mem_append] at distinct mem
  constructor
  · intro used
    refine ⟨?_, mem.mp (.inr (.inr used)), fun free => ?_, fun own => ?_⟩
    · rintro rfl
      exact distinct.1 (.inr used)
    · exact distinct.2.2.2 id (.inl free) id used rfl
    · exact distinct.2.2.2 id (.inr own) id used rfl
  · rintro ⟨positive, below, foreign, free⟩
    tauto

theorem Kept.grow : (0 :: (s.alloc.free ++ s.alloc.grow.meta ++ s.inUse)).Perm
    (range s.alloc.grow.next) := by
  have more : range s.alloc.grow.next =
      range s.alloc.next ++ range' s.alloc.next (s.alloc.need - s.alloc.meta.length) := by
    simp only [range_eq_range', Allocator.grow]
    rw [← range'_append_1, Nat.zero_add]
  rw [more]
  refine Perm.trans ?_ (kept.parts.append_right _)
  simp only [AllocatorFile.parts, Allocator.grow, cons_append, append_assoc]
  exact ((perm_append_comm.append_left _).append_left _).cons 0

theorem Kept.alloc (done : s.alloc.alloc = .ok (id, a)) :
    Kept { s with alloc := a, mem := a.state, inUse := id :: s.inUse } := by
  obtain ⟨sameMeta, -, dirty, parts⟩ := Allocator.free_alloc done
  refine ⟨?_, fun clean => absurd dirty (by simpa using clean)⟩
  dsimp only [AllocatorFile.parts]
  rw [sameMeta]
  obtain ⟨free, next⟩ | ⟨empty, empty', rfl, next⟩ := parts
  · rw [next]
    refine Perm.trans (perm_iff_count.mpr fun x => ?_) kept.parts
    simp only [AllocatorFile.parts, free, count_cons, count_append, count_nil]
    omega
  · rw [next, range_succ]
    refine Perm.trans ?_ (kept.parts.append_right _)
    rw [AllocatorFile.parts, empty, empty']
    exact (perm_middle.trans (perm_append_singleton _ _).symm).cons 0

theorem Kept.release_iff : (∃ a, s.alloc.release id = .ok a) ↔ id ∈ s.inUse := by
  rw [kept.mem_inUse_iff]
  constructor
  · rintro ⟨a, done⟩
    exact (Allocator.free_release done).2
  · rintro ⟨positive, below, free, own⟩
    refine ⟨{ s.alloc with free := s.alloc.free ++ [id], dirty := true }, ?_⟩
    simp [Allocator.release, userData, positive, not_le.mpr below, free, own]

theorem Kept.release (done : s.alloc.release id = .ok a) :
    Kept { s with alloc := a, mem := a.state, inUse := s.inUse.erase id } := by
  have used := kept.release_iff.mp ⟨a, done⟩
  obtain ⟨rfl, -⟩ := Allocator.free_release done
  refine ⟨Perm.trans ?_ kept.parts, fun clean => absurd clean (by simp)⟩
  refine Perm.cons 0 (Perm.trans (perm_iff_count.mpr fun x => ?_)
    ((perm_cons_erase used).symm.append_left _))
  simp only [count_cons, count_append, count_nil]
  omega

theorem Kept.flush : s.flush.Kept ∧ s.flush.alloc.dirty = false := by
  rw [AllocatorFile.flush]
  by_cases dirty : s.alloc.dirty
  · rw [if_pos dirty]
    refine ⟨⟨kept.grow, fun _ => ⟨rfl, ?_, fun w member => ?_⟩⟩, rfl⟩
    · dsimp only
      rw [Allocator.length_meta_grow]
      exact s.alloc.length_le_need
    · dsimp only at member ⊢
      rw [PageStore.content_overlay kept.sound.grow.distinct.of_append_right member, if_pos rfl]
  · rw [if_neg dirty]
    exact ⟨kept, by simpa using dirty⟩

theorem Kept.reload {steps : Nat} (clean : s.alloc.dirty = false)
    (enough : s.alloc.meta.length < steps) : s.reload steps = some (.ok (), s) := by
  obtain ⟨mem, fits, holds⟩ := kept.clean clean
  have read := Allocator.reload_metaPages kept.sound fits holds enough
  rw [← mem] at read
  rw [AllocatorFile.reload, read, Option.map_some, ← clean]

theorem Kept.step {op : Op} (taken : s.step? op = some t) : t.Kept := by
  cases op with
  | alloc =>
    rw [step?] at taken
    split at taken <;> cases taken
    · exact kept
    next done => exact kept.alloc done
  | release id =>
    rw [step?] at taken
    split at taken <;> cases taken
    · exact kept
    next done => exact kept.release done
  | flushReload steps =>
    obtain ⟨⟨result, t'⟩, done, rfl⟩ := Option.map_eq_some_iff.mp taken
    obtain ⟨kept', clean⟩ := kept.flush
    obtain ⟨read, ended, same⟩ := Option.map_eq_some_iff.mp done
    have all := kept'.reload clean (show _ < steps + (s.flush.alloc.meta.length + 1) by omega)
    rw [AllocatorFile.reload, Allocator.reload_mono ended, Option.map_some, same] at all
    cases all
    exact kept'
  | flushFails survives noted =>
    rw [step?] at taken
    split at taken <;> cases taken
    next dirty => exact ⟨kept.grow, fun clean => absurd dirty (Bool.eq_false_iff.mp clean)⟩
  | setCapPages pages =>
    cases taken
    exact ⟨kept.parts, kept.clean⟩

end

/-- **The partition.** After any calls, each page below the next id is in one part. `Alloc` gives
no page in use, and `Free` takes no other and then changes nothing. A flush leaves the pages in
use and the free ones as they are, and a reload after it gives the same allocator again; one
that is refused, whatever the file holds, leaves it. -/
theorem run_partition {capPages : PageID} {ops : List Op}
    (run : Run (fun s op t => s.step? op = some t) unguarded (created capPages) ops s) :
    s.parts.Perm (range s.alloc.next) ∧
    (∀ id a, s.alloc.alloc = .ok (id, a) → id ∉ s.inUse) ∧
    (∀ id, id ∉ s.inUse → (∃ e, s.alloc.release id = .error e) ∧ s.step? (.release id) = some s) ∧
    (s.flush.inUse = s.inUse ∧ s.flush.alloc.free = s.alloc.free ∧
      ∀ steps, s.flush.alloc.meta.length < steps →
        s.flush.reload steps = some (.ok (), s.flush)) ∧
    ∀ steps pages mem e t, reload { s with pages := pages, mem := mem } steps =
      some (.error e, t) → t.alloc = s.alloc := by
  have kept : s.Kept := run.invariant Kept
    ⟨.refl _, fun _ => ⟨rfl, le_rfl, fun _ member => by cases member⟩⟩
    fun kept _ taken => kept.step taken
  obtain ⟨flushed, clean⟩ := kept.flush
  refine ⟨kept.parts, fun id a done used => ?_, fun id unused => ?_, ⟨?_, ?_, ?_⟩, ?_⟩
  · have distinct := (kept.alloc done).parts.nodup_iff.mpr nodup_range
    exact (nodup_cons.mp (nodup_cons.mp distinct).2.of_append_right).1 used
  · cases done : s.alloc.release id with
    | ok a => exact absurd (kept.release_iff.mp ⟨a, done⟩) unused
    | error e => exact ⟨⟨e, rfl⟩, by rw [step?, done]⟩
  · rw [AllocatorFile.flush]
    split <;> rfl
  · rw [AllocatorFile.flush]
    split <;> rfl
  · exact fun steps enough => flushed.reload clean enough
  intro steps pages mem e t done
  obtain ⟨read, -, same⟩ := Option.map_eq_some_iff.mp done
  cases read <;> cases same
  rfl

theorem run_partition_reloaded : ∃ s,
    Run (fun s op t => step? s op = some t) unguarded (created 0)
      [.alloc, .alloc, .release 1, .flushReload 2, .alloc] s ∧
    s.parts.Perm (range s.alloc.next) :=
  have run := Run.snoc (Run.snoc (Run.snoc (Run.snoc (Run.snoc .nil trivial rfl) trivial rfl)
    trivial rfl) trivial rfl) trivial rfl
  ⟨_, run, (run_partition run).1⟩

end AllocatorFile

end NextSQL.Storage
