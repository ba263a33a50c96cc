import NextSQL.Storage.AllocatorCrash

/-!
# Redo boundary, superblock and flush

The steps that do not log. The redo boundary moves up to a checkpoint, and what
is scanned from there still ends with the same records (`Ordered`). A flush
that writes the list it wrote before leaves the same pages wherever it is cut
off; one that writes another list needs that no record names the pages
(`Sound.loads_unnamed`).
-/

namespace NextSQL.Storage.PageStore

open GuardedRuns Recovery List

variable {s t : PageStore} {log more : List (Record Content)}

/-! ## The redo boundary -/

/-- Commit records come after the other records of their transaction. -/
def Ordered (log : List (Record Content)) : Prop :=
  log.Pairwise fun first later => first.body.isCommit = true → later.txn ≠ first.txn

variable {n : Nat}

theorem Ordered.committed_drop (ordered : Ordered log) {r : Record Content}
    (member : r ∈ log.drop n) : committed (log.drop n) r.txn = committed log r.txn := by
  rw [Ordered, ← take_append_drop n log, pairwise_append] at ordered
  have none : committed (log.take n) r.txn = false := by
    simp only [committed, any_eq_false]
    intro first early
    simp only [Bool.and_eq_true, decide_eq_true_eq, not_and]
    exact fun same isCommit => ordered.2.2 first early r member isCommit same.symm
  nth_rewrite 2 [← take_append_drop n log]
  rw [committed_append, none, Bool.false_or]

theorem Ordered.lastAlloc_drop (ordered : Ordered log)
    (found : (lastAlloc (log.drop n)).isSome) : lastAlloc log = lastAlloc (log.drop n) := by
  have same : lastAlloc (log.drop n) =
      (log.drop n).latest fun r => (allocOf (committed log) r).map (r.lsn, ·) := by
    refine latest_congr fun r member => ?_
    unfold allocOf
    rw [ordered.committed_drop member]
  rw [same] at found ⊢
  exact latest_drop found

theorem Ordered.lastTree_drop (ordered : Ordered log)
    (found : (lastTree (log.drop n)).isSome) : lastTree log = lastTree (log.drop n) := by
  have same : lastTree (log.drop n) = (log.drop n).latest (treeOf (committed log)) := by
    refine latest_congr fun r member => ?_
    unfold treeOf
    rw [ordered.committed_drop member]
  rw [same] at found ⊢
  exact latest_drop found

/-- A root that counts still counts, or a later one, when more of the log survives. -/
theorem lastTree_isSome_append (found : (lastTree log).isSome) :
    (lastTree (log ++ more)).isSome := by
  rw [lastTree, Option.isSome_iff_ne_none, ne_eq, latest_eq_none_iff]
  obtain ⟨tree, isLast⟩ := Option.isSome_iff_exists.mp found
  obtain ⟨r, member, value⟩ := exists_of_latest isLast
  intro silent
  have none := silent r (mem_append_left _ member)
  unfold treeOf at none value
  split at value
  · simp_all
  · rw [committed_append] at none
    split at value
    · simp_all
    · cases value
  · cases value

theorem drop_take_eq {k m : Nat} (le : k ≤ n) (within : m ≤ k) (inside : k ≤ log.length) :
    (log.take n).drop m = (log.take k).drop m ++ (log.take n).drop k := by
  have parts : log.take n = log.take k ++ (log.take n).drop k := by
    have first : log.take k = (log.take n).take k := by rw [take_take, Nat.min_eq_left le]
    rw [first, take_append_drop]
  nth_rewrite 1 [parts]
  refine drop_append_of_le_length ?_
  rw [length_take]
  exact le_min within (within.trans inside)

section

variable (sound : s.Sound)

include sound

section

variable (rest : s.persisting = false)

include rest

/-- The redo boundary moves up to a durable checkpoint. -/
theorem Sound.installCheckpoint {redo : Nat} (le : s.redoFrom ≤ redo)
    (checkpoint : ((s.log.take s.durable).drop redo).any isCheckpoint)
    (rooted : Rooted { s with redoFrom := redo }) : Sound { s with redoFrom := redo } := by
  obtain ⟨c, inside, isIt⟩ := any_eq_true.mp checkpoint
  have below : redo < s.durable := by
    by_contra beyond
    rw [drop_eq_nil_of_le (by rw [length_take]; omega)] at inside
    cases inside
  refine { sound with bounds := ⟨below.le, sound.bounds.2⟩, loads := ?_, disk := ?_ }
  · intro upTo durable within
    have loads := sound.loads upTo durable within
    have window : (s.log.take upTo).drop redo = (s.log.take s.durable).drop redo ++
        (s.log.take upTo).drop s.durable := drop_take_eq durable below.le sound.bounds.2
    have ordered : Ordered ((s.log.take upTo).drop s.redoFrom) :=
      sound.ordered.sublist ((drop_sublist _ _).trans (take_sublist _ _))
    have narrower : ((s.log.take upTo).drop s.redoFrom).drop (redo - s.redoFrom) =
        (s.log.take upTo).drop redo := by
      rw [drop_drop, Nat.add_sub_cancel' le]
    have someAlloc : (lastAlloc ((s.log.take upTo).drop redo)).isSome := by
      rw [lastAlloc, Option.isSome_iff_ne_none, ne_eq, latest_eq_none_iff]
      intro silent
      have none := silent c (window ▸ mem_append_left _ inside)
      have plain := sound.plain c (mem_of_mem_take (mem_of_mem_drop inside))
      unfold isCheckpoint at isIt
      unfold Plain at plain
      split at isIt
      next super body => simp_all [allocOf]
      · cases isIt
    have sameAlloc : lastAlloc ((s.log.take upTo).drop s.redoFrom) =
        lastAlloc ((s.log.take upTo).drop redo) :=
      narrower ▸ ordered.lastAlloc_drop (narrower.symm ▸ someAlloc)
    have sameTree : ∀ tree, lastTree ((s.log.take upTo).drop redo) = some tree →
        lastTree ((s.log.take upTo).drop s.redoFrom) = some tree := by
      intro tree found
      rw [← found, ← narrower]
      exact ordered.lastTree_drop (by rw [narrower, found]; rfl)
    unfold Loads at loads ⊢
    dsimp only
    rw [sameAlloc] at loads
    split at loads
    next none =>
      rw [none] at someAlloc
      cases someAlloc
    next lsn st found =>
    obtain ⟨loadable, nodes, valid, apart⟩ := loads
    refine ⟨loadable, nodes, fun tree isLast => valid tree (sameTree tree isLast), ?_⟩
    obtain someTree | noFree := rooted
    · refine apart.imp_right ?_
      rintro ⟨loaded, isLast, rest⟩
      refine ⟨loaded, ?_, rest⟩
      have still : (lastTree ((s.log.take upTo).drop redo)).isSome :=
        window ▸ lastTree_isSome_append someTree
      obtain ⟨tree, isSome⟩ := Option.isSome_iff_exists.mp still
      rw [isSome, ← sameTree tree isSome, isLast]
    have count := noFree upTo (mem_range'_1.mpr ⟨durable, by lia⟩)
    rw [scanned, found] at count
    have length := loadable.2.2.1
    simp only [Option.all_some, decide_eq_true_eq] at count
    rw [count] at length
    exact .inl (length_eq_zero_iff.mp length.symm)
  have still : ∀ r, r ∈ s.log.drop redo → r ∈ s.log.drop s.redoFrom := by
    intro r member
    rw [← Nat.add_sub_cancel' le, ← drop_drop] at member
    exact mem_of_mem_drop member
  have onDisk := sound.onDisk rest
  exact .inl { onDisk with images := fun r member => onDisk.images r (still r member) }

/-! ## Superblock, pages and log -/

theorem Sound.writeSuperblock (current : s.Current) : Sound { s with super := s.mem } := by
  obtain ⟨next, count, head⟩ := sound.mirrored rest
  refine { sound with super := ⟨next ▸ sound.alloc.started, next.le⟩, loads := ?_, disk := ?_ }
  · intro upTo durable within
    refine (sound.loads upTo durable within).frame rfl rfl rfl (le_rfl)
      (next.symm ▸ sound.super.2) ?_ fun _ _ => rfl
    intro none
    obtain ⟨-, noMeta, noWritten⟩ := sound.loads_bare durable within none
    have empty : s.alloc.free = [] := current.elim id fun same => same.trans noWritten
    refine ⟨?_, by rw [count, empty]; rfl⟩
    obtain own | ⟨-, isHead⟩ := head
    · rw [own, Allocator.freeHead, if_pos (.inl empty)]
    · rw [isHead, noMeta]
      rfl
  · have onDisk := sound.onDisk rest
    exact .inl { onDisk with }

theorem Sound.writeBack {id : PageID} (inUse : s.InUse id) {page : Page Content} :
    Sound { s with pages := Function.update s.pages id (some page) } := by
  have other : ∀ own ∈ s.alloc.meta, ∀ survives,
      PageStore.disk { s with pages := Function.update s.pages id (some page) } survives own =
        s.disk survives own := by
    intro own member survives
    simp only [PageStore.disk, rest, Bool.false_eq_true, if_false]
    refine Function.update_of_ne ?_ _ _
    rintro rfl
    exact inUse.2.2.2 member
  refine { sound with loads := ?_, disk := ?_ }
  · intro upTo durable within
    exact (sound.loads upTo durable within).frame rfl rfl rfl (le_rfl) (le_rfl)
      (fun none => (sound.loads_bare durable within none).1) fun _ _ => rfl
  have onDisk := sound.onDisk rest
  refine .inl { onDisk with pages := ?_, images := ?_ }
  · intro survives w member
    have own : w.1 ∈ s.alloc.meta := by
      rw [← Allocator.map_fst_metaPages s.alloc.meta s.written]
      exact mem_map_of_mem member
    rw [other w.1 own]
    exact onDisk.pages survives w member
  · intro r member own isMeta ids link body survives
    rw [other own isMeta]
    exact onDisk.images r member own isMeta ids link body survives

theorem Sound.syncLog {upTo : Nat} (le : s.durable ≤ upTo) (within : upTo ≤ s.log.length) :
    Sound { s with durable := upTo } := by
  refine { sound with
    bounds := ⟨sound.bounds.1.trans le, within⟩
    loads := fun k durable inside => sound.loads k (le.trans durable) inside
    disk := ?_ }
  have onDisk := sound.onDisk rest
  exact .inl { onDisk with }

end

end

/-! ## Flushing the allocator -/

variable {ids free : List PageID} {w : PageID × Content}

theorem lookup_metaPages (distinct : ids.Nodup) (member : w ∈ Allocator.metaPages ids free) :
    (Allocator.metaPages ids free).lookup w.1 = some w.2 := by
  induction ids generalizing free with
  | nil => cases member
  | cons pid rest ih =>
    obtain ⟨fresh, distinct⟩ := nodup_cons.mp distinct
    rw [Allocator.metaPages] at member ⊢
    obtain rfl | later := mem_cons.mp member
    · simp
    have other : w.1 ≠ pid := by
      rintro rfl
      refine fresh ?_
      rw [← Allocator.map_fst_metaPages rest (free.drop idsPerMetaPage)]
      exact mem_map_of_mem later
    rw [lookup_cons, beq_false_of_ne other]
    exact ih distinct later

variable {pages : Pages Content}

/-- A flush that is cut off leaves each freelist page as it was or as it is to be. -/
theorem content_overlay (distinct : ids.Nodup) {survives : PageID → Bool}
    (member : w ∈ Allocator.metaPages ids free) :
    (overlay pages (Allocator.metaPages ids free) survives w.1).map Page.content =
      if survives w.1 then some w.2 else (pages w.1).map Page.content := by
  rw [overlay, lookup_metaPages distinct member]
  dsimp only
  split <;> rfl

/-- A record without a head names no chain. -/
theorem Loadable.unnamed {st : AllocState} (loadable : s.Loadable st free) (sound : s.alloc.Sound)
    (noHead : st.freeHead = 0) : free = [] := by
  obtain ⟨-, -, -, ⟨-, empty⟩ | ⟨head, same, fits, -⟩⟩ := loadable
  · exact empty
  cases ids : s.alloc.meta with
  | nil =>
    rw [ids] at fits
    exact same.trans (length_eq_zero_iff.mp (Nat.le_zero.mp fits))
  | cons pid rest =>
    rw [ids, headD_cons, noHead] at head
    exact absurd head.symm (sound.positive pid (by simp [ids]))

/-- While no record names a chain, the freelist pages may be any others. -/
theorem Sound.loads_unnamed (sound : s.Sound) (unnamed : s.Unnamed) {upTo : Nat}
    (durable : s.durable ≤ upTo) (within : upTo ≤ s.log.length)
    (redo : t.redoFrom = s.redoFrom) (freeAt : t.freeAt = s.freeAt)
    (next : s.alloc.next ≤ t.alloc.next) (super : s.super.alloc.next ≤ t.super.alloc.next)
    (taken : ∀ id ∈ t.alloc.meta, id ∈ s.alloc.meta ∨ s.alloc.next ≤ id) :
    t.Loads (s.log.take upTo) := by
  have loads := sound.loads upTo durable within
  have head := unnamed.1 upTo (mem_range'_1.mpr ⟨durable, by lia⟩)
  rw [scanned] at head
  unfold Loads at loads ⊢
  rw [redo, freeAt]
  split at loads
  next none => simp [none] at head
  next lsn st found =>
  obtain ⟨loadable, nodes, valid, apart⟩ := loads
  have noHead : st.freeHead = 0 := by simpa [found] using head
  have empty := loadable.unnamed sound.alloc noHead
  refine ⟨⟨loadable.1, loadable.2.1.trans next, loadable.2.2.1, .inl ⟨noHead, empty⟩⟩, ?_,
    fun tree isLast => ⟨validatePrimaryTree_mono super (valid tree isLast).1,
      (valid tree isLast).2⟩, .inl empty⟩
  intro r member isCommitted id children body
  obtain ⟨foreign, below⟩ := nodes r member isCommitted id children body
  refine ⟨fun own => ?_, below⟩
  obtain old | new := taken id own
  · exact foreign old
  · exact absurd (below.trans_le loadable.2.1) (not_lt.mpr new)

theorem Sound.persist (sound : s.Sound) (rest : s.persisting = false)
    (safe : s.alloc.free = s.written ∨ s.Unnamed) :
    Sound { s with alloc := s.alloc.grow, persisting := true } := by
  have onDisk := sound.onDisk rest
  by_cases same : s.alloc.free = s.written
  · -- the same list is written to the same pages
    have fits : s.alloc.free.length ≤ idsPerMetaPage * s.alloc.meta.length := same ▸ onDisk.fits
    rw [Allocator.grow_of_fits fits]
    have distinct : s.alloc.meta.Nodup := Nodup.of_append_right sound.alloc.distinct
    have pages : ∀ survives, PageStore.disk { s with persisting := true } survives =
        overlay s.pages (Allocator.metaPages s.alloc.meta s.written) survives := by
      intro survives
      rw [PageStore.disk, if_pos rfl, same]
    have holds : Allocator.Holds s.pages (Allocator.metaPages s.alloc.meta s.written) := by
      have before := onDisk.pages fun _ => true
      rwa [PageStore.disk, if_neg (by simp [rest])] at before
    refine { sound with
      mirrored := fun atRest => absurd atRest (by simp)
      loads := fun upTo durable within => ?_
      disk := .inl ⟨onDisk.chain, onDisk.fits, fun _ => same, ?_, ?_⟩
      room := fun _ => fits }
    · exact (sound.loads upTo durable within).frame rfl rfl rfl (le_rfl) (le_rfl)
        (fun none => (sound.loads_bare durable within none).1) fun _ _ => rfl
    · intro survives w inside
      rw [pages, content_overlay distinct inside]
      split
      · rfl
      · exact holds w inside
    intro r member id own ids link body survives
    have before := onDisk.images r member id own ids link body fun _ => true
    rw [PageStore.disk, if_neg (by simp [rest])] at before
    obtain ⟨w, inside, rfl⟩ : ∃ w ∈ Allocator.metaPages s.alloc.meta s.written, w.1 = id := by
      rw [← Allocator.map_fst_metaPages s.alloc.meta s.written] at own
      exact mem_map.mp own
    have held := holds w inside
    rw [pages, content_overlay distinct inside, held.symm.trans before]
    split
    · rfl
    · exact before
  have unnamed := safe.resolve_left same
  refine { sound with
    alloc := sound.alloc.grow
    super := ⟨sound.super.1, sound.super.2.trans (Nat.le_add_right _ _)⟩
    mirrored := fun atRest => absurd atRest (by simp)
    loads := fun upTo durable within => ?_
    disk := .inr ⟨rfl, unnamed⟩
    room := fun _ => ?_ }
  · refine sound.loads_unnamed unnamed durable within rfl rfl (Nat.le_add_right _ _)
      (le_rfl) fun id member => ?_
    obtain old | new := mem_append.mp member
    · exact .inl old
    · exact .inr (mem_range'_1.mp new).1
  · rw [Allocator.length_meta_grow]
    exact s.alloc.length_le_need

theorem Sound.persisted (sound : s.Sound) (running : s.persisting) : Sound { s with
      alloc := { s.alloc with dirty := false }
      mem := s.flushed
      super := s.flushed
      pages := s.disk fun _ => true
      persisting := false
      written := s.alloc.free } := by
  have distinct : s.alloc.meta.Nodup := Nodup.of_append_right sound.alloc.distinct
  have now : (s.disk fun _ => true) =
      overlay s.pages (Allocator.metaPages s.alloc.meta s.alloc.free) fun _ => true := by
    rw [PageStore.disk, if_pos running]
  refine { sound with
    alloc := { sound.alloc with }
    super := ⟨sound.alloc.started, le_rfl⟩
    mirrored := fun _ => ⟨rfl, rfl, .inr ⟨rfl, rfl⟩⟩
    loads := fun upTo durable within => ?_
    disk := .inl
      ⟨{ sound.alloc with }, sound.room running, fun atRest => absurd atRest (by simp), ?_, ?_⟩
    room := fun atRest => absurd atRest (by simp) }
  · obtain onDisk | ⟨-, unnamed⟩ := sound.disk
    · refine (sound.loads upTo durable within).frame rfl rfl (onDisk.same running)
        (le_rfl) sound.super.2 (fun none => ?_) fun _ _ => rfl
      obtain ⟨-, noMeta, noWritten⟩ := sound.loads_bare durable within none
      simp [flushed, Allocator.persistedState, noMeta, onDisk.same running, noWritten]
    · exact sound.loads_unnamed unnamed durable within rfl rfl (le_rfl) sound.super.2
        fun id member => .inl member
  · intro survives w member
    rw [PageStore.disk, if_neg (by simp), now, content_overlay distinct member]
    rfl
  intro r member id own ids link body survives
  rw [PageStore.disk, if_neg (by simp)]
  obtain onDisk | ⟨-, unnamed⟩ := sound.disk
  · exact onDisk.images r member id own ids link body _
  · have none := unnamed.2 r member
    simp [isFreelist, body] at none

end NextSQL.Storage.PageStore
