import NextSQL.Lib.Result
import NextSQL.Storage.AllocatorSteps

/-!
# Opening after a crash

Redo leaves the freelist pages of the last flush as they are, `reload` reads
them, and the engine is in a sound state again (`Sound.reopen`).
`allocator_survives_crash` puts this together for whole runs, in which crashes
may come anywhere, as long as every step is orderly. Without that, an open can
fail or load a free list with a page of the tree in it
(`freelist_not_as_logged`).
-/

namespace NextSQL.Storage.PageStore

open GuardedRuns Recovery List Option

variable {s t : PageStore} {log more : List (Record Content)}

/-! ## Redo -/

theorem map_snd_lastAlloc (recs : List (Record Content)) :
    (lastAlloc recs).map Prod.snd = recs.latest (allocOf (committed recs)) := by
  rw [lastAlloc]
  generalize committed recs = c
  induction recs with
  | nil => rfl
  | cons r rest ih =>
    rw [latest_cons, latest_cons, ← ih]
    cases rest.latest fun r => (allocOf c r).map (r.lsn, ·) with
    | some last => rfl
    | none => cases allocOf c r <;> rfl

variable {recs : List (Record Content)}

/-- Redo of page images succeeds, and leaves the pages alone whose images it has as they are. -/
theorem replay_plain {isCommitted : TxnID → Bool} {keep : List PageID} :
    ∀ {pages : Pages Content}, (∀ r ∈ recs, Plain r) →
      (∀ r ∈ recs, isCommitted r.txn → ∀ id ∈ keep, ∀ content,
        r.body = .pageImage id content → (pages id).map Page.content = some content) →
      ∃ replayed, recs.foldlM (replayPage isCommitted) pages = .ok replayed ∧
        ∀ id ∈ keep, (replayed id).map Page.content = (pages id).map Page.content := by
  induction recs with
  | nil => exact fun _ _ => ⟨_, rfl, fun _ _ => rfl⟩
  | cons r rest ih =>
    intro pages plain same
    obtain ⟨after, first, kept⟩ : ∃ after, replayPage isCommitted pages r = .ok after ∧
        ∀ id ∈ keep, (after id).map Page.content = (pages id).map Page.content := by
      have isPlain := plain r mem_cons_self
      have isSame := same r mem_cons_self
      unfold replayPage
      unfold Plain at isPlain
      split
      next id content body =>
        rw [body] at isPlain
        split
        next counts =>
          rw [applyPage, if_neg isPlain]
          split
          · exact ⟨_, rfl, fun _ _ => rfl⟩
          refine ⟨_, rfl, fun other member => ?_⟩
          by_cases here : other = id
          · subst here
            rw [Function.update_self]
            exact (isSame counts other member content body).symm
          · rw [Function.update_of_ne here]
        · exact ⟨_, rfl, fun _ _ => rfl⟩
      next id delta body => simp [body] at isPlain
      · exact ⟨_, rfl, fun _ _ => rfl⟩
    obtain ⟨replayed, done, keptToo⟩ := ih (fun x member => plain x (mem_cons_of_mem r member))
      fun x member counts id inside content body => by
        rw [kept id inside]
        exact same x (mem_cons_of_mem r member) counts id inside content body
    refine ⟨replayed, ?_, fun id inside => (keptToo id inside).trans (kept id inside)⟩
    rw [foldlM_cons, first]
    exact done

variable {u : TxnID}

theorem committed_of_drop {n : Nat} (isCommitted : committed (recs.drop n) u) :
    committed recs u := by
  simp only [committed, List.any_eq_true] at *
  obtain ⟨r, member, counts⟩ := isCommitted
  exact ⟨r, mem_of_mem_drop member, counts⟩

variable {upTo : Nat}

/-- What recovery finds in the superblock after redo. -/
theorem Sound.setSuperblock (sound : s.Sound) (durable : s.durable ≤ upTo)
    (within : upTo ≤ s.log.length) (survives : Bool) :
    setSuperblock (s.superAfter survives) (lastTree (s.scanned upTo))
        ((lastAlloc (s.scanned upTo)).map Prod.snd) =
      .ok ⟨(lastTree (s.scanned upTo)).getD (s.superAfter survives).tree,
        (s.lastRecord upTo survives).2⟩ := by
  have loads := sound.loads upTo durable within
  have next : s.super.alloc.next ≤ (s.superAfter survives).alloc.next := by
    unfold superAfter
    split
    · exact sound.super.2
    · exact le_rfl
  have valid : ∀ tree, lastTree (s.scanned upTo) = some tree →
      validatePrimaryTree tree (s.superAfter survives).alloc.next = .ok () := by
    intro tree isLast
    unfold Loads at loads
    split at loads
    · rw [scanned, loads.2.2.2.2.1] at isLast
      cases isLast
    · exact validatePrimaryTree_mono next (loads.2.2.1 tree isLast).1
  have alloc : ((lastAlloc (s.scanned upTo)).map Prod.snd).getD (s.superAfter survives).alloc =
      (s.lastRecord upTo survives).2 := by
    unfold lastRecord
    cases lastAlloc (s.scanned upTo) <;> rfl
  unfold Recovery.setSuperblock
  cases isLast : lastTree (s.scanned upTo) with
  | none => rw [← alloc]; rfl
  | some tree =>
    dsimp only
    rw [valid tree isLast, ← alloc]
    rfl

/-- The freelist pages `ids` hold the free list of an allocator record. -/
structure Names (s : PageStore) (st : AllocState) (free ids : List PageID) : Prop where
  which : ids = [] ∧ free = [] ∨ ids = s.alloc.meta ∧ free = s.written ∧ s.OnDisk
  sound : Allocator.Sound ⟨st.next, free, ids, false, 0⟩
  state : st = ⟨st.next, ids.headD 0, free.length⟩

variable {st : AllocState}

/-- A record without free pages. -/
theorem Names.bare (started : st.next ≠ 0) (noHead : st.freeHead = 0) (noCount : st.freeCount = 0) :
    s.Names st [] [] where
  which := .inl ⟨rfl, rfl⟩
  sound := ⟨nodup_nil, fun _ member => (nomatch member), fun _ member => (nomatch member),
    started⟩
  state := by
    calc st = ⟨st.next, st.freeHead, st.freeCount⟩ := rfl
      _ = ⟨st.next, 0, 0⟩ := by rw [noHead, noCount]

theorem Sound.head_eq_zero (unnamed : s.Unnamed) (durable : s.durable ≤ upTo)
    (within : upTo ≤ s.log.length) :
    ∃ last, lastAlloc (s.scanned upTo) = some last ∧ last.2.freeHead = 0 := by
  have head := unnamed.1 upTo (mem_range'_1.mpr ⟨durable, by lia⟩)
  cases found : lastAlloc (s.scanned upTo) with
  | none => simp [found] at head
  | some last => exact ⟨last, rfl, by simpa [found] using head⟩

variable {lsn : LSN}

/-- The free list of the last record is on the freelist pages that it names. -/
theorem Sound.names (sound : s.Sound) (durable : s.durable ≤ upTo) (within : upTo ≤ s.log.length)
    {survives : Bool} (record : s.lastRecord upTo survives = (lsn, st)) :
    ∃ ids, s.Names st (s.freeAt lsn) ids := by
  have loads := sound.loads upTo durable within
  unfold Loads at loads
  unfold lastRecord at record
  split at loads
  next none =>
    rw [scanned, none, getD_none] at record
    obtain ⟨rfl, rfl⟩ := Prod.ext_iff.mp record.symm
    obtain ⟨noHead, noCount, noMeta, noWritten, -⟩ := loads
    refine ⟨[], sound.unlogged.symm ▸ ?_⟩
    unfold superAfter
    split
    next both =>
      have running : s.persisting := by simp_all
      have onDisk : s.OnDisk := by
        refine sound.disk.resolve_right ?_
        rintro ⟨-, unnamed⟩
        obtain ⟨last, found, -⟩ := Sound.head_eq_zero unnamed durable within
        rw [scanned, none] at found
        cases found
      have empty : s.alloc.free = [] := (onDisk.same running).trans noWritten
      refine .bare sound.alloc.started ?_ ?_
      · simp [flushed, Allocator.persistedState, noMeta]
      · simp [flushed, Allocator.persistedState, empty]
    · exact .bare sound.super.1 noHead noCount
  next lsn' st' found =>
  rw [scanned, found, getD_some] at record
  cases record
  obtain ⟨loadable, -⟩ := loads
  have noChain : st.freeHead = 0 → ∃ ids, s.Names st (s.freeAt lsn) ids := by
    intro noHead
    have empty := loadable.unnamed sound.alloc noHead
    have noCount : st.freeCount = 0 := by rw [loadable.2.2.1, empty, length_nil]
    rw [empty]
    exact ⟨[], .bare loadable.1 noHead noCount⟩
  obtain onDisk | ⟨-, unnamed⟩ := sound.disk
  · obtain ⟨noHead, -⟩ | ⟨head, same, -, below⟩ := loadable.2.2.2
    · exact noChain noHead
    refine ⟨s.alloc.meta, .inr ⟨rfl, same, onDisk⟩, ?_, ?_⟩
    · rw [same]
      exact ⟨onDisk.chain.distinct, onDisk.chain.positive, below, loadable.1⟩
    · rw [← head, ← loadable.2.2.1]
  · obtain ⟨last, isLast, noHead⟩ := Sound.head_eq_zero unnamed durable within
    rw [scanned, found] at isLast
    cases isLast
    exact noChain noHead

/-- What redo makes of the pages; the freelist pages of the last flush keep their content. -/
theorem Sound.replay (sound : s.Sound) (durable : s.durable ≤ upTo) (within : upTo ≤ s.log.length)
    (survives : PageID → Bool) :
    ∃ replayed, (s.scanned upTo).foldlM (replayPage (committed (s.scanned upTo)))
        (s.disk survives) = .ok replayed ∧
      (s.OnDisk → ∀ id ∈ s.alloc.meta,
        (replayed id).map Page.content = (s.disk survives id).map Page.content) := by
  have inLog : ∀ r ∈ s.scanned upTo, r ∈ s.log := fun r member =>
    mem_of_mem_take (mem_of_mem_drop member)
  have plain : ∀ r ∈ s.scanned upTo, Plain r := fun r member => sound.plain r (inLog r member)
  by_cases onDisk : s.OnDisk
  · have same : ∀ r ∈ s.scanned upTo, committed (s.scanned upTo) r.txn →
        ∀ id ∈ s.alloc.meta, ∀ content, r.body = .pageImage id content →
          (s.disk survives id).map Page.content = some content := by
      intro r member counts id own content body
      cases content with
      | freelist ids link =>
        refine onDisk.images r ?_ id own ids link body survives
        rw [scanned, drop_take] at member
        exact mem_of_mem_take member
      | node children =>
        have loads := sound.loads upTo durable within
        have foreign : id ∉ s.alloc.meta := by
          have inside := mem_of_mem_drop member
          unfold Loads at loads
          split at loads
          · exact (loads.2.2.2.2.2 r inside (committed_of_drop counts) id children body).1
          · exact (loads.2.1 r inside (committed_of_drop counts) id children body).1
        exact absurd own foreign
    obtain ⟨replayed, done, kept⟩ := replay_plain plain same
    exact ⟨replayed, done, fun _ => kept⟩
  have none : ∀ r ∈ s.scanned upTo, committed (s.scanned upTo) r.txn →
      ∀ id ∈ ([] : List PageID), ∀ content, r.body = .pageImage id content →
        (s.disk survives id).map Page.content = some content :=
    fun _ _ _ _ none => absurd none not_mem_nil
  obtain ⟨replayed, done, -⟩ := replay_plain plain none
  exact ⟨replayed, done, fun it => absurd it onDisk⟩

variable {free : List PageID}

theorem Apart.reaches {tree : TreeMeta} {last : Option TreeMeta} (apart : Apart log last free)
    {default : TreeMeta} (same : last.getD default = tree) {id : PageID}
    (reached : Reaches (links log) tree.root id) : id ∉ free := by
  obtain rfl | ⟨loaded, isLast, root, closed⟩ := apart
  · exact not_mem_nil
  rw [isLast, getD_some] at same
  subst same
  induction reached with
  | root => exact root
  | child _ link ih => exact closed _ ih _ link

variable {ids : List PageID}

theorem Names.fits (names : s.Names st free ids) : free.length ≤ idsPerMetaPage * ids.length := by
  obtain ⟨rfl, rfl⟩ | ⟨rfl, rfl, onDisk⟩ := names.which
  · exact zero_le
  · exact onDisk.fits

theorem Names.subset (names : s.Names st free ids) : ∀ id ∈ ids, id ∈ s.alloc.meta := by
  obtain ⟨rfl, -⟩ | ⟨rfl, -, -⟩ := names.which
  · exact fun _ none => (nomatch none)
  · exact fun _ own => own

variable {survives : PageID → Bool}

/-- The freelist pages are still there after redo. -/
theorem Names.holds (names : s.Names st free ids) {pages : Pages Content}
    (kept : s.OnDisk → ∀ id ∈ s.alloc.meta,
      (pages id).map Page.content = (s.disk survives id).map Page.content) :
    Allocator.Holds pages (Allocator.metaPages ids free) := by
  obtain ⟨rfl, -⟩ | ⟨rfl, rfl, onDisk⟩ := names.which
  · exact fun _ none => (nomatch none)
  intro w member
  have own : w.1 ∈ s.alloc.meta := by
    rw [← Allocator.map_fst_metaPages s.alloc.meta s.written]
    exact mem_map_of_mem member
  rw [kept onDisk w.1 own]
  exact onDisk.pages survives w member

variable {superSurvives : Bool}

theorem Sound.opened (sound : s.Sound) (durable : s.durable ≤ upTo) (within : upTo ≤ s.log.length)
    (record : s.lastRecord upTo superSurvives = (lsn, st)) (names : s.Names st (s.freeAt lsn) ids)
    {file : DataFile Content} (super : file.super.alloc = st)
    (kept : s.OnDisk → ∀ id ∈ s.alloc.meta,
      (file.pages id).map Page.content = (s.disk survives id).map Page.content) :
    Sound (s.opened upTo file ⟨st.next, s.freeAt lsn, ids, false, 0⟩) := by
  subst super
  have length : (s.log.take upTo).length = upTo := by
    rw [length_take, Nat.min_eq_left within]
  have nodes : ∀ bound, s.NodesBelow (s.log.take upTo) bound →
      NodesBelow (s.opened upTo file ⟨file.super.alloc.next, s.freeAt lsn, ids, false, 0⟩)
        (s.log.take upTo) bound := by
    intro bound below r member isCommitted id children body
    obtain ⟨foreign, lt⟩ := below r member isCommitted id children body
    exact ⟨fun own => foreign (names.subset id own), lt⟩
  refine {
    alloc := names.sound
    super := ⟨names.sound.started, le_rfl⟩
    mirrored := fun _ => ⟨rfl, congrArg AllocState.freeCount names.state,
      .inr ⟨rfl, congrArg AllocState.freeHead names.state⟩⟩
    bounds := ⟨sound.bounds.1.trans durable, length.ge⟩
    lsns := ?_
    plain := fun r member => sound.plain r (mem_of_mem_take member)
    running := fun _ none => (nomatch none)
    ordered := sound.ordered.sublist (take_sublist _ _)
    loads := fun k low high => ?_
    disk := .inl ⟨names.sound, names.fits, fun running => (nomatch running),
      fun _ => names.holds kept, ?_⟩
    room := fun running => (nomatch running)
    unlogged := sound.unlogged }
  · have range : range' 1 s.log.length =
        range' 1 upTo ++ range' (1 + upTo) (s.log.length - upTo) := by
      rw [range'_append_1, Nat.add_sub_cancel' within]
    dsimp only [PageStore.opened]
    rw [map_take, sound.lsns, length, range, take_append_of_le_length (by simp),
      take_of_length_le (by simp)]
  · obtain rfl : k = upTo := le_antisymm (high.trans length.le) low
    have loads := sound.loads k durable within
    dsimp only [PageStore.opened]
    rw [take_take, Nat.min_self]
    unfold Loads at loads ⊢
    dsimp only [PageStore.opened]
    unfold lastRecord scanned at record
    split at loads
    next none =>
      rw [none, getD_none] at record
      obtain ⟨noHead, noCount, noMeta, noWritten, noTree, below⟩ := loads
      obtain rfl : ids = [] := eq_nil_iff_forall_not_mem.mpr fun id own => by
        have inside := names.subset id own
        rw [noMeta] at inside
        cases inside
      obtain rfl : (0 : LSN) = lsn := (Prod.ext_iff.mp record).1
      have state := names.state
      rw [sound.unlogged] at state
      exact ⟨congrArg AllocState.freeHead state, congrArg AllocState.freeCount state, rfl,
        sound.unlogged, noTree, nodes 0 below⟩
    next lsn' st' found =>
    rw [found, getD_some] at record
    obtain ⟨rfl, rfl⟩ : lsn' = lsn ∧ st' = file.super.alloc := by simpa using record
    obtain ⟨loadable, below, valid, apart⟩ := loads
    refine ⟨⟨loadable.1, le_rfl, loadable.2.2.1, ?_⟩, nodes _ below,
      fun tree isLast => ⟨(valid tree isLast).2, (valid tree isLast).2⟩, apart⟩
    obtain ⟨rfl, none⟩ | ⟨rfl, same, -⟩ := names.which
    · exact .inl ⟨congrArg AllocState.freeHead names.state, none⟩
    · exact .inr ⟨congrArg AllocState.freeHead names.state, rfl, names.fits,
        names.sound.below⟩
  intro r member id own pageIds link body _
  obtain ⟨rfl, -⟩ | ⟨rfl, -, onDisk⟩ := names.which
  · cases own
  refine (kept onDisk id own).trans (onDisk.images r ?_ id own pageIds link body survives)
  dsimp only [PageStore.opened] at member
  rw [drop_take] at member
  exact mem_of_mem_take member

variable {steps : Nat}

/-- **A crash in a sound state.** The next open succeeds, its allocator is that of the last
record, and the state is sound again. -/
theorem Sound.reopen (sound : s.Sound) (durable : s.durable ≤ upTo) (within : upTo ≤ s.log.length)
    (survives : PageID → Bool) (superSurvives : Bool) (enough : s.alloc.meta.length < steps) :
    ∃ opened, s.reopen upTo survives superSurvives steps = some (.ok opened) ∧ opened.Sound ∧
      opened.alloc.next = (s.lastRecord upTo superSurvives).2.next ∧
      opened.alloc.free = s.freeAt (s.lastRecord upTo superSurvives).1 ∧
      opened.alloc.free.length = (s.lastRecord upTo superSurvives).2.freeCount ∧
      ∀ id, Reaches (links opened.log) opened.mem.tree.root id → id ∉ opened.alloc.free := by
  obtain ⟨replayed, replay, kept⟩ := sound.replay durable within survives
  have super := sound.setSuperblock durable within superSurvives
  have loads := sound.loads upTo durable within
  have apart : Apart (s.log.take upTo) (lastTree (s.scanned upTo))
      (s.freeAt (s.lastRecord upTo superSurvives).1) := by
    unfold Loads at loads
    unfold lastRecord scanned
    split at loads
    next none =>
      rw [none]
      exact .inl sound.unlogged
    next lsn st found =>
      rw [found]
      exact loads.2.2.2
  obtain ⟨⟨lsn, st⟩, record⟩ : ∃ record, s.lastRecord upTo superSurvives = record := ⟨_, rfl⟩
  rw [record] at super apart ⊢
  obtain ⟨ids, names⟩ := sound.names durable within record
  have short : ids.length < steps := by
    obtain ⟨rfl, -⟩ | ⟨rfl, -, -⟩ := names.which
    · exact Nat.zero_lt_of_lt enough
    · exact enough
  have reload := Allocator.reload_metaPages names.sound names.fits (names.holds kept) short
  have persisted : Allocator.persistedState ⟨st.next, s.freeAt lsn, ids, false, 0⟩ = st :=
    names.state.symm
  rw [persisted] at reload
  refine ⟨s.opened upTo ⟨replayed, ⟨(lastTree (s.scanned upTo)).getD
      (s.superAfter superSurvives).tree, st⟩⟩ ⟨st.next, s.freeAt lsn, ids, false, 0⟩, ?_,
    sound.opened durable within record names rfl kept, rfl, rfl,
    (congrArg AllocState.freeCount names.state).symm, fun id reached => apart.reaches rfl reached⟩
  rw [map_snd_lastAlloc] at super
  rw [PageStore.reopen, redo, foldlM_step_eq, replay]
  simp only [Except.map, bind, Except.bind, pure, Except.pure, Option.or_none]
  rw [← lastTree, super]
  dsimp only
  rw [reload]
  rfl

theorem reopen_mono {more : Nat} {result : Except Nerr PageStore}
    (done : s.reopen upTo survives superSurvives steps = some result) :
    s.reopen upTo survives superSurvives (steps + more) = some result := by
  unfold reopen at *
  cases replayed : redo ⟨s.disk survives, s.superAfter superSurvives⟩ (s.scanned upTo) with
  | error e =>
    rw [replayed] at done
    exact done
  | ok file =>
    rw [replayed] at done
    obtain ⟨loaded, reloaded, same⟩ := map_eq_some_iff.mp done
    dsimp only
    rw [Allocator.reload_mono reloaded, ← same]
    rfl

/-! ## Runs -/

variable {label : Label}

theorem Sound.create : create.Sound where
  alloc := ⟨nodup_nil, fun _ none => (nomatch none), fun _ none => (nomatch none),
    Nat.one_ne_zero⟩
  super := ⟨Nat.one_ne_zero, le_rfl⟩
  mirrored _ := ⟨rfl, rfl, .inl rfl⟩
  bounds := ⟨le_rfl, le_rfl⟩
  lsns := rfl
  plain _ none := nomatch none
  running _ none := nomatch none
  ordered := .nil
  loads _ _ _ := by
    simp only [PageStore.create, take_nil]
    exact ⟨rfl, rfl, rfl, rfl, rfl, fun _ none => (nomatch none)⟩
  disk := .inl ⟨⟨nodup_nil, fun _ none => (nomatch none), fun _ none => (nomatch none),
    Nat.one_ne_zero⟩, le_rfl, fun running => (nomatch running), fun _ _ none => (nomatch none),
    fun _ none => (nomatch none)⟩
  room running := nomatch running
  unlogged := rfl

theorem committed_of_fresh (fresh : s.Fresh u) : committed s.log u = false := by
  simp only [committed, List.any_eq_false]
  intro r member
  simp [fresh r member]

section

variable (sound : s.Sound) (rest : s.persisting = false)

include sound rest

theorem Sound.logNodes (current : s.Current) {pre : List (Body Content)}
    {nodes : List (PageID × List PageID)} {running : List TxnID}
    (bodies : ∀ b ∈ pre, b = .begin_ ∨ b ∈ nodes.map image) (inUse : ∀ node ∈ nodes, s.InUse node.1)
    (pending : committed s.log u = false) (noImages : ∀ r ∈ s.log, r.txn = u → isImage r = false)
    (stillRunning : ∀ v ∈ running, v ∈ s.running ∧ v ≠ u)
    (tidy : (s.logGroup u pre (.allocState s.mem.alloc)).Tidy) :
    Sound { s.logGroup u pre (.allocState s.mem.alloc) with running := running } := by
  have shape : ∀ b ∈ pre, b = .begin_ ∨
      ∃ node ∈ nodes, b = .pageImage node.1 (.node node.2) := by
    intro b member
    refine (bodies b member).imp_right fun inside => ?_
    obtain ⟨node, isNode, rfl⟩ := mem_map.mp inside
    exact ⟨node, isNode, rfl⟩
  refine sound.logGroup rest current ⟨.inl rfl, ?_, pending, noImages, fun same => (nomatch same), ?_,
    ?_⟩ stillRunning tidy
  · intro b member
    obtain rfl | ⟨node, isNode, rfl⟩ := shape b member
    · trivial
    · exact (inUse node isNode).1
  · intro b member id children same
    obtain rfl | ⟨node, isNode, rfl⟩ := shape b member
    · cases same
    · cases same
      exact inUse node isNode
  · intro b member id ids link same
    rcases shape b member with rfl | ⟨node, isNode, rfl⟩ <;> cases same

theorem Sound.logCheckpoint (current : s.Current) {images : List (Body Content)} (fresh : s.Fresh u)
    (idle : u ∉ s.running) (read : s.metaImages = some images)
    (tidy : (s.logGroup u (.begin_ :: images) (.checkpoint s.mem)).Tidy) :
    Sound (s.logGroup u (.begin_ :: images) (.checkpoint s.mem)) := by
  have onDisk := sound.onDisk rest
  have shape : ∀ b ∈ .begin_ :: images, b = .begin_ ∨ ∃ id ∈ s.alloc.meta, ∃ ids link,
      (s.pages id).map Page.content = some (.freelist ids link) ∧
        b = .pageImage id (.freelist ids link) := by
    intro b member
    refine (mem_cons.mp member).imp_right fun inside => ?_
    obtain ⟨id, own, value⟩ := (mapM_eq_some_iff.mp read).flip.exists_right inside
    obtain ⟨page, found, rfl⟩ := map_eq_some_iff.mp value
    obtain ⟨w, isPage, rfl⟩ : ∃ w ∈ Allocator.metaPages s.alloc.meta s.written, w.1 = id := by
      rw [← Allocator.map_fst_metaPages s.alloc.meta s.written] at own
      exact mem_map.mp own
    have held := onDisk.pages (fun _ => true) w isPage
    rw [PageStore.disk, if_neg (by simp [rest]), found] at held
    injection held with held
    obtain ⟨ids, link, same⟩ := Allocator.freelist_of_mem_metaPages isPage
    rw [held, same]
    exact ⟨w.1, own, ids, link, by rw [found, map_some, held, same], rfl⟩
  refine sound.logGroup rest current ⟨.inr rfl, ?_, committed_of_fresh fresh,
    fun r member same => absurd same (fresh r member), fun _ => ⟨fresh, ?_⟩, ?_, ?_⟩ ?_ tidy
  · intro b member
    obtain rfl | ⟨id, own, ids, link, -, rfl⟩ := shape b member
    · trivial
    · exact sound.alloc.positive id (mem_append_right _ own)
  · intro b member id children same
    rcases shape b member with rfl | ⟨id, own, ids, link, -, rfl⟩ <;> cases same
  · intro b member id children same
    rcases shape b member with rfl | ⟨id, own, ids, link, -, rfl⟩ <;> cases same
  · intro b member id ids link same
    obtain rfl | ⟨id, own, ids, link, found, rfl⟩ := shape b member
    · cases same
    · cases same
      exact found
  · exact fun v member => ⟨member, fun same => idle (same ▸ member)⟩

theorem Sound.stepAtRest (orderly : s.Orderly label) (taken : s.stepAtRest label = some t) :
    t.Sound := by
  have next : s.next label = some t := by
    rw [← taken]
    cases label with
    | persisted | reopen upTo survives superSurvives steps => cases taken
    | _ => simp [PageStore.next, rest]
  cases label with
  | setCapPages pages =>
    cases taken
    exact sound.reallocate rest { sound.alloc with } rfl (le_rfl) (sound.mirrored rest)
  | alloc =>
    obtain ⟨⟨id, a⟩, done, rfl⟩ := map_eq_some_iff.mp taken
    have ok : s.alloc.alloc = .ok (id, a) := by
      cases result : s.alloc.alloc <;> simp_all [Except.toOption]
    obtain ⟨sameMeta, le, -⟩ := Allocator.free_alloc ok
    exact sound.withAlloc rest (sound.alloc.alloc ok) sameMeta le
  | release id =>
    obtain ⟨a, done, rfl⟩ := map_eq_some_iff.mp taken
    have ok : s.alloc.release id = .ok a := by
      cases result : s.alloc.release id <;> simp_all [Except.toOption]
    obtain ⟨rfl, -⟩ := Allocator.free_release ok
    exact sound.withAlloc rest (sound.alloc.release ok) rfl (le_rfl)
  | begin_ u =>
    obtain ⟨⟨fresh, -⟩, done⟩ := ite_none_right_eq_some.mp taken
    cases done
    refine sound.append rest (committed_of_fresh fresh) rfl (by simp) (by simp) (by simp) ?_ rfl
    exact forall_mem_cons.mpr ⟨.inr fresh, fun v old => .inl old⟩
  | abort u =>
    obtain ⟨running, done⟩ := ite_none_right_eq_some.mp taken
    cases done
    exact sound.append rest (sound.running u running).1 rfl (by simp) (by simp) (by simp)
      (fun v member => .inl (mem_of_mem_filter member)) rfl
  | noteTree u tree =>
    obtain ⟨⟨running, -⟩, done⟩ := ite_none_right_eq_some.mp taken
    cases done
    exact sound.append rest (sound.running u running).1 rfl (by simp) (by simp) (by simp)
      (fun v member => .inl member) rfl
  | logStructure u nodes =>
    obtain ⟨current, tidy⟩ := orderly
    have isTidy := tidy t next
    obtain ⟨⟨fresh, idle, -, inUse⟩, done⟩ := ite_none_right_eq_some.mp taken
    cases done
    exact sound.logNodes rest current (by simp) inUse (committed_of_fresh fresh)
      (fun r member same => absurd same (fresh r member))
      (fun v member => ⟨member, fun same => idle (same ▸ member)⟩) isTidy
  | commit u nodes =>
    obtain ⟨current, tidy⟩ := orderly
    have isTidy := tidy t next
    obtain ⟨⟨running, inUse⟩, done⟩ := ite_none_right_eq_some.mp taken
    cases done
    refine sound.logNodes rest current (fun b member => .inr member) inUse
      (sound.running u running).1 (sound.running u running).2 ?_ isTidy
    intro v member
    simpa using mem_filter.mp member
  | checkpoint u =>
    obtain ⟨current, tidy⟩ := orderly
    have isTidy := tidy t next
    obtain ⟨⟨fresh, idle⟩, logged⟩ := ite_none_right_eq_some.mp taken
    obtain ⟨images, read, rfl⟩ := map_eq_some_iff.mp logged
    exact sound.logCheckpoint rest current fresh idle read isTidy
  | installCheckpoint redo =>
    obtain ⟨⟨le, checkpoint⟩, done⟩ := ite_none_right_eq_some.mp taken
    cases done
    exact sound.installCheckpoint rest le checkpoint orderly
  | writeSuperblock =>
    cases taken
    exact sound.writeSuperblock rest orderly
  | persist =>
    simp only [PageStore.stepAtRest] at taken
    split at taken
    next dirty =>
      cases taken
      exact sound.persist rest (orderly dirty)
    · cases taken
      exact sound
  | persisted => cases taken
  | writeBack id lsn children =>
    obtain ⟨inUse, done⟩ := ite_none_right_eq_some.mp taken
    cases done
    exact sound.writeBack rest inUse
  | syncLog upTo =>
    obtain ⟨⟨le, within⟩, done⟩ := ite_none_right_eq_some.mp taken
    cases done
    exact sound.syncLog rest le within
  | reopen upTo survives superSurvives steps => cases taken

end

theorem Sound.step (sound : s.Sound) (orderly : s.Orderly label) (taken : Step s label t) :
    t.Sound := by
  by_cases opens : ∃ upTo survives superSurvives steps,
      label = .reopen upTo survives superSurvives steps
  · obtain ⟨upTo, survives, superSurvives, steps, rfl⟩ := opens
    obtain ⟨⟨durable, within⟩, done⟩ := ite_none_right_eq_some.mp taken
    obtain ⟨result, reopened, isOk⟩ := bind_eq_some_iff.mp done
    -- more steps of the walk give the same result, and enough of them a sound one
    obtain ⟨opened, again, isSound, -⟩ := sound.reopen durable within survives superSurvives
      (lt_of_lt_of_le (Nat.lt_succ_self s.alloc.meta.length) (Nat.le_add_left _ steps))
    rw [reopen_mono reopened] at again
    cases again
    cases isOk
    exact isSound
  by_cases running : s.persisting
  · have ends : label = .persisted := by
      cases label with
      | persisted => rfl
      | reopen upTo survives superSurvives steps => exact absurd ⟨_, _, _, _, rfl⟩ opens
      | _ => simp [Step, PageStore.next, running] at taken
    subst ends
    simp only [Step, PageStore.next, if_pos running] at taken
    cases taken
    exact sound.persisted running
  · refine sound.stepAtRest (by simpa using running) orderly ?_
    cases label with
    | persisted => simp [Step, PageStore.next, running] at taken
    | reopen upTo survives superSurvives steps => exact absurd ⟨_, _, _, _, rfl⟩ opens
    | _ => simpa [Step, PageStore.next, running] using taken

/-! ## The allocator after a crash -/

/-- A page is freed and the freelist flushed before the change is logged. -/
def freedRun : List Label :=
  [.alloc, .begin_ 1, .noteTree 1 ⟨1, 1⟩, .logStructure 2 [(1, [])], .persist, .persisted,
    .commit 1 [], .alloc, .logStructure 3 [(1, [2]), (2, [])], .syncLog 9, .release 2, .persist,
    .persisted, .logStructure 4 [(1, [])], .syncLog 13]

/-- The first page is freed: the record counts a free page and has no head. -/
def firstFree : List Label :=
  [.alloc, .alloc, .logStructure 1 [(1, [2]), (2, [])], .release 2, .logStructure 2 [(1, [])],
    .syncLog 9]

/-- The freelist page is flushed again after a checkpoint has logged an image of it: page 3 is
handed out and page 2 taken back. -/
def staleFreelist : List Label :=
  [.alloc, .alloc, .alloc, .begin_ 1, .noteTree 1 ⟨1, 2⟩, .logStructure 2 [(1, [2]), (2, [])],
    .commit 1 [], .release 3, .persist, .persisted, .checkpoint 3, .syncLog 13,
    .installCheckpoint 9, .writeSuperblock, .alloc, .release 2,
    .logStructure 4 [(1, [3]), (3, [])], .persist, .persisted, .syncLog 18]

/-- The error of an open that failed. -/
def failure : Except Nerr PageStore → Option Nerr
  | .error e => some e
  | .ok _ => none

end NextSQL.Storage.PageStore
