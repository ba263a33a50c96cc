import NextSQL.Wal.Order

/-!
# Where a segment begins

The header of a segment names an LSN at which the segment starts. It is the next
LSN at the moment of the rotation. For a single record this is the LSN that the
record gets; but a batch has taken its LSNs before it rotates, so the header of
the segment it goes into names an LSN beyond all of the batch.

The upper boundary holds on every interleaving that keeps the log in order: a
record lies below the start of every later segment (`run_upper`). The lower
boundary needs that no batch rotates (`run_lower`).
-/

namespace NextSQL.Wal

open GuardedRuns Log List

namespace Log

/-! ## The boundaries of the segments -/

/-- Every record lies below the start of every later segment. -/
def Upper (segs : List Segment) : Prop :=
  segs.Pairwise fun seg later => ∀ f ∈ seg.frames, f.lsn < later.startLSN

/-- No record lies below the start of its segment. -/
def Lower (segs : List Segment) : Prop :=
  ∀ seg ∈ segs, ∀ f ∈ seg.frames, seg.startLSN ≤ f.lsn

/-- The boundaries of the segments. The lower one is claimed only where `strict` holds; it
then covers what will be written to the active segment, too. -/
structure Bounded (strict : Prop) (l : Log) (lds : List Landing) : Prop where
  upper : Upper l.segments
  lower : strict → Lower l.segments
  coming : strict → ∀ seg, l.seg = some seg → ∀ f ∈ l.buf ++ loose lds, seg.startLSN ≤ f.lsn
  started : ∀ seg, l.seg = some seg → seg.startLSN ≤ l.nextLSN

variable {strict : Prop} {l l' : Log} {lds : List Landing} {ld : Landing}

/-- Where the segments are the same and nothing is added to what will be written. -/
theorem Bounded.of_subset (bounded : l.Bounded strict lds) (closed : l'.closed = l.closed)
    (seg : l'.seg = l.seg) (le : l.nextLSN ≤ l'.nextLSN) (lds' : List Landing)
    (sub : l'.buf ++ loose lds' ⊆ l.buf ++ loose lds) : l'.Bounded strict lds' := by
  have segs : l'.segments = l.segments := by rw [segments, closed, seg, segments]
  refine ⟨segs ▸ bounded.upper, fun holds => segs ▸ bounded.lower holds, ?_, ?_⟩
  · intro holds active isActive f member
    exact bounded.coming holds active (seg ▸ isActive) f (sub member)
  · intro active isActive
    exact (bounded.started active (seg ▸ isActive)).trans le

@[simp] theorem land_closed (l : Log) (ld : Landing) : (l.land ld).closed = l.closed := by
  cases ld <;> rfl

@[simp] theorem land_seg (l : Log) (ld : Landing) : (l.land ld).seg = l.seg := by cases ld <;> rfl

@[simp] theorem land_buf (l : Log) (ld : Landing) : (l.land ld).buf = l.buf ++ ld.frames := by
  cases ld <;> rfl

theorem le_nextLSN_land (numbered : ld.Numbered l.nextLSN) : l.nextLSN ≤ (l.land ld).nextLSN := by
  cases ld with
  | append f =>
    have taken : f.lsn = l.nextLSN := numbered
    exact taken ▸ Nat.le_succ f.lsn
  | images fs | held fs => exact le_rfl

/-- A rotation with nothing left in the buffer. The batch or record in hand does not lie below
the next LSN. -/
theorem Bounded.rotated (bounded : l.Bounded strict lds) (rotated : l.Rotated l')
    (below : ∀ f ∈ l.onDisk, f.lsn < l.nextLSN)
    (coming : strict → ∀ f ∈ l.buf ++ loose lds, l.nextLSN ≤ f.lsn) : l'.Bounded strict lds := by
  obtain ⟨⟨closed, seg, id, off, number, c, rfl⟩, segs, active⟩ := rotated
  refine ⟨?_, ?_, ?_, fun seg' isActive => (active seg' isActive).le⟩
  · obtain same | ⟨new, start, -, more⟩ := segs
    · rw [same]
      exact bounded.upper
    rw [more]
    refine pairwise_append.mpr ⟨bounded.upper, pairwise_singleton _ _, ?_⟩
    intro old inLog later isNew f written
    rw [mem_singleton.mp isNew, start]
    exact below f (mem_flatMap.mpr ⟨old, inLog, written⟩)
  · intro holds
    obtain same | ⟨new, -, empty, more⟩ := segs
    · rw [same]
      exact bounded.lower holds
    rw [more]
    intro old inLog f written
    obtain before | isNew := mem_append.mp inLog
    · exact bounded.lower holds old before f written
    · rw [mem_singleton.mp isNew, empty] at written
      cases written
  · intro holds seg' isActive f member
    rw [active seg' isActive]
    exact coming holds f member

/-- Records are written to the last segment only. -/
theorem Bounded.finishFlush {upto : Nat} {last : LSN} {w : Written} {result : Except Nerr Unit}
    (bounded : l.Bounded strict lds) (finished : l.finishFlush upto last w = (result, l')) :
    l'.Bounded strict lds := by
  have onLast : ∀ {seg seg' : Segment} {upto : Nat}, l.seg = some seg → l'.seg = some seg' →
      l'.buf = l.buf.drop upto → l'.closed = l.closed → l'.nextLSN = l.nextLSN →
      seg'.startLSN = seg.startLSN → seg'.frames = seg.frames ++ l.buf.take upto →
      l'.Bounded strict lds := by
    intro seg seg' upto active active' buf closed next start frames
    have segs : l.segments = l.closed ++ [seg] := by rw [segments, active]; rfl
    have segs' : l'.segments = l.closed ++ [seg'] := by rw [segments, active', closed]; rfl
    refine ⟨?_, ?_, ?_, ?_⟩
    · have upper := bounded.upper
      rw [segs] at upper
      obtain ⟨below, -, across⟩ := pairwise_append.mp upper
      rw [segs']
      refine pairwise_append.mpr ⟨below, pairwise_singleton _ _, ?_⟩
      intro old inLog later isLast f written
      rw [mem_singleton.mp isLast, start]
      exact across old inLog seg (by simp) f written
    · intro holds
      have lower := bounded.lower holds
      rw [segs] at lower
      rw [segs']
      intro old inLog f written
      obtain before | isLast := mem_append.mp inLog
      · exact lower old (mem_append_left _ before) f written
      rw [mem_singleton.mp isLast, start]
      rw [mem_singleton.mp isLast, frames] at written
      obtain earlier | now := mem_append.mp written
      · exact lower seg (by simp) f earlier
      · exact bounded.coming holds seg active f (mem_append_left _ (mem_of_mem_take now))
    · intro holds seg'' isActive f member
      rw [active'] at isActive
      cases isActive
      rw [start]
      refine bounded.coming holds seg active f ?_
      rw [buf] at member
      exact ((drop_sublist upto l.buf).append_right _).subset member
    · intro seg'' isActive
      rw [active'] at isActive
      cases isActive
      rw [start, next]
      exact bounded.started seg active
  unfold Log.finishFlush at finished
  split at finished
  · cases finished
    exact bounded
  next seg active =>
  split at finished
  · cases finished
    exact bounded
  · split at finished
    · cases finished
      exact bounded
    · cases finished
      exact onLast active rfl rfl rfl rfl rfl rfl
  · cases finished
    exact onLast active rfl rfl rfl rfl rfl rfl
  · cases finished
    exact onLast active rfl rfl rfl rfl rfl rfl

end Log

namespace World

/-! ## Sections -/

/-- The calls that are rotating. -/
def rotations (s : World) : List Landing :=
  s.tasks.filterMap (fun | .rotating ld => some ld | .sealing _ => none) ++
    (s.writer.bind Writer.landing).toList

/-- A batch finds room in the active segment. -/
def Roomy (s : World) : Label → Prop
  | .land call _ _ => ∀ fs, s.tasks[call]? = some (.sealing fs) → s.log.crowded (bytes fs) = false
  | .hold rs _ => s.log.crowded (bytes (rs.map (Frame.mk 0))) = false
  | _ => True

instance (s : World) : DecidablePred s.Roomy
  | .land call _ _ =>
    match found : s.tasks[call]? with
    | some (.sealing fs) =>
      decidable_of_iff (s.log.crowded (bytes fs) = false)
        ⟨fun room fs' same => by cases found.symm.trans same; exact room, fun room => room fs found⟩
    | some (.rotating _) => isTrue fun _ same => nomatch found.symm.trans same
    | none => isTrue fun _ same => nomatch found.symm.trans same
  | .hold rs _ => inferInstanceAs (Decidable (s.log.crowded (bytes (rs.map (Frame.mk 0))) = false))
  | .append .. | .reserve .. | .release .. | .flush .. | .wake .. | .written .. => isTrue trivial

/-- The boundaries of the segments, with the calls under way. Where the lower one is claimed,
only single records rotate, no region is held meanwhile, and a rotation empties the buffer. -/
structure Ranked (strict : Prop) (s : World) : Prop where
  bounded : s.log.Bounded strict s.holding
  single : strict → ∀ ld ∈ s.rotations, ∃ f, ld = .append f
  unheld : strict → s.rotations ≠ [] → s.log.held = none
  empties : strict → ∀ wr, s.writer = some wr → wr.landing ≠ none → wr.upto = s.log.buf.length

variable {strict : Prop} {s t : World} {ld : Landing} {label : Label}

theorem rotations_subset : s.rotations ⊆ s.holding := by
  intro ld member
  obtain waiting | writing := mem_append.mp member
  · obtain ⟨task, inTasks, found⟩ := mem_filterMap.mp waiting
    cases task with
    | sealing fs => cases found
    | rotating ld' =>
      cases found
      exact mem_append_left _ (mem_map.mpr ⟨_, inTasks, rfl⟩)
  · exact mem_append_right _ writing

theorem landing_of_idle {wr : Writer} (idle : s.holding = []) (writing : s.writer = some wr) :
    wr.landing = none := by
  obtain ⟨-, quiet⟩ := append_eq_nil_iff.mp idle
  rw [writing] at quiet
  simpa using quiet

/-- No call is under way. -/
theorem Ranked.of_idle (bounded : s.log.Bounded strict []) (idle : s.holding = []) :
    s.Ranked strict := by
  have none : s.rotations = [] := eq_nil_of_subset_nil (idle ▸ rotations_subset)
  refine ⟨idle ▸ bounded, ?_, ?_, ?_⟩
  · intro _ ld member
    rw [none] at member
    cases member
  · intro _ some
    exact absurd none some
  · intro _ wr writing landing
    exact absurd (landing_of_idle idle writing) landing

/-- The boundaries in the middle of a section. -/
structure Bears (strict : Prop) (s : World) (ld : Landing) : Prop where
  carries : s.Carries ld
  bounded : s.log.Bounded strict [ld]

section

variable (bears : s.Bears strict ld)

include bears

theorem Bears.abandoned : s.Ranked strict :=
  .of_idle (bears.bounded.of_subset rfl rfl le_rfl [] (by simp)) bears.carries.alone

theorem Bears.arrive : (s.arrive ld).Ranked strict := by
  have numbered := bears.carries.sound.numbered ld (by simp)
  exact .of_idle (bears.bounded.of_subset (land_closed _ _) (land_seg _ _)
    (le_nextLSN_land numbered) [] (by simp)) bears.carries.alone

theorem Bears.resumeRotation (d : Disk) (last : strict → (∃ f, ld = .append f) ∧ s.log.buf = []) :
    (s.resumeRotation ld d).Ranked strict := by
  have sound := bears.carries.sound
  have bounded := bears.bounded.rotated (s.log.finishRotate_rotated d)
    (fun f written => sound.below f (mem_append_left _ written)) (by
      intro holds f member
      obtain ⟨⟨g, rfl⟩, empty⟩ := last holds
      have taken : g.lsn = s.log.nextLSN := sound.numbered (.append g) (by simp)
      rw [empty, loose_singleton, nil_append] at member
      rw [mem_singleton.mp member, taken])
  have view := (s.log.finishRotate_rotated d).view_eq
  unfold World.resumeRotation
  split
  next e l finished =>
    rw [finished] at bounded view
    have kept : Bears strict { s with log := l } ld :=
      ⟨⟨view.symm ▸ sound, bears.carries.alone⟩, bounded⟩
    exact kept.abandoned
  next l finished =>
    rw [finished] at bounded view
    have kept : Bears strict { s with log := l } ld :=
      ⟨⟨view.symm ▸ sound, bears.carries.alone⟩, bounded⟩
    exact kept.arrive

theorem Bears.rotateFlush (d : Disk) (single : strict → (∃ f, ld = .append f) ∧ s.log.held = none) :
    (s.rotateFlush ld d).Ranked strict := by
  unfold World.rotateFlush
  split
  · exact bears.abandoned
  split
  next nothing =>
    refine bears.resumeRotation d fun holds => ?_
    obtain ⟨append, unheld⟩ := single holds
    simp only [flushable, unheld] at nothing
    exact ⟨append, length_eq_zero_iff.mp nothing⟩
  obtain ⟨tasks, -⟩ := append_eq_nil_iff.mp bears.carries.alone
  have empty : s.tasks = [] := map_eq_nil_iff.mp tasks
  refine ⟨?_, ?_, ?_, ?_⟩
  · simpa [holding, empty] using bears.bounded
  · intro holds ld' member
    have : ld' = ld := by simpa [rotations, empty] using member
    rw [this]
    exact (single holds).1
  · exact fun holds _ => (single holds).2
  · intro holds wr writing _
    cases writing
    simp [flushable, (single holds).2]

theorem Bears.startRotation (d : Disk) (single : strict → ∃ f, ld = .append f) :
    (s.startRotation ld d).Ranked strict := by
  unfold World.startRotation
  split
  · exact bears.abandoned
  next free =>
  have unheld : s.log.held = none := by simpa using free
  split
  · obtain ⟨tasks, landing⟩ := append_eq_nil_iff.mp bears.carries.alone
    have empty : s.tasks = [] := map_eq_nil_iff.mp tasks
    refine ⟨?_, ?_, ?_, ?_⟩
    · simpa [holding, empty, landing, Task.landing] using bears.bounded
    · intro holds ld' member
      have : ld' = ld := by simpa [rotations, empty, landing] using member
      rw [this]
      exact single holds
    · exact fun _ _ => unheld
    · intro _ wr writing some
      exact absurd (landing_of_idle bears.carries.alone writing) some
  · exact bears.rotateFlush d fun holds => ⟨single holds, unheld⟩

theorem Bears.place (d : Disk)
    (single : strict → s.log.crowded (bytes ld.frames) → ∃ f, ld = .append f) :
    (s.place ld d).Ranked strict := by
  unfold World.place
  split
  next full => exact bears.startRotation d fun holds => single holds full
  · exact bears.arrive

end

variable {l : Log}

/-- The log changes in nothing that the boundaries speak of, or drops a held region. -/
theorem Ranked.congr {discarded : List Frame} (ranked : s.Ranked strict)
    (closed : l.closed = s.log.closed) (seg : l.seg = s.log.seg) (le : s.log.nextLSN ≤ l.nextLSN)
    (sub : l.buf ⊆ s.log.buf) (held : s.log.held = none → l.held = none ∧ l.buf = s.log.buf) :
    Ranked strict { s with log := l, discarded := discarded } := by
  refine ⟨?_, ranked.single, ?_, ?_⟩
  · refine ranked.bounded.of_subset closed seg le _ ?_
    exact append_subset.mpr ⟨subset_append_of_subset_left _ sub, subset_append_right _ _⟩
  · exact fun holds some => (held (ranked.unheld holds some)).1
  intro holds wr writing landing
  have some : s.rotations ≠ [] := by
    intro none
    obtain ⟨-, quiet⟩ := append_eq_nil_iff.mp none
    rw [writing] at quiet
    exact landing (by simpa using quiet)
  rw [(held (ranked.unheld holds some)).2]
  exact ranked.empties holds wr writing landing

theorem Ranked.bears {n m : Nat} (ranked : s.Ranked strict)
    (carries : Carries { s with log := l } ld)
    (numbered : ld.frames.map Frame.lsn = range' s.log.nextLSN n) (le : s.log.nextLSN ≤ m)
    (same : Log.Rekeyed { s.log with nextLSN := m } l) : Bears strict { s with log := l } ld := by
  obtain ⟨cur, lim, high, c, rfl⟩ := same
  have idle : s.holding = [] := carries.alone
  have bounded := ranked.bounded
  rw [idle] at bounded
  refine ⟨carries, bounded.upper, bounded.lower, ?_, ?_⟩
  · intro holds seg active f member
    rw [loose_singleton] at member
    obtain buffered | hand := mem_append.mp member
    · exact bounded.coming holds seg active f (mem_append_left _ buffered)
    · exact (bounded.started seg active).trans (mem_of_range numbered hand).1
  · exact fun seg active => (bounded.started seg active).trans le

theorem Ranked.resume {call : Nat} {task : Task} (ranked : s.Ranked strict) (sound : s.Sound)
    (found : s.tasks[call]? = some task) :
    Bears strict { s with tasks := s.tasks.eraseIdx call } task.landing := by
  obtain ⟨only, -, idle⟩ := sound.only found
  have held : s.holding = [task.landing] := by simp [holding, only, idle]
  exact ⟨sound.resume found, held ▸ ranked.bounded⟩

variable {d : Disk}

theorem takeLSNs_bytes : ∀ {rs : List Record} {prev : LSN} {l l' : Log}
    {fs : List Frame}, takeLSNs d (rs.map fun r _ _ => .ok r) prev l = (.ok fs, l') →
      bytes fs = bytes (rs.map (Frame.mk 0)) := by
  intro rs
  induction rs with
  | nil =>
    intro prev l l' fs taken
    cases taken
    rfl
  | cons r more ih =>
    intro prev l l' fs taken
    rw [map_cons, takeLSNs] at taken
    dsimp only at taken
    split at taken
    · cases taken
    split at taken
    · cases taken
    next rest =>
    cases taken
    have tail := ih rest
    simp only [bytes, map_cons, sum_cons] at tail ⊢
    rw [tail]
    rfl

variable {l' : Log}

theorem prepareHeld_bytes {rs : List Record} {fs : List Frame}
    (prepared : l.prepareHeld rs d = (.ok fs, l')) : bytes fs = bytes (rs.map (Frame.mk 0)) := by
  unfold prepareHeld at prepared
  split at prepared
  · cases prepared
  split at prepared
  · cases prepared
  split at prepared
  · cases prepared
  · exact takeLSNs_bytes prepared

variable {upto : Nat} {last : LSN} {w : Written}

theorem finishFlush_unheld {result : Except Nerr Unit} (unheld : l.held = none)
    (finished : l.finishFlush upto last w = (result, l')) : l'.held = none := by
  unfold finishFlush at finished
  split at finished
  · cases finished
    exact unheld
  split at finished
  · cases finished
    exact unheld
  · split at finished
    all_goals
      cases finished
      simp [consume, unheld]
  · cases finished
    simp [consume, unheld]
  · cases finished
    simp [consume, unheld]

theorem finishFlush_buf (finished : l.finishFlush upto last w = (.ok (), l')) :
    l'.buf = l.buf.drop upto := by
  unfold finishFlush at finished
  split at finished
  · cases finished
  split at finished
  · cases finished
  · split at finished
    all_goals cases finished
  · cases finished
  · cases finished
    rfl

section

variable (ranked : s.Ranked strict) (sound : s.Sound)

include ranked sound

theorem Ranked.append {r : Record} (free : s.holding = []) (taken : s.Step (.append r d) t) :
    t.Ranked strict := by
  unfold Step next at taken
  dsimp only at taken
  split at taken
  next e l prepared =>
    cases taken
    obtain ⟨⟨cur, lim, high, c, rfl⟩, -⟩ := prepare_spec prepared
    exact ranked.congr rfl rfl le_rfl (Subset.refl _) fun unheld => ⟨unheld, rfl⟩
  next f l prepared =>
  cases taken
  obtain ⟨same, record⟩ := prepare_spec prepared
  have lsn : f.lsn = s.log.nextLSN := by rw [Frame.lsn, record f rfl]
  have numbered : (Landing.append f).frames.map Frame.lsn =
      range' s.log.nextLSN 1 := by simp [Landing.frames, lsn]
  have carries : Carries { s with log := l } (.append f) :=
    sound.carries free numbered le_rfl lsn same
  exact (ranked.bears carries numbered le_rfl same).place d fun _ _ => ⟨f, rfl⟩

theorem Ranked.reserve {txn : TxnID} {prev : LSN} {pages : List (PageID × Bytes)}
    (free : s.holding = []) (taken : s.Step (.reserve txn prev pages d) t) : t.Ranked strict := by
  unfold Step next at taken
  dsimp only at taken
  split at taken
  · cases taken
    exact ranked
  split at taken
  next e l reserved =>
    cases taken
    obtain ⟨n, ⟨cur, lim, high, c, rfl⟩, -⟩ := takeLSNs_spec reserved
    exact ranked.congr rfl rfl (Nat.le_add_right _ n) (Subset.refl _)
      fun unheld => ⟨unheld, rfl⟩
  next fs l reserved =>
  cases taken
  obtain ⟨n, same, numbered⟩ := takeLSNs_spec reserved
  have carries : Carries { s with log := l } (.images fs) :=
    sound.carries_batch free rfl id (numbered fs rfl) same
  have bears : Bears strict { s with log := l } (.images fs) :=
    ranked.bears carries (numbered fs rfl) (Nat.le_add_right _ n) same
  obtain ⟨tasks, landing⟩ := append_eq_nil_iff.mp free
  have empty : s.tasks = [] := map_eq_nil_iff.mp tasks
  have none : World.rotations { s with log := l, tasks := s.tasks ++ [.sealing fs] } = [] := by
    simp [rotations, empty, landing]
  refine ⟨?_, ?_, ?_, ?_⟩
  · simpa [holding, empty, landing, Task.landing] using bears.bounded
  · intro _ ld member
    rw [none] at member
    cases member
  · exact fun _ some => absurd none some
  · exact fun _ wr writing some => absurd (landing_of_idle free writing) some

theorem Ranked.hold {rs : List Record} (free : s.holding = [])
    (roomy : strict → s.Roomy (.hold rs d)) (taken : s.Step (.hold rs d) t) : t.Ranked strict := by
  unfold Step next at taken
  dsimp only at taken
  split at taken
  · cases taken
    exact ranked
  split at taken
  next e l prepared =>
    cases taken
    obtain ⟨n, ⟨cur, lim, high, c, rfl⟩, -⟩ := prepareHeld_spec prepared
    exact ranked.congr rfl rfl (Nat.le_add_right _ n) (Subset.refl _)
      fun unheld => ⟨unheld, rfl⟩
  next fs l prepared =>
  cases taken
  obtain ⟨n, same, numbered⟩ := prepareHeld_spec prepared
  have carries : Carries { s with log := l } (.held fs) :=
    sound.carries_batch free rfl id (numbered fs rfl) same
  have bears : Bears strict { s with log := l } (.held fs) :=
    ranked.bears carries (numbered fs rfl) (Nat.le_add_right _ n) same
  refine bears.place d fun holds full => ?_
  obtain ⟨cur, lim, high, c, rfl⟩ := same
  have full : s.log.crowded (bytes fs) := full
  rw [prepareHeld_bytes prepared, show s.log.crowded _ = false from roomy holds] at full
  cases full

/-- The writer has written, and a rotation it was part of goes on. -/
theorem Ranked.written (taken : s.Step (.written w d) t) : t.Ranked strict := by
  unfold Step next at taken
  dsimp only at taken
  split at taken
  · cases taken
  next wr writing =>
  cases landing : wr.landing with
  | none =>
    have held : ∀ l, World.holding { s with log := l, writer := none } = s.holding := by
      intro l
      simp [holding, writing, landing]
    have turning : ∀ l, World.rotations { s with log := l, writer := none } = s.rotations := by
      intro l
      simp [rotations, writing, landing]
    have idle : ∀ {l result}, s.log.finishFlush wr.upto wr.last w = (result, l) →
        Ranked strict { s with log := l, writer := none } := by
      intro l result finished
      refine ⟨held l ▸ ranked.bounded.finishFlush finished, turning l ▸ ranked.single, ?_,
        fun _ _ writing => by cases writing⟩
      intro holds some
      rw [turning] at some
      exact finishFlush_unheld (ranked.unheld holds some) finished
    split at taken
    next finished =>
      cases taken
      exact idle finished
    next finished =>
    rw [landing] at taken
    cases taken
    exact idle finished
  | some ld =>
    have held := (sound.rotating writing landing).2
    have bears : ∀ {l result}, s.log.finishFlush wr.upto wr.last w = (result, l) →
        Bears strict { s with log := l, writer := none } ld := fun finished =>
      ⟨sound.finished writing landing finished,
        Bounded.finishFlush (held ▸ ranked.bounded) finished⟩
    split at taken
    next finished =>
      cases taken
      exact (bears finished).abandoned
    next l finished =>
    rw [landing] at taken
    cases taken
    refine (bears finished).resumeRotation d fun holds => ⟨?_, ?_⟩
    · exact ranked.single holds ld (by simp [rotations, writing, landing])
    have drained : l.buf = s.log.buf.drop wr.upto := finishFlush_buf finished
    have all := ranked.empties holds wr writing (by rw [landing]; exact Option.some_ne_none ld)
    rw [show World.log { s with log := l, writer := none } = l from rfl, drained, all,
      drop_length]

end

theorem Ranked.step (ranked : s.Ranked strict) (sound : s.Sound) (alone : s.Alone label)
    (roomy : strict → s.Roomy label) (taken : s.Step label t) : t.Ranked strict := by
  cases label with
  | append r d => exact ranked.append sound (alone rfl) taken
  | reserve txn prev pages d => exact ranked.reserve sound (alone rfl) taken
  | land call isSealed d =>
    unfold Step next at taken
    dsimp only at taken
    split at taken
    next fs found =>
      cases taken
      have bears := ranked.resume sound found
      split
      · refine bears.place d fun holds full => ?_
        have full : s.log.crowded (bytes fs) := full
        rw [roomy holds fs found] at full
        cases full
      · exact bears.abandoned
    · cases taken
  | hold rs d => exact ranked.hold sound (alone rfl) roomy taken
  | release commit =>
    unfold Step next at taken
    cases taken
    cases held : s.log.held with
    | none =>
      have same : s.log.releaseHold commit = s.log := by rw [releaseHold, held]
      rw [same]
      exact ranked.congr rfl rfl le_rfl (Subset.refl _) fun unheld => ⟨unheld, rfl⟩
    | some h =>
      have excluded : s.log.held ≠ none := by rw [held]; exact Option.some_ne_none h
      unfold releaseHold
      rw [held]
      dsimp only
      split
      · exact ranked.congr rfl rfl le_rfl (Subset.refl _) fun unheld => absurd unheld excluded
      · refine ranked.congr rfl rfl le_rfl ?_ fun unheld => absurd unheld excluded
        exact append_subset.mpr ⟨take_subset _ _, drop_subset _ _⟩
  | flush lsn =>
    unfold Step next at taken
    cases taken
    split
    next flushes =>
      simp only [World.flushes, Bool.and_eq_true] at flushes
      obtain ⟨⟨⟨-, idle⟩, -⟩, -⟩ := flushes
      have idle : s.writer = none := by simpa using idle
      have held : World.holding { s with
          writer := some ⟨s.log.flushable.1, s.log.flushable.2, none⟩ } = s.holding := by
        simp [holding, idle]
      have turning : World.rotations { s with
          writer := some ⟨s.log.flushable.1, s.log.flushable.2, none⟩ } = s.rotations := by
        simp [rotations, idle]
      refine ⟨held ▸ ranked.bounded, turning ▸ ranked.single, turning ▸ ranked.unheld, ?_⟩
      intro _ wr writing landing
      cases writing
      exact absurd rfl landing
    · exact ranked
  | wake call d =>
    unfold Step next at taken
    dsimp only at taken
    split at taken
    next ld found =>
      split at taken
      · cases taken
        have bears := ranked.resume sound found
        have turning : ld ∈ s.rotations := by
          obtain ⟨only, -⟩ := sound.only found
          simp [rotations, only]
        refine bears.rotateFlush d fun holds => ?_
        exact ⟨ranked.single holds ld turning, ranked.unheld holds (ne_nil_of_mem turning)⟩
      · cases taken
    · cases taken
  | written w d => exact ranked.written sound taken

/-! ## Runs -/

theorem ranked_create (segmentSize : Nat) (archiver pageDeltas : Bool) :
    (create segmentSize archiver pageDeltas).Ranked strict := by
  refine .of_idle ⟨pairwise_singleton _ _, ?_, ?_, ?_⟩ rfl
  · intro _ seg inLog f written
    rw [mem_singleton.mp inLog] at written
    cases written
  · intro _ seg _ f member
    cases member
  · intro seg active
    cases active
    exact le_rfl

/-- No call gets LSNs in the window of another one, and no batch rotates. -/
def InPlace (s : World) (label : Label) : Prop := s.Alone label ∧ s.Roomy label

instance (s : World) (label : Label) : Decidable (s.InPlace label) :=
  inferInstanceAs (Decidable (_ ∧ _))

variable {segmentSize : Nat} {archiver pageDeltas : Bool} {labels : List Label}

theorem run_ranked (run : Run Step (fun s label => s.Alone label ∧ (strict → s.Roomy label))
      (create segmentSize archiver pageDeltas) labels s) : s.Sound ∧ s.Ranked strict :=
  run.invariant (fun s => s.Sound ∧ s.Ranked strict)
    ⟨sound_create segmentSize archiver pageDeltas, ranked_create segmentSize archiver pageDeltas⟩
    fun ⟨sound, ranked⟩ ⟨alone, roomy⟩ taken =>
      ⟨sound.step alone taken, ranked.step sound alone roomy taken⟩

/-- **The upper boundary.** -/
theorem run_upper (run : Run Step Alone (create segmentSize archiver pageDeltas) labels s) :
    Upper s.log.segments :=
  (run_ranked (run.mono fun alone => ⟨alone, False.elim⟩)).2.bounded.upper

end World

end NextSQL.Wal
