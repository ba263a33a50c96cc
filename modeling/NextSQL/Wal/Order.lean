import NextSQL.Wal.Sections

/-!
# The order of the log and what its durable LSN promises

A call of the log numbers its records before they are in the buffer, and it can
release the mutex in between: `AppendPageImages` always does, and any append
does when it rotates. Another call can then number and append records of its
own, and so they reach the disk in the wrong order, or under an LSN that is
used twice; and a flush then declares LSNs durable whose records are not yet in
the buffer.

On every interleaving on which a call gets LSNs only while no other call is in
that window, the records on disk have rising LSNs, and every record not beyond
the durable LSN is written and synced, except those that a failed hold has cut
out (`durable_records_synced`).

The invariant `View.Sound` is about a projection of the log, the `View`: the
records on disk, in the buffer and in the hands of the one call in the window
form one list with rising LSNs, and each LSN that the log keeps (the last one of
the buffer, that before a held region, the one a flush will make durable)
separates two parts of it.
-/

namespace NextSQL.Wal

open GuardedRuns Log List

/-! ## Bounds on the LSNs of a list -/

/-- Every record lies beyond the LSN. -/
def Above (n : LSN) (fs : List Frame) : Prop := ∀ f ∈ fs, n < f.lsn

/-- No record lies beyond the LSN. -/
def UpTo (n : LSN) (fs : List Frame) : Prop := ∀ f ∈ fs, f.lsn ≤ n

/-- The LSNs of a list increase. -/
def Rising (fs : List Frame) : Prop := fs.Pairwise fun f g => f.lsn < g.lsn

variable {n : LSN} {fs gs : List Frame}

theorem Above.append : Above n (fs ++ gs) ↔ Above n fs ∧ Above n gs := forall_mem_append

theorem UpTo.append : UpTo n (fs ++ gs) ↔ UpTo n fs ∧ UpTo n gs := forall_mem_append

theorem Above.mono (above : Above n gs) (sub : fs ⊆ gs) : Above n fs := fun f member => above f (sub member)

theorem UpTo.mono (upTo : UpTo n gs) (sub : fs ⊆ gs) : UpTo n fs := fun f member => upTo f (sub member)

variable {m : LSN}

theorem UpTo.trans (upTo : UpTo m fs) (le : m ≤ n) : UpTo n fs :=
  fun f member => (upTo f member).trans le

/-- The last record of a batch with rising LSNs bounds it, and what was there before. -/
theorem upTo_lastLSN {before : List Frame} (rising : Rising fs) (upTo : UpTo n before)
    (above : Above n fs) : UpTo (lastLSN fs n) (before ++ fs) := by
  obtain rfl | ⟨front, f, rfl⟩ := eq_nil_or_concat' fs
  · simpa [lastLSN] using upTo
  have last : lastLSN (front ++ [f]) n = f.lsn := by simp [lastLSN]
  rw [last, UpTo.append, UpTo.append]
  refine ⟨upTo.trans (above f (by simp)).le, ?_, ?_⟩
  · intro g member
    exact (pairwise_append.mp rising).2.2 g member f (by simp) |>.le
  · intro g member
    rw [mem_singleton.mp member]

theorem lastLSN_lt (lt : n < m) (below : ∀ f ∈ fs, f.lsn < m) : lastLSN fs n < m := by
  obtain rfl | ⟨front, f, rfl⟩ := eq_nil_or_concat' fs
  · simpa [lastLSN] using lt
  · simpa [lastLSN] using below f (by simp)

theorem le_lastLSN (above : Above n fs) : n ≤ lastLSN fs n := by
  obtain rfl | ⟨front, f, rfl⟩ := eq_nil_or_concat' fs
  · simp [lastLSN]
  · simpa [lastLSN] using (above f (by simp)).le

variable {start n : Nat}

theorem mem_of_range (numbered : fs.map Frame.lsn = range' start n) {f : Frame}
    (member : f ∈ fs) : start ≤ f.lsn ∧ f.lsn < start + n := by
  have inRange : f.lsn ∈ range' start n := numbered ▸ mem_map_of_mem member
  exact mem_range'_1.mp inRange

/-! ## The invariant -/

/-- What the order of the log rests on: its counters, its buffer, the records on disk and
those among them that no finished sync covers. -/
structure View where
  nextLSN : LSN
  durableLSN : LSN
  buf : List Frame
  bufLast : LSN
  held : Option Held
  disk : List Frame
  unsynced : List Frame
  healthy : Bool

namespace Log

/-- The records on disk that no finished sync covers. -/
def unsynced (l : Log) : List Frame := l.segments.flatMap fun seg => seg.frames.drop seg.synced

def view (l : Log) : View where
  nextLSN := l.nextLSN
  durableLSN := l.durableLSN
  buf := l.buf
  bufLast := l.bufLast
  held := l.held
  disk := l.onDisk
  unsynced := l.unsynced
  healthy := l.durabilityErr.isNone

/-- The LSNs of what a call still has to append: an append takes its LSN only when it appends,
the batches have taken theirs. -/
def Landing.Numbered (next : LSN) : Landing → Prop
  | .append f => f.lsn = next
  | .images fs => ∀ f ∈ fs, f.lsn < next
  | .held fs => ∀ f ∈ fs, f.lsn < next

/-- The records several calls still have to append. -/
def loose (lds : List Landing) : List Frame := lds.flatMap Landing.frames

@[simp] theorem loose_nil : loose [] = [] := rfl

@[simp] theorem loose_singleton (ld : Landing) : loose [ld] = ld.frames := by simp [loose]

end Log

namespace View

/-- The records of a held region and the LSNs kept with it. -/
structure HeldAt (v : View) (lds : List Landing) (h : Held) : Prop where
  front : UpTo h.prevLast (v.buf.take h.offset)
  back : Above h.prevLast (v.buf.drop h.offset ++ loose lds)
  behind : Above h.lsn (v.buf.drop (h.offset + h.len) ++ loose lds)
  prevLast : h.prevLast ≤ v.bufLast
  taken : h.lsn < v.nextLSN

/-- The records a flush is writing and the LSN it will make durable. -/
structure WritesAt (v : View) (lds : List Landing) (wr : Writer) : Prop where
  fits : wr.upto ≤ v.buf.length
  front : UpTo wr.last (v.buf.take wr.upto)
  back : Above wr.last (v.buf.drop wr.upto ++ loose lds)
  apart : ∀ h, v.held = some h → wr.upto ≤ h.offset
  taken : wr.last < v.nextLSN
  healthy : v.healthy = true

/-- **The invariant of the log.** On disk, in the buffer and in the hands of the one call that
still has to append, LSNs rise; the LSNs the log keeps separate what they should; and a record
not beyond the durable LSN is synced. -/
structure Sound (v : View) (writer : Option Writer) (lds : List Landing)
    (accepted discarded : List Frame) : Prop where
  single : lds.length ≤ 1
  order : Rising (v.disk ++ v.buf ++ loose lds)
  below : ∀ f ∈ v.disk ++ v.buf, f.lsn < v.nextLSN
  numbered : ∀ ld ∈ lds, ld.Numbered v.nextLSN
  last : UpTo v.bufLast v.buf
  beyond : Above v.bufLast (loose lds)
  lastTaken : v.bufLast < v.nextLSN
  durableTaken : v.durableLSN < v.nextLSN
  held : ∀ h, v.held = some h → h.offset ≤ v.buf.length ∧ v.HeldAt lds h
  writer : ∀ wr, writer = some wr → v.WritesAt lds wr
  durable : Above v.durableLSN (v.unsynced ++ v.buf ++ loose lds)
  synced : v.healthy = true → v.unsynced = []
  accounted : ∀ f ∈ accepted, f ∈ v.disk ∨ f ∈ v.buf ∨ f ∈ discarded

namespace Sound

variable {v : View} {writer : Option Writer} {lds : List Landing} {ld : Landing}
variable {accepted discarded : List Frame}

/-- The call that has records in hand gives up. -/
theorem abandoned (sound : v.Sound writer lds accepted discarded) :
    v.Sound writer [] accepted discarded where
  single := zero_le
  order := by
    rw [loose_nil, append_nil]
    exact (pairwise_append.mp sound.order).1
  below := sound.below
  numbered := by simp
  last := sound.last
  beyond := by simp [Above]
  lastTaken := sound.lastTaken
  durableTaken := sound.durableTaken
  held := by
    intro h held
    obtain ⟨fits, at_⟩ := sound.held h held
    exact ⟨fits, { at_ with
      back := by simpa using (Above.append.mp at_.back).1
      behind := by simpa using (Above.append.mp at_.behind).1 }⟩
  writer := fun wr writes => { sound.writer wr writes with
    back := by simpa using (Above.append.mp (sound.writer wr writes).back).1 }
  durable := by simpa using (Above.append.mp sound.durable).1
  synced := sound.synced
  accounted := sound.accounted

/-! ## Appending -/

theorem takes (sound : v.Sound writer [] accepted discarded) {n m : Nat}
    (numbered : ld.frames.map Frame.lsn = range' v.nextLSN n) (le : v.nextLSN ≤ m)
    (taken : ld.Numbered m) :
    View.Sound { v with nextLSN := m } writer [ld] accepted discarded := by
  have above : ∀ {k : LSN}, k < v.nextLSN → Above k ld.frames := fun lt f member =>
    lt.trans_le (mem_of_range numbered member).1
  have order := sound.order
  have durable := sound.durable
  simp only [loose_nil, append_nil] at order durable
  refine { single := le_rfl, order := ?_, below := ?_, numbered := ?_, last := sound.last,
           beyond := ?_, lastTaken := sound.lastTaken.trans_le le,
           durableTaken := sound.durableTaken.trans_le le, held := ?_, writer := ?_,
           durable := ?_, synced := sound.synced, accounted := sound.accounted }
  · rw [loose_singleton]
    have rising := pairwise_lt_range' (s := v.nextLSN) (n := n)
    rw [← numbered, pairwise_map] at rising
    refine pairwise_append.mpr ⟨order, rising, ?_⟩
    intro f old g new
    exact (sound.below f old).trans_le (mem_of_range numbered new).1
  · exact fun f member => (sound.below f member).trans_le le
  · intro ld' member
    rw [mem_singleton.mp member]
    exact taken
  · rw [loose_singleton]
    exact above sound.lastTaken
  · intro h held
    obtain ⟨fits, front, back, behind, prevLast, lsn⟩ := sound.held h held
    simp only [loose_nil, append_nil] at back behind
    refine ⟨fits, front, ?_, ?_, prevLast, lsn.trans_le le⟩
    · rw [loose_singleton]
      exact Above.append.mpr ⟨back, above (prevLast.trans_lt sound.lastTaken)⟩
    · rw [loose_singleton]
      exact Above.append.mpr ⟨behind, above lsn⟩
  · intro wr writes
    obtain ⟨fits, front, back, apart, lsn, healthy⟩ := sound.writer wr writes
    simp only [loose_nil, append_nil] at back
    refine ⟨fits, front, ?_, apart, lsn.trans_le le, healthy⟩
    rw [loose_singleton]
    exact Above.append.mpr ⟨back, above lsn⟩
  · rw [loose_singleton]
    exact Above.append.mpr ⟨durable, above sound.durableTaken⟩

theorem put (sound : v.Sound writer [ld] accepted discarded) {m : LSN} (le : v.nextLSN ≤ m)
    (taken : ∀ f ∈ ld.frames, f.lsn < m) :
    View.Sound { v with buf := v.buf ++ ld.frames, bufLast := lastLSN ld.frames v.bufLast,
                        nextLSN := m } writer [] (accepted ++ ld.frames) discarded := by
  have order := sound.order
  have durable := sound.durable
  have beyond := sound.beyond
  rw [loose_singleton] at order durable beyond
  refine { single := zero_le, order := ?_, below := ?_, numbered := by simp,
           last := upTo_lastLSN (pairwise_append.mp order).2.1 sound.last beyond,
           beyond := by simp [Above],
           lastTaken := lastLSN_lt (sound.lastTaken.trans_le le) taken,
           durableTaken := sound.durableTaken.trans_le le, held := ?_, writer := ?_,
           durable := ?_, synced := sound.synced, accounted := ?_ }
  · simpa using order
  · intro f member
    rw [← append_assoc] at member
    obtain old | new := mem_append.mp member
    · exact (sound.below f old).trans_le le
    · exact taken f new
  · intro h held
    obtain ⟨fits, front, back, behind, prevLast, lsn⟩ := sound.held h held
    rw [loose_singleton] at back behind
    refine ⟨?_, ?_, ?_, ?_, prevLast.trans (le_lastLSN beyond), lsn.trans_le le⟩
    · exact fits.trans (by simp)
    · rwa [take_append_of_le_length fits]
    · simpa [drop_append_of_le_length fits] using back
    intro f member
    rw [loose_nil, append_nil, drop_append] at member
    obtain old | new := mem_append.mp member
    · exact behind f (mem_append_left _ old)
    · exact behind f (mem_append_right _ (mem_of_mem_drop new))
  · intro wr writes
    obtain ⟨fits, front, back, apart, lsn, healthy⟩ := sound.writer wr writes
    rw [loose_singleton] at back
    refine ⟨fits.trans (by simp), ?_, ?_, apart, lsn.trans_le le, healthy⟩
    · rwa [take_append_of_le_length fits]
    · simpa [drop_append_of_le_length fits] using back
  · simpa using durable
  intro f member
  obtain old | new := mem_append.mp member
  · obtain disk | buf | gone := sound.accounted f old
    · exact .inl disk
    · exact .inr (.inl (mem_append_left _ buf))
    · exact .inr (.inr gone)
  · exact .inr (.inl (mem_append_right _ new))

theorem hold (sound : v.Sound writer [ld] accepted discarded)
    (taken : ∀ f ∈ ld.frames, f.lsn < v.nextLSN) :
    View.Sound { v with
      buf := v.buf ++ ld.frames, bufLast := lastLSN ld.frames v.bufLast
      held := some ⟨v.buf.length, ld.frames.length, lastLSN ld.frames 0, v.bufLast⟩ }
      writer [] (accepted ++ ld.frames) discarded := by
  have beyond := sound.beyond
  rw [loose_singleton] at beyond
  have base := sound.put le_rfl taken
  refine { base with
    held := ?_
    writer := fun wr writes => { base.writer wr writes with
      apart := fun h held => ?_ } }
  · intro h held
    cases held
    refine ⟨by simp, ?_, ?_, ?_, le_lastLSN beyond, lastLSN_lt ?_ taken⟩
    · simpa using sound.last
    · simpa using beyond
    · simp [Above]
    · exact (zero_le).trans_lt sound.lastTaken
  · cases held
    exact (sound.writer wr writes).fits

/-! ## Holds -/

theorem release (sound : v.Sound writer lds accepted discarded) :
    View.Sound { v with held := none } writer lds accepted discarded :=
  { sound with
    held := fun _ held => (nomatch held)
    writer := fun wr writes => { sound.writer wr writes with apart := fun _ held => (nomatch held) } }

theorem cut (sound : v.Sound writer lds accepted discarded) {h : Held} (held : v.held = some h) :
    View.Sound { v with
      buf := v.buf.take h.offset ++ v.buf.drop (h.offset + h.len)
      bufLast := if v.bufLast = h.lsn then h.prevLast else v.bufLast
      held := none }
      writer lds accepted (discarded ++ (v.buf.drop h.offset).take h.len) := by
  obtain ⟨fits, front, back, behind, prevLast, lsn⟩ := sound.held h held
  have sub : (v.buf.take h.offset ++ v.buf.drop (h.offset + h.len)).Sublist v.buf := by
    conv => rhs; rw [← take_append_drop h.offset v.buf]
    refine Sublist.append_left ?_ _
    rw [← drop_drop]
    exact drop_sublist _ _
  have less : (if v.bufLast = h.lsn then h.prevLast else v.bufLast) ≤ v.bufLast := by
    split
    · exact prevLast
    · exact le_rfl
  refine { sound with
    order := ?_
    below := ?_
    last := ?_
    beyond := fun f member => less.trans_lt (sound.beyond f member)
    lastTaken := less.trans_lt sound.lastTaken
    held := fun _ held => (nomatch held)
    writer := ?_
    durable := ?_
    accounted := ?_ }
  · exact sound.order.sublist ((Sublist.append_left sub _).append_right _)
  · exact fun f member => sound.below f ((Sublist.append_left sub _).subset member)
  · split
    next eq =>
      refine UpTo.append.mpr ⟨front, ?_⟩
      intro f member
      have after := behind f (mem_append_left _ member)
      have upTo := sound.last f (mem_of_mem_drop member)
      lia
    · exact sound.last.mono sub.subset
  · intro wr writes
    obtain ⟨fits', front', back', apart, lsn', healthy⟩ := sound.writer wr writes
    have le := apart h held
    have within : wr.upto ≤ (v.buf.take h.offset).length := by
      rw [length_take]
      exact le_min le fits'
    refine ⟨?_, ?_, ?_, fun _ held => (nomatch held), lsn', healthy⟩
    · rw [length_append]
      exact within.trans (Nat.le_add_right _ _)
    · rw [take_append_of_le_length within, take_take, min_eq_left le]
      exact front'
    · exact back'.mono ((sub.drop wr.upto).append_right _).subset
  · refine sound.durable.mono ?_
    exact ((Sublist.append_left sub _).append_right _).subset
  intro f member
  obtain disk | buf | gone := sound.accounted f member
  · exact .inl disk
  · rw [← take_append_drop h.offset v.buf, ← take_append_drop h.len (v.buf.drop h.offset),
      drop_drop] at buf
    obtain early | rest := mem_append.mp buf
    · exact .inr (.inl (mem_append_left _ early))
    · obtain inside | late := mem_append.mp rest
      · exact .inr (.inr (mem_append_right _ inside))
      · exact .inr (.inl (mem_append_right _ late))
  · exact .inr (.inr (mem_append_left _ gone))

/-! ## Flushing -/

variable {upto : Nat}

theorem flush (sound : v.Sound none lds accepted discarded) (healthy : v.healthy)
    {last : LSN} {landing : Option Landing}
    (plain : v.held = none → upto = v.buf.length ∧ last = v.bufLast)
    (behind : ∀ h, v.held = some h → upto = h.offset ∧ last = h.prevLast) :
    v.Sound (some ⟨upto, last, landing⟩) lds accepted discarded := by
  refine { sound with writer := ?_ }
  intro wr writes
  cases writes
  cases held : v.held with
  | none =>
    obtain ⟨rfl, rfl⟩ := plain held
    refine ⟨le_rfl, ?_, ?_, fun h held' => ?_, sound.lastTaken, healthy⟩
    · simpa using sound.last
    · simpa using sound.beyond
    · rw [held] at held'
      cases held'
  | some h =>
    obtain ⟨rfl, rfl⟩ := behind h held
    obtain ⟨fits, front, back, -, prevLast, -⟩ := sound.held h held
    refine ⟨fits, front, back, fun h' held' => ?_, prevLast.trans_lt sound.lastTaken, healthy⟩
    rw [held] at held'
    cases held'
    exact le_rfl

/-- The front of the buffer has reached the disk; `lost` is what no sync covers now. -/
theorem consumed {wr : Writer} (sound : v.Sound (some wr) lds accepted discarded)
    (le : upto ≤ wr.upto) (lost : List Frame) (healthy : Bool) {durable : LSN}
    (taken : durable < v.nextLSN) (above : Above durable (lost ++ v.buf.drop upto ++ loose lds))
    (synced : healthy → lost = []) :
    View.Sound { v with
      disk := v.disk ++ v.buf.take upto, buf := v.buf.drop upto
      held := v.held.map fun h => { h with offset := h.offset - upto }
      durableLSN := durable, unsynced := lost, healthy := healthy }
      none lds accepted discarded := by
  have same : v.disk ++ v.buf.take upto ++ v.buf.drop upto = v.disk ++ v.buf := by
    rw [append_assoc, take_append_drop]
  refine { sound with
    order := ?_
    below := ?_
    last := sound.last.mono (drop_subset _ _)
    durableTaken := taken
    held := ?_
    writer := fun _ writes => (nomatch writes)
    durable := above
    synced := synced
    accounted := ?_ }
  · rw [same]
    exact sound.order
  · rw [same]
    exact sound.below
  · intro h' held'
    obtain ⟨h, held, rfl⟩ := Option.map_eq_some_iff.mp held'
    obtain ⟨fits, front, back, behind, prevLast, lsn⟩ := sound.held h held
    have apart := le.trans ((sound.writer wr rfl).apart h held)
    have cut : upto + (h.offset - upto) = h.offset := Nat.add_sub_cancel' apart
    refine ⟨?_, ?_, ?_, ?_, prevLast, lsn⟩
    · rw [length_drop]
      exact Nat.sub_le_sub_right fits upto
    · rw [← drop_take]
      exact front.mono (drop_subset _ _)
    · rw [drop_drop, cut]
      exact back
    · rw [drop_drop, ← Nat.add_assoc, cut]
      exact behind
  intro f member
  obtain disk | buf | gone := sound.accounted f member
  · exact .inl (mem_append_left _ disk)
  · rw [← take_append_drop upto v.buf] at buf
    obtain front | back := mem_append.mp buf
    · exact .inl (mem_append_right _ front)
    · exact .inr (.inl back)
  · exact .inr (.inr gone)

end Sound

end View

/-! ## The views of the log's functions -/

namespace Log

variable {l l' : Log}

theorem Rekeyed.view_eq (same : l.Rekeyed l') : l'.view = l.view := by
  obtain ⟨cur, lim, high, c, rfl⟩ := same
  rfl

/-- A rotation changes neither the records on disk nor what is synced. -/
theorem Rotated.view_eq (rotated : l.Rotated l') : l'.view = l.view := by
  obtain ⟨⟨closed, seg, id, off, number, c, rfl⟩, segs, -⟩ := rotated
  unfold view onDisk unsynced
  obtain same | ⟨new, -, empty, more⟩ := segs
  · rw [same]
  · rw [more]
    simp [empty]

variable {seg : Segment}

theorem unsynced_consume (active : l.seg = some seg) (clean : l.unsynced = []) (upto torn : Nat) :
    (l.consume seg upto torn).unsynced ⊆ l.buf.take upto := by
  have parts : (l.closed.flatMap fun seg => seg.frames.drop seg.synced) = [] ∧
      seg.frames.drop seg.synced = [] := by
    simpa [unsynced, segments, active] using clean
  intro f member
  have here : f ∈ (seg.frames ++ l.buf.take upto).drop seg.synced := by
    simpa [consume, unsynced, segments, parts.1] using member
  rw [drop_append, parts.2, nil_append] at here
  exact mem_of_mem_drop here

/-- The log after a flush that has reached the disk. -/
def flushed (l : Log) (seg : Segment) (upto : Nat) (last : LSN) : Log :=
  { l.consume seg upto 0 with
    seg := (l.consume seg upto 0).seg.map fun seg => { seg with synced := seg.frames.length }
    durableLSN := max (l.consume seg upto 0).durableLSN last }

theorem view_flushed (active : l.seg = some seg) (clean : l.unsynced = []) (upto : Nat)
    (last : LSN) : (l.flushed seg upto last).view =
      { l.view with disk := l.view.disk ++ l.view.buf.take upto, buf := l.view.buf.drop upto,
                    held := l.view.held.map fun h => { h with offset := h.offset - upto },
                    durableLSN := max l.view.durableLSN last, unsynced := [] } := by
  have closed : (l.closed.flatMap fun seg => seg.frames.drop seg.synced) = [] := by
    have parts := clean
    simp only [unsynced, segments, flatMap_append, append_eq_nil_iff] at parts
    exact parts.1
  have synced : (l.flushed seg upto last).unsynced = [] := by
    simp [flushed, consume, unsynced, segments, closed]
  have disk : (l.flushed seg upto last).onDisk = l.onDisk ++ l.buf.take upto := by
    simp [flushed, consume, onDisk, segments, active]
  unfold view
  rw [synced, disk]
  rfl

/-- The end of a flush, as the order of the log sees it. -/
theorem finishFlush_sound {wr : Writer} {lds : List Landing} {accepted discarded : List Frame}
    {w : Written} {result : Except Nerr Unit}
    (sound : l.view.Sound (some wr) lds accepted discarded)
    (finished : l.finishFlush wr.upto wr.last w = (result, l')) :
    l'.view.Sound none lds accepted discarded := by
  have idle : l.view.Sound none lds accepted discarded :=
    { sound with writer := fun _ writes => (nomatch writes) }
  have writes := sound.writer wr rfl
  have clean : l.unsynced = [] := sound.synced writes.healthy
  unfold finishFlush at finished
  split at finished
  · cases finished
    exact idle
  next seg active =>
  have durable := sound.durable
  rw [show l.view.unsynced = [] from clean, nil_append] at durable
  obtain ⟨buffered, handed⟩ := Above.append.mp durable
  -- whatever part of the buffer was written, none of it was due to be durable already
  have failed : ∀ upto torn e, upto ≤ wr.upto →
      View.Sound (Log.view { l.consume seg upto torn with durabilityErr := some e })
        none lds accepted discarded := by
    intro upto torn e le
    have view : Log.view { l.consume seg upto torn with durabilityErr := some e } =
        { (l.consume seg upto torn).view with healthy := false } := rfl
    have disk : (l.consume seg upto torn).onDisk = l.onDisk ++ l.buf.take upto := by
      simp [Log.consume, Log.onDisk, Log.segments, active]
    rw [view, Log.view, disk]
    refine sound.consumed le _ false sound.durableTaken ?_ (fun healthy => by cases healthy)
    refine Above.append.mpr ⟨Above.append.mpr ⟨?_, ?_⟩, handed⟩
    · exact buffered.mono (Subset.trans (unsynced_consume active clean upto torn)
        (take_subset upto l.buf))
    · exact buffered.mono (drop_subset _ _)
  split at finished
  · cases finished
    exact idle
  · split at finished
    · cases finished
      exact idle
    · cases finished
      exact failed _ _ _ (min_le_right _ _)
  · cases finished
    exact failed _ _ _ le_rfl
  cases finished
  have view := view_flushed active clean wr.upto wr.last
  unfold flushed at view
  rw [view]
  refine sound.consumed le_rfl [] _ (max_lt sound.durableTaken writes.taken) ?_ (fun _ => rfl)
  rw [nil_append]
  intro f member
  refine max_lt ?_ (writes.back f member)
  obtain back | hand := mem_append.mp member
  · exact buffered f (mem_of_mem_drop back)
  · exact handed f hand

end Log

/-! ## Sections -/

namespace World

/-- The invariant of the log and the calls under way. -/
def Sound (s : World) : Prop :=
  s.log.view.Sound s.writer s.holding s.accepted s.discarded

/-- The invariant in the middle of a section: the call that runs has records in hand, and it
is the only one. -/
structure Carries (s : World) (ld : Landing) : Prop where
  sound : s.log.view.Sound s.writer [ld] s.accepted s.discarded
  alone : s.holding = []

variable {s : World} {ld : Landing} {l : Log} {n : Nat}

theorem Sound.carries {m : Nat} (sound : s.Sound) (alone : s.holding = [])
    (numbered : ld.frames.map Frame.lsn = range' s.log.nextLSN n) (le : s.log.nextLSN ≤ m)
    (taken : ld.Numbered m) (same : Log.Rekeyed { s.log with nextLSN := m } l) :
    Carries { s with log := l } ld := by
  unfold Sound at sound
  rw [alone] at sound
  have took := sound.takes numbered le taken
  refine ⟨?_, alone⟩
  rw [same.view_eq]
  exact took

/-- A batch that has taken its LSNs. -/
theorem Sound.carries_batch {fs : List Frame} (sound : s.Sound) (alone : s.holding = [])
    (frames : ld.frames = fs) (batch : ∀ {m : LSN}, (∀ f ∈ fs, f.lsn < m) → ld.Numbered m)
    (numbered : fs.map Frame.lsn = range' s.log.nextLSN n)
    (same : Log.Rekeyed { s.log with nextLSN := s.log.nextLSN + n } l) :
    Carries { s with log := l } ld :=
  sound.carries alone (frames ▸ numbered) (Nat.le_add_right _ n)
    (batch fun _ member => (mem_of_range numbered member).2) same

theorem Carries.abandoned (carries : s.Carries ld) : s.Sound := by
  unfold Sound
  rw [carries.alone]
  exact carries.sound.abandoned

/-- A batch fails and leaves the LSNs it has taken behind. -/
theorem Sound.skips (sound : s.Sound) (alone : s.holding = [])
    (same : Log.Rekeyed { s.log with nextLSN := s.log.nextLSN + n } l) :
    Sound { s with log := l } := by
  have carries : Carries { s with log := l } (.images []) :=
    sound.carries (n := 0) alone rfl (Nat.le_add_right _ n) (by simp [Landing.Numbered]) same
  exact carries.abandoned

theorem Carries.arrive (carries : s.Carries ld) : (s.arrive ld).Sound := by
  have sound := carries.sound
  have numbered := sound.numbered ld (by simp)
  have alone : (s.arrive ld).holding = [] := carries.alone
  unfold Sound
  rw [alone]
  cases ld with
  | append f =>
    have eq : f.lsn = s.log.view.nextLSN := numbered
    have le : s.log.view.nextLSN ≤ f.lsn + 1 := eq ▸ Nat.le_succ _
    refine sound.put le ?_
    intro g member
    rw [mem_singleton.mp member]
    exact lt_add_one _
  | images fs => exact sound.put le_rfl numbered
  | held fs => exact sound.hold numbered

theorem Carries.resumeRotation (carries : s.Carries ld) (d : Disk) :
    (s.resumeRotation ld d).Sound := by
  have kept : Carries { s with log := (s.log.finishRotate d).2 } ld := by
    refine ⟨?_, carries.alone⟩
    rw [(s.log.finishRotate_rotated d).view_eq]
    exact carries.sound
  unfold World.resumeRotation
  split
  next e l finished =>
    rw [finished] at kept
    exact kept.abandoned
  next l finished =>
    rw [finished] at kept
    exact kept.arrive

theorem flush_sound {lds : List Landing} {landing : Option Landing}
    {accepted discarded : List Frame} (sound : l.view.Sound none lds accepted discarded)
    (healthy : l.durabilityErr.isNone) :
    l.view.Sound (some ⟨l.flushable.1, l.flushable.2, landing⟩) lds accepted discarded := by
  refine sound.flush healthy ?_ ?_
  · intro none
    have none : l.held = Option.none := none
    simp [flushable, none, view]
  · intro h held
    have held : l.held = some h := held
    simp [flushable, held]

theorem Carries.rotateFlush (carries : s.Carries ld) (idle : s.writer = none) (d : Disk) :
    (s.rotateFlush ld d).Sound := by
  unfold World.rotateFlush
  split
  · exact carries.abandoned
  next healthy =>
  split
  · exact carries.resumeRotation d
  have sound := carries.sound
  rw [idle] at sound
  have tasks : s.tasks.map Task.landing = [] := by
    have alone := carries.alone
    rw [holding, idle] at alone
    simpa using alone
  have held : World.holding { s with
      writer := some ⟨s.log.flushable.1, s.log.flushable.2, some ld⟩ } = [ld] := by
    simp [holding, tasks]
  unfold Sound
  rw [held]
  exact flush_sound sound (by simpa using healthy)

theorem Carries.startRotation (carries : s.Carries ld) (d : Disk) :
    (s.startRotation ld d).Sound := by
  unfold World.startRotation
  split
  · exact carries.abandoned
  split
  · obtain ⟨tasks, landing⟩ := append_eq_nil_iff.mp carries.alone
    have held : World.holding { s with tasks := s.tasks ++ [.rotating ld] } = [ld] := by
      rw [holding, map_append, tasks, landing]
      rfl
    unfold Sound
    rw [held]
    exact carries.sound
  next busy =>
    exact carries.rotateFlush (by simpa using busy) d

theorem Carries.place (carries : s.Carries ld) (d : Disk) : (s.place ld d).Sound := by
  unfold World.place
  split
  · exact carries.startRotation d
  · exact carries.arrive

variable {call : Nat} {t : Task}

theorem Sound.only (sound : s.Sound) (found : s.tasks[call]? = some t) :
    s.tasks = [t] ∧ call = 0 ∧ (s.writer.bind Writer.landing).toList = [] := by
  have single := sound.single
  have member : t ∈ s.tasks := mem_of_getElem? found
  have some : 0 < s.tasks.length := length_pos_of_mem member
  rw [holding, length_append, length_map] at single
  obtain ⟨t', only⟩ := length_eq_one_iff.mp (show s.tasks.length = 1 by lia)
  rw [only] at member found
  refine ⟨by rw [only, mem_singleton.mp member], ?_, length_eq_zero_iff.mp (by lia)⟩
  simpa using (List.getElem?_eq_some_iff.mp found).1

theorem Sound.resume (sound : s.Sound) (found : s.tasks[call]? = some t) :
    Carries { s with tasks := s.tasks.eraseIdx call } t.landing := by
  obtain ⟨only, first, idle⟩ := sound.only found
  have held : s.holding = [t.landing] := by simp [holding, only, idle]
  unfold Sound at sound
  rw [held] at sound
  refine ⟨sound, ?_⟩
  rw [holding, only, first, idle]
  rfl

variable {wr : Writer}

/-- The call of a rotation whose flush is at the disk is the only one under way. -/
theorem Sound.rotating (sound : s.Sound) (writing : s.writer = some wr)
    (landing : wr.landing = some ld) : s.tasks = [] ∧ s.holding = [ld] := by
  have single := sound.single
  simp only [holding, writing, Option.bind_some, landing, Option.toList_some,
    length_append, length_map, length_singleton] at single
  have only : s.tasks = [] := length_eq_zero_iff.mp (by lia)
  exact ⟨only, by simp [holding, only, writing, landing]⟩

theorem Sound.finished {w : Written} {result : Except Nerr Unit} (sound : s.Sound)
    (writing : s.writer = some wr) (landing : wr.landing = some ld)
    (finished : s.log.finishFlush wr.upto wr.last w = (result, l)) :
    Carries { s with log := l, writer := none } ld := by
  obtain ⟨only, held⟩ := sound.rotating writing landing
  unfold Sound at sound
  rw [writing, held] at sound
  exact ⟨finishFlush_sound sound finished, by simp [holding, only]⟩

/-- **Every section keeps the invariant**, if a call gets LSNs only while no other call has
records that are numbered and not yet appended. -/
theorem Sound.step {t : World} {label : Label} (sound : s.Sound) (alone : s.Alone label)
    (taken : s.Step label t) : t.Sound := by
  unfold Step next at taken
  cases label with
  | append r d =>
    have free := alone rfl
    dsimp only at taken
    split at taken
    next e l prepared =>
      cases taken
      obtain ⟨same, -⟩ := prepare_spec prepared
      unfold Sound
      rw [same.view_eq]
      exact sound
    next f l prepared =>
    cases taken
    obtain ⟨same, record⟩ := prepare_spec prepared
    have lsn : f.lsn = s.log.nextLSN := by rw [Frame.lsn, record f rfl]
    have carries : Carries { s with log := l } (.append f) :=
      sound.carries (n := 1) free (by simp [Landing.frames, lsn]) le_rfl lsn same
    exact carries.place d
  | reserve txn prev pages d =>
    have free := alone rfl
    dsimp only at taken
    split at taken
    · cases taken
      exact sound
    split at taken
    next e l reserved =>
      cases taken
      obtain ⟨n, same, -⟩ := takeLSNs_spec reserved
      exact sound.skips free same
    next fs l reserved =>
    cases taken
    obtain ⟨n, same, numbered⟩ := takeLSNs_spec reserved
    have carries : Carries { s with log := l } (.images fs) :=
      sound.carries_batch free rfl id (numbered fs rfl) same
    obtain ⟨tasks, landing⟩ := append_eq_nil_iff.mp free
    have held : World.holding { s with log := l, tasks := s.tasks ++ [.sealing fs] } =
        [.images fs] := by
      rw [holding, map_append, tasks, landing]
      rfl
    unfold Sound
    rw [held]
    exact carries.sound
  | land call isSealed d =>
    dsimp only at taken
    split at taken
    next fs found =>
      cases taken
      have carries := sound.resume found
      split
      · exact carries.place d
      · exact carries.abandoned
    · cases taken
  | hold rs d =>
    have free := alone rfl
    dsimp only at taken
    split at taken
    · cases taken
      exact sound
    split at taken
    next e l prepared =>
      cases taken
      obtain ⟨n, same, -⟩ := prepareHeld_spec prepared
      exact sound.skips free same
    next fs l prepared =>
    cases taken
    obtain ⟨n, same, numbered⟩ := prepareHeld_spec prepared
    have carries : Carries { s with log := l } (.held fs) :=
      sound.carries_batch free rfl id (numbered fs rfl) same
    exact carries.place d
  | release commit =>
    cases taken
    cases held : s.log.held with
    | none => simpa [releaseHold, cutOut, held] using sound
    | some h =>
      cases commit with
      | true =>
        simp only [releaseHold, cutOut, held, if_true, append_nil]
        exact View.Sound.release sound
      | false =>
        simp only [releaseHold, cutOut, held, Bool.false_eq_true, if_false]
        exact View.Sound.cut sound held
  | flush lsn =>
    cases taken
    split
    next flushes =>
      simp only [World.flushes, Bool.and_eq_true] at flushes
      obtain ⟨⟨⟨⟨⟨-, -⟩, -⟩, idle⟩, healthy⟩, -⟩ := flushes
      have idle : s.writer = none := by simpa using idle
      have held : World.holding { s with
          writer := some ⟨s.log.flushable.1, s.log.flushable.2, none⟩ } = s.holding := by
        simp [holding, idle]
      unfold Sound at sound ⊢
      rw [held]
      rw [idle] at sound
      exact flush_sound sound healthy
    · exact sound
  | wake call d =>
    dsimp only at taken
    split at taken
    next ld found =>
      split at taken
      next idle =>
        cases taken
        exact (sound.resume found).rotateFlush (by simpa using idle) d
      · cases taken
    · cases taken
  | written w d =>
    dsimp only at taken
    split at taken
    · cases taken
    next wr writing =>
    cases landing : wr.landing with
    | none =>
      unfold Sound at sound
      rw [writing] at sound
      have held : ∀ l, World.holding { s with log := l, writer := none } = s.holding := by
        intro l
        simp [holding, writing, landing]
      have idle : ∀ {l result}, s.log.finishFlush wr.upto wr.last w = (result, l) →
          Sound { s with log := l, writer := none } := by
        intro l result finished
        unfold Sound
        rw [held]
        exact finishFlush_sound sound finished
      split at taken
      next finished =>
        cases taken
        exact idle finished
      next finished =>
      rw [landing] at taken
      cases taken
      exact idle finished
    | some ld =>
      split at taken
      next finished =>
        cases taken
        exact (sound.finished writing landing finished).abandoned
      next finished =>
      rw [landing] at taken
      cases taken
      exact (sound.finished writing landing finished).resumeRotation d

/-! ## Runs -/

theorem sound_create (segmentSize : Nat) (archiver pageDeltas : Bool) :
    (create segmentSize archiver pageDeltas).Sound := by
  refine ⟨by simp [create, holding], List.Pairwise.nil, ?_, ?_, ?_, ?_, Nat.zero_lt_one,
    Nat.zero_lt_one, ?_, ?_, ?_, ?_, ?_⟩
  all_goals
    simp [create, Log.create, holding, view, onDisk, segments, unsynced, UpTo, Above]

theorem run_sound {segmentSize : Nat} {archiver pageDeltas : Bool} {labels : List Label}
    {s : World} (run : Run Step Alone (create segmentSize archiver pageDeltas) labels s) :
    s.Sound :=
  run.invariant Sound (sound_create segmentSize archiver pageDeltas)
    fun sound alone taken => sound.step alone taken

/-- What is on disk is synced, or no sync covers it. -/
theorem mem_syncedFrames {f : Frame} (member : f ∈ l.onDisk) :
    f ∈ l.syncedFrames ∨ f ∈ l.unsynced := by
  obtain ⟨seg, inLog, written⟩ := mem_flatMap.mp member
  rw [← take_append_drop seg.synced seg.frames] at written
  obtain early | late := mem_append.mp written
  · exact .inl (mem_flatMap.mpr ⟨seg, inLog, early⟩)
  · exact .inr (mem_flatMap.mpr ⟨seg, inLog, late⟩)

/-- **Order and durability.** In every state of every interleaving of the calls in which a
call gets LSNs only while no other call has records that are numbered and not yet appended,
the records on disk have rising LSNs, and every record not beyond the durable LSN is written
and synced, unless a failed hold cut it out. -/
theorem durable_records_synced {segmentSize : Nat} {archiver pageDeltas : Bool}
    {labels : List Label} {s : World}
    (run : Run Step Alone (create segmentSize archiver pageDeltas) labels s) :
    s.log.onDisk.Pairwise (fun f g => f.lsn < g.lsn) ∧
      ∀ n ≤ s.log.durableLSN, ∀ f ∈ s.accepted ++ s.pending, f ∉ s.discarded → f.lsn ≤ n →
        f ∈ s.log.syncedFrames := by
  have sound := run_sound run
  obtain ⟨⟨lost, buffered⟩, hand⟩ := (Above.append.mp sound.durable).imp Above.append.mp id
  refine ⟨(pairwise_append.mp (pairwise_append.mp sound.order).1).1, ?_⟩
  intro n durable f member kept le
  have notAbove : ¬ s.log.durableLSN < f.lsn := not_lt.mpr (le.trans durable)
  obtain accepted | pending := mem_append.mp member
  · obtain disk | buf | gone := sound.accounted f accepted
    · exact (mem_syncedFrames disk).resolve_right fun late => notAbove (lost f late)
    · exact absurd (buffered f buf) notAbove
    · exact absurd gone kept
  · exact absurd (hand f pending) notAbove

/-- Two transactions begin, the commit record of a third is held and cut out again, and the
rest is flushed into the next segment. -/
def heldAndCut : List Label :=
  [.append { type := .begin, txnID := 1 } {}, .append { type := .begin, txnID := 2 } {},
   .hold [{ type := .commit, txnID := 3 }] {}, .written .done {},
   .append { type := .abort, txnID := 1 } {}, .release false, .flush 4, .written .done {}]

theorem durable_records_synced_around_hold :
    ∃ s, Run Step Alone (create 300 false false) heldAndCut s ∧
      s.log.durableLSN = 4 ∧ s.discarded.map Frame.lsn = [3] ∧
      s.log.onDisk.Pairwise (fun f g => f.lsn < g.lsn) ∧
      ∀ n ≤ s.log.durableLSN, ∀ f ∈ s.accepted ++ s.pending, f ∉ s.discarded → f.lsn ≤ n →
        f ∈ s.log.syncedFrames := by
  refine exists_run_that next (fun s label => decide (s.Alone label)) of_decide_eq_true
    (fun s => s.log.durableLSN = 4 ∧ s.discarded.map Frame.lsn = [3]) (by decide +kernel)
    fun s run ⟨durable, discarded⟩ => ?_
  exact ⟨durable, discarded, durable_records_synced run⟩

/-- The blank page of the examples. -/
def blankPage : PageID × Bytes := (7, List.replicate logicalPageSize 0)

/-- A page image has LSN 1 and is being sealed; another call appends a record with LSN 2 and
flushes it. LSN 2 is durable and the image is not even in the buffer; in the end it stands
behind the other record. And an append that rotates has read LSN 2, when another call appends
under the same LSN. -/
theorem durable_image_unwritten : (∃ s, Run Step unguarded (create 100000 false false)
        [.reserve 1 0 [blankPage] {}, .append { type := .begin, txnID := 2 } {}, .flush 2,
         .written .done {}] s ∧
      s.log.durableLSN = 2 ∧ s.pending.map Frame.lsn = [1] ∧ s.log.onDisk.map Frame.lsn = [2]) ∧
    (∃ s, Run Step unguarded (create 100000 false false)
        [.reserve 1 0 [blankPage] {}, .append { type := .begin, txnID := 2 } {}, .flush 2,
         .written .done {}, .land 0 true {}, .append { type := .commit, txnID := 2 } {}, .flush 3,
         .written .done {}] s ∧
      s.log.onDisk.map Frame.lsn = [2, 1, 3]) ∧
    ∃ s, Run Step unguarded (create 300 false false) [.append { type := .begin, txnID := 1 } {},
         .append { type := .insert, txnID := 1, body := List.replicate 100 0 } {},
         .append { type := .begin, txnID := 2 } {}, .written .done {}, .flush 2,
         .written .done {}] s ∧
      s.log.onDisk.map Frame.lsn = [1, 2, 2] := by
  refine ⟨?_, ?_, ?_⟩
  all_goals
    exact exists_run_of_exec next (fun _ _ => true) (fun _ => trivial) (by decide +kernel)

end World

end NextSQL.Wal
