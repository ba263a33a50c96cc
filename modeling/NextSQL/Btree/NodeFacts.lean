import NextSQL.Btree.Node

/-!
# What the page operations do to the records

Each operation is described by the records it leaves on the page: `Append` and
`Insert` add one, a page found full keeps what it had, and a rebuilt page has
exactly the records it was given. A record goes on a page exactly when the
packed page has room for it (`HasRoom`), and a page can be rebuilt exactly when
its bytes fit (`rebuild_of_fits`, `rebuild_of_large`).

A full leaf and one more record can always be divided over two pages
(`splitLeafIndex_spec`): no record is larger than half a page.
-/

namespace NextSQL.Btree

open List Option

section Pages

variable {ρ : Type} [Record ρ] {xs ys : List ρ}

theorem pageBytes_perm (perm : xs.Perm ys) : pageBytes xs = pageBytes ys := by
  rw [pageBytes, pageBytes, perm.length_eq, payload_perm perm]

theorem pageBytes_sublist (sub : xs.Sublist ys) : pageBytes xs ≤ pageBytes ys := by
  have : payload xs ≤ payload ys := (sub.map _).sum_le_sum fun _ _ => zero_le
  have := sub.length_le
  simp only [pageBytes, slotSize]
  omega

theorem pageBytes_cons (r : ρ) (xs : List ρ) :
    pageBytes (r :: xs) = Record.size r + slotSize + pageBytes xs := by
  simp only [pageBytes, length_cons, payload_cons, slotSize]
  omega

theorem pageBytes_concat (xs : List ρ) (r : ρ) :
    pageBytes (xs ++ [r]) = Record.size r + slotSize + pageBytes xs := by
  rw [pageBytes_perm (perm_append_singleton r xs), pageBytes_cons]

namespace Node

@[simp] theorem live_init (hdr : NodeHeader) : (init hdr : Node ρ).live = [] := rfl

@[simp] theorem hdr_init (hdr : NodeHeader) : (init hdr : Node ρ).hdr = hdr := rfl

@[simp] theorem live_writeHeader (n : Node ρ) (hdr : NodeHeader) :
    (n.writeHeader hdr).live = n.live := rfl

@[simp] theorem live_compact (n : Node ρ) : n.compact.live = n.live := rfl

@[simp] theorem hdr_compact (n : Node ρ) : n.compact.hdr = n.hdr := rfl

variable {n n' : Node ρ}

theorem live_eq_of_compact_eq (packed : n'.compact = n.compact) : n'.live = n.live := by
  rw [← live_compact n', packed, live_compact]

@[simp] theorem lower_compact (n : Node ρ) : n.compact.lower = n.lower := rfl

@[simp] theorem need_compact (n : Node ρ) (r : ρ) : n.compact.need r = n.need r := rfl

@[simp] theorem upper_compact (n : Node ρ) :
    n.compact.upper = logicalPageSize - (headerSize + payload n.live) := rfl

variable {r : ρ}

theorem append_eq_some (done : n.append r = some n') : n'.live = n.live ++ [r] ∧ n'.hdr = n.hdr := by
  rw [append] at done
  split at done
  · cases done
    exact ⟨by simp [live, reduceOption_append], rfl⟩
  · cases done

theorem pageBytes_of_append (done : n.append r = some n') :
    pageBytes (n.live ++ [r]) ≤ logicalPageSize := by
  rw [append] at done
  split at done
  next fits =>
    have records := n.records_le
    have short : n.live.length ≤ n.slots.length := reduceOption_length_le n.slots
    have behind : pageHeaderSize + slotSize * (1 + n.slots.length) +
        (Record.size r + slotSize) ≤ n.upper := fits
    rw [pageBytes_concat, pageBytes]
    simp only [live, slotSize] at *
    omega
  next => cases done

/-! ## Insert -/

/-- The packed page has the bytes `Insert` needs. -/
def HasRoom (n : Node ρ) (r : ρ) : Prop :=
  n.compact.lower + n.compact.need r ≤ n.compact.upper

instance (n : Node ρ) (r : ρ) : Decidable (n.HasRoom r) := Nat.decLe _ _

theorem hasRoom_of_fits (fits : n.lower + n.need r ≤ n.upper) : n.HasRoom r := by
  have records := n.records_le
  rw [← live] at records
  simp only [HasRoom, lower_compact, need_compact, upper_compact]
  omega

theorem insert_of_hasRoom (room : n.HasRoom r) :
    ∃ n', n.insert r = (n', true) ∧ n'.live.Perm (r :: n.live) ∧ n'.hdr = n.hdr := by
  by_cases fits : n.lower + n.need r ≤ n.upper
  · exact ⟨n.put r fits, by rw [insert, dif_pos fits], Slots.reduceOption_place n.slots r, rfl⟩
  · have packed : n.compact.lower + n.compact.need r ≤ n.compact.upper := room
    exact ⟨n.compact.put r packed, by rw [insert, dif_neg fits, dif_pos packed],
      Slots.reduceOption_place n.compact.slots r, rfl⟩

theorem insert_of_full (full : ¬ n.HasRoom r) : n.insert r = (n.compact, false) := by
  have packed : ¬ n.compact.lower + n.compact.need r ≤ n.compact.upper := full
  rw [insert, dif_neg fun fits => full (hasRoom_of_fits fits), dif_neg packed]

/-- The records of a page fit a page. -/
theorem pageBytes_live (n : Node ρ) : pageBytes n.live ≤ logicalPageSize := by
  have := n.lower_le
  have := n.records_le
  have short : n.live.length ≤ n.slots.length := reduceOption_length_le n.slots
  simp only [pageBytes, live, slotSize] at *
  omega

/-! ## Rebuilding -/

/-- A page with no free slot and no unused bytes between its records. -/
structure Packed (n : Node ρ) : Prop where
  slots : n.slots = n.live.map some
  upper : n.upper = logicalPageSize - (headerSize + payload n.live)

theorem Packed.insert_eq (packed : n.Packed) (r : ρ) :
    if pageBytes (n.live ++ [r]) ≤ logicalPageSize then
      ∃ n', n.insert r = (n', true) ∧ n'.live = n.live ++ [r] ∧ n'.hdr = n.hdr ∧ n'.Packed
    else (n.insert r).2 = false := by
  have grows : n.slots.findIdx? Option.isNone = none := by
    rw [packed.slots]
    simp [findIdx?_eq_none_iff]
  have length : n.slots.length = n.live.length := by
    rw [packed.slots, length_map]
  have records := n.records_le
  rw [← live] at records
  have enough : n.lower + n.need r ≤ n.upper ↔ pageBytes (n.live ++ [r]) ≤ logicalPageSize := by
    rw [pageBytes_concat, pageBytes, lower, need, grows, packed.upper, length]
    simp only [isSome_none, Bool.false_eq_true, if_false, slotSize]
    omega
  split
  next fits =>
    rw [← enough] at fits
    have appended : (n.put r fits).slots = n.slots ++ [some r] := by
      simp only [put, Slots.place, grows]
    have live' : (n.put r fits).live = n.live ++ [r] := by
      rw [live, appended]
      simp [live, reduceOption_append]
    refine ⟨n.put r fits, by rw [insert, dif_pos fits], live', rfl, ?_, ?_⟩
    · rw [appended, live', packed.slots]
      simp
    · rw [live']
      simp only [put, packed.upper, payload_append, payload_cons, payload_nil]
      omega
  next full =>
  rw [← enough] at full
  have compacted : ¬ n.HasRoom r := by
    rw [packed.upper] at full
    rwa [HasRoom, lower_compact, need_compact, upper_compact]
  rw [insert_of_full compacted]

/-- One more record on a page under construction. -/
theorem rebuild_concat (hdr : NodeHeader) (records : List ρ) (r : ρ) :
    rebuild hdr (records ++ [r]) = (rebuild hdr records).bind fun n => match n.insert r with
      | (n', true) => some n'
      | (_, false) => none := by
  simp only [rebuild, foldlM_append, foldlM_cons, foldlM_nil]
  refine congrArg _ (funext fun n => ?_)
  rcases n.insert r with ⟨n', _ | _⟩ <;> rfl

theorem rebuild_packed (hdr : NodeHeader) (records : List ρ) :
    if pageBytes records ≤ logicalPageSize then
      ∃ n, rebuild hdr records = some n ∧ n.live = records ∧ n.hdr = hdr ∧ n.Packed
    else rebuild hdr records = none := by
  induction records using reverseRecOn with
  | nil =>
    have fits : pageBytes ([] : List ρ) ≤ logicalPageSize := pageBytes_live (init hdr)
    rw [if_pos fits]
    exact ⟨init hdr, rfl, rfl, rfl, rfl, rfl⟩
  | append_singleton records r ih =>
    rw [rebuild_concat]
    split at ih
    next =>
      obtain ⟨n, built, same, hdr', packed⟩ := ih
      have next := packed.insert_eq r
      rw [built, bind_some]
      rw [same] at next
      split at next
      next fits =>
        obtain ⟨n', done, live', kept, packed'⟩ := next
        rw [if_pos fits, done]
        exact ⟨n', rfl, by rw [live', ← same], kept.trans hdr', packed'⟩
      next full =>
      rw [if_neg full]
      rcases insertion : n.insert r with ⟨n', _ | _⟩
      · rfl
      · rw [insertion] at next
        cases next
    next large =>
      have larger : ¬ pageBytes (records ++ [r]) ≤ logicalPageSize := by
        have := pageBytes_sublist (sublist_append_left records [r])
        omega
      rw [if_neg larger, ih, bind_none]

variable {records : List ρ}

/-- A page is rebuilt with exactly the records given, if their bytes fit. -/
theorem rebuild_of_fits (hdr : NodeHeader) (fits : pageBytes records ≤ logicalPageSize) :
    ∃ n, rebuild hdr records = some n ∧ n.live = records ∧ n.hdr = hdr := by
  have packed := rebuild_packed hdr records
  rw [if_pos fits] at packed
  obtain ⟨n, built, same, hdr', -⟩ := packed
  exact ⟨n, built, same, hdr'⟩

theorem rebuild_of_large (hdr : NodeHeader) (large : ¬ pageBytes records ≤ logicalPageSize) :
    rebuild hdr records = none := by
  have packed := rebuild_packed hdr records
  rwa [if_neg large] at packed

/-! ## Keys -/

theorem collect_perm (n : Node ρ) : n.collect.Perm n.live := Slots.sortBy_perm _ _

theorem collectWith_perm (n : Node ρ) (e : ρ) : (n.collectWith e).Perm (e :: n.live) :=
  (Slots.sortBy_perm _ _).trans ((perm_append_singleton e _).trans (n.collect_perm.cons e))

theorem exists_middle (n : Node ρ) (e : ρ) :
    ∃ middle, (n.collectWith e)[(n.collectWith e).length / 2]? = some middle := by
  refine ⟨_, getElem?_eq_getElem ?_⟩
  rw [(n.collectWith_perm e).length_eq, length_cons]
  omega

theorem mem_collect : r ∈ n.collect ↔ r ∈ n.live := n.collect_perm.mem_iff

theorem collect_congr (same : n'.live = n.live) : n'.collect = n.collect := by
  rw [collect, same, collect]

/-- `maxKey` is some key of the page that no other key exceeds, or none if the page has no
record. -/
theorem maxKey_spec (n : Node ρ) :
    match n.maxKey with
    | none => n.live = []
    | some max => (∃ r ∈ n.live, Record.key r = max) ∧ ∀ r ∈ n.live, Record.key r ≤ max := by
  rw [maxKey]
  induction n.live using reverseRecOn with
  | nil => rfl
  | append_singleton records r ih =>
    rw [foldl_append, foldl_cons, foldl_nil]
    revert ih
    generalize records.foldl _ none = max
    cases max with
    | none =>
      rintro rfl
      simp
    | some max =>
      rintro ⟨⟨r', member, rfl⟩, most⟩
      by_cases greater : Record.key r' < Record.key r
      · simp only [if_pos greater]
        refine ⟨⟨r, by simp, rfl⟩, ?_⟩
        intro other member'
        obtain earlier | last := mem_append.mp member'
        · exact (most other earlier).trans greater.le
        · rw [mem_singleton.mp last]
      simp only [if_neg greater]
      refine ⟨⟨r', by simp [member], rfl⟩, ?_⟩
      intro other member'
      obtain earlier | last := mem_append.mp member'
      · exact most other earlier
      · rw [mem_singleton.mp last]
        exact le_of_not_gt greater

end Node

end Pages

/-! ## Finding a key -/

/-- The slot found holds the key; if none is found no record has it. -/
theorem findLeafSlot_spec (n : Node LeafEntry) (key : Key) :
    match findLeafSlot n key with
    | none => ∀ e ∈ n.live, e.key ≠ key
    | some (i, value) => ∃ e, n.slots[i]? = some (some e) ∧ e.key = key ∧ e.value = value := by
  rw [findLeafSlot, Node.live]
  induction n.slots using reverseRecOn with
  | nil => simp
  | append_singleton slots slot ih =>
    rw [zipIdx_append, foldl_append, zipIdx_singleton, foldl_cons, foldl_nil, reduceOption_append]
    revert ih
    generalize slots.zipIdx.foldl _ none = found
    intro ih
    have last : (slots ++ [slot])[slots.length]? = some slot := by simp
    have earlier : ∀ (i : Nat) e, slots[i]? = some (some e) → (slots ++ [slot])[i]? = some (some e) := by
      intro i e isE
      obtain ⟨inside, -⟩ := List.getElem?_eq_some_iff.mp isE
      rw [List.getElem?_append_left inside, isE]
    cases slot with
    | none =>
      cases found with
      | none => simpa using ih
      | some place =>
        obtain ⟨e, isE, rest⟩ := ih
        exact ⟨e, earlier _ _ isE, rest⟩
    | some e =>
      by_cases same : e.key = key
      · simp only [if_pos same, Nat.zero_add]
        exact ⟨e, last, same, rfl⟩
      simp only [if_neg same]
      cases found with
      | none =>
        intro e' member
        obtain before | isLast := mem_append.mp member
        · exact ih e' before
        · simp only [reduceOption_singleton, toList_some, mem_singleton] at isLast
          rwa [isLast]
      | some place =>
        obtain ⟨e', isE, rest⟩ := ih
        exact ⟨e', earlier _ _ isE, rest⟩

theorem findLeafSlot_eq_none_iff {n : Node LeafEntry} {key : Key} :
    findLeafSlot n key = none ↔ ∀ e ∈ n.live, e.key ≠ key := by
  have spec := findLeafSlot_spec n key
  cases found : findLeafSlot n key with
  | none =>
    rw [found] at spec
    simpa using spec
  | some place =>
    rw [found] at spec
    obtain ⟨e, isE, same, -⟩ := spec
    simp only [reduceCtorEq, false_iff, not_forall, not_not]
    exact ⟨e, reduceOption_mem_iff.mpr (mem_of_getElem? isE), same⟩

/-! ## Dividing a leaf -/

variable {ents : List LeafEntry}

theorem leafFits_iff : leafFits ents ↔ pageBytes ents ≤ logicalPageSize := by
  simp only [leafFits, Bool.and_eq_true, List.all_eq_true, decide_eq_true_eq]
  exact and_iff_right fun e _ => e.fits

theorem internalFits_iff {ents : List InternalEntry} :
    internalFits ents ↔ pageBytes ents ≤ logicalPageSize := by
  simp only [internalFits, Bool.and_eq_true, List.all_eq_true, decide_eq_true_eq]
  refine and_iff_right fun e _ => ⟨e.keyOk, ?_⟩
  have := e.keyOk.2
  simp only [internalRecordSize, maxKeySize, maxPayload, logicalPageSize, pageHeaderSize,
    headerSize, slotSize] at *
  omega

/-- A cut is allowed if both sides are pages. -/
def CanCut (ents : List LeafEntry) (mid : Nat) : Prop :=
  leafFits (ents.take mid) = true ∧ leafFits (ents.drop mid) = true

/-- The search of the cut, over the places that are left. -/
theorem exists_best {cut : Nat} (allowed : CanCut ents cut) {mids : List Nat} {best : Option Nat}
    (inside : ∀ mid ∈ mids, 0 < mid ∧ mid < ents.length)
    (valid : ∀ mid ∈ best, 0 < mid ∧ mid < ents.length ∧ CanCut ents mid)
    (found : best.isSome ∨ cut ∈ mids) : ∃ mid, mids.foldl (fun best mid =>
      if leafFits (ents.take mid) && leafFits (ents.drop mid) then
        match best with
        | none => some mid
        | some other =>
          let delta (i : Nat) := (i - ents.length / 2) + (ents.length / 2 - i)
          if delta mid < delta other then some mid else best
      else best) best = some mid ∧ 0 < mid ∧ mid < ents.length ∧ CanCut ents mid := by
  induction mids generalizing best with
  | nil =>
    obtain found | absurd := found
    · obtain ⟨mid, rfl⟩ := isSome_iff_exists.mp found
      exact ⟨mid, rfl, valid mid rfl⟩
    · cases absurd
  | cons mid mids ih =>
    rw [foldl_cons]
    obtain ⟨here, inside'⟩ := forall_mem_cons.mp inside
    by_cases passes : leafFits (ents.take mid) && leafFits (ents.drop mid)
    · rw [if_pos passes]
      have cutHere : CanCut ents mid := by simpa [CanCut] using passes
      cases best with
      | none => exact ih inside' (by rintro m ⟨⟩; exact ⟨here.1, here.2, cutHere⟩) (.inl rfl)
      | some other =>
        dsimp only
        split
        · exact ih inside' (by rintro m ⟨⟩; exact ⟨here.1, here.2, cutHere⟩) (.inl rfl)
        · exact ih inside' valid (.inl rfl)
    · rw [if_neg passes]
      refine ih inside' valid (found.imp_right fun member => ?_)
      obtain rfl | later := mem_cons.mp member
      · exact absurd (by simpa [CanCut] using allowed) passes
      · exact later

/-- Whatever cut the search settles on is allowed, and it finds one if there is one. -/
theorem splitLeafIndex_of_cut {cut : Nat} (positive : 0 < cut) (small : cut < ents.length)
    (allowed : CanCut ents cut) :
    ∃ mid, splitLeafIndex ents = some mid ∧ 0 < mid ∧ mid < ents.length ∧ CanCut ents mid := by
  refine exists_best allowed ?_ (by simp) (.inr ?_)
  · intro mid member
    rw [mem_range'_1] at member
    omega
  · rw [mem_range'_1]
    omega

theorem pageBytes_take_drop (ents : List LeafEntry) (mid : Nat) :
    pageBytes (ents.take mid) + pageBytes (ents.drop mid) =
      pageBytes ents + pageBytes ([] : List LeafEntry) := by
  have lengths : (ents.take mid).length + (ents.drop mid).length = ents.length := by
    rw [← length_append, take_append_drop]
  have payloads : payload (ents.take mid) + payload (ents.drop mid) = payload ents := by
    rw [← payload_append, take_append_drop]
  simp only [pageBytes, length_nil, payload_nil, slotSize]
  omega

theorem pageBytes_take_succ (ents : List LeafEntry) {mid : Nat} (small : mid < ents.length) :
    pageBytes (ents.take (mid + 1)) ≤ pageBytes (ents.take mid) + (maxLeafRecord + slotSize) := by
  rw [take_add_one, getElem?_eq_getElem small, toList_some, pageBytes_concat]
  have := (ents[mid]).fits
  rw [record_size_leaf]
  omega

/-- **A leaf can be divided.** The records of a page and one more can be cut into two
pages, at the last place where the left page still fits. -/
theorem exists_cut {rest : List LeafEntry} {e : LeafEntry} (two : 2 ≤ ents.length)
    (perm : ents.Perm (e :: rest)) (fits : pageBytes rest ≤ logicalPageSize) :
    ∃ cut, 0 < cut ∧ cut < ents.length ∧ CanCut ents cut := by
  have total : pageBytes ents ≤ logicalPageSize + (maxLeafRecord + slotSize) := by
    rw [pageBytes_perm perm, pageBytes_cons, record_size_leaf]
    have := e.fits
    omega
  have least : pageBytes ([] : List LeafEntry) = 80 := rfl
  simp only [CanCut, leafFits_iff]
  let cut := Nat.findGreatest (fun m => pageBytes (ents.take m) ≤ logicalPageSize) (ents.length - 1)
  have small : cut ≤ ents.length - 1 := Nat.findGreatest_le _
  have one : pageBytes (ents.take 1) ≤ logicalPageSize := by
    have := pageBytes_take_succ ents (show 0 < ents.length by omega)
    rw [take_zero, least] at this
    exact this.trans (by decide)
  have left : pageBytes (ents.take cut) ≤ logicalPageSize :=
    Nat.findGreatest_spec (P := fun m => pageBytes (ents.take m) ≤ logicalPageSize)
      (m := 1) (by omega) one
  have positive : 1 ≤ cut := Nat.le_findGreatest (by omega) one
  have sides := pageBytes_take_drop ents cut
  refine ⟨cut, positive, by omega, left, ?_⟩
  obtain before | last := lt_or_ge cut (ents.length - 1)
  · -- the next record did not fit on the left, so the left side is more than half full
    have full : ¬ pageBytes (ents.take (cut + 1)) ≤ logicalPageSize :=
      Nat.findGreatest_is_greatest (P := fun m => pageBytes (ents.take m) ≤ logicalPageSize)
        (Nat.lt_succ_self cut) before
    have step := pageBytes_take_succ ents (show cut < ents.length by omega)
    simp only [logicalPageSize, maxLeafRecord, slotSize, pageHeaderSize, headerSize] at *
    omega
  have nothing : ents.drop (cut + 1) = [] := drop_eq_nil_of_le (by omega)
  have single := pageBytes_take_drop ents (cut + 1)
  have step := pageBytes_take_succ ents (show cut < ents.length by omega)
  rw [nothing] at single
  simp only [logicalPageSize, maxLeafRecord, slotSize, pageHeaderSize, headerSize] at *
  omega

end NextSQL.Btree
