import NextSQL.Btree.LeafSplits

/-!
# Insertion into a sound tree

An insertion goes right (`insert_iff`) exactly when the leaf remembered from the
last insertion, if it is used at all, is the one a search finds, and when that
leaf has room for the record or can be split. It cannot be split if it has no
record but is full of free slots, or if an internal page over it that has to be
split does not fit two pages when it is cut in the middle by count
(`splits_iff`). A lookup then finds the new record, and every other key as
before (`lookup_insert`).
-/

namespace NextSQL.Btree

open Layers List

namespace TreeM

open Tree

variable {s t t' : Tree} {up left right : List Place} {x : Place} {n m : Node LeafEntry}
  {neu : LeafEntry} {key : Key} {id : PageID}

/-! ## The leaf of a key -/

theorem exists_reached (sound : t.Sound) (owned : t.Owned) (key : Key) :
    ∃ up left x right n, Reached t up left x right n ∧ Holds key x right := by
  obtain ⟨up, left, x, right, -, path, length, split, holds⟩ := sound.descend_spec key
  obtain ⟨n, pinned⟩ := sound.pinned (x := x) (by simp [split])
  exact ⟨up, left, x, right, n, ⟨sound, owned, split, path, length, pinned⟩, holds⟩

section

variable (reached : Reached t up left x right n)

include reached

theorem Reached.descend (holds : Holds key x right) :
    t.descend key = .ok (x.2, up.map Prod.snd) := by
  obtain ⟨sound, -, split, path, length, -⟩ := reached
  have nodup := sound.nodup
  rw [ids] at nodup
  refine descend_of_reached path length ?_ ?_ (split ▸ sound.ordered) holds
  · rw [length]
    exact sound.inner
  · rw [above_succ, length]
    exact Nodup.of_map _ nodup

/-- The leaf is reached as before if only the places of records on leaves changed. -/
theorem Reached.of_sameRecords (same : t'.SameRecords t) (alloc : t'.alloc = t.alloc) :
    ∃ n', Reached t' up left x right n' ∧ n'.compact = n.compact := by
  obtain ⟨sound, owned, split, path, length, pinned⟩ := reached
  obtain ⟨n', pinned', packed⟩ := same.leaves x (by simp [split]) n pinned
  refine ⟨n', ⟨sound.of_sameRecords same, ?_, same.layers.1.trans split, ?_, ?_, pinned'⟩, packed⟩
  · rw [Owned, same.ids_eq, alloc]
    exact owned
  · rw [same.root]
    refine path.congr fun y higher => children_congr (same.inner y ?_)
    rwa [Tree.inner, ← length]
  · rw [same.height, length]

theorem Reached.path_pages (same : t'.SameRecords t) (sep : Key) :
    t'.splitsFit (up.map Prod.snd) sep = t.splitsFit (up.map Prod.snd) sep := by
  refine splitsFit_congr fun id member => ?_
  obtain ⟨y, onPath, rfl⟩ := mem_map.mp member
  refine same.inner y ?_
  rw [Tree.inner, ← reached.length]
  exact reached.path.path_mem_above y onPath

/-! ## A leaf with room -/

theorem Reached.put (holds : Holds neu.key x right) (absent : ∀ e ∈ t.contents, e.key ≠ neu.key)
    {n' : Node LeafEntry} (live : n'.live.Perm (neu :: n.live)) (hdr : n'.hdr = n.hdr) :
    (t.setPage x.2 (.leaf n')).Sound ∧ (t.setPage x.2 (.leaf n')).Owned ∧
      (t.setPage x.2 (.leaf n')).contents.Perm (neu :: t.contents) := by
  have strict : n'.collect.Pairwise fun a b => a.key < b.key := by
    refine Slots.sortBy_strict Record.key ?_
    rw [(live.map Record.key).nodup_iff, map_cons, nodup_cons]
    constructor
    · intro member
      obtain ⟨e, onLeaf, same⟩ := mem_map.mp member
      exact absent e (reached.mem_contents onLeaf) same
    · rw [← (n.collect_perm.map Record.key).nodup_iff]
      exact pairwise_map.mpr (reached.strict.imp ne_of_lt)
  have onLeaf : ∀ e ∈ n'.live, Holds e.key x right := by
    intro e member
    obtain rfl | old := mem_cons.mp (live.mem_iff.mp member)
    · exact holds
    · exact reached.holds_key old
  have filled : n'.live ≠ [] := by
    intro none
    rw [none] at live
    simpa using live.length_eq
  obtain ⟨sound, ids, contents⟩ := reached.sound.setLeaf reached.split reached.pinned hdr
    (fun _ => filled) strict (fun l isL e member => (onLeaf e member).1 l isL)
    (fun h isH e member => (onLeaf e member).2 h isH)
  refine ⟨sound, ?_, ?_⟩
  · rw [Owned, ids]
    exact reached.owned
  rw [contents, Tree.contents, reached.split, flatMap_append, flatMap_cons,
    leafRecords_of_pinned reached.pinned, append_assoc]
  have records : n'.collect.Perm (neu :: n.collect) :=
    (n'.collect_perm.trans live).trans (n.collect_perm.symm.cons neu)
  exact ((records.append_right _).append_left _).trans perm_middle

end

/-! ## A full leaf -/

/-- The separator that goes up when the leaf is split. -/
def leafSeparator (n : Node LeafEntry) (neu : LeafEntry) : Key :=
  if (n.maxKey.filter (· < neu.key)).isSome then neu.key else cutSeparator n neu

/-- The leaf has room for the record, or it can be split for it. -/
def Takes (t : Tree) (up : List PageID) (n : Node LeafEntry) (neu : LeafEntry) : Prop :=
  n.HasRoom neu ∨ n.live ≠ [] ∧ t.splitsFit up (leafSeparator n neu) = true

instance (t : Tree) (up : List PageID) (n : Node LeafEntry) (neu : LeafEntry) :
    Decidable (Takes t up n neu) :=
  inferInstanceAs (Decidable (_ ∨ _ ∧ _))

theorem leafSeparator_congr (live : m.live = n.live) :
    leafSeparator m neu = leafSeparator n neu := by
  rw [leafSeparator, leafSeparator, cutSeparator, cutSeparator, Node.collect_congr live,
    Node.maxKey, Node.maxKey, live]

section

variable (reached : Reached t up left x right n)

include reached

theorem Reached.takes_congr (same : t'.SameRecords t) (packed : m.compact = n.compact) :
    Takes t' (up.map Prod.snd) m neu ↔ Takes t (up.map Prod.snd) n neu := by
  rw [Takes, Takes, Node.HasRoom, packed, ← Node.HasRoom, Node.live_eq_of_compact_eq packed,
    leafSeparator_congr (Node.live_eq_of_compact_eq packed), reached.path_pages same]

section

variable (holds : Holds neu.key x right) (absent : ∀ e ∈ t.contents, e.key ≠ neu.key)

include holds absent

/-- A full leaf that was searched for is split, with nothing remembered. -/
theorem split_spec (full : ¬ n.HasRoom neu) (unhinted : t.hintParent = 0) :
    t.GainsIff neu (Takes t (up.map Prod.snd) n neu) ((match n.maxKey.filter (· < neu.key) with
        | some leftMax => splitLeafAppend x.2 n leftMax neu
        | none =>
          if n.collect = [] then
            throw ⟨.invalidArgument, "btree.Insert", "record exceeds page capacity"⟩
          else splitLeafAndInsert x.2 (up.map Prod.snd) n.hdr n.collect neu : TreeM Unit) t) := by
  have spec := n.maxKey_spec
  cases most : n.maxKey.filter (· < neu.key) with
  | some leftMax =>
    obtain ⟨isMax, greater⟩ := Option.filter_eq_some_iff.mp most
    have filled : n.live ≠ [] := by
      rw [isMax] at spec
      obtain ⟨⟨e, member, -⟩, -⟩ := spec
      exact ne_nil_of_mem member
    refine (splitLeafAppend_spec reached (SameTree.refl t) unhinted isMax (by simpa using greater)
      holds).congr ?_ rfl
    rw [Takes, leafSeparator, most]
    simp [full, filled]
  | none =>
    by_cases empty : n.live = []
    · have none : n.collect = [] := by
        rw [Node.collect, empty]
        rfl
      refine ⟨fun takes => ?_, fun _ => ?_⟩
      · obtain room | ⟨filled, -⟩ := takes
        · exact absurd room full
        · exact absurd empty filled
      · rw [if_pos none]
        exact ⟨_, _, rfl⟩
    have some : n.collect ≠ [] := fun none => empty (by
      rw [← nil_perm, ← none]
      exact n.collect_perm)
    rw [if_neg some]
    refine (splitLeafAndInsert_spec reached (SameTree.refl t) empty
      (fun e member => absent e (reached.mem_contents member)) holds).congr ?_ rfl
    rw [Takes, leafSeparator, most]
    simp [full, empty]

/-- A record that its leaf has taken is one that the tree gains. -/
theorem Reached.gains {n' : Node LeafEntry} {u : Tree} {result : EStateM.Result Nerr Tree Unit}
    (room : n.HasRoom neu) (run : result = .ok () u) (same : u.SameTree (t.setPage x.2 (.leaf n')))
    (live : n'.live.Perm (neu :: n.live)) (hdr : n'.hdr = n.hdr) :
    t.GainsIff neu (Takes t (up.map Prod.snd) n neu) result := by
  obtain ⟨sound, owned, contents⟩ := reached.put holds absent live hdr
  refine ⟨fun _ => ⟨u, run, sound.of_same same, owned.of_same same, ?_⟩,
    fun fails => absurd (.inl room) fails⟩
  rwa [same.contents_eq]

theorem insertAt_spec (noRight : t.hintRight = 0) (noParent : t.hintParent = 0) (checkDup : Bool) :
    t.GainsIff neu (Takes t (up.map Prod.snd) n neu) (insertAt neu.key neu.value checkDup t) := by
  have missing : ¬ (checkDup && (findLeafSlot n neu.key).isSome) = true := by
    rw [findLeafSlot_eq_none_iff.mpr fun e member => absent e (reached.mem_contents member)]
    simp
  rw [insertAt, EStateM.bind_of_ok (reading_of_ok (reached.descend holds))]
  dsimp only
  rw [EStateM.bind_of_ok (reading_of_ok reached.pinned), if_neg missing,
    EStateM.bind_of_ok (ofExcept_of_ok (encodeLeaf_of_fits neu.keyOk neu.fits))]
  by_cases room : n.HasRoom neu
  · obtain ⟨n', done, live, hdr⟩ := Node.insert_of_hasRoom room
    rw [done]
    rw [write_bind, if_pos rfl]
    obtain ⟨u, run, same, -⟩ := noteRight_run x.2 neu.key (t.setPage x.2 (.leaf n'))
    exact reached.gains holds absent room run same live hdr
  rw [Node.insert_of_full room]
  rw [write_bind, if_neg Bool.false_ne_true, asking_bind]
  have same := reached.sound.sameRecords_compact reached.pinned
  obtain ⟨n', reached', packed⟩ := reached.of_sameRecords same rfl
  have contents := same.contents_eq reached.sound
  have isCompact : n' = n.compact := by
    have read := reached'.pinned
    rw [pinLeaf_eq_ok_iff, setPage_pages_self] at read
    cases read.2
    rfl
  subst isCompact
  have notHinted : fullLeaf (t.setPage x.2 (.leaf n.compact)) x.2 n.compact neu.key =
      n.compact.maxKey.filter (· < neu.key) := by
    rw [fullLeaf, if_neg]
    rintro ⟨here, -⟩
    exact (pinLeaf_eq_ok_iff.mp reached.pinned).1 (here.symm.trans noRight)
  rw [notHinted]
  exact (split_spec reached' holds (contents.symm ▸ absent) room noParent).congr
    (reached.takes_congr same packed).symm contents

end

end

/-! ## A leaf already known -/

/-- The tree with nothing remembered. -/
def forgetful (t : Tree) : Tree := { t with hintRight := 0, hintMax := [], hintParent := 0 }

theorem insertOnLeaf_of_room (pinned : t.pinLeaf id = .ok m) (room : m.HasRoom neu) :
    ∃ m' u, insertOnLeaf id neu.key neu.value t = .ok () u ∧
      u.SameTree (t.setPage id (.leaf m')) ∧ m'.live.Perm (neu :: m.live) ∧ m'.hdr = m.hdr := by
  obtain ⟨m', done, live, hdr⟩ := Node.insert_of_hasRoom room
  obtain ⟨u, run, same, -⟩ := noteRight_run id neu.key (t.setPage id (.leaf m'))
  refine ⟨m', u, ?_, same, live, hdr⟩
  rw [insertOnLeaf, asking_bind, pin_eq_ok_iff.mpr (pinLeaf_eq_ok_iff.mp pinned)]
  dsimp only
  rw [EStateM.bind_of_ok (ofExcept_of_ok (encodeLeaf_of_fits neu.keyOk neu.fits)), done]
  rw [write_bind, if_pos rfl]
  exact run

section

variable (reached : Reached t up left x right n) (holds : Holds neu.key x right)
  (absent : ∀ e ∈ t.contents, e.key ≠ neu.key)

include reached holds absent

/-- A known leaf that is full leads to a search, wherever it is. -/
theorem insertOnLeaf_full_spec (pinned : t.pinLeaf id = .ok m) (full : ¬ m.HasRoom neu) :
    t.GainsIff neu (Takes t (up.map Prod.snd) n neu) (insertOnLeaf id neu.key neu.value t) := by
  have packedLeaf := reached.sound.sameRecords_compact pinned
  have same : (forgetful (t.setPage id (.leaf m.compact))).SameRecords t :=
    { packedLeaf with }
  obtain ⟨n', reached', packed⟩ := reached.of_sameRecords same rfl
  have contents := same.contents_eq reached.sound
  rw [insertOnLeaf, asking_bind, pin_eq_ok_iff.mpr (pinLeaf_eq_ok_iff.mp pinned)]
  dsimp only
  rw [EStateM.bind_of_ok (ofExcept_of_ok (encodeLeaf_of_fits neu.keyOk neu.fits)),
    Node.insert_of_full full]
  rw [write_bind, if_neg Bool.false_ne_true, clearHint, modify_bind]
  exact (insertAt_spec reached' holds (contents.symm ▸ absent) rfl rfl false).congr
    (reached.takes_congr same packed).symm contents

theorem insertOnLeaf_spec :
    t.GainsIff neu (Takes t (up.map Prod.snd) n neu) (insertOnLeaf x.2 neu.key neu.value t) := by
  by_cases room : n.HasRoom neu
  · obtain ⟨n', u, run, same, live, hdr⟩ := insertOnLeaf_of_room reached.pinned room
    exact reached.gains holds absent room run same live hdr
  · exact insertOnLeaf_full_spec reached holds absent reached.pinned room

end

/-! ## Insertion -/

theorem leafRaw_of_hint (hint : t.leafRawHint key = some (id, m)) :
    leafRaw key t = .ok (id, (findLeafSlot m key).map Prod.snd) t := by
  rw [leafRaw, asking_bind, hint]
  rfl

theorem search_of_reached (reached : Reached t up left x right n) (holds : Holds key x right)
    (same : s.SameTree t) : (do
      let (leafID, _) ← reading (·.descend key)
      let n ← reading (·.pinLeaf leafID)
      pure (leafID, (findLeafSlot n key).map Prod.snd) : TreeM (PageID × Option Bytes)) s =
      .ok (x.2, (findLeafSlot n key).map Prod.snd) s := by
  obtain ⟨n', reached', packed⟩ := reached.of_sameRecords same.sameRecords same.alloc
  have page : s.pinLeaf x.2 = .ok n :=
    (pinLeaf_congr (by rw [same.pages])).trans reached.pinned
  rw [EStateM.bind_of_ok (reading_of_ok (reached'.descend holds))]
  dsimp only
  rw [EStateM.bind_of_ok (reading_of_ok page)]
  rfl

theorem leafRaw_of_search (noHint : t.leafRawHint key = none)
    (reached : Reached t up left x right n) (holds : Holds key x right) :
    ∃ s, leafRaw key t = .ok (x.2, (findLeafSlot n key).map Prod.snd) s ∧ s.SameTree t := by
  rw [leafRaw, asking_bind, noHint]
  dsimp only
  rw [asking_bind]
  split
  · have same : (forgetful t).SameTree t := ⟨rfl, rfl, rfl, rfl, rfl, rfl⟩
    exact ⟨forgetful t, search_of_reached reached holds same, same⟩
  · exact ⟨t, search_of_reached reached holds (.refl t), .refl t⟩

theorem insert_of_missing {value : Bytes} (raw : leafRaw key t = .ok (id, none) s) :
    insert key value t = insertOnLeaf id key value s := by
  rw [insert, EStateM.bind_of_ok raw]

theorem pinLeaf_of_hint (hint : t.leafRawHint key = some (id, m)) : t.pinLeaf id = .ok m := by
  rw [leafRawHint] at hint
  split at hint
  · cases hint
  split at hint
  next n pinned =>
    split at hint
    · cases hint
      exact pinned
    · cases hint
  next => cases hint

end TreeM

/-! ## When an insertion goes right -/

namespace Tree

open TreeM

variable {s t : Tree} {up left right : List Place} {x : Place} {n m : Node LeafEntry}
  {neu : LeafEntry} {id : PageID}

/-- If the leaf remembered is used, it is the one a search finds, or it is full and does not
have the key. -/
def hintAgrees (t : Tree) (neu : LeafEntry) : Bool :=
  match t.leafRawHint neu.key with
  | none => true
  | some (leafID, m) =>
    decide ((t.descend neu.key).toOption.map Prod.fst = some leafID) ||
      (findLeafSlot m neu.key).isNone && decide (¬ m.HasRoom neu)

/-- The leaf that a search finds has room for the record, or it can be split for it. -/
def leafTakes (t : Tree) (neu : LeafEntry) : Bool :=
  match t.descend neu.key with
  | .error _ => false
  | .ok (leafID, up) =>
    match t.pinLeaf leafID with
    | .error _ => false
    | .ok n => decide (Takes t up n neu)

section

variable (reached : Reached t up left x right n) (holds : Holds neu.key x right)

include reached holds

theorem leafTakes_iff : t.leafTakes neu ↔ Takes t (up.map Prod.snd) n neu := by
  rw [leafTakes, reached.descend holds]
  dsimp only
  rw [reached.pinned]
  exact decide_eq_true_iff

theorem hintAgrees_iff (hint : t.leafRawHint neu.key = some (id, m)) :
    t.hintAgrees neu ↔ id = x.2 ∨ findLeafSlot m neu.key = none ∧ ¬ m.HasRoom neu := by
  rw [hintAgrees, hint, reached.descend holds]
  simp only [Bool.or_eq_true, Bool.and_eq_true, decide_eq_true_iff, Option.isNone_iff_eq_none]
  exact or_congr_left ⟨fun same => (Option.some.inj same).symm, fun same => congrArg some same.symm⟩

/-- A hint that does not lead astray makes no difference. -/
theorem insert_spec (absent : ∀ e ∈ t.contents, e.key ≠ neu.key) (agrees : t.hintAgrees neu) :
    t.GainsIff neu (Takes t (up.map Prod.snd) n neu) (TreeM.insert neu.key neu.value t) := by
  have missing : findLeafSlot n neu.key = none :=
    findLeafSlot_eq_none_iff.mpr fun e member => absent e (reached.mem_contents member)
  cases hint : t.leafRawHint neu.key with
  | none =>
    obtain ⟨s, raw, same⟩ := leafRaw_of_search hint reached holds
    rw [missing] at raw
    rw [insert_of_missing raw]
    obtain ⟨n', reached', packed⟩ := reached.of_sameRecords same.sameRecords same.alloc
    exact (insertOnLeaf_spec reached' holds (same.contents_eq.symm ▸ absent)).congr
      (reached.takes_congr same.sameRecords packed).symm same.contents_eq
  | some hinted =>
    obtain ⟨leafID, m⟩ := hinted
    have pinned := pinLeaf_of_hint hint
    have raw := leafRaw_of_hint hint
    obtain rfl | ⟨notThere, full⟩ := (hintAgrees_iff reached holds hint).mp agrees
    · rw [reached.pinned] at pinned
      cases pinned
      rw [missing] at raw
      rw [insert_of_missing raw]
      exact insertOnLeaf_spec reached holds absent
    · rw [notThere] at raw
      rw [insert_of_missing raw]
      exact insertOnLeaf_full_spec reached holds absent pinned full

/-- A record put on another leaf than the one of its key, or on a page outside the tree. -/
theorem misplaced (pinned : t.pinLeaf id = .ok m) (elsewhere : id ≠ x.2) {m' : Node LeafEntry}
    (onPage : neu ∈ m'.live) :
    ¬ ((t.setPage id (.leaf m')).Sound ∧
      (t.setPage id (.leaf m')).contents.Perm (neu :: t.contents)) := by
  rintro ⟨sound, contents⟩
  by_cases inside : id ∈ t.ids
  · obtain ⟨y, member, rfl⟩ := mem_map.mp inside
    have notInner : ∀ z ∈ t.inner, z.2 ≠ y.2 := by
      rintro z higher same
      obtain ⟨internal, pinnedZ, -⟩ := reached.sound.inner z higher
      have page := (pinLeaf_eq_ok_iff.mp pinned).2
      rw [← same, (pinInternal_eq_ok_iff.mp pinnedZ).2] at page
      cases page
    have leaf : y ∈ t.leaves :=
      (mem_append.mp member).resolve_left fun higher => notInner y higher rfl
    obtain ⟨left', right', split⟩ := append_of_mem leaf
    have leaves' : (t.setPage y.2 (.leaf m')).leaves = left' ++ y :: right' := by
      rw [← split]
      exact (setPage_layers notInner).1
    -- the bounds of that leaf in the new tree would hold the key too
    obtain ⟨n', pinned', -, -, least, greatest, -⟩ := sound.leaf leaves'
    rw [pinLeaf_eq_ok_iff, setPage_pages_self] at pinned'
    cases pinned'.2
    have holds' : Holds neu.key y right' :=
      ⟨fun l isL => least l isL neu onPage, fun h isH => greatest h isH neu onPage⟩
    have ordered := reached.sound.ordered
    rw [reached.split] at ordered
    obtain ⟨-, same, -⟩ := Holds.unique ordered (reached.split.symm.trans split) holds holds'
    exact elsewhere (congrArg Prod.snd same.symm)
  · rw [(sameRecords_outside inside).contents_eq reached.sound] at contents
    simpa using contents.length_eq

/-- A hint that leads astray makes the insertion fail or puts the record where no search
finds it. -/
theorem insert_of_disagreeing (disagrees : ¬ t.hintAgrees neu = true) :
    ¬ ∃ t', TreeM.insert neu.key neu.value t = .ok () t' ∧ t'.Sound ∧
      t'.contents.Perm (neu :: t.contents) := by
  rintro ⟨t', done, sound, contents⟩
  cases hint : t.leafRawHint neu.key with
  | none =>
    rw [hintAgrees, hint] at disagrees
    exact disagrees rfl
  | some hinted =>
    obtain ⟨leafID, m⟩ := hinted
    have pinned := pinLeaf_of_hint hint
    have raw := leafRaw_of_hint hint
    rw [hintAgrees_iff reached holds hint, not_or, not_and, not_not] at disagrees
    obtain ⟨elsewhere, room⟩ := disagrees
    cases missing : findLeafSlot m neu.key with
    | some place =>
      rw [missing] at raw
      rw [TreeM.insert, EStateM.bind_of_ok raw] at done
      cases done
    | none =>
      rw [missing] at raw
      rw [insert_of_missing raw] at done
      obtain ⟨m', u, run, same, live, -⟩ := insertOnLeaf_of_room pinned (room missing)
      rw [run] at done
      cases done
      refine misplaced reached holds pinned elsewhere (live.mem_iff.mpr mem_cons_self)
        ⟨sound.of_same same.symm, ?_⟩
      rwa [← same.contents_eq]

end

/-- A key as long as one can be. -/
def longKey (b : Byte) : Key := b :: List.replicate 2047 0

theorem length_longKey (b : Byte) : (longKey b).length = 2048 := by
  rw [longKey, length_cons, length_replicate]

theorem longKey_ok (b : Byte) : KeyOk (longKey b) := by
  rw [KeyOk, length_longKey]
  decide

def longRecord (b : Byte) : LeafEntry where
  key := longKey b
  value := []
  keyOk := longKey_ok b
  fits := by
    rw [length_longKey]
    exact of_decide_eq_true rfl

def smallRecord (b : Byte) : LeafEntry :=
  ⟨[b, 1], [], ⟨Nat.two_pos, of_decide_eq_true rfl⟩, of_decide_eq_true rfl⟩

/-- A record of half a page. -/
def halfPage (b : Byte) : LeafEntry where
  key := [b]
  value := List.replicate 8143 0
  keyOk := ⟨Nat.one_pos, of_decide_eq_true rfl⟩
  fits := by
    rw [length_replicate]
    exact Nat.le_refl 8148

def crowdedLeaf (i : Nat) : Node LeafEntry :=
  let hdr : NodeHeader := ⟨if i = 0 then 0 else i + 1, if i = 15 then 0 else i + 3, 0⟩
  let ents := if i = 0 then [halfPage 1, halfPage 2] else [smallRecord (Fin.ofNat 256 (3 + i))]
  (Node.rebuild hdr ents).getD (Node.init hdr)

def crowdedSeparator (i : Nat) : InternalEntry :=
  if i < 7 then ⟨longKey (Fin.ofNat 256 (4 + i)), i + 3, longKey_ok _, Nat.succ_ne_zero _⟩
  else ⟨[Fin.ofNat 256 (4 + i)], i + 3, ⟨Nat.one_pos, of_decide_eq_true rfl⟩, Nat.succ_ne_zero _⟩

/-- A root over sixteen leaves, with seven long separators and eight short ones. Its first
leaf is full. -/
def crowded : Tree where
  pages id :=
    if id = 1 then
      some (.internal ((Node.rebuild ⟨0, 0, 2⟩ ((List.range 15).map crowdedSeparator)).getD
        (Node.init ⟨0, 0, 2⟩)))
    else if 2 ≤ id ∧ id < 18 then some (.leaf (crowdedLeaf (id - 2)))
    else none
  alloc := ⟨[], 18, by decide, by decide, by decide⟩
  root := 1
  height := 2
  metaPage := 0
  noted := (1, 2)
  hintRight := 0
  hintMax := []
  hintParent := 0

theorem crowded_check : crowded.Check := by decide +kernel

theorem crowded_owned : crowded.Owned := by decide +kernel

/-- The value stored under a key. `Lookup` shows the version of it that its snapshot sees. -/
def lookup (t : Tree) (key : Key) : Except Nerr Bytes := do
  let _ ← checkKey key
  let (leafID, _) ← t.descend key
  let n ← t.pinLeaf leafID
  match findLeafSlot n key with
  | none => throw ⟨.notFound, "btree.Lookup", "key not found"⟩
  | some (_, raw) => pure raw

/-- A record of the tree is on the leaf that holds its key. -/
theorem mem_live_of_mem_contents {e : LeafEntry} (reached : Reached t up left x right n)
    (holds : Holds e.key x right) (member : e ∈ t.contents) : e ∈ n.live := by
  obtain ⟨y, leaf, onLeaf⟩ := mem_flatMap.mp member
  obtain ⟨left', right', split⟩ := append_of_mem leaf
  obtain ⟨m, pinned, -, -, least, greatest, -⟩ := reached.sound.leaf split
  rw [leafRecords_of_pinned pinned, Node.mem_collect] at onLeaf
  have holds' : Holds e.key y right' :=
    ⟨fun l isL => least l isL e onLeaf, fun h isH => greatest h isH e onLeaf⟩
  have ordered := reached.sound.ordered
  rw [reached.split] at ordered
  obtain ⟨-, rfl, -⟩ := Holds.unique ordered (reached.split.symm.trans split) holds holds'
  rw [reached.pinned] at pinned
  cases pinned
  exact onLeaf

theorem lookup_of_mem {e : LeafEntry} (sound : t.Sound) (owned : t.Owned)
    (member : e ∈ t.contents) : t.lookup e.key = .ok e.value := by
  obtain ⟨up, left, x, right, n, reached, holds⟩ := exists_reached sound owned e.key
  have live := mem_live_of_mem_contents reached holds member
  rw [lookup, checkKey_of_ok e.keyOk, reached.descend holds]
  dsimp only [bind, Except.bind]
  rw [reached.pinned]
  cases found : findLeafSlot n e.key with
  | none => exact absurd rfl (findLeafSlot_eq_none_iff.mp found e live)
  | some place =>
    have spec := findLeafSlot_spec n e.key
    rw [found] at spec
    obtain ⟨e', isE, same, value⟩ := spec
    have live' : e' ∈ n.live := reduceOption_mem_iff.mpr (mem_of_getElem? isE)
    cases Slots.eq_of_key_eq _ reached.strict (Node.mem_collect.mpr live')
      (Node.mem_collect.mpr live) same
    dsimp only
    rw [found]
    exact congrArg Except.ok value.symm

theorem lookup_of_absent {key : Key} (sound : t.Sound) (owned : t.Owned)
    (absent : ∀ e ∈ t.contents, e.key ≠ key) : t.lookup key =
      checkKey key >>= fun _ => throw ⟨.notFound, "btree.Lookup", "key not found"⟩ := by
  obtain ⟨up, left, x, right, n, reached, holds⟩ := exists_reached sound owned key
  have missing : findLeafSlot n key = none :=
    findLeafSlot_eq_none_iff.mpr fun e member => absent e (reached.mem_contents member)
  rw [lookup, reached.descend holds]
  congr 1
  funext keyOk
  dsimp only [bind, Except.bind]
  rw [reached.pinned]
  dsimp only
  rw [missing]

/-- **An insertion is read back, and no other lookup changes.** -/
theorem lookup_insert (neu : LeafEntry) (check : t.Check) (owned : t.Owned)
    (absent : ∀ e ∈ t.contents, e.key ≠ neu.key) (agrees : t.hintAgrees neu)
    (takes : t.leafTakes neu) :
    ∃ t', TreeM.insert neu.key neu.value t = .ok () t' ∧
      ∀ key, t'.lookup key = if key = neu.key then .ok neu.value else t.lookup key := by
  have sound := check_iff_sound.mp check
  obtain ⟨up, left, x, right, n, reached, holds⟩ := exists_reached sound owned neu.key
  obtain ⟨t', done, sound', owned', contents⟩ :=
    (insert_spec reached holds absent agrees).1 ((leafTakes_iff reached holds).mp takes)
  refine ⟨t', done, fun key => ?_⟩
  split
  next same =>
    subst same
    exact lookup_of_mem sound' owned' (contents.mem_iff.mpr mem_cons_self)
  next other =>
    by_cases stored : ∃ e ∈ t.contents, e.key = key
    · obtain ⟨e, member, rfl⟩ := stored
      rw [lookup_of_mem sound owned member]
      exact lookup_of_mem sound' owned' (contents.mem_iff.mpr (mem_cons_of_mem _ member))
    · have missing : ∀ e ∈ t.contents, e.key ≠ key := fun e member same => stored ⟨e, member, same⟩
      rw [lookup_of_absent sound owned missing]
      refine lookup_of_absent sound' owned' fun e member => ?_
      obtain rfl | old := mem_cons.mp (contents.mem_iff.mp member)
      · exact Ne.symm other
      · exact missing e old

theorem lookup_insert_crowded : ∃ t', TreeM.insert [200, 1] [] crowded = .ok () t' ∧
    ∀ key, t'.lookup key = if key = [200, 1] then .ok [] else crowded.lookup key :=
  lookup_insert (smallRecord 200) crowded_check crowded_owned (by decide +kernel)
    (by decide +kernel) (by decide +kernel)

/-! ## What a split needs -/

/-- The records are cut into two pages with a record at least each. -/
def LeafCut (ents : List LeafEntry) : Prop :=
  ∃ mid, splitLeafIndex ents = some mid ∧ 0 < mid ∧ mid < ents.length ∧ CanCut ents mid

/-- A page and one more record can be cut unless the record is the only one. -/
theorem leafCut_iff {rest : List LeafEntry} (fits : leafFits rest) {i : Nat}
    (inside : i ≤ rest.length) : LeafCut (rest.insertIdx i neu) ↔ rest ≠ [] := by
  have length := length_insertIdx_of_le_length inside neu
  constructor
  · rintro ⟨mid, -, positive, small, -⟩ rfl
    rw [length, length_nil] at small
    omega
  intro filled
  have := length_pos_iff.mpr filled
  obtain ⟨cut, positive, small, allowed⟩ :=
    exists_cut (by omega) (perm_insertIdx neu rest inside) (leafFits_iff.mp fits)
  exact splitLeafIndex_of_cut positive small allowed

/-- `splitInternalAndInsert` writes the page and a new one, within a page's size both. -/
def InternalCut (t : Tree) (leftID : PageID) (n : Node InternalEntry) (e : InternalEntry) : Prop :=
  ∃ up l r, splitInternal leftID n.hdr (n.collectWith e) t =
      .ok up ((t.allocated.setPage up.2 (.internal r)).setPage leftID (.internal l)) ∧
    pageBytes l.live ≤ logicalPageSize ∧ pageBytes r.live ≤ logicalPageSize

theorem internalCut_iff {leftID : PageID} {n : Node InternalEntry} {e : InternalEntry} :
    InternalCut t leftID n e ↔ HalvesFit (n.collectWith e) := by
  constructor
  · rintro ⟨up, l, r, done, -⟩
    by_contra large
    obtain ⟨err, t', failed⟩ := splitInternal_of_large (t := t) leftID n.hdr large
    rw [failed] at done
    cases done
  · intro halves
    obtain ⟨promote, middle⟩ := n.exists_middle e
    obtain ⟨l, r, t', done, liveL, -, liveR, -, rfl⟩ :=
      splitInternal_of_fits (t := t) leftID n.hdr middle halves
    exact ⟨_, l, r, done, liveL ▸ halves.1, liveR ▸ halves.2⟩

end Tree

end NextSQL.Btree
