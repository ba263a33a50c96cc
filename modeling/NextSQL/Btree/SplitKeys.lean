import NextSQL.Btree.InsertCorrect

/-!
# Splitting a scan

A parallel scan divides the keys of a tree at some of its separators. They are
taken from the root, or from all its children if the root has too few, and
thinned out to the number asked for. Of a tree that passes its check they are
increasing, so each key lies in exactly one of the ranges between them
(`splitKeys_partition`).

The positions at which the separators are picked are computed in floating
point. Nothing depends on them: a key that is not greater than the one picked
before it is skipped. They are a parameter here.
-/

namespace NextSQL.Btree

open Layers List Except

namespace Tree

variable (t : Tree)

/-- The separators and the children of a page; a page that is not internal has none. -/
def internalKeys (id : PageID) : Except Nerr (List Key × List PageID) := do
  match ← t.pin id with
  | .internal n =>
    .ok (n.collect.map InternalEntry.key,
      (if n.hdr.leftmost ≠ 0 then [n.hdr.leftmost] else []) ++ n.collect.map InternalEntry.child)
  | _ => .ok ([], [])

def separatorKeys (id : PageID) : Except Nerr (List Key) := Prod.fst <$> t.internalKeys id

def gatherSeparators (id : PageID) (minKeys : Nat) : Except Nerr (List Key) := do
  let (keys, children) ← t.internalKeys id
  if keys = [] ∨ minKeys ≤ keys.length ∨ t.height < 3 then .ok keys
  else
    let parts ← children.mapM t.separatorKeys
    .ok (if parts.flatten ≠ [] then parts.flatten else keys)

/-- Pick some of the keys. `place want size i` is the position of the `i`-th one, before it
is moved into the list. -/
def pickEvenKeys (place : Nat → Nat → Nat → Int) (keys : List Key) (want : Nat) : List Key :=
  if want = 0 ∨ keys = [] then []
  else if keys.length ≤ want then keys
  else
    (List.range' 1 want).foldl (fun out i =>
      let idx := min (place want keys.length i).toNat (keys.length - 1)
      match keys[idx]? with
      | some key => if out.getLast?.any (key ≤ ·) then out else out ++ [key]
      | none => out) []

def splitKeys (place : Nat → Nat → Nat → Int) (n : Int) : Except Nerr (List Key) :=
  if n ≤ 1 ∨ t.height < 2 then .ok []
  else do
    let keys ← t.gatherSeparators t.root (n - 1).toNat
    if keys = [] then .ok [] else .ok (pickEvenKeys place keys (n - 1).toNat)

/-- The ranges between the keys, from `start` on. Either end may be missing. -/
def splitRanges : Option Key → List Key → List (Option Key × Option Key)
  | start, [] => [(start, none)]
  | start, key :: keys => (start, some key) :: splitRanges (some key) keys

/-- The keys a scan of the range visits. -/
def InRange (key : Key) (range : Option Key × Option Key) : Prop :=
  (∀ start ∈ range.1, start ≤ key) ∧ ∀ stop ∈ range.2, key < stop

variable {t}

/-! ## The keys are increasing -/

variable {keys : List Key}

theorem pickEvenKeys_pairwise (place : Nat → Nat → Nat → Int) (strict : keys.Pairwise (· < ·))
    (want : Nat) : (pickEvenKeys place keys want).Pairwise (· < ·) := by
  rw [pickEvenKeys]
  split
  · exact .nil
  split
  · exact strict
  refine foldlRecOn (range' 1 want) _ List.Pairwise.nil fun out increasing i _ => ?_
  dsimp only
  split
  next key _ =>
    split
    next => exact increasing
    next greater =>
    obtain rfl | ⟨earlier, last, rfl⟩ := eq_nil_or_concat out
    · exact pairwise_singleton _ _
    -- the last key picked is the greatest so far
    rw [concat_eq_append] at increasing greater ⊢
    have above : last < key := by simpa using greater
    refine pairwise_append.mpr ⟨increasing, pairwise_singleton _ _, ?_⟩
    intro a member b isKey
    rw [mem_singleton.mp isKey]
    obtain before | isLast := mem_append.mp member
    · exact ((pairwise_append.mp increasing).2.2 a before last (by simp)).trans above
    · rwa [mem_singleton.mp isLast]
  next => exact increasing

/-- The bounds of a layer increase, down to the leaves. -/
theorem Sound.ordered_layer (sound : t.Sound) (depth : Nat) (inside : depth < t.height) :
    Ordered (layer t.children depth [(none, t.root)]) := by
  have below : ∀ more depth, depth + more = t.height - 1 →
      ((layer t.children depth [(none, t.root)]).map Prod.fst).Sublist (t.leaves.map Prod.fst) := by
    intro more
    induction more with
    | zero =>
      intro depth same
      rw [Tree.leaves, ← same, Nat.add_zero]
    | succ more ih =>
      intro depth same
      have inner : ∀ x ∈ layer t.children depth [(none, t.root)], t.InnerOk x := fun x member =>
        sound.inner x (mem_above.mpr ⟨depth, by omega, member⟩)
      exact (bounds_sublist_expand inner).trans (ih (depth + 1) (by omega))
  exact sound.ordered.sublist (below (t.height - 1 - depth) depth (by omega))

theorem InnerOk.internalKeys {x : Place} (ok : t.InnerOk x) :
    ∃ keys, t.internalKeys x.2 = .ok (keys, (t.children x).map Prod.snd) ∧
      (keys.map some).Sublist ((t.children x).map Prod.fst) := by
  obtain ⟨n, pinned, leftmost, -⟩ := ok
  obtain ⟨userData, page⟩ := pinInternal_eq_ok_iff.mp pinned
  refine ⟨n.collect.map InternalEntry.key, ?_, ?_⟩
  · refine bind_eq_ok_iff.mpr ⟨_, pin_eq_ok_iff.mpr ⟨userData, page⟩, ?_⟩
    rw [children, pinned]
    simp [leftmost, places]
  · rw [children, pinned]
    simp only [places, map_cons, map_map]
    exact (Sublist.refl _).cons _

theorem pairwise_of_boundLt {bounds : List (Option Key)} (sub : (keys.map some).Sublist bounds)
    (increasing : bounds.Pairwise BoundLt) : keys.Pairwise (· < ·) := by
  have pairs := increasing.sublist sub
  rw [pairwise_map] at pairs
  exact pairs.imp fun less => by simpa using less

theorem separatorKeys_mapM {xs : List Place} (ok : ∀ x ∈ xs, t.InnerOk x) :
    ∃ parts, (xs.map Prod.snd).mapM t.separatorKeys = .ok parts ∧
      (parts.flatten.map some).Sublist ((expand t.children xs).map Prod.fst) := by
  induction xs with
  | nil => exact ⟨[], rfl, .slnil⟩
  | cons x xs ih =>
    obtain ⟨keys, read, sub⟩ := (ok x mem_cons_self).internalKeys
    obtain ⟨parts, rest, subs⟩ := ih fun y member => ok y (mem_cons_of_mem x member)
    refine ⟨keys :: parts, ?_, ?_⟩
    · rw [map_cons, mapM_cons, rest, separatorKeys, read]
      rfl
    · rw [expand_cons, map_append, flatten_cons, map_append]
      exact sub.append subs

theorem Sound.gatherSeparators (sound : t.Sound) (tall : 1 < t.height) (minKeys : Nat) :
    ∃ keys, t.gatherSeparators t.root minKeys = .ok keys ∧ keys.Pairwise (· < ·) := by
  have layerOk : ∀ depth, depth + 1 < t.height →
      ∀ x ∈ layer t.children depth [(none, t.root)], t.InnerOk x := fun depth inside x member =>
    sound.inner x (mem_above.mpr ⟨depth, by omega, member⟩)
  obtain ⟨keys, read, sub⟩ := (layerOk 0 tall (none, t.root) (by simp)).internalKeys
  have first := sound.ordered_layer 1 tall
  have ofRoot : layer t.children 1 [(none, t.root)] = t.children (none, t.root) := by
    simp [layer_succ]
  rw [ofRoot] at first
  have strict : keys.Pairwise (· < ·) := pairwise_of_boundLt sub first
  by_cases enough : keys = [] ∨ minKeys ≤ keys.length ∨ t.height < 3
  · exact ⟨keys, bind_eq_ok_iff.mpr ⟨_, read, if_pos enough⟩, strict⟩
  have deep : 2 < t.height := by
    by_contra flat
    exact enough (.inr (.inr (by omega)))
  have inner := layerOk 1 deep
  rw [ofRoot] at inner
  obtain ⟨parts, gathered, subs⟩ := separatorKeys_mapM inner
  have second := sound.ordered_layer 2 deep
  rw [layer_succ, ofRoot] at second
  refine ⟨if parts.flatten ≠ [] then parts.flatten else keys, ?_, ?_⟩
  · refine bind_eq_ok_iff.mpr ⟨_, read, (if_neg enough).trans ?_⟩
    exact bind_eq_ok_iff.mpr ⟨_, gathered, rfl⟩
  · split
    · exact pairwise_of_boundLt subs second
    · exact strict

theorem Sound.splitKeys (sound : t.Sound) (place : Nat → Nat → Nat → Int) (n : Int) :
    ∃ keys, t.splitKeys place n = .ok keys ∧ keys.Pairwise (· < ·) := by
  rw [Tree.splitKeys]
  split
  · exact ⟨[], rfl, .nil⟩
  next several =>
  obtain ⟨keys, gathered, strict⟩ := sound.gatherSeparators (by omega) (n - 1).toNat
  by_cases none : keys = []
  · exact ⟨[], bind_eq_ok_iff.mpr ⟨keys, gathered, if_pos none⟩, .nil⟩
  · exact ⟨_, bind_eq_ok_iff.mpr ⟨keys, gathered, if_neg none⟩,
      pickEvenKeys_pairwise place strict _⟩

/-! ## The ranges -/

/-- The keys of the first range come before those of the second. -/
def RangeBefore (first second : Option Key × Option Key) : Prop :=
  ∀ a b, InRange a first → InRange b second → a < b

variable {key : Key}

theorem start_of_mem_splitRanges {start : Key} {range : Option Key × Option Key}
    (strict : (start :: keys).Pairwise (· < ·)) (member : range ∈ splitRanges (some start) keys)
    (inside : InRange key range) : start ≤ key := by
  induction keys generalizing start with
  | nil =>
    rw [splitRanges, mem_singleton] at member
    exact inside.1 start (by simp [member])
  | cons next keys ih =>
    rw [splitRanges, mem_cons] at member
    obtain ⟨first, rest⟩ := pairwise_cons.mp strict
    obtain rfl | later := member
    · exact inside.1 start rfl
    · exact (first next mem_cons_self).le.trans (ih rest later)

theorem splitRanges_pairwise (strict : keys.Pairwise (· < ·)) (start : Option Key) :
    (splitRanges start keys).Pairwise RangeBefore := by
  induction keys generalizing start with
  | nil => exact pairwise_singleton _ _
  | cons key keys ih =>
    refine pairwise_cons.mpr ⟨fun range member a b inFirst inLater => ?_,
      ih (pairwise_cons.mp strict).2 (some key)⟩
    exact (inFirst.2 key rfl).trans_le (start_of_mem_splitRanges strict member inLater)

theorem exists_mem_splitRanges (keys : List Key) (start : Option Key) (above : ∀ s ∈ start, s ≤ key) :
    ∃ range ∈ splitRanges start keys, InRange key range := by
  induction keys generalizing start with
  | nil => exact ⟨(start, none), by simp [splitRanges], above, nofun⟩
  | cons next keys ih =>
    by_cases reached : next ≤ key
    · obtain ⟨range, member, inside⟩ := ih (some next) (by simpa using reached)
      exact ⟨range, mem_cons_of_mem _ member, inside⟩
    · exact ⟨(start, some next), mem_cons_self, above, by simpa using reached⟩

/-- **A scan is divided without gap or overlap.** Whatever number of parts is asked for, the
ranges of a tree that passes its check follow one another, and each key is in exactly one of
them. -/
theorem splitKeys_partition (place : Nat → Nat → Nat → Int) {t : Tree} (check : t.Check) (n : Int) :
    ∃ keys, t.splitKeys place n = .ok keys ∧ (splitRanges none keys).Pairwise RangeBefore ∧
      ∀ key, ∃! i : Fin (splitRanges none keys).length,
        InRange key ((splitRanges none keys).get i) := by
  obtain ⟨keys, split, strict⟩ := (check_iff_sound.mp check).splitKeys place n
  have apart := splitRanges_pairwise strict none
  refine ⟨keys, split, apart, fun key => ?_⟩
  obtain ⟨range, member, inside⟩ := exists_mem_splitRanges keys none (by simp)
  obtain ⟨i, rfl⟩ := mem_iff_get.mp member
  refine ⟨i, inside, fun j other => ?_⟩
  have once : ∀ {a b : Fin (splitRanges none keys).length}, a < b →
      InRange key ((splitRanges none keys).get a) →
      ¬ InRange key ((splitRanges none keys).get b) := fun less first second =>
    absurd (pairwise_iff_get.mp apart _ _ less key key first second) (lt_irrefl key)
  obtain less | same | greater := lt_trichotomy j i
  · exact absurd inside (once less other)
  · exact same
  · exact absurd other (once greater inside)

/-- The positions in exact arithmetic. -/
def evenPlace (want size i : Nat) : Int := (2 * i * (size + 1) + (want + 1)) / (2 * (want + 1)) - 1

theorem splitKeys_partition_crowded : ∃ keys, crowded.splitKeys evenPlace 4 = .ok keys ∧
    (splitRanges none keys).Pairwise RangeBefore ∧
    ∀ key, ∃! i : Fin (splitRanges none keys).length, InRange key ((splitRanges none keys).get i) :=
  splitKeys_partition evenPlace crowded_check 4

end Tree

end NextSQL.Btree
