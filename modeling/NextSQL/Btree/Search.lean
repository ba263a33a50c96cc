import NextSQL.Btree.Check

/-!
# Searching a sound tree

The bounds of every layer are increasing, because each leaf but an only one has
a key between its bound and the next. A search goes to the one place of each
layer whose bounds hold the key (`descend_spec`), so a key that is on some leaf
is on the leaf the search ends at.
-/

namespace NextSQL.Btree

open Layers List

namespace Tree

variable {t : Tree}

/-- The second bound is a key greater than the first. -/
def BoundLt (x y : Option Key) : Prop := ∃ k ∈ y, ∀ l ∈ x, l < k

theorem BoundLt.trans {x y z : Option Key} (xy : BoundLt x y) (yz : BoundLt y z) : BoundLt x z := by
  obtain ⟨k, isY, below⟩ := xy
  obtain ⟨k', isZ, below'⟩ := yz
  exact ⟨k', isZ, fun l isX => (below l isX).trans (below' k isY)⟩

@[simp] theorem boundLt_some {x : Option Key} {k : Key} : BoundLt x (some k) ↔ ∀ l ∈ x, l < k := by
  simp [BoundLt]

/-- The bounds of the places increase. -/
def Ordered (xs : List Place) : Prop := (xs.map Prod.fst).Pairwise BoundLt

/-- The place holds the key: it is not below its bound, and below the next one. -/
def Holds (key : Key) (x : Place) (right : List Place) : Prop :=
  (∀ l ∈ x.1, l ≤ key) ∧ ∀ h ∈ right.head?.bind Prod.fst, key < h

/-! ## Reading pages -/

variable {t' : Tree} {id : PageID}

theorem pinLeaf_congr (same : t'.pages id = t.pages id) : t'.pinLeaf id = t.pinLeaf id := by
  rw [pinLeaf, pinLeaf, pin, pin, same]

theorem pinInternal_congr (same : t'.pages id = t.pages id) :
    t'.pinInternal id = t.pinInternal id := by
  rw [pinInternal, pinInternal, pin, pin, same]

variable {x : Place}

theorem children_congr (same : t'.pages x.2 = t.pages x.2) : t'.children x = t.children x := by
  rw [children, children, pinInternal_congr same]

theorem InnerOk.congr (ok : t.InnerOk x) (same : t'.pages x.2 = t.pages x.2) : t'.InnerOk x := by
  obtain ⟨n, pinned, rest⟩ := ok
  exact ⟨n, (pinInternal_congr same).trans pinned, rest⟩

theorem pin_eq_ok_iff {p : Page} : t.pin id = .ok p ↔ id ≠ 0 ∧ t.pages id = some p := by
  rw [pin]
  by_cases zero : id = 0
  · simp [zero]
  · rw [if_neg zero]
    cases t.pages id <;> simp [zero]

theorem pinInternal_eq_ok_iff {n : Node InternalEntry} :
    t.pinInternal id = .ok n ↔ id ≠ 0 ∧ t.pages id = some (.internal n) := by
  rw [pinInternal, Except.bind_eq_ok_iff]
  constructor
  · rintro ⟨p, pinned, typed⟩
    cases p with
    | internal n' =>
      cases typed
      exact pin_eq_ok_iff.mp pinned
    | leaf n' | other => cases typed
  · exact fun found => ⟨_, pin_eq_ok_iff.mpr found, rfl⟩

theorem pinLeaf_eq_ok_iff {n : Node LeafEntry} :
    t.pinLeaf id = .ok n ↔ id ≠ 0 ∧ t.pages id = some (.leaf n) := by
  rw [pinLeaf, Except.bind_eq_ok_iff]
  constructor
  · rintro ⟨p, pinned, typed⟩
    cases p with
    | leaf n' =>
      cases typed
      exact pin_eq_ok_iff.mp pinned
    | internal n' | other => cases typed
  · exact fun found => ⟨_, pin_eq_ok_iff.mpr found, rfl⟩

/-! ## The order of the bounds -/

/-- Every place but the first of a layer has a bound. -/
theorem tail_isSome_layer (depth : Nat) (root : PageID) :
    ∀ x ∈ (layer t.children depth [(none, root)]).tail, x.1.isSome := by
  have inner : ∀ (x : Place), ∀ y ∈ (t.children x).tail, y.1.isSome := by
    intro x y member
    rw [children] at member
    split at member
    · simp only [places, tail_cons, mem_map] at member
      obtain ⟨e, -, rfl⟩ := member
      rfl
    · cases member
  have bounded : ∀ (x : Place), x.1.isSome → ∀ y ∈ t.children x, y.1.isSome := by
    intro x isSome y member
    rw [children] at member
    split at member
    · simp only [places, mem_cons, mem_map] at member
      obtain rfl | ⟨e, -, rfl⟩ := member
      · exact isSome
      · rfl
    · cases member
  induction depth with
  | zero => simp
  | succ depth ih =>
    rw [layer_succ]
    cases same : layer t.children depth [(none, root)] with
    | nil => simp
    | cons x rest =>
      rw [same, tail_cons] at ih
      intro y member
      have later : y ∈ (t.children x).tail ∨ y ∈ expand t.children rest := by
        rw [expand_cons] at member
        cases first : t.children x with
        | nil =>
          rw [first, nil_append] at member
          exact .inr (mem_of_mem_tail member)
        | cons z zs =>
          rw [first, cons_append, tail_cons, mem_append] at member
          exact member
      obtain later | later := later
      · exact inner x y later
      · obtain ⟨z, memberZ, memberY⟩ := mem_flatMap.mp later
        exact bounded z (ih z memberZ) y memberY

theorem Sound.leaf_ne_root (sound : t.Sound) (tall : 1 < t.height) (member : x ∈ t.leaves) :
    x.2 ≠ t.root := by
  intro same
  have top : (none, t.root) ∈ t.inner := by
    rw [Tree.inner, mem_above]
    exact ⟨0, by omega, by simp⟩
  have nodup := sound.nodup
  rw [ids, map_append, nodup_append] at nodup
  exact nodup.2.2 t.root (mem_map_of_mem top) x.2 (mem_map_of_mem member) same.symm

theorem Sound.leaf_ne_root_of_several (sound : t.Sound) (several : 1 < t.leaves.length)
    (member : x ∈ t.leaves) : x.2 ≠ t.root := by
  refine sound.leaf_ne_root ?_ member
  by_contra flat
  rw [Tree.leaves, show t.height - 1 = 0 by omega] at several
  simp at several

variable {xs : List Place}

theorem pairwise_of_along {P : Option Place → Place → Option Place → Prop}
    (follows : ∀ p x y, P p x (some y) → y.1.isSome → BoundLt x.1 y.1) {before next : Option Place}
    (holds : Along P before xs next) (bounded : ∀ y ∈ xs.tail, y.1.isSome) : Ordered xs := by
  induction xs generalizing before with
  | nil => exact List.Pairwise.nil
  | cons x xs ih =>
    cases xs with
    | nil => exact pairwise_singleton _ _
    | cons y ys =>
      rw [tail_cons] at bounded
      have rest : Ordered (y :: ys) :=
        ih holds.2 fun z member => bounded z (mem_cons_of_mem y member)
      have first : BoundLt x.1 y.1 := follows _ _ _ holds.1 (bounded y mem_cons_self)
      refine pairwise_cons.mpr ⟨?_, rest⟩
      refine forall_mem_cons.mpr ⟨first, ?_⟩
      exact fun z later => first.trans ((pairwise_cons.mp rest).1 z later)

theorem Sound.ordered (sound : t.Sound) : Ordered t.leaves := by
  by_cases several : 1 < t.leaves.length
  · have filled : Along (fun p x n => x.2 ≠ t.root ∧ t.InBounds p x n) none t.leaves none := by
      exact sound.bounds.imp_of_mem fun x member p n inBounds =>
        ⟨sound.leaf_ne_root_of_several several member, inBounds⟩
    refine pairwise_of_along ?_ filled (tail_isSome_layer _ _)
    rintro p x ⟨bound, id⟩ ⟨notRoot, n, -, live, -, least, greatest⟩ isSome
    obtain ⟨h, rfl⟩ := Option.isSome_iff_exists.mp isSome
    obtain ⟨e, member⟩ := exists_mem_of_ne_nil _ (live notRoot)
    exact ⟨h, rfl, fun l isL => (least l isL e member).trans_lt (greatest h rfl e member)⟩
  match same : t.leaves with
  | [] => exact List.Pairwise.nil
  | [x] => exact pairwise_singleton _ _
  | x :: y :: rest =>
    rw [same] at several
    simp at several

/-- The bounds of a layer are among the bounds of the layer under it. -/
theorem bounds_sublist_expand (ok : ∀ x ∈ xs, t.InnerOk x) :
    (xs.map Prod.fst).Sublist ((expand t.children xs).map Prod.fst) := by
  induction xs with
  | nil => exact .slnil
  | cons x xs ih =>
    obtain ⟨id, rest, same⟩ := (ok x mem_cons_self).head_children
    rw [expand_cons, same, map_cons, map_append, map_cons, cons_append]
    refine Sublist.cons_cons _ ?_
    exact (ih fun y member => ok y (mem_cons_of_mem x member)).trans (sublist_append_right _ _)

/-! ## The search -/

/-- The child a search takes is the one among the children that holds the key. -/
theorem childForKey_spec (key : Key) (ents : List InternalEntry) :
    ∀ (lo : Option Key) (child : PageID), (∀ l ∈ lo, l ≤ key) → ∃ left y right,
        (lo, child) :: ents.map (fun e => (some e.key, e.child)) = left ++ y :: right ∧
          y.2 = childForKey child ents key ∧ (∀ l ∈ y.1, l ≤ key) ∧
            ∀ h ∈ right.head?.bind Prod.fst, key < h := by
  induction ents with
  | nil =>
    intro lo child above
    exact ⟨[], (lo, child), [], rfl, rfl, above, by simp⟩
  | cons e ents ih =>
    intro lo child above
    rw [childForKey]
    by_cases reached : e.key ≤ key
    · obtain ⟨left, y, right, split, same, holds⟩ := ih (some e.key) e.child (by simpa using reached)
      rw [if_pos reached]
      refine ⟨(lo, child) :: left, y, right, ?_, same, holds⟩
      rw [map_cons, split, cons_append]
    · rw [if_neg reached]
      refine ⟨[], (lo, child), _, rfl, rfl, above, ?_⟩
      simpa using reached

theorem InnerOk.head_expand (ok : ∀ x ∈ xs, t.InnerOk x) :
    (expand t.children xs).head?.bind Prod.fst = xs.head?.bind Prod.fst := by
  cases xs with
  | nil => rfl
  | cons x xs =>
    obtain ⟨id, rest, same⟩ := (ok x mem_cons_self).head_children
    simp [same]

theorem descendFrom_spec {root : Place} {key : Key} (level : Nat) :
    ∀ {up left right : List Place} {x : Place},
      Descent t.children root up left x right → Holds key x right →
      (∀ y ∈ above t.children (up.length + level) [root], t.InnerOk y) →
      ∃ up' left' y right', t.descendFrom key level x.2 (up.map Prod.snd) =
          .ok (y.2, up'.map Prod.snd) ∧
        Descent t.children root up' left' y right' ∧ up'.length = up.length + level ∧
          Holds key y right' := by
  induction level with
  | zero =>
    intro up left right x reached holds _
    exact ⟨up, left, x, right, rfl, reached, rfl, holds⟩
  | succ level ih =>
    intro up left right x reached holds ok
    have layerOk : ∀ y ∈ left ++ x :: right, t.InnerOk y := by
      rw [← reached.layer_eq]
      exact fun y member => ok y (mem_above.mpr ⟨up.length, by omega, member⟩)
    obtain ⟨n, pinned, leftmost, ordered⟩ := layerOk x (by simp)
    have same : t.children x = places x.1 n := by rw [children, pinned]
    obtain ⟨left', y, right', split, child, atLeast, below⟩ :=
      childForKey_spec key n.collect x.1 n.hdr.leftmost holds.1
    have among : t.children x = left' ++ y :: right' := same.trans split
    have userData : y.2 ≠ 0 := by
      have member : y ∈ places x.1 n := by
        rw [← same, among]
        simp
      rw [places, mem_cons, mem_map] at member
      obtain rfl | ⟨e, -, rfl⟩ := member
      · exact leftmost
      · exact e.userData
    have holdsY : Holds key y (right' ++ expand t.children right) := by
      refine ⟨atLeast, ?_⟩
      cases right' with
      | cons z zs => exact below
      | nil =>
        rw [nil_append, InnerOk.head_expand fun z member => layerOk z (by simp [member])]
        exact holds.2
    have next := reached.child among
    rw [show up.length + (level + 1) = (x :: up).length + level by simp; omega] at ok ⊢
    obtain ⟨up', left'', z, right'', done, reached', length, holdsZ⟩ := ih next holdsY ok
    refine ⟨up', left'', z, right'', ?_, reached', length, holdsZ⟩
    rw [descendFrom, Except.bind_eq_ok_iff]
    refine ⟨n, pinned, ?_⟩
    rw [← child, if_neg userData]
    exact done

/-- **The search.** It ends at a leaf whose bounds hold the key. -/
theorem Sound.descend_spec (sound : t.Sound) (key : Key) :
    ∃ up left x right, t.descend key = .ok (x.2, up.map Prod.snd) ∧
      Descent t.children (none, t.root) up left x right ∧ up.length = t.height - 1 ∧
        t.leaves = left ++ x :: right ∧ Holds key x right := by
  have start : Holds key (none, t.root) [] := by simp [Holds]
  have inner : ∀ y ∈ above t.children (([] : List Place).length + (t.height - 1))
      [(none, t.root)], t.InnerOk y := by
    rw [length_nil, Nat.zero_add]
    exact sound.inner
  obtain ⟨up, left, x, right, done, reached, length, holds⟩ :=
    descendFrom_spec (t.height - 1) .root start inner
  have length' : up.length = t.height - 1 := by simpa using length
  refine ⟨up, left, x, right, done, reached, length', ?_, holds⟩
  rw [Tree.leaves, ← length', reached.layer_eq]

theorem Holds.unique {key : Key} {left left' right right' : List Place} {x' : Place}
    (ordered : Ordered (left ++ x :: right)) (same : left ++ x :: right = left' ++ x' :: right')
    (holds : Holds key x right) (holds' : Holds key x' right') :
    left = left' ∧ x = x' ∧ right = right' := by
  -- a place left of another has its next bound at or before the other's, so cannot hold the key
  have apart : ∀ {l r r' : List Place} {y y' : Place} {middle : List Place},
      Ordered (l ++ y :: r) → r = middle ++ y' :: r' → Holds key y r → Holds key y' r' → False := by
    intro l r r' y y' middle ordered split holdsY holdsY'
    subst split
    rw [Ordered, map_append, pairwise_append] at ordered
    have rest := ordered.2.1
    cases middle with
    | nil =>
      rw [nil_append, map_cons, map_cons, pairwise_cons] at rest
      obtain ⟨k, isK, -⟩ := rest.1 y'.1 mem_cons_self
      have below : key < k := holdsY.2 k (by simpa using isK)
      exact absurd (holdsY'.1 k isK) (not_le.mpr below)
    | cons z zs =>
      rw [map_cons, cons_append, map_cons, pairwise_cons, pairwise_cons] at rest
      obtain ⟨k, isK, -⟩ := rest.1 z.1 mem_cons_self
      obtain ⟨k', isK', less⟩ := rest.2.1 y'.1 (by simp)
      have below : key < k := holdsY.2 k (by simpa using isK)
      exact absurd (holdsY'.1 k' isK') (not_le.mpr (below.trans (less k isK)))
  obtain ⟨middle, rfl, split⟩ | ⟨middle, rfl, split⟩ := append_eq_append_iff.mp same
  · cases middle with
    | nil =>
      cases split
      simp
    | cons z middle =>
      rw [cons_append] at split
      cases split
      exact (apart (l := left) ordered rfl holds holds').elim
  cases middle with
  | nil =>
    cases split
    simp
  | cons z middle =>
    rw [cons_append] at split
    cases split
    rw [same] at ordered
    exact (apart (l := left') ordered rfl holds' holds).elim

end Tree

end NextSQL.Btree
