import NextSQL.Btree.Tree
import NextSQL.Lib.Layers
import NextSQL.Lib.Result

/-!
# What the check establishes

The check of a tree is restated through the layers of the tree. A tree is sound
if the pages of its inner layers are internal pages with increasing
separators, the pages of the last layer are leaves, no page occurs twice, each
leaf has its keys between its own lower bound and the one of its right
neighbour, and the leaves are linked in order. `check_iff_sound` says that
these are exactly the trees that pass `checkLocked`.
-/

namespace NextSQL.Btree

open Layers

namespace Tree

variable (t : Tree)

/-- The children of a place. -/
def children (x : Place) : List Place :=
  match t.pinInternal x.2 with
  | .ok n => places x.1 n
  | .error _ => []

/-- The places of the inner pages. -/
def inner : List Place := above t.children (t.height - 1) [(none, t.root)]

/-- The places of the leaves, from left to right. -/
def leaves : List Place := layer t.children (t.height - 1) [(none, t.root)]

/-- The pages of the tree. -/
def ids : List PageID := (t.inner ++ t.leaves).map Prod.snd

/-- The records of a leaf, in key order. -/
def leafRecords (x : Place) : List LeafEntry :=
  match t.pinLeaf x.2 with
  | .ok n => n.collect
  | .error _ => []

/-- The records of the tree, leaf by leaf. -/
def contents : List LeafEntry := t.leaves.flatMap t.leafRecords

/-- An internal page as the check wants it. -/
def InnerOk (x : Place) : Prop :=
  ∃ n, t.pinInternal x.2 = .ok n ∧ n.hdr.leftmost ≠ 0 ∧ n.collect.Pairwise fun a b => a.key < b.key

/-- The keys of a leaf are increasing and between its bound and the next one. -/
def InBounds (_before : Option Place) (x : Place) (next : Option Place) : Prop :=
  ∃ n, t.pinLeaf x.2 = .ok n ∧ (x.2 ≠ t.root → n.live ≠ []) ∧
    (n.collect.Pairwise fun a b => a.key < b.key) ∧
    (∀ l ∈ x.1, ∀ e ∈ n.live, l ≤ e.key) ∧ ∀ h ∈ next.bind Prod.fst, ∀ e ∈ n.live, e.key < h

/-- The pointers of a leaf name its neighbours. -/
def Linked (before : Option Place) (x : Place) (next : Option Place) : Prop :=
  ∃ hdr, t.readHeader x.2 = .ok hdr ∧ hdr.prev = (before.map Prod.snd).getD 0 ∧
    hdr.next = (next.map Prod.snd).getD 0

/-- A tree that passes its check. -/
structure Sound : Prop where
  height_pos : 0 < t.height
  noted : t.metaPage = 0 → t.noted = (t.root, t.height)
  inner : ∀ x ∈ t.inner, t.InnerOk x
  nodup : t.ids.Nodup
  bounds : Along t.InBounds none t.leaves none
  chain : Along t.Linked none t.leaves none

variable {t}

/-! ## Bounds along a layer -/

theorem increasing_iff {ρ : Type} [Record ρ] {records : List ρ} :
    increasing records ↔ records.Pairwise fun a b => Record.key a < Record.key b := by
  induction records with
  | nil => simp [increasing]
  | cons a rest ih =>
    cases rest with
    | nil => simp [increasing]
    | cons b rest =>
      rw [increasing, Bool.and_eq_true, decide_eq_true_eq, ih, List.pairwise_cons (a := a)]
      constructor
      · rintro ⟨first, ordered⟩
        refine ⟨fun c member => ?_, ordered⟩
        obtain rfl | later := List.mem_cons.mp member
        · exact first
        · exact first.trans ((List.pairwise_cons.mp ordered).1 c later)
      · rintro ⟨all, ordered⟩
        exact ⟨all b List.mem_cons_self, ordered⟩

/-- The first child has the bound of its parent. -/
theorem InnerOk.head_children {x : Place} (ok : t.InnerOk x) :
    ∃ id rest, t.children x = (x.1, id) :: rest := by
  obtain ⟨n, pinned, -⟩ := ok
  exact ⟨n.hdr.leftmost, _, by rw [children, pinned]; rfl⟩

variable {xs : List Place}

/-- The first node of every layer has the bound of the first node over it. -/
theorem head_layer {level : Nat} (ok : ∀ x ∈ above t.children level xs, t.InnerOk x) :
    (layer t.children level xs).head?.map Prod.fst = xs.head?.map Prod.fst := by
  induction level with
  | zero => rfl
  | succ level ih =>
    rw [← ih fun x member => ok x (List.mem_append_left _ member), layer_succ]
    cases same : layer t.children level xs with
    | nil => rfl
    | cons x rest =>
      have member : x ∈ above t.children (level + 1) xs := by
        rw [above_succ, same]
        simp
      obtain ⟨id, others, split⟩ := (ok x member).head_children
      simp [split]

/-- The bounds of a list depend on what follows it only through its bound. -/
theorem along_inBounds_congr {before before' next next' : Option Place}
    (same : next.bind Prod.fst = next'.bind Prod.fst) :
    Along t.InBounds before xs next ↔ Along t.InBounds before' xs next' := by
  induction xs generalizing before before' with
  | nil => simp
  | cons x xs ih =>
    rw [along_cons, along_cons]
    refine and_congr ?_ ih
    cases xs with
    | nil =>
      rw [List.head?_nil, Option.none_or, Option.none_or, InBounds, InBounds, same]
    | cons y ys => exact Iff.rfl

/-- What the walk of a subtree checks, apart from repeated pages. -/
def SubtreeOk (t : Tree) (level : Nat) (_before : Option Place) (x : Place)
    (next : Option Place) : Prop :=
  (∀ y ∈ above t.children level [x], t.InnerOk y) ∧
    Along t.InBounds none (layer t.children level [x]) next

/-- The subtrees of a list are as the check wants them exactly when the layers under
the list are. -/
theorem along_subtreeOk_iff {level : Nat} {before next : Option Place} :
    Along (t.SubtreeOk level) before xs next ↔ (∀ y ∈ above t.children level xs, t.InnerOk y) ∧
        Along t.InBounds none (layer t.children level xs) next := by
  induction xs generalizing before with
  | nil => simp [mem_above]
  | cons x xs ih =>
    rw [along_cons, ih, SubtreeOk]
    have split : x :: xs = [x] ++ xs := rfl
    have aboves : (∀ y ∈ above t.children level (x :: xs), t.InnerOk y) ↔
        (∀ y ∈ above t.children level [x], t.InnerOk y) ∧
          ∀ y ∈ above t.children level xs, t.InnerOk y := by
      rw [split]
      simp only [mem_above, layer_append, List.mem_append, and_or_left, exists_or, or_imp, forall_and]
    have layers : Along t.InBounds none (layer t.children level (x :: xs)) next ↔
        Along t.InBounds none (layer t.children level [x])
          ((layer t.children level xs).head?.or next) ∧
        Along t.InBounds none (layer t.children level xs) next := by
      rw [split, layer_append, along_append]
      exact and_congr_right fun _ => along_inBounds_congr rfl
    rw [aboves, layers]
    have heads : (∀ y ∈ above t.children level xs, t.InnerOk y) → (xs.head?.or next).bind Prod.fst =
          ((layer t.children level xs).head?.or next).bind Prod.fst := by
      intro ok
      have same := head_layer ok
      cases xs with
      | nil => simp
      | cons y ys =>
        cases top : (layer t.children level (y :: ys)).head? with
        | none =>
          rw [top] at same
          cases same
        | some z =>
          rw [top] at same
          simpa using same.symm
    constructor
    · rintro ⟨⟨okX, boundsX⟩, okXs, boundsXs⟩
      exact ⟨⟨okX, okXs⟩, (along_inBounds_congr (heads okXs)).mp boundsX, boundsXs⟩
    · rintro ⟨⟨okX, okXs⟩, boundsX, boundsXs⟩
      exact ⟨⟨okX, (along_inBounds_congr (heads okXs)).mpr boundsX⟩, okXs, boundsXs⟩

end Tree

end NextSQL.Btree
