import NextSQL.Btree.Separators

/-!
# One leaf changes

A sound tree stays sound when one of its leaves gets other records within its
bounds (`Sound.setLeaf`), and when a leaf is divided and the new page has
arrived in the layer of the leaves (`LeafSplit.sound`). In both cases the
contents change by the records of that leaf only.
-/

namespace NextSQL.Btree

open Layers List

namespace Tree

variable {t t' : Tree} {left right : List Place} {x : Place}

/-- No page of the tree can be handed out. -/
def Owned (t : Tree) : Prop := ∀ id ∈ t.ids, ¬ t.alloc.Available id

instance (t : Tree) : Decidable t.Owned := inferInstanceAs (Decidable (∀ id ∈ t.ids, _))

/-! ## The pages of a sound tree -/

section

variable (sound : t.Sound)

include sound

theorem Sound.upper (owned : t.Owned) : t.Upper (t.height - 1) where
  inner := sound.inner
  nodup := by
    have nodup := sound.nodup
    rw [ids, map_append, nodup_append] at nodup
    exact nodup.1
  owned y member := owned y.2 (mem_map_of_mem (mem_append_left _ member))

theorem Sound.pinned (member : x ∈ t.leaves) : ∃ n, t.pinLeaf x.2 = .ok n := by
  refine sound.bounds.forall_mem (R := fun x => ∃ n, t.pinLeaf x.2 = .ok n) ?_ x member
  rintro _ _ _ ⟨n, pinned, -⟩
  exact ⟨n, pinned⟩

theorem Sound.inner_ne_leaf {y : Place} (leaf : x ∈ t.leaves) (higher : y ∈ t.inner) :
    y.2 ≠ x.2 := by
  have nodup := sound.nodup
  rw [ids, map_append, nodup_append] at nodup
  exact nodup.2.2 y.2 (mem_map_of_mem higher) x.2 (mem_map_of_mem leaf)

theorem Sound.leaves_nodup : (t.leaves.map Prod.snd).Nodup := by
  have nodup := sound.nodup
  rw [ids, map_append, nodup_append] at nodup
  exact nodup.2.1

theorem Sound.leaves_apart (split : t.leaves = left ++ x :: right) :
    ∀ y ∈ left ++ right, y.2 ≠ x.2 := by
  have nodup := sound.leaves_nodup
  rw [split, map_append, map_cons, nodup_middle, nodup_cons, ← map_append] at nodup
  exact fun y member same => nodup.1 (same ▸ mem_map_of_mem member)

/-- The leaf of a place, with its bounds and its pointers. -/
theorem Sound.leaf (split : t.leaves = left ++ x :: right) :
    ∃ n, t.pinLeaf x.2 = .ok n ∧ (x.2 ≠ t.root → n.live ≠ []) ∧
      (n.collect.Pairwise fun a b => a.key < b.key) ∧ (∀ l ∈ x.1, ∀ e ∈ n.live, l ≤ e.key) ∧
      (∀ h ∈ right.head?.bind Prod.fst, ∀ e ∈ n.live, e.key < h) ∧
      n.hdr.prev = (left.getLast?.map Prod.snd).getD 0 ∧
      n.hdr.next = (right.head?.map Prod.snd).getD 0 := by
  have bounds := sound.bounds
  have chain := sound.chain
  rw [split, along_append, along_cons] at bounds chain
  obtain ⟨-, ⟨n, pinned, filled, strict, least, greatest⟩, -⟩ := bounds
  obtain ⟨-, ⟨hdr, read, prev, next⟩, -⟩ := chain
  have same : hdr = n.hdr := by
    have page := (pinLeaf_eq_ok_iff.mp pinned)
    rw [readHeader, pin_eq_ok_iff.mpr page] at read
    exact (Except.ok.inj read).symm
  subst same
  exact ⟨n, pinned, filled, strict, least, by simpa using greatest, by simpa using prev,
    by simpa using next⟩

theorem Sound.root_ne_zero : t.root ≠ 0 := by
  by_cases tall : 1 < t.height
  · have top : (none, t.root) ∈ t.inner := by
      rw [Tree.inner, mem_above]
      exact ⟨0, by omega, by simp⟩
    obtain ⟨n, pinned, -⟩ := sound.inner _ top
    exact (pinInternal_eq_ok_iff.mp pinned).1
  · have only : (none, t.root) ∈ t.leaves := by
      rw [Tree.leaves, show t.height - 1 = 0 by omega]
      simp
    obtain ⟨n, pinned⟩ := sound.pinned only
    exact (pinLeaf_eq_ok_iff.mp pinned).1

end

/-! ## What depends on a page -/

theorem leafRecords_congr (same : t'.pages x.2 = t.pages x.2) :
    t'.leafRecords x = t.leafRecords x := by
  rw [leafRecords, leafRecords, pinLeaf_congr same]

variable {n : Node LeafEntry}

theorem leafRecords_of_pinned (pinned : t.pinLeaf x.2 = .ok n) : t.leafRecords x = n.collect := by
  rw [leafRecords, pinned]

variable {id : PageID}

theorem readHeader_of_leaf (pinned : t.pinLeaf id = .ok n) : t.readHeader id = .ok n.hdr := by
  rw [readHeader, pin_eq_ok_iff.mpr (pinLeaf_eq_ok_iff.mp pinned)]
  rfl

variable {before next : Option Place}

theorem InBounds.congr (root : t'.root = t.root) (same : t'.pages x.2 = t.pages x.2)
    (inBounds : t.InBounds before x next) : t'.InBounds before x next := by
  obtain ⟨n, pinned, rest⟩ := inBounds
  exact ⟨n, (pinLeaf_congr same).trans pinned, by rwa [root]⟩

theorem Linked.congr (same : t'.pages x.2 = t.pages x.2) (linked : t.Linked before x next) :
    t'.Linked before x next := by
  obtain ⟨hdr, read, rest⟩ := linked
  exact ⟨hdr, by rw [readHeader, pin, same]; exact read, rest⟩

theorem layers_congr (root : t'.root = t.root) (height : t'.height = t.height)
    (same : ∀ y ∈ t.inner, t'.pages y.2 = t.pages y.2) :
    t'.leaves = t.leaves ∧ t'.inner = t.inner := by
  have children : ∀ y ∈ above t.children (t.height - 1) [(none, t.root)],
      t'.children y = t.children y := fun y member => children_congr (same y member)
  rw [leaves, leaves, inner, inner, root, height]
  exact layer_congr children

variable {p : Page}

/-- The layers do not depend on a page that is not an inner one. -/
theorem setPage_layers (apart : ∀ y ∈ t.inner, y.2 ≠ id) :
    (t.setPage id p).leaves = t.leaves ∧ (t.setPage id p).inner = t.inner :=
  layers_congr rfl rfl fun y higher => setPage_pages_ne (apart y higher)

/-! ## Other records on a leaf -/

theorem Sound.setLeaf {n' : Node LeafEntry} (sound : t.Sound)
    (split : t.leaves = left ++ x :: right) (pinned : t.pinLeaf x.2 = .ok n) (hdr : n'.hdr = n.hdr)
    (filled : x.2 ≠ t.root → n'.live ≠ []) (strict : n'.collect.Pairwise fun a b => a.key < b.key)
    (least : ∀ l ∈ x.1, ∀ e ∈ n'.live, l ≤ e.key)
    (greatest : ∀ h ∈ right.head?.bind Prod.fst, ∀ e ∈ n'.live, e.key < h) :
    (t.setPage x.2 (.leaf n')).Sound ∧ (t.setPage x.2 (.leaf n')).ids = t.ids ∧
      (t.setPage x.2 (.leaf n')).contents =
        left.flatMap t.leafRecords ++ n'.collect ++ right.flatMap t.leafRecords := by
  have leaf : x ∈ t.leaves := by simp [split]
  have ⟨leaves', inner'⟩ := setPage_layers (p := .leaf n') fun y higher =>
    sound.inner_ne_leaf leaf higher
  have pinned' : (t.setPage x.2 (.leaf n')).pinLeaf x.2 = .ok n' :=
    pinLeaf_eq_ok_iff.mpr ⟨(pinLeaf_eq_ok_iff.mp pinned).1, setPage_pages_self⟩
  have beside : ∀ y ∈ left ++ right, (t.setPage x.2 (.leaf n')).pages y.2 = t.pages y.2 :=
    fun y member => setPage_pages_ne (sound.leaves_apart split y member)
  have onLeft : ∀ y ∈ left, (t.setPage x.2 (.leaf n')).pages y.2 = t.pages y.2 :=
    fun y member => beside y (mem_append_left _ member)
  have onRight : ∀ y ∈ right, (t.setPage x.2 (.leaf n')).pages y.2 = t.pages y.2 :=
    fun y member => beside y (mem_append_right _ member)
  have ids' : (t.setPage x.2 (.leaf n')).ids = t.ids := by rw [ids, leaves', inner', ids]
  refine ⟨⟨sound.height_pos, sound.noted, ?_, by rw [ids']; exact sound.nodup, ?_, ?_⟩, ids', ?_⟩
  · intro y higher
    rw [inner'] at higher
    exact (sound.inner y higher).congr (setPage_pages_ne (sound.inner_ne_leaf leaf higher))
  · have bounds := sound.bounds
    rw [split, along_append, along_cons] at bounds
    rw [leaves', split, along_append, along_cons]
    exact ⟨bounds.1.imp_of_mem fun y member _ _ => InBounds.congr rfl (onLeft y member),
      ⟨n', pinned', filled, strict, least, by simpa using greatest⟩,
      bounds.2.2.imp_of_mem fun y member _ _ => InBounds.congr rfl (onRight y member)⟩
  · have chain := sound.chain
    rw [split, along_append, along_cons] at chain
    rw [leaves', split, along_append, along_cons]
    obtain ⟨chainL, ⟨hdr₀, read, linked⟩, chainR⟩ := chain
    rw [readHeader_of_leaf pinned] at read
    cases read
    exact ⟨chainL.imp_of_mem fun y member _ _ => Linked.congr (onLeft y member),
      ⟨n'.hdr, readHeader_of_leaf pinned', by rwa [hdr]⟩,
      chainR.imp_of_mem fun y member _ _ => Linked.congr (onRight y member)⟩
  · rw [contents, leaves', split, flatMap_append, flatMap_cons, leafRecords_of_pinned pinned',
      flatMap_congr fun y member => leafRecords_congr (onLeft y member),
      flatMap_congr fun y member => leafRecords_congr (onRight y member), append_assoc]

/-! ## The same records on the leaves -/

/-- The trees have the same pages, up to where the records lie on the leaves. -/
structure SameRecords (t' t : Tree) : Prop where
  root : t'.root = t.root
  height : t'.height = t.height
  noted : t'.noted = t.noted
  metaPage : t'.metaPage = t.metaPage
  inner : ∀ y ∈ t.inner, t'.pages y.2 = t.pages y.2
  leaves : ∀ y ∈ t.leaves, ∀ n, t.pinLeaf y.2 = .ok n →
    ∃ n', t'.pinLeaf y.2 = .ok n' ∧ n'.compact = n.compact

theorem SameRecords.layers (same : t'.SameRecords t) : t'.leaves = t.leaves ∧ t'.inner = t.inner :=
  layers_congr same.root same.height same.inner

theorem SameRecords.ids_eq (same : t'.SameRecords t) : t'.ids = t.ids := by
  rw [ids, same.layers.1, same.layers.2, ids]

theorem Sound.of_sameRecords (sound : t.Sound) (same : t'.SameRecords t) : t'.Sound := by
  refine ⟨by rw [same.height]; exact sound.height_pos, ?_, ?_, ?_, ?_, ?_⟩
  · rw [same.metaPage, same.noted, same.root, same.height]
    exact sound.noted
  · rw [same.layers.2]
    exact fun y higher => (sound.inner y higher).congr (same.inner y higher)
  · rw [same.ids_eq]
    exact sound.nodup
  · rw [same.layers.1]
    refine sound.bounds.imp_of_mem ?_
    rintro y leaf _ _ ⟨n, pinned, filled, strict, within⟩
    obtain ⟨n', pinned', packed⟩ := same.leaves y leaf n pinned
    have live := Node.live_eq_of_compact_eq packed
    refine ⟨n', pinned', ?_, ?_, ?_⟩
    · rwa [live, same.root]
    · rwa [Node.collect_congr live]
    · rwa [live]
  rw [same.layers.1]
  refine sound.chain.imp_of_mem ?_
  rintro y leaf _ _ ⟨hdr, read, linked⟩
  obtain ⟨n, pinned⟩ := sound.pinned leaf
  obtain ⟨n', pinned', packed⟩ := same.leaves y leaf n pinned
  have hdr' : n'.hdr = n.hdr := by
    rw [← Node.hdr_compact n', packed, Node.hdr_compact]
  rw [readHeader_of_leaf pinned] at read
  cases read
  exact ⟨n'.hdr, readHeader_of_leaf pinned', by rwa [hdr']⟩

theorem SameRecords.contents_eq (same : t'.SameRecords t) (sound : t.Sound) :
    t'.contents = t.contents := by
  rw [contents, contents, same.layers.1]
  refine flatMap_congr fun y leaf => ?_
  obtain ⟨n, pinned⟩ := sound.pinned leaf
  obtain ⟨n', pinned', packed⟩ := same.leaves y leaf n pinned
  rw [leafRecords_of_pinned pinned, leafRecords_of_pinned pinned',
    Node.collect_congr (Node.live_eq_of_compact_eq packed)]

/-- A leaf that is packed keeps its records. -/
theorem Sound.sameRecords_compact {m : Node LeafEntry} (sound : t.Sound)
    (pinned : t.pinLeaf id = .ok m) : (t.setPage id (.leaf m.compact)).SameRecords t := by
  refine ⟨rfl, rfl, rfl, rfl, fun y higher => setPage_pages_ne ?_, fun y leaf n pinnedN => ?_⟩
  · rintro rfl
    obtain ⟨n, internal, -⟩ := sound.inner y higher
    have page := (pinLeaf_eq_ok_iff.mp pinned).2
    rw [(pinInternal_eq_ok_iff.mp internal).2] at page
    cases page
  by_cases here : y.2 = id
  · subst here
    rw [pinned] at pinnedN
    cases pinnedN
    exact ⟨m.compact, pinLeaf_eq_ok_iff.mpr ⟨(pinLeaf_eq_ok_iff.mp pinned).1,
      setPage_pages_self⟩, rfl⟩
  · exact ⟨n, (pinLeaf_congr (setPage_pages_ne here)).trans pinnedN, rfl⟩

theorem sameRecords_outside (outside : id ∉ t.ids) : (t.setPage id p).SameRecords t := by
  have apart : ∀ y ∈ t.inner ++ t.leaves, (t.setPage id p).pages y.2 = t.pages y.2 := by
    intro y member
    refine setPage_pages_ne ?_
    rintro rfl
    exact outside (mem_map_of_mem member)
  exact ⟨rfl, rfl, rfl, rfl, fun y higher => apart y (mem_append_left _ higher),
    fun y leaf n pinned =>
      ⟨n, (pinLeaf_congr (apart y (mem_append_right _ leaf))).trans pinned, rfl⟩⟩

/-! ## A leaf is divided -/

/-- The pages after a leaf was divided and before its new neighbour is known over it: the
leaf holds `l`, the new page `r`, and the next leaf points back to the new page. The hints
may be any. -/
structure LeafSplit (t t₁ : Tree) (x : Place) (right : List Place) (l r : Node LeafEntry) :
    Prop where
  alloc : t₁.alloc = t.alloc.alloc.2
  root : t₁.root = t.root
  height : t₁.height = t.height
  noted : t₁.noted = t.noted
  metaPage : t₁.metaPage = t.metaPage
  pageLeaf : t₁.pages x.2 = some (.leaf l)
  pageNew : t₁.pages t.alloc.alloc.1 = some (.leaf r)
  pageNext : ∀ y ∈ right.head?, ∃ m, t.pinLeaf y.2 = .ok m ∧
    t₁.pages y.2 = some (.leaf (m.writeHeader { m.hdr with prev := t.alloc.alloc.1 }))
  frame : ∀ id, id ≠ x.2 → id ≠ t.alloc.alloc.1 → (∀ y ∈ right.head?, id ≠ y.2) →
    t₁.pages id = t.pages id

/-- How the records are divided: the records of the leaf and the new one, those below the
separator on the leaf, the others on the new page, the pointers through both. -/
structure Divided (n l r : Node LeafEntry) (neu : LeafEntry) (leaf new : PageID) (sep : Key) :
    Prop where
  records : (l.live ++ r.live).Perm (neu :: n.live)
  left_ne : l.live ≠ []
  right_ne : r.live ≠ []
  below : ∀ e ∈ l.live, e.key < sep
  above : ∀ e ∈ r.live, sep ≤ e.key
  strictL : l.collect.Pairwise fun a b => a.key < b.key
  strictR : r.collect.Pairwise fun a b => a.key < b.key
  prevL : l.hdr.prev = n.hdr.prev
  nextL : l.hdr.next = new
  prevR : r.hdr.prev = leaf
  nextR : r.hdr.next = n.hdr.next

section Divide

variable {t₁ : Tree} {up : List Place} {n l r : Node LeafEntry} {neu : LeafEntry} {sep : Key}

section

variable (done : t.LeafSplit t₁ x right l r) (sound : t.Sound) (owned : t.Owned)
  (split : t.leaves = left ++ x :: right)

include done sound owned split

/-- What was divided is a leaf, so the layers over the leaves are as they were. -/
theorem LeafSplit.inner_pages : ∀ y ∈ t.inner, t₁.pages y.2 = t.pages y.2 := by
  intro y higher
  refine done.frame y.2 (sound.inner_ne_leaf (by simp [split]) higher) ?_ ?_
  · intro same
    exact owned y.2 (mem_map_of_mem (mem_append_left _ higher))
      (same ▸ t.alloc.alloc_available)
  intro z isNext
  refine sound.inner_ne_leaf ?_ higher
  rw [split]
  exact mem_append_right _ (mem_cons_of_mem x (mem_of_mem_head? isNext))

theorem LeafSplit.upper (reached : Descent t.children (none, t.root) up left x right)
    (length : up.length = t.height - 1) :
    Descent t₁.children (none, t₁.root) up left x right ∧ t₁.Upper up.length ∧
      above t₁.children up.length [(none, t₁.root)] = t.inner := by
  have pages := done.inner_pages sound owned split
  have same : ∀ y ∈ Layers.above t.children up.length [(none, t.root)],
      t₁.children y = t.children y := by
    rw [length]
    exact fun y higher => children_congr (pages y higher)
  have aboves : Layers.above t₁.children up.length [(none, t₁.root)] = t.inner := by
    rw [done.root, (layer_congr same).2, length, inner]
  refine ⟨by rw [done.root]; exact reached.congr same, ⟨?_, ?_, ?_⟩, aboves⟩
  all_goals rw [aboves]
  · exact fun y higher => (sound.inner y higher).congr (pages y higher)
  · exact (sound.upper owned).nodup
  · intro y higher available
    rw [done.alloc, t.alloc.available_alloc_iff] at available
    exact (sound.upper owned).owned y higher available.1

end

variable {new : PageID}

theorem Ordered.insert {sep : Key} (ordered : Ordered (left ++ x :: right))
    (after : ∀ l ∈ x.1, l < sep) (before : ∀ h ∈ right.head?.bind Prod.fst, sep < h) :
    Ordered (left ++ x :: (some sep, new) :: right) := by
  rw [Ordered, map_append, pairwise_append, map_cons, pairwise_cons] at ordered
  obtain ⟨onLeft, ⟨overX, onRight⟩, across⟩ := ordered
  have overNew : ∀ b ∈ right.map Prod.fst, BoundLt (some sep) b := by
    cases right with
    | nil => simp
    | cons y rest =>
      rw [map_cons] at overX onRight ⊢
      have first : BoundLt (some sep) y.1 := by
        obtain ⟨k, isK, -⟩ := overX y.1 mem_cons_self
        exact ⟨k, isK, by simpa using before k (by simpa using isK)⟩
      refine forall_mem_cons.mpr ⟨first, ?_⟩
      exact fun b later => first.trans ((pairwise_cons.mp onRight).1 b later)
  rw [Ordered, map_append, pairwise_append, map_cons, map_cons, pairwise_cons, pairwise_cons]
  have afterX : BoundLt x.1 (some sep) := boundLt_some.mpr after
  refine ⟨onLeft, ⟨?_, overNew, onRight⟩, ?_⟩
  · exact forall_mem_cons.mpr ⟨afterX, overX⟩
  intro a memberA b memberB
  obtain rfl | memberB := mem_cons.mp memberB
  · exact across a memberA x.1 mem_cons_self
  obtain rfl | memberB := mem_cons.mp memberB
  · exact (across a memberA x.1 mem_cons_self).trans afterX
  · exact across a memberA b (mem_cons_of_mem _ memberB)

theorem Divided.within (divided : Divided n l r neu x.2 new sep) (bound : Key → Prop)
    (old : ∀ e ∈ n.live, bound e.key) (fresh : bound neu.key) :
    (∀ e ∈ l.live, bound e.key) ∧ ∀ e ∈ r.live, bound e.key := by
  have all : ∀ e ∈ l.live ++ r.live, bound e.key := by
    intro e member
    obtain rfl | member := mem_cons.mp (divided.records.mem_iff.mp member)
    · exact fresh
    · exact old e member
  exact ⟨fun e member => all e (mem_append_left _ member),
    fun e member => all e (mem_append_right _ member)⟩

theorem Divided.ordered (divided : Divided n l r neu x.2 new sep) (sound : t.Sound)
    (split : t.leaves = left ++ x :: right) (pinned : t.pinLeaf x.2 = .ok n)
    (holds : Holds neu.key x right) : Ordered (left ++ x :: (some sep, new) :: right) := by
  obtain ⟨n', pinned', -, -, least, greatest, -⟩ := sound.leaf split
  rw [pinned] at pinned'
  cases pinned'
  refine Ordered.insert (split ▸ sound.ordered) ?_ ?_
  · intro lo isLo
    obtain ⟨e, member⟩ := exists_mem_of_ne_nil _ divided.left_ne
    exact ((divided.within (lo ≤ ·) (least lo isLo) (holds.1 lo isLo)).1 e member).trans_lt
      (divided.below e member)
  · intro hi isHi
    obtain ⟨e, member⟩ := exists_mem_of_ne_nil _ divided.right_ne
    exact (divided.above e member).trans_lt
      ((divided.within (· < hi) (greatest hi isHi) (holds.2 hi isHi)).2 e member)

theorem InBounds.keep {before before' next : Option Place} {m m' : Node LeafEntry}
    (inBounds : t.InBounds before x next) (notRoot : x.2 ≠ t.root) (pinned : t.pinLeaf x.2 = .ok m)
    (pinned' : t'.pinLeaf x.2 = .ok m') (live : m'.live = m.live) :
    t'.InBounds before' x next := by
  obtain ⟨m₀, pinned₀, filled, strict, rest⟩ := inBounds
  rw [pinned] at pinned₀
  cases pinned₀
  refine ⟨m', pinned', fun _ => ?_, ?_, ?_⟩
  · rw [live]
    exact filled notRoot
  · rwa [Node.collect_congr live]
  · rwa [live]

/-- The pages of the leaves once the new page is known over them. -/
structure LeafPages (t t' : Tree) (left : List Place) (x : Place) (right : List Place)
    (l r : Node LeafEntry) : Prop where
  pinnedLeaf : t'.pinLeaf x.2 = .ok l
  pinnedNew : t'.pinLeaf t.alloc.alloc.1 = .ok r
  pinnedNext : ∀ y ∈ right.head?, ∃ m, t.pinLeaf y.2 = .ok m ∧
    t'.pinLeaf y.2 = .ok (m.writeHeader { m.hdr with prev := t.alloc.alloc.1 })
  others : ∀ y ∈ left ++ right.tail, t'.pages y.2 = t.pages y.2

variable {depth : Nat}

theorem LeafSplit.pages {xs : List Place} (done : t.LeafSplit t₁ x right l r) (sound : t.Sound)
    (owned : t.Owned) (split : t.leaves = left ++ x :: right)
    (reached : Descent t.children (none, t.root) up left x right)
    (length : up.length = t.height - 1) (grafted : t₁.Grafted t' up xs depth) :
    t.LeafPages t' left x right l r := by
  have available : ∀ id, t₁.alloc.Available id → t.alloc.Available id ∧ id ≠ t.alloc.alloc.1 := by
    rw [done.alloc]
    exact fun id => t.alloc.available_alloc_iff.mp
  have onPath : ∀ id ∈ up.map Prod.snd, ∃ z ∈ t.inner, z.2 = id := by
    intro id member
    obtain ⟨z, memberZ, rfl⟩ := mem_map.mp member
    refine ⟨z, ?_, rfl⟩
    rw [inner, ← length]
    exact reached.path_mem_above z memberZ
  have leafPage : ∀ y ∈ t.leaves, t'.pages y.2 = t₁.pages y.2 := by
    intro y leaf
    refine grafted.frame y.2 (fun member => ?_) fun free => ?_
    · obtain ⟨z, higher, same⟩ := onPath y.2 member
      exact sound.inner_ne_leaf leaf higher same
    · exact owned y.2 (mem_map_of_mem (mem_append_right _ leaf)) (available _ free).1
  have newPage : t'.pages t.alloc.alloc.1 = t₁.pages t.alloc.alloc.1 := by
    refine grafted.frame _ (fun member => ?_) fun free => (available _ free).2 rfl
    obtain ⟨z, higher, same⟩ := onPath _ member
    exact owned z.2 (mem_map_of_mem (mem_append_left _ higher))
      (same ▸ t.alloc.alloc_available)
  obtain ⟨n, pinned⟩ := sound.pinned (x := x) (by simp [split])
  refine ⟨?_, ?_, fun y isNext => ?_, fun y member => ?_⟩
  · refine pinLeaf_eq_ok_iff.mpr ⟨(pinLeaf_eq_ok_iff.mp pinned).1, ?_⟩
    rw [leafPage x (by simp [split]), done.pageLeaf]
  · exact pinLeaf_eq_ok_iff.mpr ⟨t.alloc.alloc_ne_zero, newPage.trans done.pageNew⟩
  · obtain ⟨m, pinnedM, page⟩ := done.pageNext y isNext
    refine ⟨m, pinnedM, pinLeaf_eq_ok_iff.mpr ⟨(pinLeaf_eq_ok_iff.mp pinnedM).1, ?_⟩⟩
    rw [leafPage y, page]
    rw [split]
    exact mem_append_right _ (mem_cons_of_mem x (mem_of_mem_head? isNext))
  have beside : y ∈ left ++ right := by
    obtain m | m := mem_append.mp member
    · exact mem_append_left _ m
    · exact mem_append_right _ (mem_of_mem_tail m)
  have leaf : y ∈ t.leaves := by
    rw [split]
    rcases mem_append.mp beside with m | m <;> simp [m]
  rw [leafPage y leaf]
  refine done.frame y.2 (sound.leaves_apart split y beside) ?_ ?_
  · intro same
    exact owned y.2 (mem_map_of_mem (mem_append_right _ leaf))
      (same ▸ t.alloc.alloc_available)
  cases right with
  | nil => simp
  | cons z rest =>
    rintro _ ⟨⟩
    have split' : t.leaves = (left ++ [x]) ++ z :: rest := by
      rw [split]
      simp
    have apart := sound.leaves_apart split'
    refine apart y ?_
    obtain m | m := mem_append.mp member
    · simp [m]
    · exact mem_append_right _ (by simpa using m)

section

variable (pages : t.LeafPages t' left x right l r)

include pages

theorem LeafPages.keeps {y : Place} (member : y ∈ left ++ right) {m : Node LeafEntry}
    (pinned : t.pinLeaf y.2 = .ok m) : ∃ m', t'.pinLeaf y.2 = .ok m' ∧ m'.live = m.live := by
  obtain onLeft | onRight := mem_append.mp member
  · exact ⟨m, (pinLeaf_congr (pages.others y (mem_append_left _ onLeft))).trans pinned, rfl⟩
  cases right with
  | nil => cases onRight
  | cons z rest =>
    obtain rfl | later := mem_cons.mp onRight
    · obtain ⟨m', pinned', read⟩ := pages.pinnedNext y rfl
      rw [pinned] at pinned'
      cases pinned'
      exact ⟨_, read, rfl⟩
    · have same := pages.others y (mem_append_right _ (by simpa using later))
      exact ⟨m, (pinLeaf_congr same).trans pinned, rfl⟩

section

variable (sound : t.Sound) (split : t.leaves = left ++ x :: right) (pinned : t.pinLeaf x.2 = .ok n)
  (divided : Divided n l r neu x.2 t.alloc.alloc.1 sep)

include sound split pinned divided

theorem LeafPages.bounds (holds : Holds neu.key x right) :
    Along t'.InBounds none (left ++ x :: (some sep, t.alloc.alloc.1) :: right) none := by
  obtain ⟨n', pinned', -, -, least, greatest, -⟩ := sound.leaf split
  rw [pinned] at pinned'
  cases pinned'
  have bounds := sound.bounds
  rw [split, along_append, along_cons] at bounds
  have keep : ∀ y ∈ left ++ right, ∀ b b' next, t.InBounds b y next → t'.InBounds b' y next := by
    intro y member b b' next inBounds
    have several : 1 < t.leaves.length := by
      rw [split]
      cases left <;> cases right <;> simp at member ⊢
    have leaf : y ∈ t.leaves := by
      rw [split]
      rcases mem_append.mp member with m | m <;> simp [m]
    obtain ⟨m, pinnedM⟩ := sound.pinned leaf
    obtain ⟨m', read, live⟩ := pages.keeps member pinnedM
    exact inBounds.keep (sound.leaf_ne_root_of_several several leaf) pinnedM read live
  rw [along_append, along_cons, along_cons]
  refine ⟨bounds.1.imp_of_mem fun y member b next => keep y (mem_append_left _ member) b b next,
    ⟨l, pages.pinnedLeaf, fun _ => divided.left_ne, divided.strictL, ?_, ?_⟩,
    ⟨r, pages.pinnedNew, fun _ => divided.right_ne, divided.strictR, ?_, ?_⟩, ?_⟩
  · exact fun lo isLo => (divided.within (lo ≤ ·) (least lo isLo) (holds.1 lo isLo)).1
  · rintro h ⟨⟩
    exact divided.below
  · rintro lo ⟨⟩
    exact divided.above
  · intro hi isHi
    have isHi' : hi ∈ right.head?.bind Prod.fst := by simpa using isHi
    exact (divided.within (· < hi) (greatest hi isHi') (holds.2 hi isHi')).2
  · have onRight := bounds.2.2.imp_of_mem (Q := t'.InBounds) fun y member b next =>
      keep y (mem_append_right _ member) b b next
    exact (along_inBounds_congr rfl).mp onRight

theorem LeafPages.chain :
    Along t'.Linked none (left ++ x :: (some sep, t.alloc.alloc.1) :: right) none := by
  obtain ⟨n', pinned', -, -, -, -, prev, next⟩ := sound.leaf split
  rw [pinned] at pinned'
  cases pinned'
  have chain := sound.chain
  rw [split, along_append, along_cons] at chain
  rw [along_append, along_cons, along_cons]
  refine ⟨chain.1.imp_of_mem fun y member _ _ =>
      Linked.congr (pages.others y (mem_append_left _ member)),
    ⟨l.hdr, readHeader_of_leaf pages.pinnedLeaf, ?_, ?_⟩,
    ⟨r.hdr, readHeader_of_leaf pages.pinnedNew, ?_, ?_⟩, ?_⟩
  · rw [divided.prevL, prev]
    simp
  · rw [divided.nextL]
    rfl
  · rw [divided.prevR]
    rfl
  · rw [divided.nextR, next]
    simp
  cases right with
  | nil => trivial
  | cons y rest =>
    obtain ⟨m, pinnedM, read⟩ := pages.pinnedNext y rfl
    obtain ⟨-, -, ⟨hdr, readM, -, nextM⟩, onRest⟩ := chain
    rw [readHeader_of_leaf pinnedM] at readM
    cases readM
    refine ⟨⟨_, readHeader_of_leaf read, rfl, nextM⟩, onRest.imp_of_mem fun z member _ _ => ?_⟩
    exact Linked.congr (pages.others z (mem_append_right _ (by simpa using member)))

theorem LeafPages.contents_perm
    (leaves' : t'.leaves = left ++ x :: (some sep, t.alloc.alloc.1) :: right) :
    t'.contents.Perm (neu :: t.contents) := by
  have side : ∀ ys : List Place, (∀ y ∈ ys, y ∈ left ++ right) →
      ys.flatMap t'.leafRecords = ys.flatMap t.leafRecords := by
    refine fun ys within => flatMap_congr fun y member => ?_
    have leaf : y ∈ t.leaves := by
      rw [split]
      rcases mem_append.mp (within y member) with m | m <;> simp [m]
    obtain ⟨m, pinnedM⟩ := sound.pinned leaf
    obtain ⟨m', read, live⟩ := pages.keeps (within y member) pinnedM
    rw [leafRecords_of_pinned read, leafRecords_of_pinned pinnedM, Node.collect_congr live]
  rw [contents, leaves', contents, split]
  simp only [flatMap_append, flatMap_cons]
  rw [side left fun y member => mem_append_left _ member,
    side right fun y member => mem_append_right _ member,
    leafRecords_of_pinned pages.pinnedLeaf, leafRecords_of_pinned pinned,
    leafRecords_of_pinned (x := (some sep, t.alloc.alloc.1)) pages.pinnedNew,
    ← append_assoc l.collect]
  have records : (l.collect ++ r.collect).Perm (neu :: n.collect) :=
    ((l.collect_perm.append r.collect_perm).trans divided.records).trans
      (n.collect_perm.symm.cons neu)
  refine ((records.append_right _).append_left _).trans ?_
  rw [cons_append]
  exact perm_middle

end

end

/-- **A leaf is divided.** Once the new page has arrived the tree is sound again and has one
more record. -/
theorem LeafSplit.sound (done : t.LeafSplit t₁ x right l r) (sound : t.Sound) (owned : t.Owned)
    (split : t.leaves = left ++ x :: right)
    (reached : Descent t.children (none, t.root) up left x right)
    (length : up.length = t.height - 1) (pinned : t.pinLeaf x.2 = .ok n)
    (divided : Divided n l r neu x.2 t.alloc.alloc.1 sep) (holds : Holds neu.key x right)
    (grafted : t₁.Grafted t' up (left ++ x :: (some sep, t.alloc.alloc.1) :: right) depth) :
    t'.Sound ∧ t'.Owned ∧ t'.contents.Perm (neu :: t.contents) := by
  have pages := done.pages sound owned split reached length grafted
  have higher := (done.upper sound owned split reached length).2.2
  have positive := sound.height_pos
  have depth' : t'.height - 1 = depth := by
    obtain ⟨same, -, height, -⟩ | ⟨same, height, -⟩ := grafted.shape
    · rw [same, height, done.height, length]
    · rw [same, height, done.height, length]
      omega
  have leaves' : t'.leaves = left ++ x :: (some sep, t.alloc.alloc.1) :: right := by
    rw [leaves, depth', grafted.layer]
  have inner' : t'.inner = Layers.above t'.children depth [(none, t'.root)] := by
    rw [inner, depth']
  have available : ∀ id, t'.alloc.Available id → t.alloc.Available id ∧ id ≠ t.alloc.alloc.1 := by
    intro id free
    have before := grafted.alloc id free
    rwa [done.alloc, t.alloc.available_alloc_iff] at before
  have inLeaves : ∀ y ∈ t'.leaves, y.2 = t.alloc.alloc.1 ∨ y ∈ t.leaves := by
    intro y member
    rw [leaves'] at member
    rw [split]
    simp only [mem_append, mem_cons] at member ⊢
    obtain m | m | rfl | m := member
    · exact .inr (.inl m)
    · exact .inr (.inr (.inl m))
    · exact .inl rfl
    · exact .inr (.inr (.inr m))
  have leafOwned : ∀ y ∈ t.leaves, ¬ t.alloc.Available y.2 := fun y leaf =>
    owned y.2 (mem_map_of_mem (mem_append_right _ leaf))
  refine ⟨⟨?_, ?_, ?_, ?_, ?_, ?_⟩, ?_, pages.contents_perm sound split pinned divided leaves'⟩
  · rcases grafted.shape with ⟨-, -, height, -⟩ | ⟨-, height, -⟩ <;>
      rw [height, done.height] <;> omega
  · intro primary
    obtain ⟨-, root, height, noted⟩ | ⟨-, -, noted⟩ := grafted.shape
    · rw [noted, done.noted, root, height, done.root, done.height]
      exact sound.noted (by rw [← done.metaPage, ← grafted.metaPage, primary])
    · exact noted
  · rw [inner']
    exact grafted.upper.inner
  · rw [ids, map_append, nodup_append, inner']
    refine ⟨grafted.upper.nodup, ?_, ?_⟩
    · have perm : (t'.leaves.map Prod.snd).Perm (t.alloc.alloc.1 :: t.leaves.map Prod.snd) := by
        rw [leaves', split]
        exact (perm_after left x _ right).map Prod.snd
      rw [perm.nodup_iff, nodup_cons]
      refine ⟨fun member => ?_, sound.leaves_nodup⟩
      obtain ⟨y, leaf, same⟩ := mem_map.mp member
      exact leafOwned y leaf (same ▸ t.alloc.alloc_available)
    rintro a memberA b memberB rfl
    obtain ⟨y, memberY, rfl⟩ := mem_map.mp memberA
    obtain ⟨z, memberZ, same⟩ := mem_map.mp memberB
    obtain old | new := grafted.pages y memberY
    · rw [higher] at old
      obtain ⟨y', overY, same'⟩ := mem_map.mp old
      obtain isNew | leaf := inLeaves z memberZ
      · exact owned y'.2 (mem_map_of_mem (mem_append_left _ overY))
          ((same'.trans same.symm).trans isNew ▸ t.alloc.alloc_available)
      · exact sound.inner_ne_leaf leaf overY (same'.trans same.symm)
    · rw [done.alloc, t.alloc.available_alloc_iff, ← same] at new
      obtain isNew | leaf := inLeaves z memberZ
      · exact new.2 isNew
      · exact leafOwned z leaf new.1
  · rw [leaves']
    exact pages.bounds sound split pinned divided holds
  · rw [leaves']
    exact pages.chain sound split pinned divided
  intro id member free
  obtain ⟨y, memberY, rfl⟩ := mem_map.mp member
  obtain overY | leaf := mem_append.mp memberY
  · rw [inner'] at overY
    exact grafted.upper.owned y overY free
  · obtain isNew | leaf := inLeaves y leaf
    · exact (available y.2 free).2 isNew
    · exact leafOwned y leaf (available y.2 free).1

end Divide

end Tree

end NextSQL.Btree
