import NextSQL.Btree.Insert
import NextSQL.Btree.Search

/-!
# Separators go up

The separator of a new page goes into the page over it. If that page is full it
is split by the number of its separators, which need not divide their bytes:
the two halves are pages again only under a condition on the lengths of the
separators. `splitsFit` follows a separator up a path and says whether all
splits on its way fit.

If they do, the separator arrives: the layer that holds the new page is the
old one with the new page after its left neighbour, under whatever root the
tree then has (`insertSeparator_grafts`). If they do not, `insertSeparator`
fails, after pages have been written (`insertSeparator_fails`).
-/

namespace NextSQL.Btree

open Function
open Layers List

/-! ## The allocator -/

namespace Allocator

theorem alloc_available (a : Allocator) : a.Available a.alloc.1 := by
  rw [alloc]
  split
  next id rest same =>
    have first : id ∈ a.free := by
      rw [same]
      exact mem_cons_self
    exact .inl first
  next => exact .inr le_rfl

theorem alloc_ne_zero (a : Allocator) : a.alloc.1 ≠ 0 := by
  rw [alloc]
  split
  next id rest same => exact (a.free_lt id (same ▸ mem_cons_self)).1
  next => exact a.next_pos.ne'

theorem available_alloc_iff (a : Allocator) {id : PageID} :
    a.alloc.2.Available id ↔ a.Available id ∧ id ≠ a.alloc.1 := by
  rw [alloc]
  split
  next first rest same =>
    have small := (a.free_lt first (same ▸ mem_cons_self)).2
    have once := (nodup_cons.mp (same ▸ a.free_nodup)).1
    simp only [Available, same, mem_cons]
    constructor
    · rintro (member | large)
      · exact ⟨.inl (.inr member), fun eq => once (eq ▸ member)⟩
      · exact ⟨.inr large, by lia⟩
    rintro ⟨(rfl | member) | large, other⟩
    · exact absurd rfl other
    · exact .inl member
    · exact .inr large
  next none =>
    simp only [Available, none, not_mem_nil, false_or]
    lia

end Allocator

/-! ## Running the steps -/

namespace Tree

/-- The tree with a page written. -/
def setPage (t : Tree) (id : PageID) (p : Page) : Tree :=
  { t with pages := update t.pages id (some p) }

/-- The tree with a new page, the one with the id `t.alloc.alloc.1`. -/
def allocated (t : Tree) : Tree :=
  { t with
    alloc := t.alloc.alloc.2
    pages := update t.pages t.alloc.alloc.1 (some .other) }

variable {t : Tree} {id other : PageID} {p : Page}

@[simp] theorem setPage_root : (t.setPage id p).root = t.root := rfl

@[simp] theorem setPage_pages_self : (t.setPage id p).pages id = some p :=
  update_self ..

theorem setPage_pages_ne (ne : other ≠ id) : (t.setPage id p).pages other = t.pages other :=
  update_of_ne ne ..

end Tree

namespace TreeM

open Tree

variable {t : Tree} {α : Type}

theorem reading_of_ok {read : Tree → Except Nerr α} {a : α} (done : read t = .ok a) :
    reading read t = .ok a t := by
  rw [reading, done]

@[simp] theorem asking_bind {β : Type} (ask : Tree → α) (rest : α → TreeM β) :
    (asking ask >>= rest) t = rest (ask t) t := rfl

@[simp] theorem modify_bind {β : Type} (change : Tree → Tree) (rest : Unit → TreeM β) :
    ((modify change : TreeM Unit) >>= rest) t = rest () (change t) := rfl

@[simp] theorem write_bind {β : Type} (id : PageID) (p : Page) (rest : Unit → TreeM β) :
    (write id p >>= rest) t = rest () (t.setPage id p) := rfl

@[simp] theorem newPage_bind {β : Type} (rest : PageID → TreeM β) :
    (newPage >>= rest) t = rest t.alloc.alloc.1 t.allocated := rfl

theorem ofExcept_of_ok {result : Except Nerr α} {a : α} (done : result = .ok a) :
    ofExcept result t = .ok a t := reading_of_ok done

theorem rebuilt_of_some {ρ : Type} [Record ρ] {hdr : NodeHeader} {records : List ρ} {n : Node ρ}
    (built : Node.rebuild hdr records = some n) : rebuilt hdr records t = .ok n t := by
  rw [rebuilt, built]
  rfl

theorem rebuilt_of_none {ρ : Type} [Record ρ] {hdr : NodeHeader} {records : List ρ}
    (large : Node.rebuild hdr records = none) :
    rebuilt hdr records t = .error ⟨.pageFull, "page.Insert", "page is full"⟩ t := by
  rw [rebuilt, large]
  rfl

end TreeM

/-! ## Do the splits fit? -/

/-- The bytes of an internal page with the separators. -/
def separatorBytes (seps : List Key) : Nat :=
  pageHeaderSize + slotSize * (1 + seps.length) + headerSize +
    (seps.map fun sep => 2 + sep.length + 8).sum

theorem pageBytes_eq_separatorBytes (ents : List InternalEntry) :
    pageBytes ents = separatorBytes (ents.map InternalEntry.key) := by
  simp only [pageBytes, separatorBytes, payload, length_map, map_map]
  rfl

/-- The separators before and after the one in the middle, counted and not measured, are no
more than a page each. -/
def HalvesFit (seps : List InternalEntry) : Prop :=
  pageBytes (seps.take (seps.length / 2)) ≤ logicalPageSize ∧
    pageBytes (seps.drop (seps.length / 2 + 1)) ≤ logicalPageSize

namespace Tree

/-- Follow a separator up a path: at every page that has to be split, both halves have to
fit a page. -/
def splitsFit (t : Tree) : List PageID → Key → Bool
  | [], _ => true
  | parentID :: up, sep =>
    match t.pinInternal parentID with
    | .error _ => false
    | .ok n =>
      let all := Slots.sortBy id (n.live.map InternalEntry.key ++ [sep])
      separatorBytes all ≤ logicalPageSize ||
        (separatorBytes (all.take (all.length / 2)) ≤ logicalPageSize &&
          separatorBytes (all.drop (all.length / 2 + 1)) ≤ logicalPageSize &&
          t.splitsFit up (all[all.length / 2]?.getD []))

end Tree

/-! ## One page of the path -/

namespace TreeM

open Tree

variable {t : Tree}

section Parent

variable {parentID : PageID} (up : List PageID) {n : Node InternalEntry} {e : InternalEntry}

/-- A parent with room takes the separator. -/
theorem insertSeparator_room (pinned : t.pinInternal parentID = .ok n)
    (room : pageBytes (n.collectWith e) ≤ logicalPageSize) :
    ∃ n', insertSeparator (parentID :: up) e.key e.child t =
        .ok () (t.setPage parentID (.internal n')) ∧
      n'.live.Perm (e :: n.live) ∧ n'.hdr = n.hdr := by
  rw [insertSeparator, EStateM.bind_of_ok (reading_of_ok pinned),
    EStateM.bind_of_ok (ofExcept_of_ok (encodeInternal_of_ok e.keyOk e.userData))]
  cases appended : (if n.maxKey.all (· < e.key) then n.append e else none) with
  | some n' =>
    split at appended
    · obtain ⟨live, hdr⟩ := Node.append_eq_some appended
      exact ⟨n', rfl, live ▸ perm_append_singleton e n.live, hdr⟩
    · cases appended
  | none =>
    obtain ⟨n', built, live, hdr⟩ := Node.rebuild_of_fits n.hdr room
    refine ⟨n', ?_, ?_, hdr⟩
    · dsimp only
      rw [if_pos (internalFits_iff.mpr room), EStateM.bind_of_ok (rebuilt_of_some built)]
      rfl
    · rw [live]
      exact n.collectWith_perm e

theorem insertSeparator_split (pinned : t.pinInternal parentID = .ok n)
    (full : ¬ pageBytes (n.collectWith e) ≤ logicalPageSize) :
    insertSeparator (parentID :: up) e.key e.child t =
      (splitInternal parentID n.hdr (n.collectWith e) >>=
        fun out => insertSeparator up out.1 out.2) t := by
  rw [insertSeparator, EStateM.bind_of_ok (reading_of_ok pinned),
    EStateM.bind_of_ok (ofExcept_of_ok (encodeInternal_of_ok e.keyOk e.userData))]
  cases appended : (if n.maxKey.all (· < e.key) then n.append e else none) with
  | some n' =>
    split at appended
    · refine absurd (Node.pageBytes_of_append appended) ?_
      rwa [pageBytes_perm ((perm_append_singleton e _).trans (n.collectWith_perm e).symm)]
    · cases appended
  | none =>
    rw [if_neg (mt internalFits_iff.mp full)]

end Parent

theorem splitInternal_of_fits (leftID : PageID) (hdr : NodeHeader) {all : List InternalEntry}
    {promote : InternalEntry} (middle : all[all.length / 2]? = some promote)
    (halves : HalvesFit all) :
    ∃ l r t', splitInternal leftID hdr all t = .ok (promote.key, t.alloc.alloc.1) t' ∧
      l.live = all.take (all.length / 2) ∧ l.hdr.leftmost = hdr.leftmost ∧
      r.live = all.drop (all.length / 2 + 1) ∧ r.hdr.leftmost = promote.child ∧
      t' = (t.allocated.setPage t.alloc.alloc.1 (.internal r)).setPage leftID (.internal l) := by
  obtain ⟨l, builtL, liveL, hdrL⟩ := Node.rebuild_of_fits ⟨0, 0, hdr.leftmost⟩ halves.1
  obtain ⟨r, builtR, liveR, hdrR⟩ := Node.rebuild_of_fits ⟨0, 0, promote.child⟩ halves.2
  refine ⟨l, r, _, ?_, liveL, by rw [hdrL], liveR, by rw [hdrR], rfl⟩
  rw [splitInternal, middle]
  dsimp only
  rw [newPage_bind, EStateM.bind_of_ok (rebuilt_of_some builtL),
    EStateM.bind_of_ok (rebuilt_of_some builtR)]
  rfl

theorem splitInternal_of_large (leftID : PageID) (hdr : NodeHeader) {all : List InternalEntry}
    (large : ¬ HalvesFit all) : ∃ e t', splitInternal leftID hdr all t = .error e t' := by
  rw [splitInternal]
  cases all[all.length / 2]? with
  | none => exact ⟨_, _, rfl⟩
  | some promote =>
    dsimp only
    rw [newPage_bind]
    by_cases left : pageBytes (all.take (all.length / 2)) ≤ logicalPageSize
    · obtain ⟨l, built, -⟩ := Node.rebuild_of_fits ⟨0, 0, hdr.leftmost⟩ left
      have right := Node.rebuild_of_large ⟨0, 0, promote.child⟩ fun right => large ⟨left, right⟩
      rw [EStateM.bind_of_ok (rebuilt_of_some built), EStateM.bind_of_error (rebuilt_of_none right)]
      exact ⟨_, _, rfl⟩
    · rw [EStateM.bind_of_error (rebuilt_of_none (Node.rebuild_of_large _ left))]
      exact ⟨_, _, rfl⟩

end TreeM

/-! ## One more child -/

namespace Tree

variable {t : Tree}

theorem places_insert {lo : Option Key} {n : Node InternalEntry} {left right : List Place}
    {x : Place} {e : InternalEntry} (split : places lo n = left ++ x :: right)
    (ordered : Ordered (left ++ x :: (some e.key, e.child) :: right)) :
    ((n.collectWith e).Pairwise fun a b => a.key < b.key) ∧
      left ++ x :: (some e.key, e.child) :: right =
        (lo, n.hdr.leftmost) :: (n.collectWith e).map fun e => (some e.key, e.child) := by
  -- the separators up to the place, and those after it
  obtain ⟨before, after, collected, upTo, rfl⟩ : ∃ before after : List InternalEntry,
      n.collect = before ++ after ∧
        left ++ [x] = (lo, n.hdr.leftmost) :: before.map (fun e => (some e.key, e.child)) ∧
        right = after.map fun e => (some e.key, e.child) := by
    rw [places] at split
    cases left with
    | nil =>
      cases split
      exact ⟨[], n.collect, rfl, rfl, rfl⟩
    | cons y left =>
      rw [cons_append] at split
      obtain ⟨rfl, rest⟩ := cons.inj split
      obtain ⟨before, tail, collected, rfl, tailSplit⟩ := map_eq_append_iff.mp rest
      obtain ⟨last, after, rfl, rfl, rfl⟩ := map_eq_cons_iff.mp tailSplit
      exact ⟨before ++ [last], after, by simp [collected], by simp, rfl⟩
  have list : left ++ x :: (some e.key, e.child) :: after.map (fun e => (some e.key, e.child)) =
      (lo, n.hdr.leftmost) :: (before ++ e :: after).map fun e => (some e.key, e.child) := by
    rw [append_cons, upTo, cons_append, map_append, map_cons]
  have strict : (before ++ e :: after).Pairwise fun a b => a.key < b.key := by
    rw [list, Ordered, map_cons, pairwise_cons, map_map, pairwise_map] at ordered
    exact ordered.2.imp fun less => by simpa using less
  rw [Node.collectWith, Slots.sortBy_concat Record.key strict (by rw [collected])]
  exact ⟨strict, list⟩

/-- A page with ordered separators is read back with them. -/
theorem collect_of_live {n : Node InternalEntry} {ents : List InternalEntry}
    (live : n.live.Perm ents) (strict : ents.Pairwise fun a b => a.key < b.key) :
    n.collect = ents :=
  Slots.sortBy_eq_of_perm Record.key live strict

theorem perm_after (left : List Place) (x new : Place) (right : List Place) :
    (left ++ x :: new :: right).Perm (new :: (left ++ x :: right)) := by
  rw [append_cons, append_cons left x right]
  exact perm_middle

/-- The upper part of a tree: the layers over the one at `depth`. -/
structure Upper (t : Tree) (depth : Nat) : Prop where
  inner : ∀ y ∈ above t.children depth [(none, t.root)], t.InnerOk y
  nodup : ((above t.children depth [(none, t.root)]).map Prod.snd).Nodup
  owned : ∀ y ∈ above t.children depth [(none, t.root)], ¬ t.alloc.Available y.2

theorem Upper.of_succ {depth : Nat} (upper : t.Upper (depth + 1)) : t.Upper depth := by
  obtain ⟨inner, nodup, owned⟩ := upper
  simp only [above_succ, map_append] at inner nodup owned
  exact ⟨fun y member => inner y (mem_append_left _ member), (nodup_append.mp nodup).1,
    fun y member => owned y (mem_append_left _ member)⟩

/-- A tree with a new place in the layer that was at depth `up.length`. -/
structure Grafted (t t' : Tree) (up xs : List Place) (depth : Nat) : Prop where
  layer : layer t'.children depth [(none, t'.root)] = xs
  upper : t'.Upper depth
  pages : ∀ y ∈ above t'.children depth [(none, t'.root)],
    y.2 ∈ (above t.children up.length [(none, t.root)]).map Prod.snd ∨ t.alloc.Available y.2
  frame : ∀ id, id ∉ up.map Prod.snd → ¬ t.alloc.Available id → t'.pages id = t.pages id
  alloc : ∀ id, t'.alloc.Available id → t.alloc.Available id
  metaPage : t'.metaPage = t.metaPage
  shape : depth = up.length ∧ t'.root = t.root ∧ t'.height = t.height ∧ t'.noted = t.noted ∨
    depth = up.length + 1 ∧ t'.height = t.height + 1 ∧ t'.noted = (t'.root, t'.height)

end Tree

namespace TreeM

open Tree

/-- A new root has the old one and its new neighbour under it. -/
theorem newRoot_grafts (t : Tree) (e : InternalEntry) (root : t.root ≠ 0) :
    ∃ t', newRoot t.root e.key e.child t = .ok () t' ∧
      t.Grafted t' [] [(none, t.root), (some e.key, e.child)] 1 := by
  have fits : pageBytes [e] ≤ logicalPageSize := by
    have := e.keyOk.2
    simp only [pageBytes, payload_cons, payload_nil, record_size_internal, length_singleton,
      maxKeySize, pageHeaderSize, slotSize, headerSize, logicalPageSize] at *
    omega
  obtain ⟨n, built, live, hdr⟩ := Node.rebuild_of_fits ⟨0, 0, t.root⟩ fits
  let id := t.alloc.alloc.1
  let t' : Tree := { t with
    alloc := t.alloc.alloc.2
    pages := update (update t.pages id (some .other)) id (some (.internal n))
    root := id
    height := t.height + 1
    noted := (id, t.height + 1) }
  have pinned : t'.pinInternal id = .ok n :=
    pinInternal_eq_ok_iff.mpr ⟨t.alloc.alloc_ne_zero, update_self ..⟩
  have collected : n.collect = [e] := collect_of_live (by rw [live]) (pairwise_singleton _ _)
  have children : t'.children (none, id) = [(none, t.root), (some e.key, e.child)] := by
    rw [Tree.children, pinned]
    simp [places, collected, hdr]
  refine ⟨t', ?_, ?_, ⟨?_, ?_, ?_⟩, ?_, ?_, ?_, rfl, ?_⟩
  · rw [newRoot, newPage_bind, EStateM.bind_of_ok (ofExcept_of_ok (encodeInternal_of_ok e.keyOk e.userData)),
      EStateM.bind_of_ok (rebuilt_of_some built)]
    rfl
  · rw [layer_succ, layer_zero, expand_cons, expand_nil, append_nil]
    exact children
  · intro y member
    obtain rfl : y = (none, id) := by simpa [above] using member
    refine ⟨n, pinned, by rwa [hdr], ?_⟩
    rw [collected]
    exact pairwise_singleton _ _
  · simp [above]
  · intro y member available
    obtain rfl : y = (none, id) := by simpa [above] using member
    exact ((t.alloc.available_alloc_iff).mp available).2 rfl
  · intro y member
    obtain rfl : y = (none, id) := by simpa [above] using member
    exact .inr t.alloc.alloc_available
  · intro other _ taken
    have ne : other ≠ id := fun same => taken (same ▸ t.alloc.alloc_available)
    change update (update t.pages id _) id _ other = _
    rw [update_of_ne ne, update_of_ne ne]
  · exact fun other available => ((t.alloc.available_alloc_iff).mp available).1
  · exact .inr ⟨rfl, rfl, rfl⟩

end TreeM

namespace Tree

variable {t : Tree} {up left right left' right' : List Place} {p x : Place}

section

variable (upper : t.Upper (up.length + 1))
  (reached : Descent t.children (none, t.root) up left p right)

include upper reached

/-- The page of a place is on no other place of its layer and on none over it. -/
theorem Upper.apart : (∀ y ∈ above t.children up.length [(none, t.root)], y.2 ≠ p.2) ∧
      ∀ y ∈ left ++ right, y.2 ≠ p.2 := by
  have nodup := upper.nodup
  rw [above_succ, reached.layer_eq, map_append, nodup_append] at nodup
  obtain ⟨-, layer, across⟩ := nodup
  refine ⟨fun y member => across y.2 (mem_map_of_mem member) p.2 (by simp), ?_⟩
  rw [map_append, map_cons, nodup_middle, nodup_cons, ← map_append] at layer
  exact fun y member same => layer.1 (same ▸ mem_map_of_mem member)

theorem Upper.layer_inner : ∀ y ∈ left ++ p :: right, t.InnerOk y ∧ ¬ t.alloc.Available y.2 := by
  intro y member
  have higher : y ∈ above t.children (up.length + 1) [(none, t.root)] := by
    rw [above_succ, reached.layer_eq]
    exact mem_append_right _ member
  exact ⟨upper.inner y higher, upper.owned y higher⟩

end

variable {n : Node InternalEntry} {e : InternalEntry}

theorem grafted_of_room {n' : Node InternalEntry}
    (reached : Descent t.children (none, t.root) up left p right) (upper : t.Upper (up.length + 1))
    (pinned : t.pinInternal p.2 = .ok n) (among : t.children p = left' ++ x :: right')
    (live : n'.live.Perm (e :: n.live)) (hdr : n'.hdr = n.hdr)
    (ordered : Ordered (left' ++ x :: (some e.key, e.child) :: right')) :
    t.Grafted (t.setPage p.2 (.internal n')) (p :: up)
      (expand t.children left ++ left' ++ x :: (some e.key, e.child) ::
        (right' ++ expand t.children right)) (up.length + 1) := by
  obtain ⟨higher, beside⟩ := upper.apart reached
  obtain ⟨⟨n₀, pinned₀, leftmost, -⟩, -⟩ := upper.layer_inner reached p (by simp)
  obtain rfl : n₀ = n := by
    rw [pinned] at pinned₀
    exact (Except.ok.inj pinned₀).symm
  have split : places p.1 n₀ = left' ++ x :: right' := by rw [← among, children, pinned]
  obtain ⟨strict, list⟩ := places_insert split ordered
  have collected : n'.collect = n₀.collectWith e :=
    collect_of_live (live.trans (n₀.collectWith_perm e).symm) strict
  have notZero : p.2 ≠ 0 := (pinInternal_eq_ok_iff.mp pinned).1
  let t' := t.setPage p.2 (.internal n')
  have pinned' : t'.pinInternal p.2 = .ok n' :=
    pinInternal_eq_ok_iff.mpr ⟨notZero, setPage_pages_self⟩
  have childrenP : t'.children p = left' ++ x :: (some e.key, e.child) :: right' := by
    rw [children, pinned', list]
    simp only [places, collected, hdr]
  have same : ∀ y : Place, y.2 ≠ p.2 → t'.children y = t.children y := fun y ne =>
    children_congr (setPage_pages_ne ne)
  have overSame : ∀ y ∈ above t.children up.length [(none, t.root)],
      t'.children y = t.children y := fun y member => same y (higher y member)
  have aboves : above t'.children (up.length + 1) [(none, t.root)] =
      above t.children (up.length + 1) [(none, t.root)] := by
    rw [above_succ, (layer_congr overSame).1, (layer_congr overSame).2, above_succ]
  refine ⟨?_, ⟨?_, ?_, ?_⟩, ?_, ?_, fun _ => id, rfl, .inl ⟨rfl, rfl, rfl, rfl⟩⟩
  · have next := layer_succ_of_change reached.layer_eq overSame fun y member =>
      same y (beside y member)
    rw [childrenP] at next
    simpa using next
  · intro y member
    rw [setPage_root, aboves] at member
    by_cases here : y.2 = p.2
    · refine ⟨n', by rw [here]; exact pinned', by rwa [hdr], ?_⟩
      rw [collected]
      exact strict
    · exact (upper.inner y member).congr (setPage_pages_ne here)
  · rw [setPage_root, aboves]
    exact upper.nodup
  · rw [setPage_root, aboves]
    exact upper.owned
  · rw [setPage_root, aboves]
    exact fun y member => .inl (mem_map_of_mem member)
  · intro id unchanged _
    exact setPage_pages_ne fun same => unchanged (by simp [same])

/-- The tree after the split of an internal page: the new page is `t.alloc.alloc.1`. -/
def splitTree (t : Tree) (leftID : PageID) (l r : Node InternalEntry) : Tree :=
  (t.allocated.setPage t.alloc.alloc.1 (.internal r)).setPage leftID (.internal l)

section Split

variable {leftID : PageID} {l r : Node InternalEntry}

theorem splitTree_pages_ne {id : PageID} (notLeft : id ≠ leftID) (taken : ¬ t.alloc.Available id) :
    (t.splitTree leftID l r).pages id = t.pages id := by
  have notNew : id ≠ t.alloc.alloc.1 := fun same => taken (same ▸ t.alloc.alloc_available)
  rw [splitTree, setPage_pages_ne notLeft, setPage_pages_ne notNew]
  exact update_of_ne notNew ..

theorem available_splitTree {id : PageID} :
    (t.splitTree leftID l r).alloc.Available id ↔ t.alloc.Available id ∧ id ≠ t.alloc.alloc.1 :=
  t.alloc.available_alloc_iff

end Split

variable {l r : Node InternalEntry}

/-- What a split leaves over the split page is as it was. -/
theorem Upper.splitTree (upper : t.Upper (up.length + 1))
    (reached : Descent t.children (none, t.root) up left p right) :
    (t.splitTree p.2 l r).Upper up.length ∧
      Descent (t.splitTree p.2 l r).children (none, t.root) up left p right ∧
      above (t.splitTree p.2 l r).children up.length [(none, t.root)] =
        above t.children up.length [(none, t.root)] := by
  have higher := (upper.apart reached).1
  have pages : ∀ y ∈ above t.children up.length [(none, t.root)],
      (t.splitTree p.2 l r).pages y.2 = t.pages y.2 := fun y member =>
    splitTree_pages_ne (higher y member) (upper.of_succ.owned y member)
  have same : ∀ y ∈ above t.children up.length [(none, t.root)],
      (t.splitTree p.2 l r).children y = t.children y := fun y member =>
    children_congr (pages y member)
  have aboves := (layer_congr same).2
  refine ⟨⟨?_, ?_, ?_⟩, reached.congr same, aboves⟩
  all_goals rw [show (t.splitTree p.2 l r).root = t.root from rfl, aboves]
  · exact fun y member => (upper.of_succ.inner y member).congr (pages y member)
  · exact upper.of_succ.nodup
  · exact fun y member available =>
      upper.of_succ.owned y member (available_splitTree.mp available).1

/-- The halves of a split page have the old children and the new one between them. -/
theorem places_halves (lo : Option Key) {all : List InternalEntry} {promote : InternalEntry}
    {leftmost : PageID} (strict : all.Pairwise fun a b => a.key < b.key)
    (middle : all[all.length / 2]? = some promote) (liveL : l.live = all.take (all.length / 2))
    (leftmostL : l.hdr.leftmost = leftmost) (liveR : r.live = all.drop (all.length / 2 + 1))
    (leftmostR : r.hdr.leftmost = promote.child) :
    (l.collect.Pairwise fun a b => a.key < b.key) ∧
    (r.collect.Pairwise fun a b => a.key < b.key) ∧
    places lo l ++ places (some promote.key) r =
      (lo, leftmost) :: all.map fun e => (some e.key, e.child) := by
  have strictL := strict.sublist (take_sublist (all.length / 2) all)
  have strictR := strict.sublist (drop_sublist (all.length / 2 + 1) all)
  have collectL : l.collect = _ := collect_of_live (by rw [liveL]) strictL
  have collectR : r.collect = _ := collect_of_live (by rw [liveR]) strictR
  obtain ⟨small, isMiddle⟩ := List.getElem?_eq_some_iff.mp middle
  have split : all = all.take (all.length / 2) ++ promote :: all.drop (all.length / 2 + 1) := by
    rw [← isMiddle, ← drop_eq_getElem_cons small, take_append_drop]
  refine ⟨collectL ▸ strictL, collectR ▸ strictR, ?_⟩
  rw [places, places, collectL, collectR, leftmostL, leftmostR]
  conv_rhs => rw [split]
  simp

theorem mem_split_layer {new y : Place} (member : y ∈ left ++ p :: new :: right) :
    y = p ∨ y = new ∨ y ∈ left ++ right := by
  simp only [mem_append, mem_cons] at member ⊢
  tauto

theorem mem_layer_of_beside {y : Place} (member : y ∈ left ++ right) : y ∈ left ++ p :: right := by
  rcases mem_append.mp member with m | m <;> simp [m]

variable {t' : Tree}

section

variable (reached : Descent t.children (none, t.root) up left p right)
  (upper : t.Upper (up.length + 1))

include reached upper

/-- What happens over a layer leaves the pages of the layer alone, those of a split among
them. -/
theorem Grafted.split_pages {xs : List Place} {depth : Nat}
    (rest : (t.splitTree p.2 l r).Grafted t' up xs depth) :
    t'.pages p.2 = some (.internal l) ∧ t'.pages t.alloc.alloc.1 = some (.internal r) ∧
      ∀ y ∈ left ++ right, t'.pages y.2 = t.pages y.2 := by
  have layerOk := upper.layer_inner reached
  have takenP := (layerOk p (by simp)).2
  have nodup := upper.nodup
  rw [above_succ, reached.layer_eq, map_append, nodup_append] at nodup
  have offPath : ∀ y ∈ left ++ p :: right, y.2 ∉ up.map Prod.snd := by
    intro y member onPath
    obtain ⟨z, memberZ, same⟩ := mem_map.mp onPath
    exact nodup.2.2 z.2 (mem_map_of_mem (reached.path_mem_above z memberZ)) y.2
      (mem_map_of_mem member) same
  have newOffPath : t.alloc.alloc.1 ∉ up.map Prod.snd := by
    intro onPath
    obtain ⟨z, memberZ, same⟩ := mem_map.mp onPath
    exact upper.of_succ.owned z (reached.path_mem_above z memberZ) (same ▸ t.alloc.alloc_available)
  refine ⟨?_, ?_, fun y member => ?_⟩
  · rw [rest.frame p.2 (offPath p (by simp))
      fun available => takenP (available_splitTree.mp available).1]
    exact setPage_pages_self
  · rw [rest.frame _ newOffPath fun available => (available_splitTree.mp available).2 rfl]
    have notLeft : t.alloc.alloc.1 ≠ p.2 := fun same => takenP (same ▸ t.alloc.alloc_available)
    rw [splitTree, setPage_pages_ne notLeft, setPage_pages_self]
  have inLayer : y ∈ left ++ p :: right := mem_layer_of_beside member
  have taken := (layerOk y inLayer).2
  rw [rest.frame y.2 (offPath y inLayer)
    fun available => taken (available_splitTree.mp available).1]
  exact splitTree_pages_ne ((upper.apart reached).2 y member) taken

theorem Grafted.nodup_split {key : Option Key} {depth : Nat}
    (rest : (t.splitTree p.2 l r).Grafted t' up (left ++ p :: (key, t.alloc.alloc.1) :: right)
      depth) :
    ((above t'.children (depth + 1) [(none, t'.root)]).map Prod.snd).Nodup := by
  have layerOk := upper.layer_inner reached
  have aboves := (upper.splitTree (l := l) (r := r) reached).2.2
  have nodup := upper.nodup
  rw [above_succ, reached.layer_eq, map_append, nodup_append] at nodup
  rw [above_succ, rest.layer, map_append, nodup_append]
  refine ⟨rest.upper.nodup, ?_, ?_⟩
  · have perm : ((left ++ p :: (key, t.alloc.alloc.1) :: right).map Prod.snd).Perm
        (t.alloc.alloc.1 :: (left ++ p :: right).map Prod.snd) :=
      (perm_after left p _ right).map Prod.snd
    rw [perm.nodup_iff, nodup_cons]
    refine ⟨fun member => ?_, nodup.2.1⟩
    obtain ⟨y, memberY, same⟩ := mem_map.mp member
    exact (layerOk y memberY).2 (same ▸ t.alloc.alloc_available)
  rintro a memberA b memberB rfl
  obtain ⟨y, memberY, rfl⟩ := mem_map.mp memberA
  obtain ⟨z, memberZ, same⟩ := mem_map.mp memberB
  obtain old | new := rest.pages y memberY
  · change y.2 ∈ (above _ up.length [(none, t.root)]).map Prod.snd at old
    rw [aboves] at old
    obtain ⟨y', higher, same'⟩ := mem_map.mp old
    obtain rfl | rfl | member := mem_split_layer memberZ
    · exact (upper.apart reached).1 y' higher (same'.trans same.symm)
    · exact upper.of_succ.owned y' higher (same'.trans same.symm ▸ t.alloc.alloc_available)
    · exact nodup.2.2 y'.2 (mem_map_of_mem higher) z.2
        (mem_map_of_mem (mem_layer_of_beside member)) (same'.trans same.symm)
  have earlier := available_splitTree.mp new
  rw [← same] at earlier
  obtain rfl | rfl | member := mem_split_layer memberZ
  · exact (layerOk z (by simp)).2 earlier.1
  · exact earlier.2 rfl
  · exact (layerOk z (mem_layer_of_beside member)).2 earlier.1

/-- The split of a page, and the arrival of the new page over it. -/
theorem grafted_of_split {promote : InternalEntry} {depth : Nat}
    (pinned : t.pinInternal p.2 = .ok n) (among : t.children p = left' ++ x :: right')
    (ordered : Ordered (left' ++ x :: (some e.key, e.child) :: right'))
    (middle : (n.collectWith e)[(n.collectWith e).length / 2]? = some promote)
    (liveL : l.live = (n.collectWith e).take ((n.collectWith e).length / 2))
    (leftmostL : l.hdr.leftmost = n.hdr.leftmost)
    (liveR : r.live = (n.collectWith e).drop ((n.collectWith e).length / 2 + 1))
    (leftmostR : r.hdr.leftmost = promote.child) (rest : (t.splitTree p.2 l r).Grafted t' up
      (left ++ p :: (some promote.key, t.alloc.alloc.1) :: right) depth) :
    t.Grafted t' (p :: up) (expand t.children left ++ left' ++ x :: (some e.key, e.child) ::
        (right' ++ expand t.children right)) (depth + 1) := by
  have layerOk := upper.layer_inner reached
  have aboves := (upper.splitTree (l := l) (r := r) reached).2.2
  obtain ⟨pageP, pageNew, pageSide⟩ := Grafted.split_pages reached upper rest
  have split : places p.1 n = left' ++ x :: right' := by rw [← among, children, pinned]
  obtain ⟨strict, list⟩ := places_insert split ordered
  obtain ⟨strictL, strictR, halves⟩ :=
    places_halves p.1 strict middle liveL leftmostL liveR leftmostR
  have pinnedP : t'.pinInternal p.2 = .ok l :=
    pinInternal_eq_ok_iff.mpr ⟨(pinInternal_eq_ok_iff.mp pinned).1, pageP⟩
  have pinnedNew : t'.pinInternal t.alloc.alloc.1 = .ok r :=
    pinInternal_eq_ok_iff.mpr ⟨t.alloc.alloc_ne_zero, pageNew⟩
  have leftmost : l.hdr.leftmost ≠ 0 := by
    obtain ⟨n', pinned', ne, -⟩ := (layerOk p (by simp)).1
    rw [pinned] at pinned'
    cases pinned'
    rwa [leftmostL]
  have side : ∀ ys : List Place, (∀ y ∈ ys, y ∈ left ++ right) →
      expand t'.children ys = expand t.children ys := fun ys within =>
    flatMap_congr fun y member => children_congr (pageSide y (within y member))
  refine ⟨?_, ⟨?_, ?_, ?_⟩, ?_, ?_, ?_, ?_, ?_⟩
  · rw [layer_succ, rest.layer, expand_append, expand_cons, expand_cons,
      side left fun y member => mem_append_left _ member,
      side right fun y member => mem_append_right _ member, children, pinnedP,
      children, pinnedNew]
    rw [← append_assoc (places p.1 l), halves, ← list]
    simp
  · intro y member
    rw [above_succ, rest.layer] at member
    obtain member | member := mem_append.mp member
    · exact rest.upper.inner y member
    obtain rfl | rfl | member := mem_split_layer member
    · exact ⟨l, pinnedP, leftmost, strictL⟩
    · exact ⟨r, pinnedNew, leftmostR ▸ promote.userData, strictR⟩
    · exact (layerOk y (mem_layer_of_beside member)).1.congr (pageSide y member)
  · exact Grafted.nodup_split reached upper rest
  · intro y member available
    rw [above_succ, rest.layer] at member
    obtain member | member := mem_append.mp member
    · exact rest.upper.owned y member available
    have earlier := available_splitTree.mp (rest.alloc y.2 available)
    obtain rfl | rfl | member := mem_split_layer member
    · exact (layerOk y (by simp)).2 earlier.1
    · exact earlier.2 rfl
    · exact (layerOk y (mem_layer_of_beside member)).2 earlier.1
  · intro y member
    rw [above_succ, rest.layer] at member
    rw [length_cons, above_succ, reached.layer_eq, map_append, mem_append]
    obtain member | member := mem_append.mp member
    · obtain old | new := rest.pages y member
      · change y.2 ∈ (above _ up.length [(none, t.root)]).map Prod.snd at old
        rw [aboves] at old
        exact .inl (.inl old)
      · exact .inr (available_splitTree.mp new).1
    · obtain rfl | rfl | member := mem_split_layer member
      · exact .inl (.inr (by simp))
      · exact .inr t.alloc.alloc_available
      · exact .inl (.inr (mem_map_of_mem (mem_layer_of_beside member)))
  · intro id unchanged taken
    simp only [map_cons, mem_cons, not_or] at unchanged
    rw [rest.frame id unchanged.2 fun available => taken (available_splitTree.mp available).1]
    exact splitTree_pages_ne unchanged.1 taken
  · exact fun id available => (available_splitTree.mp (rest.alloc id available)).1
  · exact rest.metaPage
  · obtain ⟨rfl, same⟩ | ⟨rfl, same⟩ := rest.shape
    · exact .inl ⟨rfl, same⟩
    · exact .inr ⟨rfl, same⟩

end

/-! ## The way up -/

/-- The test of one page of the path, on the separators as the page holds them. -/
theorem splitsFit_cons_iff {parentID : PageID} {ids : List PageID}
    (pinned : t.pinInternal parentID = .ok n)
    (strict : (n.collectWith e).Pairwise fun a b => a.key < b.key) :
    t.splitsFit (parentID :: ids) e.key ↔ pageBytes (n.collectWith e) ≤ logicalPageSize ∨
        ∃ promote, (n.collectWith e)[(n.collectWith e).length / 2]? = some promote ∧
          HalvesFit (n.collectWith e) ∧ t.splitsFit ids promote.key := by
  have perm := (n.collectWith_perm e).trans (perm_append_singleton e _).symm
  obtain ⟨promote, middle⟩ := n.exists_middle e
  generalize n.collectWith e = all at *
  have keys : Slots.sortBy id (n.live.map InternalEntry.key ++ [e.key]) =
      all.map InternalEntry.key := by
    refine Slots.sortBy_eq_of_perm id ?_ (pairwise_map.mpr strict)
    simpa using (perm.map InternalEntry.key).symm
  rw [splitsFit, pinned]
  simp only [keys, HalvesFit, length_map, ← map_take, ← map_drop,
    ← pageBytes_eq_separatorBytes, getElem?_map, middle,
    Option.map_some, Option.getD_some, Bool.or_eq_true, Bool.and_eq_true, decide_eq_true_eq,
    Option.some.injEq, exists_eq_left']

theorem splitsFit_congr {ids : List PageID} {sep : Key}
    (same : ∀ id ∈ ids, t'.pages id = t.pages id) : t'.splitsFit ids sep = t.splitsFit ids sep := by
  induction ids generalizing sep with
  | nil => rfl
  | cons id ids ih =>
    rw [splitsFit, splitsFit, pinInternal_congr (same id mem_cons_self)]
    split
    · rfl
    · simp only [ih fun other member => same other (mem_cons_of_mem id member)]

/-- A split changes nothing for the path over it. -/
theorem splitsFit_splitTree {sep : Key} (upper : t.Upper (up.length + 1))
    (reached : Descent t.children (none, t.root) up left p right) :
    (t.splitTree p.2 l r).splitsFit (up.map Prod.snd) sep = t.splitsFit (up.map Prod.snd) sep := by
  refine splitsFit_congr fun id member => ?_
  obtain ⟨y, onPath, rfl⟩ := mem_map.mp member
  have higher := reached.path_mem_above y onPath
  exact splitTree_pages_ne ((upper.apart reached).1 y higher) (upper.of_succ.owned y higher)

/-- The order of a layer with a new place, read at the page over it and at the layer over
it. -/
theorem Ordered.parent (new : PageID)
    (ordered : Ordered (expand t.children left ++ left' ++ x :: (some e.key, e.child) ::
      (right' ++ expand t.children right))) (ok : ∀ y ∈ left ++ p :: right, t.InnerOk y)
    (pinned : t.pinInternal p.2 = .ok n) (among : t.children p = left' ++ x :: right') :
    Ordered (left' ++ x :: (some e.key, e.child) :: right') ∧
      ∀ promote ∈ n.collectWith e, Ordered (left ++ p :: (some promote.key, new) :: right) := by
  have here : Ordered (left' ++ x :: (some e.key, e.child) :: right') := by
    refine List.Pairwise.sublist (Sublist.map _ ?_) ordered
    rw [append_assoc, show left' ++ x :: (some e.key, e.child) ::
      (right' ++ expand t.children right) = (left' ++ x :: (some e.key, e.child) :: right') ++
        expand t.children right by simp]
    exact (sublist_append_left _ _).trans (sublist_append_right _ _)
  refine ⟨here, fun promote member => ?_⟩
  have split : places p.1 n = left' ++ x :: right' := by rw [← among, children, pinned]
  have list := (places_insert split here).2
  have whole : expand t.children left ++ left' ++ x :: (some e.key, e.child) ::
      (right' ++ expand t.children right) = expand t.children left ++
        ((p.1, n.hdr.leftmost) :: (n.collectWith e).map fun e => (some e.key, e.child)) ++
          expand t.children right := by
    rw [← list]
    simp
  rw [whole] at ordered
  refine List.Pairwise.sublist ?_ ordered
  simp only [map_append, map_cons, append_assoc, cons_append]
  refine (bounds_sublist_expand fun y m => ok y (mem_append_left _ m)).append
    (Sublist.cons_cons _ ?_)
  have one : [some promote.key].Sublist
      (((n.collectWith e).map fun e => ((some e.key, e.child) : Place)).map Prod.fst) := by
    rw [singleton_sublist, map_map]
    exact mem_map_of_mem member
  exact one.append (bounds_sublist_expand fun y m => ok y (by simp [m]))

/-- The page over a new place, with its order and the order over it. -/
theorem Upper.parent (upper : t.Upper (up.length + 1))
    (reached : Descent t.children (none, t.root) up left p right)
    (among : t.children p = left' ++ x :: right')
    (ordered : Ordered (expand t.children left ++ left' ++ x :: (some e.key, e.child) ::
      (right' ++ expand t.children right))) :
    ∃ n, t.pinInternal p.2 = .ok n ∧ Ordered (left' ++ x :: (some e.key, e.child) :: right') ∧
      ((n.collectWith e).Pairwise fun a b => a.key < b.key) ∧
      ∀ promote ∈ n.collectWith e,
        Ordered (left ++ p :: (some promote.key, t.alloc.alloc.1) :: right) := by
  have layerOk := upper.layer_inner reached
  obtain ⟨n, pinned, -⟩ := (layerOk p (by simp)).1
  have ⟨here, above⟩ := ordered.parent t.alloc.alloc.1 (fun y member => (layerOk y member).1) pinned
    among
  have split : places p.1 n = left' ++ x :: right' := by rw [← among, children, pinned]
  exact ⟨n, pinned, here, (places_insert split here).1, above⟩

end Tree

namespace TreeM

open Tree

/-- **The separator arrives, or it does not.** If every split on the way fits, the layer of the
new page is the old layer with the new page after its left neighbour. If one does not, the
insertion of the separator fails. -/
theorem insertSeparator_spec (up : List Place) : ∀ {t : Tree} {left right : List Place}
    {x : Place} {e : InternalEntry}, t.root ≠ 0 →
    Descent t.children (none, t.root) up left x right → t.Upper up.length →
    Ordered (left ++ x :: (some e.key, e.child) :: right) →
    (t.splitsFit (up.map Prod.snd) e.key →
      ∃ t' depth, insertSeparator (up.map Prod.snd) e.key e.child t = .ok () t' ∧
        t.Grafted t' up (left ++ x :: (some e.key, e.child) :: right) depth) ∧
    (¬ t.splitsFit (up.map Prod.snd) e.key = true →
      ∃ err t', insertSeparator (up.map Prod.snd) e.key e.child t = .error err t') := by
  induction up with
  | nil =>
    intro t left right x e root reached _ _
    cases reached
    obtain ⟨t', done, grafted⟩ := newRoot_grafts t e root
    exact ⟨fun _ => ⟨t', 1, done, grafted⟩, absurd rfl⟩
  | cons p up ih =>
    intro t left right x e root reached upper ordered
    cases reached with
    | @child _ left right _ left' right' _ reached among =>
    obtain ⟨n, pinned, here, strict, above⟩ := upper.parent reached among ordered
    rw [map_cons, splitsFit_cons_iff pinned strict]
    by_cases room : pageBytes (n.collectWith e) ≤ logicalPageSize
    · obtain ⟨n', done, live, hdr⟩ := insertSeparator_room (up.map Prod.snd) pinned room
      exact ⟨fun _ => ⟨_, _, done, grafted_of_room reached upper pinned among live hdr here⟩,
        fun misfit => absurd (.inl room) misfit⟩
    rw [or_iff_right room, insertSeparator_split _ pinned room]
    by_cases halves : HalvesFit (n.collectWith e)
    · obtain ⟨promote, middle⟩ := n.exists_middle e
      obtain ⟨l, r, t₁, done, liveL, leftmostL, liveR, leftmostR, rfl⟩ :=
        splitInternal_of_fits (t := t) p.2 n.hdr middle halves
      obtain ⟨upper', reached', -⟩ := upper.splitTree (l := l) (r := r) reached
      obtain ⟨grafts, fails⟩ := ih (t := t.splitTree p.2 l r) (e := ⟨promote.key, t.alloc.alloc.1,
        promote.keyOk, t.alloc.alloc_ne_zero⟩) root reached' upper'
        (above promote (mem_of_getElem? middle))
      rw [splitsFit_splitTree upper reached] at grafts fails
      rw [EStateM.bind_of_ok done]
      refine ⟨?_, fun misfit => fails fun rest => misfit ⟨promote, middle, halves, rest⟩⟩
      rintro ⟨promote', middle', -, rest⟩
      cases middle.symm.trans middle'
      obtain ⟨t', depth, more, grafted⟩ := grafts rest
      exact ⟨t', depth + 1, more, grafted_of_split reached upper pinned among here middle liveL
        leftmostL liveR leftmostR grafted⟩
    · obtain ⟨err, t', failed⟩ := splitInternal_of_large (t := t) p.2 n.hdr halves
      exact ⟨fun ⟨_, _, fit, _⟩ => absurd fit halves,
        fun _ => ⟨err, t', EStateM.bind_of_error failed⟩⟩

end TreeM

end NextSQL.Btree
