import NextSQL.Btree.Leaves

/-!
# Splitting a full leaf

A full leaf is split in one of two ways: a key greater than all on the leaf goes
on a page of its own (`splitLeafAppend_spec`), and otherwise the records are cut
in two (`splitLeafAndInsert_spec`). Either way the tree gains the record if the
internal pages over the leaf can be split where they have to be, and the
operation fails if one of them cannot.
-/

namespace NextSQL.Btree

open Layers List

namespace Tree

variable {s t t' : Tree}

/-! ## Hints -/

/-- The trees differ in their hints only. -/
structure SameTree (s t : Tree) : Prop where
  pages : s.pages = t.pages
  alloc : s.alloc = t.alloc
  root : s.root = t.root
  height : s.height = t.height
  metaPage : s.metaPage = t.metaPage
  noted : s.noted = t.noted

theorem SameTree.eq (same : s.SameTree t) :
    s = { t with hintRight := s.hintRight, hintMax := s.hintMax, hintParent := s.hintParent } := by
  obtain ⟨pages, alloc, root, height, metaPage, noted⟩ := same
  cases s
  cases t
  simp_all

theorem SameTree.symm (same : s.SameTree t) : t.SameTree s :=
  ⟨same.pages.symm, same.alloc.symm, same.root.symm, same.height.symm, same.metaPage.symm,
    same.noted.symm⟩

theorem SameTree.sameRecords (same : s.SameTree t) : s.SameRecords t := by
  have page : ∀ id, s.pages id = t.pages id := fun id => by rw [same.pages]
  exact ⟨same.root, same.height, same.noted, same.metaPage, fun y _ => page y.2,
    fun y _ n pinned => ⟨n, (pinLeaf_congr (page y.2)).trans pinned, rfl⟩⟩

theorem Sound.of_same (sound : t.Sound) (same : s.SameTree t) : s.Sound := by
  rw [same.eq]
  exact { sound with }

theorem Owned.of_same (owned : t.Owned) (same : s.SameTree t) : s.Owned := by
  rw [same.eq]
  exact owned

theorem SameTree.contents_eq (same : s.SameTree t) : s.contents = t.contents := by
  rw [same.eq]
  rfl

theorem SameTree.refl (t : Tree) : t.SameTree t := ⟨rfl, rfl, rfl, rfl, rfl, rfl⟩

variable {up left right : List Place} {x : Place} {n l r : Node LeafEntry}

theorem LeafSplit.of_same {t₁ : Tree} (done : t.LeafSplit t₁ x right l r) (same : s.SameTree t₁) :
    t.LeafSplit s x right l r := by
  rw [same.eq]
  exact { done with }

/-! ## Searching again -/

/-- A key that a leaf holds is searched for on the one path to that leaf. -/
theorem descend_of_reached {key : Key} (reached : Descent t.children (none, t.root) up left x right)
    (length : up.length = t.height - 1)
    (inner : ∀ y ∈ above t.children up.length [(none, t.root)], t.InnerOk y)
    (nodup : (above t.children (up.length + 1) [(none, t.root)]).Nodup)
    (ordered : Ordered (left ++ x :: right)) (holds : Holds key x right) :
    t.descend key = .ok (x.2, up.map Prod.snd) := by
  have start : Holds key (none, t.root) [] := by simp [Holds]
  have inner' : ∀ y ∈ above t.children (([] : List Place).length + (t.height - 1))
      [(none, t.root)], t.InnerOk y := by
    rw [length_nil, Nat.zero_add, ← length]
    exact inner
  obtain ⟨up', left', y, right', done, reached', length', holds'⟩ :=
    descendFrom_spec (t.height - 1) .root start inner'
  have sameLength : up'.length = up.length := by
    rw [length', length, length_nil, Nat.zero_add]
  have layers : left ++ x :: right = left' ++ y :: right' := by
    rw [← reached.layer_eq, ← reached'.layer_eq, sameLength]
  obtain ⟨rfl, rfl, rfl⟩ := Holds.unique ordered layers holds holds'
  rw [reached.path_unique reached' sameLength nodup] at done
  exact done

end Tree

namespace TreeM

open Tree

variable {s t : Tree} {up left right : List Place} {x : Place} {n l r : Node LeafEntry}

/-- The pointers of the next leaf complete the division of a leaf. -/
theorem linkBack_run (sound : t.Sound) (owned : t.Owned) (split : t.leaves = left ++ x :: right)
    (next : n.hdr.next = (right.head?.map Prod.snd).getD 0) (same : s.SameTree t) :
    ∃ t₁, linkBack n.hdr.next s.alloc.alloc.1
        ((s.allocated.setPage s.alloc.alloc.1 (.leaf r)).setPage x.2 (.leaf l)) = .ok () t₁ ∧
      t.LeafSplit t₁ x right l r ∧ t₁.hintParent = s.hintParent := by
  have leafX : x ∈ t.leaves := by simp [split]
  have notNew : ∀ y ∈ t.leaves, y.2 ≠ t.alloc.alloc.1 := fun y leaf same =>
    owned y.2 (mem_map_of_mem (mem_append_right _ leaf)) (same ▸ t.alloc.alloc_available)
  have kept : ∀ id, id ≠ t.alloc.alloc.1 → s.allocated.pages id = t.pages id := by
    intro id other
    rw [allocated, same.alloc, same.pages]
    exact Function.update_of_ne other ..
  have alloc : s.allocated.alloc = t.alloc.alloc.2 := by rw [allocated, same.alloc]
  rw [same.alloc]
  cases right with
  | nil =>
    rw [head?_nil] at next
    rw [next]
    refine ⟨_, rfl, ⟨alloc, same.root, same.height, same.noted, same.metaPage,
      setPage_pages_self, ?_, by simp, ?_⟩, rfl⟩
    · rw [setPage_pages_ne (notNew x leafX).symm, setPage_pages_self]
    · intro id notLeaf notNew' _
      rw [setPage_pages_ne notLeaf, setPage_pages_ne notNew', kept id notNew']
  | cons y rest =>
    have leafY : y ∈ t.leaves := by simp [split]
    have apart : y.2 ≠ x.2 := sound.leaves_apart split y (by simp)
    obtain ⟨m, pinned⟩ := sound.pinned leafY
    obtain ⟨notZero, page⟩ := pinLeaf_eq_ok_iff.mp pinned
    have next' : n.hdr.next = y.2 := by simpa using next
    rw [next', linkBack, if_pos notZero]
    let s₂ := (s.allocated.setPage t.alloc.alloc.1 (.leaf r)).setPage x.2 (.leaf l)
    have page₂ : s₂.pages y.2 = some (.leaf m) := by
      rw [setPage_pages_ne apart, setPage_pages_ne (notNew y leafY), kept _ (notNew y leafY), page]
    refine ⟨s₂.setPage y.2 (.leaf (m.writeHeader { m.hdr with prev := t.alloc.alloc.1 })), ?_,
      ⟨alloc, same.root, same.height, same.noted, same.metaPage, ?_, ?_, ?_, ?_⟩, rfl⟩
    · rw [setSiblingPrev, setHeader,
        EStateM.bind_of_ok (reading_of_ok (pin_eq_ok_iff.mpr ⟨notZero, page₂⟩))]
      rfl
    · rw [setPage_pages_ne apart.symm, setPage_pages_self]
    · rw [setPage_pages_ne (notNew y leafY).symm, setPage_pages_ne (notNew x leafX).symm,
        setPage_pages_self]
    · rintro _ ⟨⟩
      exact ⟨m, pinned, setPage_pages_self⟩
    · intro id notLeaf notNew' notNext
      rw [setPage_pages_ne (notNext y rfl), setPage_pages_ne notLeaf, setPage_pages_ne notNew',
        kept id notNew']

theorem noteRight_run (id : PageID) (key : Key) (t : Tree) :
    ∃ t', noteRight id key t = .ok () t' ∧ t'.SameTree t ∧ t'.hintParent = t.hintParent := by
  refine ⟨_, rfl, ?_, ?_⟩
  · dsimp only
    split
    · exact ⟨rfl, rfl, rfl, rfl, rfl, rfl⟩
    · exact SameTree.refl _
  · dsimp only
    split <;> rfl

theorem rememberParent_run (sep : Key) (ids : List PageID) (t : Tree) :
    ∃ t', rememberParent sep ids t = .ok () t' ∧ t'.SameTree t := by
  rw [rememberParent]
  by_cases flat : ids = []
  · rw [if_pos flat]
    exact ⟨_, rfl, rfl, rfl, rfl, rfl, rfl, rfl⟩
  rw [if_neg flat, asking_bind]
  obtain _ | ⟨_, _ | ⟨parent, _⟩⟩ := t.descend sep
  · exact ⟨_, rfl, SameTree.refl _⟩
  · exact ⟨_, rfl, SameTree.refl _⟩
  · exact ⟨_, rfl, rfl, rfl, rfl, rfl, rfl, rfl⟩

/-- The separator of a leaf split off at the right end, with no parent remembered. -/
theorem attachRight_run {leftMax : Key} {leafID : PageID} {ids : List PageID} (sep : Key)
    (rightID : PageID)
    (unhinted : s.hintParent = 0) (found : s.descend leftMax = .ok (leafID, ids)) :
    (∀ t', insertSeparator ids sep rightID s = .ok () t' →
      ∃ t'', attachRight leftMax sep rightID s = .ok () t'' ∧ t''.SameTree t') ∧
    ∀ err t', insertSeparator ids sep rightID s = .error err t' →
      attachRight leftMax sep rightID s = .error err t' := by
  have cleared : { s with hintParent := 0 } = s := by
    rw [← unhinted]
  have notHinted : attachHinted sep rightID s = .ok false s := by
    rw [attachHinted, asking_bind, if_neg (not_not_intro unhinted)]
    rfl
  have unfolded : attachRight leftMax sep rightID s =
      (insertSeparator ids sep rightID >>= fun _ => rememberParent sep ids) s := by
    rw [attachRight, EStateM.bind_of_ok notHinted, if_neg Bool.false_ne_true, modify_bind, cleared,
      EStateM.bind_of_ok (reading_of_ok found)]
  rw [unfolded]
  constructor
  · intro t' done
    rw [EStateM.bind_of_ok done]
    exact rememberParent_run sep ids t'
  · exact fun err t' failed => EStateM.bind_of_error failed

end TreeM

/-! ## How the records are divided -/

namespace Tree

variable {t : Tree} {n : Node LeafEntry} {neu : LeafEntry} {leaf new : PageID}

/-- A greater key alone on the new page. -/
theorem divided_append {r : Node LeafEntry}
    (strict : n.collect.Pairwise fun a b => a.key < b.key) (filled : n.live ≠ [])
    (greater : ∀ e ∈ n.live, e.key < neu.key)
    (appended : (Node.init ⟨leaf, n.hdr.next, 0⟩ : Node LeafEntry).append neu = some r) :
    Divided n (n.writeHeader { n.hdr with next := new }) r neu leaf new neu.key := by
  obtain ⟨live, hdr⟩ := Node.append_eq_some appended
  rw [Node.live_init, nil_append] at live
  rw [Node.hdr_init] at hdr
  refine ⟨?_, filled, by simp [live], greater, by simp [live], strict, ?_, rfl, rfl, by rw [hdr],
    by rw [hdr]⟩
  · rw [live, Node.live_writeHeader]
    exact perm_append_singleton neu n.live
  · rw [Node.collect, live]
    exact pairwise_singleton _ _

theorem divided_cut {l r : Node LeafEntry} {mid : Nat} {first : LeafEntry}
    (strict : n.collect.Pairwise fun a b => a.key < b.key)
    (absent : ∀ e ∈ n.live, e.key ≠ neu.key) (positive : 0 < mid)
    (isFirst : (n.collectWith neu).drop mid = first :: (n.collectWith neu).drop (mid + 1))
    (liveL : l.live = (n.collectWith neu).take mid)
    (hdrL : l.hdr = ⟨n.hdr.prev, new, 0⟩)
    (liveR : r.live = (n.collectWith neu).drop mid)
    (hdrR : r.hdr = ⟨leaf, n.hdr.next, 0⟩) :
    Divided n l r neu leaf new first.key := by
  have perm := n.collectWith_perm neu
  have ordered : (n.collectWith neu).Pairwise fun a b => a.key < b.key := by
    refine Slots.sortBy_strict Record.key ?_
    rw [map_append, nodup_append]
    refine ⟨pairwise_map.mpr (strict.imp ne_of_lt), nodup_singleton _, ?_⟩
    rintro a memberA b memberB rfl
    obtain ⟨e, member, same⟩ := mem_map.mp memberA
    exact absent e (Node.mem_collect.mp member) (same.trans (by simpa using memberB))
  generalize n.collectWith neu = all at *
  have cut := take_append_drop mid all
  have ordered' := ordered
  rw [← cut, pairwise_append] at ordered'
  obtain ⟨orderedL, orderedR, across⟩ := ordered'
  have isFirst' : first ∈ all.drop mid := by simp [isFirst]
  refine ⟨?_, ?_, ?_, ?_, ?_, ?_, ?_, by rw [hdrL], by rw [hdrL], by rw [hdrR], by rw [hdrR]⟩
  · rw [liveL, liveR, cut]
    exact perm
  · rw [liveL]
    intro none
    obtain zero | nothing := take_eq_nil_iff.mp none
    · omega
    · rw [nothing] at isFirst'
      simp at isFirst'
  · rw [liveR, isFirst]
    simp
  · rw [liveL]
    exact fun e member => across e member first isFirst'
  · rw [liveR]
    rw [isFirst, pairwise_cons] at orderedR
    rw [isFirst]
    exact forall_mem_cons.mpr ⟨le_rfl, fun e later => (orderedR.1 e later).le⟩
  · rw [Node.collect, Slots.sortBy_eq_of_perm Record.key (by rw [liveL]) orderedL]
    exact orderedL
  · rw [Node.collect, Slots.sortBy_eq_of_perm Record.key (by rw [liveR]) orderedR]
    exact orderedR

/-! ## Splitting a full leaf -/

/-- The operation succeeds, and the tree is sound with one more record. -/
def Gains (t : Tree) (neu : LeafEntry) (result : EStateM.Result Nerr Tree Unit) : Prop :=
  ∃ t', result = .ok () t' ∧ t'.Sound ∧ t'.Owned ∧ t'.contents.Perm (neu :: t.contents)

/-- The operation fails. -/
def Fails (result : EStateM.Result Nerr Tree Unit) : Prop := ∃ err t', result = .error err t'

/-- The tree gains the record if the condition holds, and otherwise the operation fails. -/
def GainsIff (t : Tree) (neu : LeafEntry) (condition : Prop)
    (result : EStateM.Result Nerr Tree Unit) : Prop :=
  (condition → t.Gains neu result) ∧ (¬ condition → Fails result)

theorem GainsIff.congr {t' : Tree} {condition condition' : Prop} {result : EStateM.Result Nerr Tree Unit}
    (gains : t'.GainsIff neu condition' result) (same : condition ↔ condition')
    (contents : t'.contents = t.contents) : t.GainsIff neu condition result := by
  refine ⟨fun holds => ?_, fun fails => gains.2 fun holds => fails (same.mpr holds)⟩
  obtain ⟨u, done, sound, owned, perm⟩ := gains.1 (same.mp holds)
  exact ⟨u, done, sound, owned, contents ▸ perm⟩

end Tree

namespace TreeM

open Tree

/-- A leaf that a search has reached, in a sound tree. -/
structure Reached (t : Tree) (up left : List Place) (x : Place) (right : List Place)
    (n : Node LeafEntry) : Prop where
  sound : t.Sound
  owned : t.Owned
  split : t.leaves = left ++ x :: right
  path : Descent t.children (none, t.root) up left x right
  length : up.length = t.height - 1
  pinned : t.pinLeaf x.2 = .ok n

variable {s t : Tree} {up left right : List Place} {x : Place} {n l r : Node LeafEntry}
  {neu : LeafEntry} {sep : Key}

section

variable (reached : Reached t up left x right n)

include reached

theorem Reached.strict : n.collect.Pairwise fun a b => a.key < b.key := by
  obtain ⟨n', pinned, -, strict, -⟩ := reached.sound.leaf reached.split
  rw [reached.pinned] at pinned
  cases pinned
  exact strict

theorem Reached.next : n.hdr.next = (right.head?.map Prod.snd).getD 0 := by
  obtain ⟨n', pinned, -, -, -, -, -, next⟩ := reached.sound.leaf reached.split
  rw [reached.pinned] at pinned
  cases pinned
  exact next

/-- A record of the leaf is a record of the tree. -/
theorem Reached.mem_contents {e : LeafEntry} (member : e ∈ n.live) : e ∈ t.contents := by
  rw [contents, mem_flatMap]
  refine ⟨x, by simp [reached.split], ?_⟩
  rw [leafRecords_of_pinned reached.pinned]
  exact Node.mem_collect.mpr member

theorem Reached.holds_key {e : LeafEntry} (member : e ∈ n.live) : Holds e.key x right := by
  obtain ⟨n', pinned, -, -, least, greatest, -⟩ := reached.sound.leaf reached.split
  rw [reached.pinned] at pinned
  cases pinned
  exact ⟨fun l isL => least l isL e member, fun h isH => greatest h isH e member⟩

end

/-- A divided leaf is still found on the path to it. -/
theorem LeafSplit.descend {s₁ : Tree} {key : Key} (done : t.LeafSplit s₁ x right l r)
    (reached : Reached t up left x right n) (holds : Holds key x right) :
    s₁.descend key = .ok (x.2, up.map Prod.snd) := by
  obtain ⟨path, upper, higher⟩ :=
    done.upper reached.sound reached.owned reached.split reached.path reached.length
  refine descend_of_reached path (by rw [done.height, reached.length]) upper.inner ?_
    (reached.split ▸ reached.sound.ordered) holds
  rw [above_succ, higher, path.layer_eq, ← reached.split]
  exact Nodup.of_map _ reached.sound.nodup

/-- The new page of a divided leaf arrives exactly when the splits over it fit. -/
theorem LeafSplit.arrives {s₁ : Tree} (done : t.LeafSplit s₁ x right l r)
    (reached : Reached t up left x right n)
    (divided : Divided n l r neu x.2 t.alloc.alloc.1 sep) (keyOk : KeyOk sep)
    (holds : Holds neu.key x right) :
    t.GainsIff neu (t.splitsFit (up.map Prod.snd) sep = true)
      (insertSeparator (up.map Prod.snd) sep t.alloc.alloc.1 s₁) := by
  obtain ⟨sound, owned, split, path, length, pinned⟩ := reached
  have ordered := divided.ordered sound split pinned holds
  obtain ⟨path₁, upper, -⟩ := done.upper sound owned split path length
  have root : s₁.root ≠ 0 := by
    rw [done.root]
    exact sound.root_ne_zero
  have same : s₁.splitsFit (up.map Prod.snd) sep = t.splitsFit (up.map Prod.snd) sep := by
    refine splitsFit_congr fun id member => ?_
    obtain ⟨y, onPath, rfl⟩ := mem_map.mp member
    refine done.inner_pages sound owned split y ?_
    rw [Tree.inner, ← length]
    exact path.path_mem_above y onPath
  rw [← same]
  let e : InternalEntry := ⟨sep, t.alloc.alloc.1, keyOk, t.alloc.alloc_ne_zero⟩
  obtain ⟨grafts, fails⟩ := insertSeparator_spec up (e := e) root path₁ upper ordered
  refine ⟨fun fits => ?_, fails⟩
  obtain ⟨t', depth, run, grafted⟩ := grafts fits
  exact ⟨t', run, done.sound sound owned split path length pinned divided holds grafted⟩

/-- A key greater than all on a full leaf goes on a page of its own. -/
theorem splitLeafAppend_spec {leftMax : Key} (reached : Reached t up left x right n)
    (same : s.SameTree t) (unhinted : s.hintParent = 0) (most : n.maxKey = some leftMax)
    (greater : leftMax < neu.key) (holds : Holds neu.key x right) :
    t.GainsIff neu (t.splitsFit (up.map Prod.snd) neu.key = true)
      (splitLeafAppend x.2 n leftMax neu s) := by
  have spec := n.maxKey_spec
  rw [most] at spec
  obtain ⟨⟨last, isLast, lastKey⟩, most'⟩ := spec
  obtain ⟨r, appended⟩ : ∃ r, (Node.init ⟨x.2, n.hdr.next, 0⟩ : Node LeafEntry).append neu =
      some r := by
    have := neu.fits
    rw [Node.append, dif_pos]
    · exact ⟨_, rfl⟩
    · simp only [Node.lower, Node.init, length_nil, record_size_leaf, maxLeafRecord,
        logicalPageSize, pageHeaderSize, headerSize, slotSize] at *
      omega
  have divided : Divided n (n.writeHeader { n.hdr with next := t.alloc.alloc.1 }) r neu x.2
      t.alloc.alloc.1 neu.key :=
    divided_append reached.strict (ne_nil_of_mem isLast)
      (fun e member => (most' e member).trans_lt greater) appended
  let s₀ : Tree := { s with hintRight := 0, hintMax := [] }
  have same₀ : s₀.SameTree t := { same with }
  obtain ⟨t₁, linked, done, parent⟩ := linkBack_run (r := r)
    (l := n.writeHeader { n.hdr with next := s₀.alloc.alloc.1 }) reached.sound reached.owned
    reached.split reached.next same₀
  have new : s₀.alloc.alloc.1 = t.alloc.alloc.1 := by rw [same₀.alloc]
  -- the pointers are set; the new page is remembered before its separator goes up
  obtain ⟨t₂, noted, same₂, parent₂⟩ := noteRight_run t.alloc.alloc.1 neu.key t₁
  have run : splitLeafAppend x.2 n leftMax neu s =
      attachRight leftMax neu.key t.alloc.alloc.1 t₂ := by
    rw [splitLeafAppend, modify_bind, newPage_bind, appended]
    dsimp only
    rw [write_bind, write_bind, EStateM.bind_of_ok linked, new, EStateM.bind_of_ok noted]
  rw [run]
  have done₂ := done.of_same same₂
  rw [new] at done₂
  have found := LeafSplit.descend done₂ reached (reached.holds_key isLast)
  rw [record_key_leaf] at lastKey
  rw [lastKey] at found
  obtain ⟨succeeds, fails⟩ := LeafSplit.arrives done₂ reached divided neu.keyOk holds
  have attach := attachRight_run neu.key t.alloc.alloc.1
    (by rw [parent₂, parent]; exact unhinted) found
  constructor
  · intro fits
    obtain ⟨t', done', sound', owned', contents'⟩ := succeeds fits
    obtain ⟨t'', done'', same''⟩ := attach.1 t' done'
    exact ⟨t'', done'', sound'.of_same same'', owned'.of_same same'', by
      rwa [same''.contents_eq]⟩
  · intro misfit
    obtain ⟨err, t', failed⟩ := fails misfit
    exact ⟨err, t', attach.2 err t' failed⟩

/-- The first key of the right part, where the records of the leaf and a new one are cut. -/
def cutSeparator (n : Node LeafEntry) (neu : LeafEntry) : Key :=
  let all := Slots.sortBy Record.key (n.collect ++ [neu])
  ((all.drop ((splitLeafIndex all).getD 0)).head?.map LeafEntry.key).getD []

/-- The records of a full leaf and a new one are cut in two. -/
theorem splitLeafAndInsert_spec (reached : Reached t up left x right n) (same : s.SameTree t)
    (filled : n.live ≠ []) (absent : ∀ e ∈ n.live, e.key ≠ neu.key)
    (holds : Holds neu.key x right) :
    t.GainsIff neu (t.splitsFit (up.map Prod.snd) (cutSeparator n neu) = true)
      (splitLeafAndInsert x.2 (up.map Prod.snd) n.hdr n.collect neu s) := by
  have perm := n.collectWith_perm neu
  have two : 2 ≤ (n.collectWith neu).length := by
    rw [perm.length_eq, length_cons]
    have := length_pos_iff.mpr filled
    omega
  obtain ⟨cut, positive', small', allowed'⟩ := exists_cut two perm n.pageBytes_live
  obtain ⟨mid, chosen, positive, small, fitsL, fitsR⟩ :=
    splitLeafIndex_of_cut positive' small' allowed'
  rw [leafFits_iff] at fitsL fitsR
  have isFirst := drop_eq_getElem_cons small
  have separator : cutSeparator n neu = ((n.collectWith neu).get ⟨mid, small⟩).key := by
    rw [cutSeparator, chosen, Option.getD_some, isFirst]
    rfl
  let s₀ : Tree := { s with hintRight := 0, hintMax := [], hintParent := 0 }
  have same₀ : s₀.SameTree t := { same with }
  have new : s₀.alloc.alloc.1 = t.alloc.alloc.1 := by rw [same₀.alloc]
  obtain ⟨l, builtL, liveL, hdrL⟩ :=
    Node.rebuild_of_fits ⟨n.hdr.prev, s₀.alloc.alloc.1, 0⟩ fitsL
  obtain ⟨r, builtR, liveR, hdrR⟩ := Node.rebuild_of_fits ⟨x.2, n.hdr.next, 0⟩ fitsR
  obtain ⟨t₁, linked, done, -⟩ :=
    linkBack_run (l := l) (r := r) reached.sound reached.owned reached.split reached.next same₀
  have run : splitLeafAndInsert x.2 (up.map Prod.snd) n.hdr n.collect neu s =
      insertSeparator (up.map Prod.snd) (cutSeparator n neu) t.alloc.alloc.1 t₁ := by
    rw [splitLeafAndInsert, clearHint, modify_bind, if_neg (not_lt.mpr two), chosen]
    dsimp only
    rw [newPage_bind, EStateM.bind_of_ok (rebuilt_of_some builtL),
      EStateM.bind_of_ok (rebuilt_of_some builtR), write_bind, write_bind,
      EStateM.bind_of_ok linked, new, cutSeparator, chosen, Option.getD_some]
  rw [new] at hdrL
  have divided := divided_cut reached.strict absent positive isFirst liveL hdrL liveR hdrR
  rw [run, separator]
  exact LeafSplit.arrives done reached divided (LeafEntry.keyOk _) holds

end TreeM

end NextSQL.Btree
