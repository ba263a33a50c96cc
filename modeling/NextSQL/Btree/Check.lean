import NextSQL.Btree.NodeFacts
import NextSQL.Btree.Sound

/-!
# The check and soundness

The walk of a tree visits a subtree after the other, each from its root down,
while soundness is a condition on layers. The two agree: the pages a walk has
seen are the pages of the layers in another order (`dfs_perm`), and the bounds
it hands down are the bounds of the neighbours (`walk_iff`).
-/

namespace NextSQL.Btree

open Layers List

namespace Tree

variable {t : Tree}

/-- The pages of a subtree in the order of the walk. -/
def dfs (t : Tree) : Nat → Place → List PageID
  | 0, x => [x.2]
  | level + 1, x => x.2 :: (t.children x).flatMap (t.dfs level)

theorem dfs_perm (level : Nat) (xs : List Place) : (xs.flatMap (t.dfs level)).Perm
      ((above t.children level xs ++ layer t.children level xs).map Prod.snd) := by
  induction level generalizing xs with
  | zero =>
    have same : xs.flatMap (t.dfs 0) = xs.map Prod.snd := flatMap_pure_eq_map Prod.snd xs
    rw [same]
    rfl
  | succ level ih =>
    have heads : (xs.flatMap (t.dfs (level + 1))).Perm
        (xs.map Prod.snd ++ (expand t.children xs).flatMap (t.dfs level)) := by
      induction xs with
      | nil => rfl
      | cons x xs ih =>
        simp only [flatMap_cons, map_cons, expand_cons, flatMap_append, dfs, cons_append]
        refine Perm.cons _ ((Perm.append_left _ ih).trans ?_)
        rw [← append_assoc, ← append_assoc]
        exact perm_append_comm.append_right _
    refine heads.trans ?_
    rw [above_succ_top, layer_succ_top, append_assoc, map_append]
    exact (ih (expand t.children xs)).append_left _

/-- The outcome of a visit: a condition on the nodes visited, no page twice, none seen
before, and what is returned. -/
def Visited (good : Prop) (under below seen : List PageID)
    (out : List PageID × List PageID) : Prop :=
  good ∧ under.Nodup ∧ (∀ id ∈ under, id ∉ seen) ∧ out = (below, under.reverse ++ seen)

variable {next : Option Place}

variable {xs : List Place} {seen : List PageID} {out : List PageID × List PageID}

theorem walkAll_iff {visit : PageID → Option Key → Option Key → List PageID →
      Except Nerr (List PageID × List PageID)} {good : Option Place → Place → Option Place → Prop}
    {under below : Place → List PageID}
    (spec : ∀ before x next seen out, visit x.2 x.1 (next.bind Prod.fst) seen = .ok out ↔
      Visited (good before x next) (under x) (below x) seen out) (before : Option Place) :
    walkAll visit xs (next.bind Prod.fst) seen = .ok out ↔
      Visited (Along good before xs next) (xs.flatMap under) (xs.flatMap below) seen out := by
  induction xs generalizing before seen out with
  | nil => simp [walkAll, Visited, eq_comm]
  | cons x xs ih =>
    have bound : upperBound xs (next.bind Prod.fst) = (xs.head?.or next).bind Prod.fst := by
      cases xs <;> rfl
    obtain ⟨lo, id⟩ := x
    rw [walkAll, bound]
    simp only [Except.bind_eq_ok_iff, spec before (lo, id), Prod.exists, Except.ok.injEq,
      ih (some (lo, id)), Visited, along_cons, flatMap_cons, nodup_append,
      mem_append, reverse_append]
    constructor
    · rintro ⟨_, _, ⟨first, nodup, unseen, ⟨⟩⟩, _, _, ⟨rest, nodup', unseen', ⟨⟩⟩, rfl⟩
      refine ⟨⟨first, rest⟩, ⟨nodup, nodup', ?_⟩, ?_, by rw [append_assoc]⟩
      · rintro a memberA b memberB rfl
        exact unseen' a memberB (by simp [memberA])
      · rintro i (member | member)
        · exact unseen i member
        · exact fun old => unseen' i member (by simp [old])
    rintro ⟨⟨first, rest⟩, ⟨nodup, nodup', apart⟩, unseen, rfl⟩
    refine ⟨_, _, ⟨first, nodup, fun i member => unseen i (.inl member), rfl⟩, _, _,
      ⟨rest, nodup', ?_, rfl⟩, by rw [append_assoc]⟩
    rintro i member seenNow
    obtain here | old := mem_append.mp seenNow
    · exact apart i (mem_reverse.mp here) i member rfl
    · exact unseen i (.inr member) old

/-! ## One page -/

theorem pairwise_iff_increasing {ρ : Type} [Record ρ] {records : List ρ} :
    ¬ increasing records = false ↔ records.Pairwise fun a b => Record.key a < Record.key b := by
  rw [Bool.not_eq_false, increasing_iff]

variable {n : Node LeafEntry}

/-- The least and the greatest key stand for all keys of an ordered leaf. -/
theorem below_iff (ordered : n.collect.Pairwise fun a b => a.key < b.key) (l : Key) :
    (¬ ∃ first ∈ n.collect.head?, first.key < l) ↔ ∀ e ∈ n.live, l ≤ e.key := by
  simp only [← Node.mem_collect]
  cases same : n.collect with
  | nil => simp
  | cons first rest =>
    rw [same, pairwise_cons] at ordered
    simp only [head?_cons, Option.mem_def, Option.some.injEq, exists_eq_left', not_lt,
      mem_cons, forall_eq_or_imp]
    exact ⟨fun least => ⟨least, fun e later => least.trans (ordered.1 e later).le⟩, And.left⟩

theorem notBelow_iff (ordered : n.collect.Pairwise fun a b => a.key < b.key) (h : Key) :
    (¬ ∃ last ∈ n.collect.getLast?, h ≤ last.key) ↔ ∀ e ∈ n.live, e.key < h := by
  simp only [← Node.mem_collect]
  obtain same | ⟨rest, last, same⟩ := eq_nil_or_concat n.collect
  · simp [same]
  rw [same, concat_eq_append, pairwise_append] at ordered
  rw [same, concat_eq_append, getLast?_concat]
  simp only [Option.mem_def, Option.some.injEq, exists_eq_left', not_le, mem_append,
    mem_singleton, or_imp, forall_and, forall_eq]
  exact ⟨fun greatest => ⟨fun e earlier => (ordered.2.2 e earlier last (by simp)).trans greatest,
    greatest⟩, And.right⟩

theorem collect_eq_nil_iff : n.collect = [] ↔ n.live = [] := by
  have perm := n.collect_perm
  constructor
  · intro none
    rw [none] at perm
    exact perm.nil_eq.symm
  · intro none
    rw [none] at perm
    exact perm.eq_nil

variable {x : Place}

theorem walk_leaf_iff (before : Option Place) :
    t.walk 0 x.2 x.1 (next.bind Prod.fst) seen = .ok out ↔
      Visited (t.InBounds before x next) [x.2] [x.2] seen out := by
  rw [walk, Visited, InBounds]
  by_cases again : x.2 ∈ seen
  · rw [if_pos again]
    simp [again]
  rw [if_neg again, Except.bind_eq_ok_iff]
  have fresh : ∀ id ∈ [x.2], id ∉ seen := by simpa using again
  simp only [nodup_singleton, true_and, reverse_singleton, singleton_append]
  rw [exists_and_right.symm]
  refine exists_congr fun n => ?_
  rw [and_assoc]
  refine and_congr_right fun _ => ?_
  by_cases empty : x.2 ≠ t.root ∧ n.collect = []
  · rw [if_pos empty]
    rw [collect_eq_nil_iff] at empty
    simp [empty.1, empty.2]
  rw [if_neg empty]
  have filled : x.2 ≠ t.root → n.live ≠ [] := fun other none =>
    empty ⟨other, collect_eq_nil_iff.mpr none⟩
  by_cases disordered : increasing n.collect = false
  · rw [if_pos disordered]
    have not : ¬ n.collect.Pairwise fun a b => a.key < b.key := fun ordered =>
      pairwise_iff_increasing.mpr ordered disordered
    simp [not]
  rw [if_neg disordered]
  have ordered := pairwise_iff_increasing.mp disordered
  have least : (¬ ∃ l ∈ x.1, ∃ first ∈ n.collect.head?, first.key < l) ↔
      ∀ l ∈ x.1, ∀ e ∈ n.live, l ≤ e.key := by
    simp only [not_exists, not_and, ← below_iff ordered]
  have greatest : (¬ ∃ h ∈ next.bind Prod.fst, ∃ last ∈ n.collect.getLast?, h ≤ last.key) ↔
      ∀ h ∈ next.bind Prod.fst, ∀ e ∈ n.live, e.key < h := by
    simp only [not_exists, not_and, ← notBelow_iff ordered]
  rw [← least, ← greatest]
  by_cases low : ∃ l ∈ x.1, ∃ first ∈ n.collect.head?, first.key < l
  · rw [if_pos low]
    exact ⟨(fun done => by cases done), fun visited => absurd low visited.1.2.2.1⟩
  rw [if_neg low]
  by_cases high : ∃ h ∈ next.bind Prod.fst, ∃ last ∈ n.collect.getLast?, h ≤ last.key
  · rw [if_pos high]
    exact ⟨(fun done => by cases done), fun visited => absurd high visited.1.2.2.2⟩
  rw [if_neg high]
  exact ⟨fun done => ⟨⟨filled, ordered, low, high⟩, fresh, (Except.ok.inj done).symm⟩,
    fun visited => by rw [visited.2.2]⟩

/-! ## The walk -/

theorem subtreeOk_succ {level : Nat} {before : Option Place} :
    t.SubtreeOk (level + 1) before x next ↔
      t.InnerOk x ∧ Along (t.SubtreeOk level) none (t.children x) next := by
  rw [SubtreeOk, above_succ_top, layer_succ_top, along_subtreeOk_iff]
  simp only [expand_cons, expand_nil, append_nil, mem_append, mem_singleton, or_imp,
    forall_and, forall_eq, and_assoc]

/-- **The walk of a subtree.** It succeeds exactly when the subtree is as the check wants
it and has no page twice and none seen before. -/
theorem walk_iff (level : Nat) : ∀ (before : Option Place) (x : Place) (next : Option Place)
    (seen : List PageID) (out : List PageID × List PageID),
    t.walk level x.2 x.1 (next.bind Prod.fst) seen = .ok out ↔
      Visited (t.SubtreeOk level before x next) (t.dfs level x)
        ((layer t.children level [x]).map Prod.snd) seen out := by
  induction level with
  | zero =>
    intro before x next seen out
    rw [walk_leaf_iff none]
    simp [SubtreeOk, above, dfs]
  | succ level ih =>
    intro before x next seen out
    have leaves : (t.children x).flatMap (fun y => (layer t.children level [y]).map Prod.snd) =
        (layer t.children (level + 1) [x]).map Prod.snd := by
      rw [layer_succ_top, expand_cons, expand_nil, append_nil]
      induction t.children x with
      | nil => simp
      | cons y ys ihy =>
        rw [flatMap_cons, ihy, show y :: ys = [y] ++ ys from rfl, layer_append, map_append]
    rw [walk, Visited, subtreeOk_succ, dfs, ← leaves]
    by_cases again : x.2 ∈ seen
    · rw [if_pos again]
      simp [again]
    rw [if_neg again, Except.bind_eq_ok_iff]
    constructor
    · rintro ⟨n, pinned, done⟩
      have same : t.children x = places x.1 n := by rw [children, pinned]
      split at done
      · cases done
      next leftmost =>
      split at done
      · cases done
      next ordered =>
      rw [walkAll_iff (ih ·) none, ← same, Visited] at done
      obtain ⟨good, nodup, unseen, rfl⟩ := done
      refine ⟨⟨⟨n, pinned, leftmost, pairwise_iff_increasing.mp ordered⟩, good⟩,
        nodup_cons.mpr ⟨fun member => unseen _ member mem_cons_self, nodup⟩, ?_, ?_⟩
      · refine forall_mem_cons.mpr ⟨again, ?_⟩
        exact fun id member => fun old => unseen id member (mem_cons_of_mem _ old)
      · simp
    rintro ⟨⟨⟨n, pinned, leftmost, ordered⟩, good⟩, nodup, unseen, rfl⟩
    have same : t.children x = places x.1 n := by rw [children, pinned]
    rw [nodup_cons] at nodup
    refine ⟨n, pinned, ?_⟩
    rw [if_neg leftmost, if_neg (pairwise_iff_increasing.mpr ordered),
      walkAll_iff (ih ·) none, ← same]
    refine ⟨good, nodup.2, ?_, by simp⟩
    intro id member old
    obtain rfl | old := mem_cons.mp old
    · exact nodup.1 member
    · exact unseen id (mem_cons_of_mem _ member) old

theorem checkChain_iff (before : Option Place) :
    t.checkChain ((before.map Prod.snd).getD 0) (xs.map Prod.snd) = .ok () ↔
      Along t.Linked before xs none := by
  induction xs generalizing before with
  | nil => simp [checkChain]
  | cons x xs ih =>
    have next : (xs.map Prod.snd).headD 0 = ((xs.head?.or none).map Prod.snd).getD 0 := by
      cases xs <;> rfl
    have rest := ih (some x)
    rw [Option.map_some, Option.getD_some] at rest
    rw [map_cons, checkChain, Except.bind_eq_ok_iff, along_cons, ← rest, Linked, next,
      ← exists_and_right]
    refine exists_congr fun hdr => ?_
    rw [and_assoc]
    refine and_congr_right fun _ => ?_
    by_cases prev : hdr.prev = (before.map Prod.snd).getD 0
    · rw [if_neg (not_not_intro prev)]
      by_cases follows : hdr.next = ((xs.head?.or none).map Prod.snd).getD 0
      · rw [if_neg (not_not_intro follows)]
        exact ⟨fun done => ⟨⟨prev, follows⟩, done⟩, And.right⟩
      · rw [if_pos follows]
        exact ⟨fun done => (nomatch done), fun linked => absurd linked.1.2 follows⟩
    · rw [if_pos prev]
      exact ⟨fun done => (nomatch done), fun linked => absurd linked.1.1 prev⟩

/-- **The check and soundness agree.** -/
theorem check_iff_sound : t.Check ↔ t.Sound := by
  rw [Check, checkLocked]
  by_cases flat : t.height < 1
  · rw [if_pos flat]
    exact ⟨fun done => (nomatch done), fun sound => absurd sound.height_pos (by omega)⟩
  rw [if_neg flat]
  by_cases unnoted : t.metaPage = 0 ∧ t.noted ≠ (t.root, t.height)
  · rw [if_pos unnoted]
    exact ⟨fun done => (nomatch done), fun sound => absurd (sound.noted unnoted.1) unnoted.2⟩
  rw [if_neg unnoted, Except.bind_eq_ok_iff]
  have walked := walk_iff (t := t) (t.height - 1) none (none, t.root) none []
  simp only [Option.bind_none, Visited] at walked
  simp only [walked]
  have perm := dfs_perm (t := t) (t.height - 1) [(none, t.root)]
  rw [flatMap_singleton] at perm
  have nodup : (t.dfs (t.height - 1) (none, t.root)).Nodup ↔ t.ids.Nodup := perm.nodup_iff
  have filled : (∀ x ∈ t.inner, t.InnerOk x) → t.leaves ≠ [] := by
    intro ok none
    have head := head_layer ok
    rw [← leaves, none] at head
    cases head
  have chained : (∀ x ∈ t.inner, t.InnerOk x) →
      (t.checkLeafChain (t.leaves.map Prod.snd) = .ok () ↔ Along t.Linked none t.leaves none) := by
    intro ok
    rw [checkLeafChain, if_neg (by simpa using filled ok)]
    exact checkChain_iff none
  constructor
  · rintro ⟨_, ⟨⟨inner, bounds⟩, once, -, rfl⟩, chain⟩
    exact ⟨by omega, fun primary => by_contra fun differ => unnoted ⟨primary, differ⟩, inner,
      nodup.mp once, bounds, (chained inner).mp chain⟩
  · intro sound
    exact ⟨_, ⟨⟨sound.inner, sound.bounds⟩, nodup.mpr sound.nodup, by simp, rfl⟩,
      (chained sound.inner).mpr sound.chain⟩

end Tree

end NextSQL.Btree
