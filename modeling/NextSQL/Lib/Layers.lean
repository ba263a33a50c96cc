import Mathlib.Data.List.Nodup
import Mathlib.Data.List.Flatten
import Mathlib.Data.List.Pairwise

/-!
# The layers of a tree

A tree is given by a function that lists the children of a node, in order. Its
layers are the nodes at each depth, from left to right: a layer is the
concatenation of the children of the layer over it. A change that inserts or
removes a node touches one place of each layer, so a layer is split around the
node a search goes through (`Descent`), and the two sides are left alone.

Conditions on a layer are often conditions on a node and its neighbours.
`Along` states such a condition for every place of a list, and
`along_append` cuts it in two.
-/

open List

namespace Layers

universe u

variable {α : Type u}

/-! ## Conditions on neighbours -/

/-- Every element of the list stands in the relation to its neighbours, the list
being followed by `next` and preceded by `before`. -/
def Along (P : Option α → α → Option α → Prop) : Option α → List α → Option α → Prop
  | _, [], _ => True
  | before, x :: xs, next => P before x (xs.head?.or next) ∧ Along P (some x) xs next

variable {P Q : Option α → α → Option α → Prop} {before next : Option α}

@[simp] theorem along_nil : Along P before [] next := trivial

variable {xs : List α}

@[simp] theorem along_cons {x : α} : Along P before (x :: xs) next ↔
      P before x (xs.head?.or next) ∧ Along P (some x) xs next := Iff.rfl

theorem along_append {ys : List α} : Along P before (xs ++ ys) next ↔
      Along P before xs (ys.head?.or next) ∧ Along P (xs.getLast?.or before) ys next := by
  induction xs generalizing before with
  | nil => simp
  | cons x xs ih =>
    have first : (xs ++ ys).head?.or next = xs.head?.or (ys.head?.or next) := by
      cases xs <;> simp
    have last : (x :: xs).getLast?.or before = xs.getLast?.or (some x) := by
      rw [getLast?_cons]
      cases xs.getLast? <;> rfl
    rw [cons_append, along_cons, along_cons, ih, first, last, and_assoc]

/-- A condition that depends on the element and its neighbours only may be
replaced by another that agrees with it there. -/
theorem Along.imp_of_mem (holds : Along P before xs next)
    (implies : ∀ x ∈ xs, ∀ p n, P p x n → Q p x n) : Along Q before xs next := by
  induction xs generalizing before with
  | nil => trivial
  | cons x xs ih =>
    exact ⟨implies x mem_cons_self _ _ holds.1,
      ih holds.2 fun y member => implies y (mem_cons_of_mem x member)⟩

/-- What the relation says of every element, whatever its neighbours. -/
theorem Along.forall_mem {R : α → Prop} (holds : Along P before xs next)
    (implies : ∀ p x n, P p x n → R x) : ∀ x ∈ xs, R x := by
  induction xs generalizing before with
  | nil => simp
  | cons x xs ih =>
    exact forall_mem_cons.mpr ⟨implies _ _ _ holds.1, ih holds.2⟩

/-! ## Layers -/

section Children

variable (children : α → List α)

/-- The children of all nodes of a list, in order. -/
def expand (xs : List α) : List α := xs.flatMap children

/-- The nodes `depth` steps under the nodes of the list. -/
def layer : Nat → List α → List α
  | 0, xs => xs
  | depth + 1, xs => expand children (layer depth xs)

/-- The nodes of the layers over the layer at `depth`. -/
def above : Nat → List α → List α
  | 0, _ => []
  | depth + 1, xs => above depth xs ++ layer children depth xs

variable {children}

@[simp] theorem expand_nil : expand children [] = [] := rfl

@[simp] theorem expand_cons (x : α) (xs : List α) :
    expand children (x :: xs) = children x ++ expand children xs := rfl

@[simp] theorem expand_append (xs ys : List α) :
    expand children (xs ++ ys) = expand children xs ++ expand children ys :=
  flatMap_append

variable {xs : List α}

@[simp] theorem layer_zero (xs : List α) : layer children 0 xs = xs := rfl

theorem layer_succ (depth : Nat) (xs : List α) :
    layer children (depth + 1) xs = expand children (layer children depth xs) := rfl

theorem above_succ (depth : Nat) (xs : List α) :
    above children (depth + 1) xs = above children depth xs ++ layer children depth xs := rfl

/-- One step from the top. -/
theorem layer_succ_top (depth : Nat) (xs : List α) :
    layer children (depth + 1) xs = layer children depth (expand children xs) := by
  induction depth with
  | zero => rfl
  | succ depth ih => rw [layer_succ, ih, layer_succ]

theorem above_succ_top (depth : Nat) (xs : List α) :
    above children (depth + 1) xs = xs ++ above children depth (expand children xs) := by
  induction depth with
  | zero => simp [above]
  | succ depth ih =>
    rw [above_succ, ih, layer_succ_top, above_succ, append_assoc]

@[simp] theorem layer_append (depth : Nat) (xs ys : List α) :
    layer children depth (xs ++ ys) = layer children depth xs ++ layer children depth ys := by
  induction depth with
  | zero => rfl
  | succ depth ih => simp only [layer_succ, ih, expand_append]

@[simp] theorem layer_nil (depth : Nat) : layer children depth [] = [] := by
  induction depth with
  | zero => rfl
  | succ depth ih => rw [layer_succ, ih, expand_nil]

variable {depth : Nat} {x : α}

theorem mem_above : x ∈ above children depth xs ↔ ∃ d < depth, x ∈ layer children d xs := by
  induction depth with
  | zero => simp [above]
  | succ depth ih =>
    rw [above_succ, mem_append, ih]
    constructor
    · rintro (⟨d, small, member⟩ | member)
      · exact ⟨d, by omega, member⟩
      · exact ⟨depth, by omega, member⟩
    rintro ⟨d, small, member⟩
    obtain small | rfl := Nat.lt_succ_iff_lt_or_eq.mp small
    · exact .inl ⟨d, small, member⟩
    · exact .inr member

/-- Two ways to list children that agree on the nodes over a layer give the same
layers down to it. -/
theorem layer_congr {other : α → List α}
    (same : ∀ x ∈ above children depth xs, other x = children x) :
    layer other depth xs = layer children depth xs ∧
      above other depth xs = above children depth xs := by
  induction depth with
  | zero => exact ⟨rfl, rfl⟩
  | succ depth ih =>
    have ⟨layers, aboves⟩ := ih fun x member => same x (mem_append_left _ member)
    refine ⟨?_, by rw [above_succ, layers, aboves, above_succ]⟩
    rw [layer_succ, layers, layer_succ]
    exact flatMap_congr fun x member => same x (mem_append_right _ member)

/-- A change of the children of one node of a layer changes the next layer there only. -/
theorem layer_succ_of_change {other : α → List α} {left right : List α}
    (split : layer children depth xs = left ++ x :: right)
    (higher : ∀ y ∈ above children depth xs, other y = children y)
    (beside : ∀ y ∈ left ++ right, other y = children y) :
    layer other (depth + 1) xs = expand children left ++ other x ++ expand children right := by
  have sides : ∀ ys : List α, (∀ y ∈ ys, other y = children y) →
      expand other ys = expand children ys := fun ys agree => flatMap_congr agree
  rw [layer_succ, (layer_congr higher).1, split, expand_append, expand_cons,
    sides left fun y member => beside y (mem_append_left _ member),
    sides right fun y member => beside y (mem_append_right _ member), append_assoc]

end Children

/-! ## Searches -/

/-- A search from the root: the nodes it has left behind, the last one first, and
the layer of the node it has reached, split around that node. -/
inductive Descent (children : α → List α) (root : α) :
    List α → List α → α → List α → Prop where
  | root : Descent children root [] [] root []
  | child {path left right : List α} {x : α} {left' right' : List α} {y : α}
      (reached : Descent children root path left x right)
      (among : children x = left' ++ y :: right') :
      Descent children root (x :: path) (expand children left ++ left') y
        (right' ++ expand children right)

namespace Descent

variable {children : α → List α} {root : α} {path left right : List α} {x : α}

section

variable (reached : Descent children root path left x right)

include reached

/-- A search of length `d` ends in the layer at depth `d`. -/
theorem layer_eq : layer children path.length [root] = left ++ x :: right := by
  induction reached with
  | root => rfl
  | child _ among ih =>
    rw [length_cons, layer_succ, ih, expand_append, expand_cons, among]
    simp

theorem mem_layer : x ∈ layer children path.length [root] := by
  rw [reached.layer_eq]
  simp

/-- The nodes of the path lie over the layer reached. -/
theorem path_mem_above : ∀ p ∈ path, p ∈ above children path.length [root] := by
  induction reached with
  | root => simp
  | child reached _ ih =>
    intro p member
    rw [length_cons, above_succ, mem_append]
    obtain rfl | member := mem_cons.mp member
    · exact .inr reached.mem_layer
    · exact .inl (ih p member)

/-- A search depends on the nodes over the layer it reaches only. -/
theorem congr {other : α → List α}
    (same : ∀ y ∈ above children path.length [root], other y = children y) :
    Descent other root path left x right := by
  induction reached with
  | root => exact .root
  | @child path left right x left' right' y reached among ih =>
    have higher : ∀ y ∈ layer children path.length [root], other y = children y :=
      fun y member => same y (mem_append_right _ member)
    rw [reached.layer_eq] at higher
    have sides : ∀ zs : List α, (∀ z ∈ zs, other z = children z) →
        expand other zs = expand children zs := fun zs agree => flatMap_congr agree
    rw [← sides left fun z member => higher z (mem_append_left _ member),
      ← sides right fun z member => higher z (by simp [member])]
    refine .child (ih fun y member => same y (mem_append_left _ member)) ?_
    rw [higher x (by simp), among]

/-- In a tree without repeated nodes a node is reached in one way only. -/
theorem path_unique {path' left' right' : List α}
    (reached' : Descent children root path' left' x right') (length : path'.length = path.length)
    (nodup : (above children (path.length + 1) [root]).Nodup) : path' = path := by
  induction path generalizing path' left left' x right right' with
  | nil => exact length_eq_zero_iff.mp length
  | cons p path ih =>
    cases path' with
    | nil => cases length
    | cons p' path' =>
      cases reached with
      | @child _ left right _ left₁ right₁ _ reached among =>
      cases reached' with
      | @child _ left' right' _ left₂ right₂ _ reached' among' =>
      have length' : path'.length = path.length := by simpa using length
      have parent := reached.mem_layer
      have parent' := reached'.mem_layer
      rw [length'] at parent'
      rw [length_cons, above_succ, layer_succ, nodup_append] at nodup
      -- a node with two parents would occur twice in its layer
      have same : p' = p := by
        by_contra other
        have disjoint := (nodup_flatMap.mp nodup.2.1).2
        have symm : Std.Symm (Function.onFun List.Disjoint children) :=
          ⟨fun _ _ apart _ inB inA => apart inA inB⟩
        have apart := disjoint.forall parent' parent other
        exact apart (a := x) (by rw [among']; simp) (by rw [among]; simp)
      subst same
      rw [ih reached reached' length' nodup.1]

end

end Descent

end Layers
