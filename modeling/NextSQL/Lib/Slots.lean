import Mathlib.Data.List.ReduceOption
import Mathlib.Data.List.Pairwise
import Mathlib.Algebra.BigOperators.Group.List.Basic
import Mathlib.Data.List.Sort

/-!
# Lists with holes

A slot directory is a list of places, each taken or free. Freed places are
taken again before the directory grows. The taken places, in order, are
`List.reduceOption`; the lemmas say what taking a place does to them up to their
order. The records of a directory are read in key order, and
`sortBy_concat` says where one more record then stands.
-/

open List

namespace Slots

universe u v

variable {ρ : Type u}

/-- Take the first free place, or a new one. -/
def place (slots : List (Option ρ)) (r : ρ) : List (Option ρ) :=
  match slots.findIdx? Option.isNone with
  | some i => slots.set i (some r)
  | none => slots ++ [some r]

variable {slots : List (Option ρ)} {i : Nat}

theorem reduceOption_set_some (r : ρ) (free : slots[i]? = some none) :
    (slots.set i (some r)).reduceOption.Perm (r :: slots.reduceOption) := by
  induction slots generalizing i with
  | nil => simp at free
  | cons s slots ih =>
    cases i with
    | zero =>
      obtain rfl : s = none := by simpa using free
      simp
    | succ i =>
      have rest := ih (i := i) (by simpa using free)
      cases s with
      | none => simpa using rest
      | some s =>
        simp only [set_cons_succ, reduceOption_cons_of_some]
        exact (rest.cons s).trans (Perm.swap r s _)

theorem free_of_findIdx? (first : slots.findIdx? Option.isNone = some i) :
    slots[i]? = some none := by
  obtain ⟨small, free, -⟩ := findIdx?_eq_some_iff_getElem.mp first
  rw [getElem?_eq_getElem small, Option.isNone_iff_eq_none.mp free]

/-- Taking a place adds the record, whatever place it is. -/
theorem reduceOption_place (slots : List (Option ρ)) (r : ρ) :
    (place slots r).reduceOption.Perm (r :: slots.reduceOption) := by
  rw [place]
  split
  next i first => exact reduceOption_set_some r (free_of_findIdx? first)
  next =>
    rw [reduceOption_append]
    exact perm_append_singleton r _

/-- The places a directory has once a record is placed. -/
theorem length_place (slots : List (Option ρ)) (r : ρ) : (place slots r).length =
      slots.length + if (slots.findIdx? Option.isNone).isSome then 0 else 1 := by
  rw [place]
  split
  next first => simp [first]
  next none => simp [none]

/-! ## Records in key order -/

section Sorted

variable {κ : Type v} [LinearOrder κ] (key : ρ → κ)

/-- The records in key order; records under one key keep their order. -/
def sortBy (records : List ρ) : List ρ :=
  records.insertionSort fun a b => key a ≤ key b

theorem sortBy_perm (records : List ρ) : (sortBy key records).Perm records :=
  perm_insertionSort _ records

theorem sortBy_sorted (records : List ρ) :
    (sortBy key records).Pairwise fun a b => key a ≤ key b := by
  exact pairwise_insertionSort _ records

variable {ordered : List ρ}

/-- Strictly increasing records are told apart by their keys. -/
theorem eq_of_key_eq (strict : ordered.Pairwise fun a b => key a < key b) {a b : ρ}
    (memberA : a ∈ ordered) (memberB : b ∈ ordered) (keys : key a = key b) : a = b := by
  have differ : ordered.Pairwise fun a b => key a ≠ key b := strict.imp ne_of_lt
  have symm : Std.Symm fun a b : ρ => key a ≠ key b := ⟨fun _ _ ne => ne.symm⟩
  by_contra distinct
  exact differ.forall memberA memberB distinct keys

variable {records : List ρ}

/-- Strictly increasing records are the only ordering of themselves. -/
theorem sortBy_eq_of_perm (perm : records.Perm ordered)
    (strict : ordered.Pairwise fun a b => key a < key b) : sortBy key records = ordered := by
  have sorted := sortBy_sorted key records
  have same : (sortBy key records).Perm ordered := (sortBy_perm key records).trans perm
  refine Perm.eq_of_pairwise ?_ sorted (strict.imp le_of_lt) same
  intro a b memberA memberB ab ba
  exact eq_of_key_eq key strict (same.mem_iff.mp memberA) memberB (le_antisymm ab ba)

/-- Records with distinct keys are strictly increasing in key order. -/
theorem sortBy_strict (distinct : (records.map key).Nodup) :
    (sortBy key records).Pairwise fun a b => key a < key b := by
  have differ : (sortBy key records).Pairwise fun a b => key a ≠ key b := by
    rw [← pairwise_map (f := key) (R := (· ≠ ·))]
    exact ((sortBy_perm key records).map key).nodup_iff.mpr distinct
  exact (sortBy_sorted key records).imp₂ (fun _ _ => lt_of_le_of_ne) differ

/-- One more record stands between the smaller and the greater ones. -/
theorem sortBy_concat {left right : List ρ} {r : ρ}
    (ordered : (left ++ r :: right).Pairwise fun a b => key a < key b)
    (perm : records.Perm (left ++ right)) : sortBy key (records ++ [r]) = left ++ r :: right := by
  refine sortBy_eq_of_perm key ?_ ordered
  exact (perm_append_singleton r records).trans ((perm.cons r).trans perm_middle.symm)

end Sorted

end Slots
