import Mathlib.Order.Fin.Basic
import Mathlib.Algebra.Order.BigOperators.Group.List
import Mathlib.Tactic.Ring

/-!
# Fixed-width fields in byte strings

Numbers are stored in a fixed number of bytes, the lowest byte first. A header
is a list of fields, one after the other, and a field is read back from the
offset that the fields before it add up to (`slice_flatten`). In keys the highest
byte comes first, which makes the order of the keys that of the numbers
(`be_append_lt_iff`).
-/

open List

-- named, so that a byte literal means the same term everywhere
instance neZeroByte : NeZero 256 := ⟨by decide⟩

namespace ByteFields

/-- A number in `width` bytes, the lowest first. -/
def le : Nat → Nat → List (Fin 256)
  | 0, _ => []
  | width + 1, n => Fin.ofNat 256 n :: le width (n / 256)

/-- The number that some bytes stand for, the lowest first. -/
def getLE : List (Fin 256) → Nat
  | [] => 0
  | b :: bs => b.val + 256 * getLE bs

@[simp] theorem length_le (width n : Nat) : (le width n).length = width := by
  induction width generalizing n with
  | zero => rfl
  | succ width ih => rw [le, length_cons, ih]

theorem getLE_le (width n : Nat) : getLE (le width n) = n % 256 ^ width := by
  induction width generalizing n with
  | zero => simp [le, getLE, Nat.mod_one]
  | succ width ih =>
    rw [le, getLE, ih, Fin.val_ofNat, Nat.pow_succ', Nat.mod_mul]

theorem getLE_le_of_lt {width n : Nat} (lt : n < 256 ^ width) : getLE (le width n) = n := by
  rw [getLE_le, Nat.mod_eq_of_lt lt]

theorem getLE_zeros {bytes : List (Fin 256)} (zero : ∀ b ∈ bytes, b = 0) : getLE bytes = 0 := by
  induction bytes with
  | nil => rfl
  | cons b bs ih =>
    rw [forall_mem_cons] at zero
    rw [getLE, zero.1, ih zero.2]
    rfl

/-! ## The highest byte first -/

/-- A number in `width` bytes, the highest first. -/
def be : Nat → Nat → List (Fin 256)
  | 0, _ => []
  | width + 1, n => Fin.ofNat 256 (n / 256 ^ width) :: be width (n % 256 ^ width)

/-- Strings that start with such numbers are ordered as the numbers are. -/
theorem be_append_lt_iff {width a b : Nat} (left : a < 256 ^ width) (right : b < 256 ^ width)
    (rest : List (Fin 256)) : be width a ++ rest < be width b ↔ a < b := by
  induction width generalizing a b with
  | zero =>
    have : a = 0 := by omega
    have : b = 0 := by omega
    subst a b
    simp [be]
  | succ width ih =>
    have positive : 0 < 256 ^ width := Nat.pow_pos (by decide)
    have small : ∀ n < 256 ^ (width + 1), n / 256 ^ width < 256 := fun n lt =>
      Nat.div_lt_of_lt_mul (by rwa [Nat.pow_succ] at lt)
    have digit : ∀ n < 256 ^ (width + 1), (Fin.ofNat 256 (n / 256 ^ width)).val = n / 256 ^ width :=
      fun n lt => by rw [Fin.val_ofNat, Nat.mod_eq_of_lt (small n lt)]
    rw [be, be, cons_append, cons_lt_cons_iff, Fin.lt_def, Fin.ext_iff, digit a left,
      digit b right, ih (Nat.mod_lt a positive) (Nat.mod_lt b positive)]
    have splitA := Nat.div_add_mod a (256 ^ width)
    have splitB := Nat.div_add_mod b (256 ^ width)
    constructor
    · rintro (high | ⟨same, low⟩)
      · have step : 256 ^ width * (a / 256 ^ width) + 256 ^ width ≤
            256 ^ width * (b / 256 ^ width) := by
          rw [← Nat.mul_succ]
          exact Nat.mul_le_mul_left _ high
        omega
      · rw [same] at splitA
        omega
    intro lt
    obtain high | ge := lt_or_ge (a / 256 ^ width) (b / 256 ^ width)
    · exact .inl high
    have same : a / 256 ^ width = b / 256 ^ width :=
      le_antisymm (Nat.div_le_div_right lt.le) ge
    rw [same] at splitA
    exact .inr ⟨same, by omega⟩

variable {α : Type}

/-- The part of a string from an offset on. -/
def slice (bytes : List α) (offset width : Nat) : List α := (bytes.drop offset).take width

/-- A field is found where the fields before it end. -/
theorem slice_flatten {fields : List (List α)} {field : List α} {offset width : Nat} (k : Nat)
    (here : fields[k]? = some field)
    (starts : ((fields.take k).map List.length).sum = offset) (long : field.length = width) :
    slice fields.flatten offset width = field := by
  subst starts long
  induction fields generalizing k with
  | nil => simp at here
  | cons first rest ih =>
    cases k with
    | zero =>
      obtain rfl : first = field := by simpa using here
      simp [slice]
    | succ k =>
      have later := ih k (by simpa using here)
      rw [take_succ_cons, map_cons, sum_cons, flatten_cons, slice,
        drop_append, drop_eq_nil_of_le (Nat.le_add_right _ _), nil_append,
        Nat.add_sub_cancel_left]
      exact later

/-- The front of a string is not affected by what follows it. -/
theorem slice_append {bytes : List α} (more : List α) {offset width : Nat}
    (within : offset + width ≤ bytes.length) :
    slice (bytes ++ more) offset width = slice bytes offset width := by
  rw [slice, slice, drop_append_of_le_length (by omega), take_append_of_le_length]
  rw [length_drop]
  omega

end ByteFields
