import Mathlib.Data.Nat.Bitwise

/-!
# Interleaved bits

A Morton code puts the bits of one number at the even places and those of
another one at the odd places. The bits are spread in five rounds: each one
moves half of every block up by half its size and masks the rest away
(`testBit_round`).

Two codes agree from a bit on exactly when the two numbers agree from half of it
on, rounded as the place is (`Interleaves.shiftRight_eq_iff`). A number between
two that agree from some bit on agrees with them (`shiftRight_eq_of_between`), so
the codes of a box share the leading bits of the codes of its corners.
-/

namespace Zorder

/-! ## Spreading -/

/-- Where bit `i` comes from when blocks of `k` bits have `k` zero bits above them. -/
def source (k i : Nat) : Option Nat :=
  if i % (2 * k) < k then some (i / (2 * k) * k + i % k) else none

/-- One round: if `v` has the bits of `x` in blocks, so has the next number in blocks of half
the size. The condition speaks of places only and can be decided. -/
theorem testBit_round {v x k : Nat} (k' m : Nat)
    (before : ∀ i < 64, v.testBit i = (source k i).any x.testBit)
    (moves : ∀ i < 64, if m.testBit i then
      (if k' ≤ i ∧ source k (i - k') ≠ none then
        source k i = none ∧ source k' i = source k (i - k')
      else source k' i = source k i)
      else source k' i = none) :
    ∀ i < 64, ((v ||| v <<< k') &&& m).testBit i = (source k' i).any x.testBit := by
  intro i lt
  have here := moves i lt
  rw [Nat.testBit_and, Nat.testBit_or, Nat.testBit_shiftLeft, before i lt]
  split at here
  · rename_i kept
    rw [kept, Bool.and_true]
    split at here
    · rename_i moved
      rw [here.1, here.2, before (i - k') (by omega)]
      simp [moved.1]
    rename_i stays
    rw [here]
    by_cases le : k' ≤ i
    · have none : source k (i - k') = none := by
        by_contra some
        exact stays ⟨le, some⟩
      rw [before (i - k') (by omega), none]
      simp
    · simp [le]
  · rename_i masked
    rw [here, Bool.eq_false_of_not_eq_true masked, Bool.and_false]
    rfl

/-! ## Leading bits -/

theorem shiftRight_eq_iff {a b k : Nat} :
    a >>> k = b >>> k ↔ ∀ i, k ≤ i → a.testBit i = b.testBit i := by
  constructor
  · intro same i le
    have bit := congrArg (Nat.testBit · (i - k)) same
    simpa [Nat.testBit_shiftRight, Nat.add_sub_cancel' le] using bit
  intro same
  refine Nat.eq_of_testBit_eq fun i => ?_
  rw [Nat.testBit_shiftRight, Nat.testBit_shiftRight]
  exact same (k + i) (Nat.le_add_right k i)

theorem shiftRight_eq_of_between {a b c k : Nat} (low : a ≤ c) (high : c ≤ b)
    (same : a >>> k = b >>> k) : c >>> k = a >>> k := by
  rw [Nat.shiftRight_eq_div_pow, Nat.shiftRight_eq_div_pow] at *
  have := Nat.div_le_div_right (c := 2 ^ k) low
  have := Nat.div_le_div_right (c := 2 ^ k) high
  omega

theorem xor_lt_iff {a b k : Nat} : a ^^^ b < 2 ^ k ↔ a >>> k = b >>> k := by
  constructor
  · intro lt
    refine shiftRight_eq_iff.mpr fun i le => ?_
    have zero : (a ^^^ b).testBit i = false :=
      Nat.testBit_lt_two_pow (lt.trans_le (Nat.pow_le_pow_right (by decide) le))
    rw [Nat.testBit_xor] at zero
    simpa using zero
  · intro same
    refine Nat.lt_pow_two_of_testBit _ fun i le => ?_
    rw [Nat.testBit_xor, shiftRight_eq_iff.mp same i le, Bool.xor_self]

/-! ## Codes -/

/-- Numbers whose bits are those of `x` at the even places and of `y` at the odd ones. -/
structure Interleaves (code x y : Nat) : Prop where
  even : ∀ i, code.testBit (2 * i) = x.testBit i
  odd : ∀ i, code.testBit (2 * i + 1) = y.testBit i

theorem Interleaves.lt {code x y width : Nat} (code_of : Interleaves code x y)
    (left : x < 2 ^ width) (right : y < 2 ^ width) : code < 2 ^ (2 * width) := by
  refine Nat.lt_pow_two_of_testBit _ fun i le => ?_
  have high : ∀ z < 2 ^ width, ∀ j, width ≤ j → z.testBit j = false := fun z lt j le =>
    Nat.testBit_lt_two_pow (lt.trans_le (Nat.pow_le_pow_right (by decide) le))
  obtain ⟨j, rfl | rfl⟩ := Nat.even_or_odd' i
  · rw [code_of.even]
    exact high x left j (by omega)
  · rw [code_of.odd]
    exact high y right j (by omega)

theorem Interleaves.shiftRight_eq_iff {code code' x x' y y' k : Nat} (first : Interleaves code x y)
    (second : Interleaves code' x' y') : code >>> k = code' >>> k ↔
      x >>> ((k + 1) / 2) = x' >>> ((k + 1) / 2) ∧ y >>> (k / 2) = y' >>> (k / 2) := by
  simp only [Zorder.shiftRight_eq_iff]
  constructor
  · intro same
    constructor
    · intro i le
      rw [← first.even, ← second.even]
      exact same (2 * i) (by omega)
    · intro i le
      rw [← first.odd, ← second.odd]
      exact same (2 * i + 1) (by omega)
  rintro ⟨evens, odds⟩ i le
  obtain ⟨j, rfl | rfl⟩ := Nat.even_or_odd' i
  · rw [first.even, second.even]
    exact evens j (by omega)
  · rw [first.odd, second.odd]
    exact odds j (by omega)

end Zorder
