import Mathlib
import NextSQL.Lib.Result
import NextSQL.Nerr

/-!
# Decimals

A decimal is an integer coefficient and a scale, the number of its digits after the point;
a coefficient that is not there counts as zero. Division works at six digits more than the
dividend has and fewer by those of the divisor, so that the scale of a quotient can be small or
negative (`quoDec_truncates`).
-/

namespace NextSQL.Types

structure Decimal where
  coef : ℤ
  scale : ℤ
deriving DecidableEq, Repr

/-- No power is below one. -/
def pow10 (n : ℤ) : ℤ := 10 ^ n.toNat

/-- `strings.TrimSpace`; which characters are blank is left open. -/
def trimSpace (isSpace : Char → Bool) (s : List Char) : List Char :=
  (s.dropWhile isSpace).rdropWhile isSpace

/-- The part of `ParseDecimal` after the sign. A digit that is not one of ASCII passes the first
test of the source and fails the second one, with the same error. -/
def parseUnsigned (neg : Bool) (s : List Char) : Except Nerr Decimal :=
  let frac := (s.dropWhile (· != '.')).tail
  let intp := if s.takeWhile (· != '.') = [] then ['0'] else s.takeWhile (· != '.')
  if s = [] ∨ (intp ++ frac).all Char.isDigit = false then
    .error ⟨.invalidArgument, "types.ParseDecimal", "invalid decimal"⟩
  else
    let coef := Nat.ofDigitChars 10 ((intp ++ frac).dropWhile (· == '0')) 0
    .ok ⟨if neg then -coef else coef, frac.length⟩

def parseDecimal (isSpace : Char → Bool) (s : List Char) : Except Nerr Decimal :=
  match trimSpace isSpace s with
  | [] => .error ⟨.invalidArgument, "types.ParseDecimal", "empty decimal"⟩
  | '+' :: s => parseUnsigned false s
  | '-' :: s => parseUnsigned true s
  | s => parseUnsigned false s

namespace Decimal

def quoDec (a b : Decimal) : Except Nerr Decimal :=
  if b.coef = 0 then .error ⟨.invalidArgument, "types.QuoDec", "division by zero"⟩
  else .ok ⟨(a.coef * pow10 6).tdiv b.coef, a.scale + 6 - b.scale⟩

/-! ## Division -/

/-- The number a decimal stands for. -/
def value (d : Decimal) : ℚ := d.coef * 10 ^ (-d.scale)

/-- A number without what stands after its point. -/
def truncate (r : ℚ) : ℤ := if 0 ≤ r then ⌊r⌋ else ⌈r⌉

theorem truncate_neg (r : ℚ) : truncate (-r) = -truncate r := by
  unfold truncate
  obtain neg | rfl | pos := lt_trichotomy r 0
  · rw [if_pos (by linarith), if_neg (by linarith), Int.floor_neg]
  · simp
  · rw [if_neg (by linarith), if_pos pos.le, Int.ceil_neg]

/-- Go's division of integers truncates. -/
theorem truncate_div (x y : ℤ) : truncate (x / y) = x.tdiv y := by
  have whole : ∀ m n : ℕ, truncate ((m : ℤ) / (n : ℤ)) = (m : ℤ).tdiv n := by
    intro m n
    rw [truncate, if_pos (by positivity), Int.cast_natCast n, Rat.floor_intCast_div_natCast]
    exact (Int.tdiv_eq_ediv_of_nonneg (Int.natCast_nonneg m)).symm
  obtain ⟨m, rfl | rfl⟩ := x.eq_nat_or_neg <;> obtain ⟨n, rfl | rfl⟩ := y.eq_nat_or_neg
  · exact whole m n
  · rw [Int.cast_neg, div_neg, truncate_neg, whole, Int.tdiv_neg]
  · rw [Int.cast_neg, neg_div, truncate_neg, whole, Int.neg_tdiv]
  · rw [Int.cast_neg, Int.cast_neg, neg_div_neg_eq, whole, Int.neg_tdiv, Int.tdiv_neg, neg_neg]

/-- **Division.** The result is the quotient truncated at the digits it has. They are six or more
exactly when the divisor does not have more digits than the dividend. -/
theorem quoDec_truncates (a b : Decimal) (divides : b.coef ≠ 0) : ∃ q, quoDec a b = .ok q ∧
    q.coef = truncate (a.value / b.value * 10 ^ q.scale) ∧ (6 ≤ q.scale ↔ b.scale ≤ a.scale) := by
  refine ⟨_, if_neg divides, ?_, by dsimp only; omega⟩
  have quotient : a.value / b.value * 10 ^ (a.scale + 6 - b.scale) =
      ((a.coef * 10 ^ 6 : ℤ) : ℚ) / b.coef := by
    have ten : (10 : ℚ) ≠ 0 := by norm_num
    rw [value, value, zpow_sub₀ ten, zpow_add₀ ten, zpow_neg, zpow_neg]
    push_cast
    field_simp
  dsimp only
  rw [quotient, truncate_div]
  rfl

theorem quoDec_truncates_third : ∃ q, quoDec ⟨1, 0⟩ ⟨3, 0⟩ = .ok q ∧
    q.coef = truncate (value ⟨1, 0⟩ / value ⟨3, 0⟩ * 10 ^ q.scale) ∧
    (6 ≤ q.scale ↔ (0 : ℤ) ≤ 0) :=
  quoDec_truncates ⟨1, 0⟩ ⟨3, 0⟩ (by decide)

/-- One divided by `3.000000` is zero, without digits. -/
theorem quoDec_drops_digits : quoDec ⟨1, 0⟩ ⟨3000000, 6⟩ = .ok ⟨0, 0⟩ ∧
    truncate (value ⟨1, 0⟩ / value ⟨3000000, 6⟩ * 10 ^ 6) = 333333 := by
  refine ⟨by decide, ?_⟩
  have quotient : value ⟨1, 0⟩ / value ⟨3000000, 6⟩ * 10 ^ 6 = (1000000 : ℤ) / (3 : ℤ) := by
    norm_num [value]
  rw [quotient, truncate_div]
  rfl

/-! ## Scales -/

def rescale (d : Decimal) (prec scale : ℤ) : Except Nerr Decimal :=
  let coef := if d.scale < scale then d.coef * pow10 (scale - d.scale)
    else d.coef.tdiv (pow10 (d.scale - scale))
  -- With no digits to drop the power is one.
  if d.coef.tmod (pow10 (d.scale - scale)) ≠ 0 then
    .error ⟨.invalidArgument, "types.Decimal.Rescale", "decimal would lose scale"⟩
  else if 0 < prec ∧ pow10 prec ≤ |coef| then
    .error ⟨.invalidArgument, "types.Decimal.Rescale", "decimal exceeds precision"⟩
  else .ok ⟨coef, scale⟩

theorem value_shift (coef scale : ℤ) (k : ℕ) :
    value ⟨coef * 10 ^ k, scale + k⟩ = value ⟨coef, scale⟩ := by
  have ten : (10 : ℚ) ≠ 0 := by norm_num
  simp [value, zpow_add₀ ten]
  field_simp

/-- A decimal at another scale is the same number. -/
theorem value_rescale {d r : Decimal} {prec scale : ℤ} (done : rescale d prec scale = .ok r) :
    r.value = d.value ∧ r.scale = scale := by
  obtain ⟨coef, own⟩ := d
  obtain ⟨whole, done⟩ := Except.ite_error_eq_ok_iff.mp done
  obtain ⟨-, ⟨⟩⟩ := Except.ite_error_eq_ok_iff.mp done
  refine ⟨?_, rfl⟩
  obtain up | down := lt_or_ge own scale
  · obtain ⟨k, rfl⟩ := Int.le.dest up.le
    rw [if_pos up, add_sub_cancel_left]
    exact value_shift coef own k
  obtain ⟨k, rfl⟩ := Int.le.dest down
  have whole := Int.dvd_of_tmod_eq_zero (not_not.mp whole)
  rw [if_neg down.not_gt]
  rw [add_sub_cancel_left] at whole ⊢
  rw [← value_shift _ scale k]
  exact congrArg (fun c => value ⟨c, scale + k⟩) (Int.tdiv_mul_cancel whole)

end Decimal

end NextSQL.Types
