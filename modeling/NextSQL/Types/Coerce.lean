import NextSQL.Types.Decimal

/-!
# Coercion to integers

`Coerce` to one of the eight integer types, of a value that is not NULL. Integers, decimals and
texts are checked as they are. A float is checked against the limits of the type as floats, and
the greatest number of 64 bits is not one: the float next to it passes and is then converted,
although the type does not have it (`coerce_exact_iff`).
-/

namespace NextSQL.Types

inductive IntKind where
  | int8
  | int16
  | int32
  | int64
  | uint8
  | uint16
  | uint32
  | uint64
deriving DecidableEq, Repr

namespace IntKind

def name : IntKind → String
  | int8 => "INT8"
  | int16 => "INT16"
  | int32 => "INT32"
  | int64 => "INT64"
  | uint8 => "UINT8"
  | uint16 => "UINT16"
  | uint32 => "UINT32"
  | uint64 => "UINT64"

/-- `IntRange` and `UintRange`: the least and the greatest number. -/
def range : IntKind → ℤ × ℤ
  | int8 => (-2 ^ 7, 2 ^ 7 - 1)
  | int16 => (-2 ^ 15, 2 ^ 15 - 1)
  | int32 => (-2 ^ 31, 2 ^ 31 - 1)
  | int64 => (-2 ^ 63, 2 ^ 63 - 1)
  | uint8 => (0, 2 ^ 8 - 1)
  | uint16 => (0, 2 ^ 16 - 1)
  | uint32 => (0, 2 ^ 32 - 1)
  | uint64 => (0, 2 ^ 64 - 1)

/-- The Go type that holds the number. -/
def word : IntKind → IntKind
  | int8 | int16 | int32 | int64 => int64
  | _ => uint64

def Holds (k : IntKind) (n : ℤ) : Prop := k.range.1 ≤ n ∧ n ≤ k.range.2

instance (k : IntKind) (n : ℤ) : Decidable (k.Holds n) := inferInstanceAs (Decidable (_ ∧ _))

theorem Holds.word {k : IntKind} {n : ℤ} (holds : k.Holds n) : k.word.Holds n := by
  cases k <;> simp only [Holds, range, IntKind.word] at holds ⊢ <;> omega

end IntKind

/-- A float, the finite ones by their value. -/
inductive Flt where
  | nan
  | inf (neg : Bool)
  | finite (f : ℚ)

/-- `float64(n)`: the nearest number with 53 binary digits, of two the even one. -/
def float64 (n : ℤ) : ℤ :=
  let unit := 2 ^ (n.natAbs.log2 - 52)
  let q := n.natAbs / unit
  let rest := 2 * (n.natAbs % unit)
  n.sign * ((if unit < rest ∨ unit = rest ∧ q % 2 = 1 then q + 1 else q) * unit : ℕ)

/-- Go's conversion of a float to `int64` or `uint64`. What becomes of a number that the type
does not have depends on the machine. -/
structure Machine where
  convert : IntKind → ℚ → ℤ
  exact : ∀ (k : IntKind) (n : ℤ), k.word.Holds n → convert k n = n

/-- The values that can become an integer; a text of type `CHAR` is padded. -/
inductive Source where
  | integer (kind : IntKind) (n : ℤ) (typed : kind.Holds n)
  | decimal (d : Decimal)
  | float (f : Flt)
  | text (char : Bool) (s : List Char)

/-! ## Coercion -/

/-- The number must be one of the Go type, then one of the SQL type. -/
def inRange (op : String) (dest : IntKind) (n : ℤ) : Except Nerr ℤ :=
  if ¬ dest.word.Holds n then
    .error ⟨.invalidArgument, "types.Coerce", dest.name ++ " out of range"⟩
  else if ¬ dest.Holds n then .error ⟨.invalidArgument, op, dest.name ++ " out of range"⟩
  else .ok n

/-- `decimalToInt` and `decimalToUint`. -/
def decimalToInt (d : Decimal) (dest : IntKind) : Except Nerr ℤ :=
  match d.rescale 0 0 with
  | .error _ => .error ⟨.invalidArgument, "types.Coerce", "value is not a whole number"⟩
  | .ok r => inRange "types.Coerce" dest r.coef

/-- `floatToInt` and `floatToUint`. -/
def floatToInt (go : Machine) (dest : IntKind) : Flt → Except Nerr ℤ
  | .finite f =>
    if f ≠ Decimal.truncate f then
      .error ⟨.invalidArgument, "types.Coerce", "value is not a whole number"⟩
    else if f < float64 dest.range.1 ∨ float64 dest.range.2 < f then
      .error ⟨.invalidArgument, "types.Coerce", dest.name ++ " out of range"⟩
    else .ok (go.convert dest f)
  | _ => .error ⟨.invalidArgument, "types.Coerce", "value is not finite"⟩

/-- A `CHAR` comes without its padding. -/
def textSource (char : Bool) (s : List Char) : List Char :=
  if char then s.rdropWhile (· == ' ') else s

def coerce (isSpace : Char → Bool) (go : Machine) (dest : IntKind) : Source → Except Nerr ℤ
  | .integer kind n _ =>
    if kind = dest then .ok n
    else inRange (if dest.word = .int64 then "types.NewInt" else "types.NewUint") dest n
  | .decimal d => decimalToInt d dest
  | .float f => floatToInt go dest f
  | .text char s => do decimalToInt (← parseDecimal isSpace (textSource char s)) dest

/-! ## Exactness -/

/-- The number a value stands for, of a text the decimal it is parsed as. -/
def Source.number (isSpace : Char → Bool) : Source → Option ℚ
  | .integer _ n _ => some n
  | .decimal d => some d.value
  | .float (.finite f) => some f
  | .float _ => none
  | .text char s => (parseDecimal isSpace (textSource char s)).toOption.map Decimal.value

variable {dest : IntKind} {n : ℤ}

theorem of_inRange {op : String} {m : ℤ} (passed : inRange op dest m = .ok n) :
    dest.Holds n ∧ m = n := by
  obtain ⟨-, passed⟩ := Except.ite_error_eq_ok_iff.mp passed
  obtain ⟨holds, ⟨⟩⟩ := Except.ite_error_eq_ok_iff.mp passed
  exact ⟨not_not.mp holds, rfl⟩

theorem of_decimalToInt {d : Decimal} (passed : decimalToInt d dest = .ok n) :
    d.value = n ∧ dest.Holds n := by
  unfold decimalToInt at passed
  split at passed
  next => cases passed
  next r done =>
  obtain ⟨holds, rfl⟩ := of_inRange passed
  obtain ⟨same, scale⟩ := Decimal.value_rescale done
  refine ⟨?_, holds⟩
  rw [← same, Decimal.value, scale]
  simp

/-- The limits are floats, but the greatest number of 64 bits rounds up. -/
theorem float64_range (k : IntKind) : float64 k.range.1 = k.range.1 ∧
    float64 k.range.2 = k.range.2 + if k.word = k then 1 else 0 := by
  cases k <;> decide

theorem of_floatToInt {go : Machine} {f : Flt} (passed : floatToInt go dest f = .ok n) :
    f = .finite n ∧ dest.Holds n ∨ dest.word = dest ∧ f = .finite (dest.range.2 + 1) := by
  unfold floatToInt at passed
  split at passed
  next f =>
    obtain ⟨whole, passed⟩ := Except.ite_error_eq_ok_iff.mp passed
    obtain ⟨limits, ⟨⟩⟩ := Except.ite_error_eq_ok_iff.mp passed
    obtain ⟨m, rfl⟩ : ∃ m : ℤ, f = m := ⟨_, not_not.mp whole⟩
    obtain ⟨low, high⟩ := not_or.mp limits
    obtain ⟨least, greatest⟩ := float64_range dest
    rw [least, Int.cast_lt, not_lt] at low
    rw [greatest, Int.cast_lt, not_lt] at high
    by_cases top : m ≤ dest.range.2
    · rw [go.exact dest m (IntKind.Holds.word ⟨low, top⟩)]
      exact .inl ⟨rfl, low, top⟩
    split at high
    next wide =>
      obtain rfl : m = dest.range.2 + 1 := by omega
      exact .inr ⟨wide, by push_cast; rfl⟩
    next => omega
  next => cases passed

/-- A machine that gives the least number for one the type does not have. -/
def amd64 : Machine where
  convert k f := if k.word.Holds (Decimal.truncate f) then Decimal.truncate f else k.word.range.1
  exact k n holds := by
    have whole : Decimal.truncate n = n := by simp [Decimal.truncate]
    rw [whole, if_pos holds]

end NextSQL.Types
