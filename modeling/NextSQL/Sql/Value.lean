import NextSQL.Format
import NextSQL.Nerr

/-!
# SQL values

A value is NULL, a truth value, or a payload, and always carries its type. The
payload type is a parameter with an ordering: what the rest of the development
uses of a number, a text or a date is how `cmp` ranks it within its kind. Two
payloads may rank equal without being the same, as `1.0` and `1.00` are.

Values of different kinds are only comparable within the integer, the unsigned,
the float and the string family; everything else is a type mismatch, and so is
every comparison with NULL.
-/

namespace NextSQL.Sql

/-- The scalar kinds of a value. -/
inductive Kind where
  | invalid
  | uuid
  | string
  | text
  | decimal
  | timestampTZ
  | json
  | bool
  | null
  | blob
  | int8
  | int16
  | int32
  | int64
  | uint8
  | uint16
  | uint32
  | uint64
  | date
  | time
  | char
  | varchar
  | timestamp
  | float32
  | float64
  | enum
  | interval
deriving DecidableEq, Repr

structure Typ where
  kind : Kind
  precision : ℕ := 0
  scale : ℕ := 0
deriving DecidableEq, Repr

inductive Value (D : Type) where
  | null (typ : Typ)
  | bool (b : Bool)
  | data (typ : Typ) (d : D)
deriving DecidableEq

namespace Kind

/-- Kinds of one family are compared with each other: signed integers of every
width, unsigned ones, floats, and the two unbounded string kinds. Any other kind
is a family of its own. -/
def family : Kind → Kind
  | int8 | int16 | int32 => int64
  | uint8 | uint16 | uint32 => uint64
  | float32 => float64
  | text => string
  | kind => kind

/-- The kinds whose values have an order. -/
def ordered : Kind → Bool
  | invalid | null => false
  | _ => true

/-- The kinds `cmp` accepts side by side. -/
def comparable (a b : Kind) : Bool := a.family = b.family

end Kind

namespace Value

variable {D : Type}

def typ : Value D → Typ
  | null typ => typ
  | bool _ => ⟨.bool, 0, 0⟩
  | data typ _ => typ

def kind (v : Value D) : Kind := v.typ.kind

def isNull : Value D → Bool
  | null _ => true
  | _ => false

/-- Whether the value is the truth value `b`; NULL is neither. -/
def isBool (b : Bool) : Value D → Bool
  | bool c => c == b
  | _ => false

/-- What a variable of the value type holds before anything is stored in it. -/
def zero [Inhabited D] : Value D := data ⟨.invalid, 0, 0⟩ default

def cmp [Ord D] : Value D → Value D → Except Nerr Ordering
  | null _, _ => .error ⟨.invalidArgument, "types.Value.Cmp", "NULL comparison"⟩
  | _, null _ => .error ⟨.invalidArgument, "types.Value.Cmp", "NULL comparison"⟩
  | bool a, bool b => .ok (compare a b)
  | data s a, data t b =>
    if !s.kind.comparable t.kind then
      .error ⟨.invalidArgument, "types.Value.Cmp", "type mismatch"⟩
    else if !s.kind.ordered then
      .error ⟨.invalidArgument, "types.Value.Cmp", "type is not comparable"⟩
    else .ok (compare a b)
  | _, _ => .error ⟨.invalidArgument, "types.Value.Cmp", "type mismatch"⟩

end Value

end NextSQL.Sql
