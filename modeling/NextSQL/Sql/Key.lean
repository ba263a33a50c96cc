import NextSQL.Sql.Expr

/-!
# Index keys and key ranges

A key is the concatenation of its parts. A NULL part is the byte 0; any other
part is the byte 1 and the sortable encoding of the value, which is a parameter.
Scans read the keys from a start on, up to an end, in the order of the bytes; an
open lower bound or a closed upper bound on a prefix of the key is the first
byte string after everything with that prefix.
-/

namespace NextSQL.Sql

variable {D : Type}

def encodeKeyPart (fns : Fns D) (v : Value D) : Except Nerr Bytes :=
  if v.isNull then .ok [0]
  else do
    let body ← fns.encodeSortable v
    return 1 :: body

def encodeKeyParts (fns : Fns D) : List (Value D) → Except Nerr Bytes
  | [] => .ok []
  | v :: rest => do
    let part ← encodeKeyPart fns v
    let tail ← encodeKeyParts fns rest
    return part ++ tail

def encodeKey (fns : Fns D) (vals : List (Value D)) : Except Nerr Bytes := do
  let out ← encodeKeyParts fns vals
  if out.isEmpty then throw ⟨.invalidArgument, "types.EncodeKey", "empty key"⟩
  return out

/-- The order of two keys. -/
def compareBytes (a b : Bytes) : Ordering :=
  if a < b then .lt else if b < a then .gt else .eq

/-- The first byte string after every one that starts with the given prefix;
there is none when every byte is the largest. -/
def prefixEnd : Bytes → Option Bytes
  | [] => none
  | b :: rest =>
    match prefixEnd rest with
    | some after => some (b :: after)
    | none => if b = 255 then none else some [b + 1]

/-- The start and the end of a scan; an absent one does not bound it. -/
def encodeBounds (fns : Fns D) (low high : List (Value D)) (lowIncl highIncl : Bool) :
    Except Nerr (Option Bytes × Option Bytes) := do
  let start ←
    if low.isEmpty then pure none
    else do
      let key ← encodeKey fns low
      pure (if lowIncl then some key else prefixEnd key)
  let finish ←
    if high.isEmpty then pure none
    else do
      let key ← encodeKey fns high
      pure (if highIncl then prefixEnd key else some key)
  return (start, finish)

/-- Whether a key lies between the start and the end of a scan. -/
def keyInRange (bounds : Option Bytes × Option Bytes) (key : Bytes) : Bool :=
  (bounds.1.all fun start => !decide (key < start)) &&
    bounds.2.all fun finish => decide (key < finish)

/-! ## One-byte integers -/

def uint8 : Typ := ⟨.uint8, 0, 0⟩

/-- The value functions on unsigned one-byte integers, whose key part is the
byte itself. Nothing else converts, and there is no arithmetic. -/
def uint8Fns : Fns Byte where
  coerce v t :=
    if v.isNull then .ok (.null t)
    else if v.typ = t then .ok v
    else .error ⟨.invalidArgument, "types.Coerce", "cannot coerce"⟩
  negate _ := .error ⟨.invalidArgument, "executor.eval", "unary minus requires a numeric type"⟩
  evalArith _ _ _ := .error ⟨.invalidArgument, "executor.eval", "arithmetic requires numeric"⟩
  call _ _ := .error ⟨.invalidArgument, "executor.eval", "unknown function"⟩
  extract _ _ _ := .error ⟨.invalidArgument, "executor.eval", "path extract requires a JSON column"⟩
  foldNegate _ := none
  foldArith _ _ _ := none
  foldCall _ _ := none
  formatExpr _ := ""
  encodeSortable
    | .data _ d => .ok [d]
    | .bool b => .ok [if b then 1 else 0]
    | .null _ => .error ⟨.invalidArgument, "types.encodeSortable", "NULL"⟩
  equalFold a b := a == b
  digest _ := 0

end NextSQL.Sql
