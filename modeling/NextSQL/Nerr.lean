import Mathlib.Init

/-!
# Error values

An error carries a code, the operation that made it and a message. Callers
branch on the code only.
-/

namespace NextSQL

inductive Code where
  | invalidArgument
  | corruption
  | notFound
  | alreadyExists
  | pageFull
  | internal
  | io
  | unavailable
  | invalidFormat
  | crypto
  | exhausted
  | badSyntax
  | conflict
deriving DecidableEq, Repr

structure Nerr where
  code : Code
  op : String
  message : String
deriving DecidableEq, Repr

end NextSQL
