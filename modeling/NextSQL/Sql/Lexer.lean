import NextSQL.Format
import NextSQL.Nerr

/-!
# Tokens of a statement

A statement is cut into tokens byte by byte: blanks and comments are skipped,
identifiers and keywords are folded to lower case, the quotes of strings, quoted
identifiers and hexadecimal literals and the dollar sign of a parameter are not
part of the literal. Which letters beyond ASCII exist is a parameter.

`normalizeSQL` writes the literals of the tokens one after another with a space
between them. It does not write the kinds of the tokens, drops those whose
literal is empty, and leaves the spaces inside a literal as they are.
-/

namespace NextSQL.Sql

/-! ## Bytes of a text -/

def byte (c : Char) : Byte := Fin.ofNat 256 c.toNat

/-- The bytes of an ASCII text. -/
def ascii (text : String) : Bytes := text.toList.map byte

def isDigit (c : Byte) : Bool := byte '0' ≤ c && c ≤ byte '9'

def isIdentStart (c : Byte) : Bool :=
  c = byte '_' || (byte 'A' ≤ c && c ≤ byte 'Z') || (byte 'a' ≤ c && c ≤ byte 'z')

def isIdentPart (c : Byte) : Bool := isIdentStart c || isDigit c

def isSpace (c : Byte) : Bool :=
  c = byte ' ' || c = byte '\t' || c = byte '\n' || c = byte '\r'

/-- What the lexer asks about runes: the width of the letter or digit at the start
of a text, and folding to lower case. -/
structure Runes where
  letter : Bytes → Option ℕ
  digit : Bytes → Option ℕ
  toLower : Bytes → Bytes

/-- Only ASCII letters and digits. -/
def asciiRunes : Runes where
  letter text := match text with
    | c :: _ => if isIdentStart c && c ≠ byte '_' then some 1 else none
    | [] => none
  digit text := match text with
    | c :: _ => if isDigit c then some 1 else none
    | [] => none
  toLower text := text.map fun c =>
    if byte 'A' ≤ c && c ≤ byte 'Z' then Fin.ofNat 256 (c.val + 32) else c

/-! ## Tokens -/

/-- The kind of a token. Which keyword or symbol it is, the literal says. -/
inductive TokenKind where
  | ident
  | string
  | number
  | param
  | hexLit
  | keyword
  | symbol
deriving DecidableEq, Repr

structure Token where
  kind : TokenKind
  lit : Bytes
deriving DecidableEq

def keywords : List String := [
    "create", "table", "index", "unique", "on", "insert", "into", "values", "select", "distinct",
    "from", "where", "update", "set", "delete", "begin", "commit", "rollback", "primary", "key",
    "not", "null", "default", "and", "or", "between", "in", "is", "limit", "offset", "as", "true",
    "false", "transaction", "read", "committed", "snapshot", "serializable", "uuid", "string",
    "text", "blob", "int8", "int16", "int32", "int64", "uint8", "uint16", "uint32", "uint64",
    "bool", "char", "varchar", "enum", "float32", "float64", "decimal", "timestamptz",
    "timestamp", "date", "time", "interval", "json", "struct", "array", "map", "vector",
    "bitvector", "sparsevector", "f32", "f16", "i8", "explain", "analyze", "maintain", "point",
    "box", "location", "linestring", "polygon", "spatial", "geometry", "geography", "fulltext",
    "search", "for", "nearest", "to", "using", "hnsw", "cosine", "l2", "inner_product", "hamming",
    "join", "inner", "left", "right", "full", "cross", "outer", "group", "having", "by", "drop",
    "user", "role", "grant", "revoke", "identified", "cluster", "database", "schema", "column",
    "function", "backup", "replication", "administration", "connect", "execute", "all",
    "privileges", "admin", "reset", "foreign", "references", "constraint", "cascade", "restrict",
    "action", "match", "alter", "add", "rename", "rebuild", "order", "asc", "desc", "if",
    "exists", "case", "when", "then", "else", "end", "union", "intersect", "except", "with",
    "over", "schedule", "every", "at", "cron", "upsert", "returning", "workflow", "run",
    "trigger", "before", "after", "each", "show", "task", "tasks", "cancel", "kill", "subscribe",
    "encrypted", "client", "deterministic", "transfer", "leader", "resource", "drain",
    "maintenance", "enable", "disable", "reconcile", "confirm", "unnest", "like"]

mutual
/-- What is left after blanks and comments; nothing if a comment does not end. -/
def skip : Bytes → Option Bytes
  | [] => some []
  | [c] => if isSpace c then some [] else some [c]
  | c :: d :: rest =>
    if isSpace c then skip (d :: rest)
    else if c = byte '-' ∧ d = byte '-' then skipLine rest
    else if c = byte '/' ∧ d = byte '*' then skipBlock rest
    else some (c :: d :: rest)

def skipLine : Bytes → Option Bytes
  | [] => some []
  | c :: rest => if c = byte '\n' then skip rest else skipLine rest

def skipBlock : Bytes → Option Bytes
  | [] => none
  | [_] => none
  | c :: d :: rest =>
    if c = byte '*' ∧ d = byte '/' then skip rest else skipBlock (d :: rest)
end

/-- The text up to the closing quote, which is doubled inside it, and the rest. -/
def scanQuoted (quote : Byte) : Bytes → Option (Bytes × Bytes)
  | [] => none
  | [c] => if c = quote then some ([], []) else none
  | c :: d :: rest =>
    if c ≠ quote then (scanQuoted quote (d :: rest)).map fun p => (c :: p.1, p.2)
    else if d = quote then (scanQuoted quote rest).map fun p => (quote :: p.1, p.2)
    else some ([], d :: rest)

def hexDigit (c : Byte) : Option ℕ :=
  if isDigit c then some (c.val - 48)
  else if byte 'a' ≤ c && c ≤ byte 'f' then some (c.val - 87)
  else if byte 'A' ≤ c && c ≤ byte 'F' then some (c.val - 55)
  else none

def decodeHex : Bytes → Option Bytes
  | [] => some []
  | [_] => none
  | c :: d :: rest => do
    let high ← hexDigit c
    let low ← hexDigit d
    let tail ← decodeHex rest
    return Fin.ofNat 256 (16 * high + low) :: tail

/-- The length of the identifier at the start of a text. -/
def identLen (runes : Runes) : (fuel : ℕ) → (first : Bool) → Bytes → ℕ
  | 0, _, _ => 0
  | fuel + 1, first, text =>
    let width := match text with
      | [] => none
      | c :: _ =>
        if c = byte '_' then some 1
        else match runes.letter text with
          | some w => some w
          | none => if first then none else runes.digit text
    match width with
    | none => 0
    | some w => w + identLen runes fuel false (text.drop w)

def scanNumber (text : Bytes) : Bytes × Bytes :=
  let whole := text.takeWhile isDigit
  match text.dropWhile isDigit with
  | [] => (whole, [])
  | c :: rest =>
    if c = byte '.' then
      (whole ++ c :: rest.takeWhile isDigit, rest.dropWhile isDigit)
    else (whole, c :: rest)

def syntaxError (message : String) : Nerr := ⟨.badSyntax, "sql.lexer", message⟩

def scanIdent (runes : Runes) (text : Bytes) : Token × Bytes :=
  let n := identLen runes text.length true text
  let lit := runes.toLower (text.take n)
  if keywords.any fun word => ascii word = lit then (⟨.keyword, lit⟩, text.drop n)
  else (⟨.ident, lit⟩, text.drop n)

def symbol (text : String) (rest : Bytes) : Except Nerr (Token × Bytes) :=
  .ok (⟨.symbol, ascii text⟩, rest)

/-- The token at the start of a text that starts with neither a blank nor a comment. -/
def lexOne (runes : Runes) : Bytes → Except Nerr (Token × Bytes)
  | [] => .error (syntaxError "unexpected character")
  | c :: rest =>
    let next := rest.head?
    if "()[],*+-/;=".toList.any fun s => byte s = c then .ok (⟨.symbol, [c]⟩, rest)
    else if c = byte '.' then
      if next.any isDigit then
        let (lit, tail) := scanNumber (c :: rest)
        .ok (⟨.number, lit⟩, tail)
      else symbol "." rest
    else if c = byte '<' then
      if next = some (byte '>') then symbol "<>" rest.tail
      else if next = some (byte '=') then symbol "<=" rest.tail
      else symbol "<" rest
    else if c = byte '>' then
      if next = some (byte '=') then symbol ">=" rest.tail else symbol ">" rest
    else if c = byte '!' then
      if next = some (byte '=') then symbol "!=" rest.tail
      else .error (syntaxError "unexpected character")
    else if c = byte '\'' then
      match scanQuoted c rest with
      | some (lit, tail) => .ok (⟨.string, lit⟩, tail)
      | none => .error (syntaxError "unterminated string")
    else if c = byte '"' then
      match scanQuoted c rest with
      | some ([], _) => .error (syntaxError "empty quoted identifier")
      | some (lit, tail) => .ok (⟨.ident, lit⟩, tail)
      | none => .error (syntaxError "unterminated identifier")
    else if c = byte '$' then
      if next.any isDigit then
        .ok (⟨.param, rest.takeWhile isDigit⟩, rest.dropWhile isDigit)
      else if next.any isIdentStart then
        .ok (⟨.param, rest.takeWhile isIdentPart⟩, rest.dropWhile isIdentPart)
      else .error (syntaxError "invalid parameter")
    else if isDigit c then
      let (lit, tail) := scanNumber (c :: rest)
      .ok (⟨.number, lit⟩, tail)
    else if (c = byte 'x' || c = byte 'X') && next = some (byte '\'') then
      let digits := rest.tail.takeWhile (· ≠ byte '\'')
      match rest.tail.dropWhile (· ≠ byte '\''), decodeHex digits with
      | [], _ => .error (syntaxError "unterminated hex literal")
      | _, none => .error (syntaxError "invalid hex literal")
      | _ :: tail, some lit => .ok (⟨.hexLit, lit⟩, tail)
    else if isIdentStart c then .ok (scanIdent runes (c :: rest))
    else .error (syntaxError "unexpected character")

/-- All tokens; every token takes at least one byte, so the fuel is enough. -/
def lexAll (runes : Runes) : (fuel : ℕ) → Bytes → Except Nerr (List Token)
  | 0, _ => .ok []
  | fuel + 1, text =>
    match skip text with
    | none => .error (syntaxError "unterminated comment")
    | some [] => .ok []
    | some (c :: rest) => do
      let (tok, tail) ← lexOne runes (c :: rest)
      let later ← lexAll runes fuel tail
      return tok :: later

def lex (runes : Runes) (text : Bytes) : Except Nerr (List Token) :=
  lexAll runes (text.length + 1) text

/-! ## Normalisation -/

/-- The literals with a space between them. -/
def joinLits : List Bytes → Bytes
  | [] => []
  | [lit] => lit
  | lit :: rest => lit ++ byte ' ' :: joinLits rest

/-- The normal form of a text, from its tokens. Semicolons and empty literals are left
out. -/
def normalizeSQL (toks : List Token) : Bytes :=
  joinLits ((toks.filter fun t => t ≠ ⟨.symbol, ascii ";"⟩ && !t.lit.isEmpty).map Token.lit)

end NextSQL.Sql
