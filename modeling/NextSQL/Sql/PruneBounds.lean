import NextSQL.Lib.PrefixFree
import NextSQL.Sql.Partition
import NextSQL.Sql.RangeSound

/-!
# The bounds of a query and the tuple of a row

Partition rules, bounds and rows are compared by their keys. The key of a tuple
is the concatenation of the keys of its values, so a prefix of a tuple can be
placed before or after a whole tuple (`upper_lt_of_above`, `lt_lower_of_below`).

The bounds are collected from the text of the predicate. Where that text can be
read as pruning reads it (`Readable`), each bound says of the column what the
predicate says (`Readable.ordered`), and the tuple of a row on which the
predicate is true lies between the bounds (`Readable.between_queryBounds`).
-/

namespace NextSQL.Sql

open List Except

/-! ## Keys as concatenations of parts -/

variable {a b : Bytes}

theorem compareBytes_eq_lt_iff : compareBytes a b = .lt ↔ a < b := by
  unfold compareBytes
  split
  · simp [*]
  · split <;> simp [*]

theorem compareBytes_eq_gt_iff : compareBytes a b = .gt ↔ b < a := by
  unfold compareBytes
  split
  · rename_i lt
    simp [lt.asymm]
  · split <;> simp [*]

theorem compareBytes_eq_eq_iff : compareBytes a b = .eq ↔ a = b := by
  unfold compareBytes
  split
  · rename_i lt
    simp [lt.ne]
  split
  · rename_i gt
    simp [gt.ne']
  · rename_i notLt notGt
    simp [le_antisymm (not_lt.mp notGt) (not_lt.mp notLt)]

variable {D : Type} {fns : Fns D}

/-- The parts of the key of a tuple. -/
def Encodes (fns : Fns D) : List (Value D) → List Bytes → Prop :=
  List.Forall₂ fun v part => encodeKeyPart fns v = .ok part

variable {vals : List (Value D)} {out : Bytes}

theorem encodeKeyParts_eq_ok_iff :
    encodeKeyParts fns vals = .ok out ↔ ∃ parts, Encodes fns vals parts ∧ out = parts.flatten := by
  induction vals generalizing out with
  | nil =>
    constructor
    · rintro ⟨⟩
      exact ⟨[], .nil, rfl⟩
    · rintro ⟨parts, encodes, rfl⟩
      cases encodes
      rfl
  | cons v rest ih =>
    rw [encodeKeyParts, bind_eq_ok_iff]
    constructor
    · rintro ⟨part, first, done⟩
      obtain ⟨tail, rests, done⟩ := bind_eq_ok_iff.mp done
      obtain ⟨parts, encodes, rfl⟩ := ih.mp rests
      cases done
      exact ⟨part :: parts, .cons first encodes, rfl⟩
    · rintro ⟨parts, encodes, rfl⟩
      cases encodes with
      | cons first rests =>
        exact ⟨_, first, bind_eq_ok_iff.mpr ⟨_, ih.mpr ⟨_, rests, rfl⟩, rfl⟩⟩

theorem encodes_of_encodeKey (encoded : encodeKey fns vals = .ok out) :
    ∃ parts, Encodes fns vals parts ∧ out = parts.flatten := by
  obtain ⟨out', parts, rest⟩ := bind_eq_ok_iff.mp encoded
  split at rest
  · cases rest
  · cases rest
    exact encodeKeyParts_eq_ok_iff.mp parts

variable {c : Ordering} {a : Value D}

/-- A comparison of two constants compares their key parts. -/
theorem compareValues_eq_ok {b : Value D} (compared : compareValuesForExplain fns a b = .ok c) :
    ∃ p q, encodeKeyPart fns a = .ok p ∧ encodeKeyPart fns b = .ok q ∧ compareBytes p q = c := by
  obtain ⟨ak, left, rest⟩ := bind_eq_ok_iff.mp compared
  obtain ⟨bk, right, rest⟩ := bind_eq_ok_iff.mp rest
  cases rest
  obtain ⟨ps, pEncodes, rfl⟩ := encodes_of_encodeKey left
  obtain ⟨qs, qEncodes, rfl⟩ := encodes_of_encodeKey right
  cases pEncodes with
  | cons p none_left =>
    cases none_left
    cases qEncodes with
    | cons q none_right =>
      cases none_right
      exact ⟨_, _, p, q, by simp⟩

/-! ## Tuples and prefixes of tuples -/

/-- What the value functions guarantee of keys: a converted value has the kind it
was converted to, and among values of one kind the keys are ordered as the
values are and none is a proper prefix of another. -/
structure KeyLaws [Ord D] (fns : Fns D) : Prop where
  coerce_kind : ∀ v t v', fns.coerce v t = .ok v' → v'.isNull = false → v'.kind = t.kind
  order : ∀ x y o p q, x.kind = y.kind → x.cmp y = .ok o → fns.encodeSortable x = .ok p →
    fns.encodeSortable y = .ok q → compareBytes p q = o
  apart : ∀ x y p q, x.kind = y.kind → x.isNull = false → y.isNull = false →
    fns.encodeSortable x = .ok p → fns.encodeSortable y = .ok q → List.Apart p q

/-- The key parts of two values, wherever they have one, are ordered so. -/
def PartOrder (fns : Fns D) (o : Ordering) (x c : Value D) : Prop :=
  ∀ p q, encodeKeyPart fns x = .ok p → encodeKeyPart fns c = .ok q → compareBytes p q = o

/-- A tuple is at or above a prefix; at the prefix itself only if that is included. -/
def Above (fns : Fns D) (incl : Bool) : List (Value D) → List (Value D) → Prop
  | _, [] => incl = true
  | [], _ :: _ => False
  | x :: tuple, c :: q =>
    PartOrder fns .gt x c ∨ (PartOrder fns .eq x c ∧ Above fns incl tuple q)

def Below (fns : Fns D) (incl : Bool) : List (Value D) → List (Value D) → Prop
  | _, [] => incl = true
  | [], _ :: _ => False
  | x :: tuple, c :: q =>
    PartOrder fns .lt x c ∨ (PartOrder fns .eq x c ∧ Below fns incl tuple q)

theorem above_nil (tuple : List (Value D)) : Above fns true tuple [] := by
  cases tuple <;> rfl

theorem below_nil (tuple : List (Value D)) : Below fns true tuple [] := by
  cases tuple <;> rfl

/-- Values of one kind, neither of them NULL. -/
def SameKind (x y : Value D) : Prop := x.isNull = false ∧ y.isNull = false ∧ x.kind = y.kind

variable {v : Value D}

theorem encodeKeyPart_eq_ok {part : Bytes} (present : v.isNull = false)
    (encoded : encodeKeyPart fns v = .ok part) :
    ∃ body, fns.encodeSortable v = .ok body ∧ part = 1 :: body := by
  rw [encodeKeyPart, present] at encoded
  obtain ⟨body, found, rest⟩ := bind_eq_ok_iff.mp encoded
  cases rest
  exact ⟨body, found, rfl⟩

variable {q : List (Value D)} {incl : Bool} {tuple : List (Value D)}

/-- The first values decide unless their keys are equal. -/
theorem cmpBoundTuple_cons {missing : Ordering} {b : Value D} {bound : List (Value D)} {pb : Bytes}
    (compared : cmpBoundTuple fns missing (a :: q) (b :: bound) = some c)
    (encoded : encodeKeyPart fns b = .ok pb) : ∃ pa, encodeKeyPart fns a = .ok pa ∧
      (pa = pb ∧ cmpBoundTuple fns missing q bound = some c ∨ compareBytes pa pb = c ∧ c ≠ .eq) := by
  rw [cmpBoundTuple] at compared
  split at compared
  · cases compared
  · rename_i same
    obtain ⟨pa, pb', partA, partB, equal⟩ := compareValues_eq_ok same
    cases encoded.symm.trans partB
    exact ⟨pa, partA, .inl ⟨compareBytes_eq_eq_iff.mp equal, compared⟩⟩
  · rename_i notEq order
    cases compared
    obtain ⟨pa, pb', partA, partB, differ⟩ := compareValues_eq_ok order
    cases encoded.symm.trans partB
    exact ⟨pa, partA, .inr ⟨differ, notEq⟩⟩

/-! ## Bounds read off a predicate -/

/-- The constant of a bound. -/
def Bound.const : Bound D → Value D
  | .equal v => v
  | .lower v _ => v
  | .upper v _ => v

/-- The operator of a bound. -/
def Bound.op : Bound D → CmpOp
  | .equal _ => .eq
  | .lower _ incl => lowOp incl
  | .upper _ incl => highOp incl

variable {b : Bound D}

theorem mem_boundOf {op : CmpOp} (member : b ∈ boundOf op v) : b.const = v ∧ b.op = op := by
  cases op <;> first | (cases mem_singleton.mp member; exact ⟨rfl, rfl⟩) | cases member

theorem boundsOn_eq_flatMap (col : String) (e : Expr D) :
    boundsOn fns col e = (conjuncts e).flatMap (boundsOn fns col) := by
  fun_induction conjuncts e with
  | case1 l r left right => rw [boundsOn, flatMap_append, left, right]
  | case2 e notAnd => rw [flatMap_singleton]

variable {row : Row D} {ord : ℕ}

theorem partitionTuple_cons {rest : List ℕ} (found : partitionTuple row (ord :: rest) = .ok tuple) :
    ∃ x tail, tuple = x :: tail ∧ row[ord]? = some x ∧ x.isNull = false ∧
      partitionTuple row rest = .ok tail := by
  rw [partitionTuple] at found
  split at found
  · cases found
  split at found
  · cases found
  rename_i x stored present
  obtain ⟨tail, more, done⟩ := bind_eq_ok_iff.mp found
  cases done
  exact ⟨x, tail, rfl, stored, by simpa using present, more⟩

variable {better : Ordering}

theorem mem_best (cur : Value D × Bool) (rest : List (Value D × Bool)) :
    best fns better cur rest ∈ cur :: rest := by
  induction rest generalizing cur with
  | nil => exact mem_cons_self
  | cons next rest ih =>
    rw [best]
    split
    · exact mem_cons_of_mem _ (ih next)
    obtain here | later := mem_cons.mp (ih cur)
    · rw [here]
      exact mem_cons_self
    · exact mem_cons_of_mem _ (mem_cons_of_mem _ later)

theorem mem_of_bestOf {l : List (Value D × Bool)} {b : Value D × Bool}
    (found : bestOf fns better l = some b) : b ∈ l := by
  cases l with
  | nil => cases found
  | cons first rest =>
    cases found
    exact mem_best first rest

variable {bounds : List (Bound D)}

theorem mem_equals (member : v ∈ equals bounds) : .equal v ∈ bounds := by
  obtain ⟨b, inside, same⟩ := mem_filterMap.mp member
  cases b <;> cases same
  exact inside

theorem mem_lowers (member : (v, incl) ∈ lowers bounds) : .lower v incl ∈ bounds := by
  obtain ⟨b, inside, same⟩ := mem_filterMap.mp member
  cases b <;> cases same
  exact inside

theorem mem_uppers (member : (v, incl) ∈ uppers bounds) : .upper v incl ∈ bounds := by
  obtain ⟨b, inside, same⟩ := mem_filterMap.mp member
  cases b <;> cases same
  exact inside

/-- What holds of the absent bound and of the bound that converts holds of the
bound taken. -/
theorem convertedBound_cases {typ : Typ} {chosen : Option (Value D × Bool)}
    {P : List (Value D) × Bool → Prop} (absent : P ([], true))
    (converts : ∀ v incl cv, chosen = some (v, incl) → fns.coerce v typ = .ok cv → P ([cv], incl)) :
    P (convertedBound fns typ chosen) := by
  unfold convertedBound
  split
  · exact absent
  rename_i v incl
  split
  · rename_i cv converted
    exact converts v incl cv rfl converted
  · exact absent

/-! ## The order of keys -/

variable [Ord D] {x y : Value D} {p : Bytes}

theorem KeyLaws.part_apart (laws : KeyLaws fns) (same : SameKind x y) {q : Bytes}
    (left : encodeKeyPart fns x = .ok p) (right : encodeKeyPart fns y = .ok q) :
    List.Apart p q := by
  obtain ⟨present, present', kinds⟩ := same
  obtain ⟨body, found, rfl⟩ := encodeKeyPart_eq_ok present left
  obtain ⟨body', found', rfl⟩ := encodeKeyPart_eq_ok present' right
  have apart := laws.apart x y body body' kinds present present' found found'
  constructor
  · intro inside
    rw [apart.1 (cons_prefix_cons.mp inside).2]
  · intro inside
    rw [apart.2 (cons_prefix_cons.mp inside).2]

theorem KeyLaws.partOrder (laws : KeyLaws fns) {o : Ordering} (kinds : x.kind = y.kind)
    (compared : x.cmp y = .ok o) : PartOrder fns o x y := by
  intro p q left right
  obtain ⟨present, present'⟩ := Value.isNull_of_cmp compared
  obtain ⟨body, found, rfl⟩ := encodeKeyPart_eq_ok present left
  obtain ⟨body', found', rfl⟩ := encodeKeyPart_eq_ok present' right
  have order := laws.order x y o body body' kinds compared found found'
  rw [← order]
  unfold compareBytes
  simp only [cons_lt_cons_self]

theorem flatten_lt_flatten {p' : Bytes} (apart : List.Apart p p') (lt : p < p')
    (parts ends : List Bytes) : (p :: parts).flatten < (p' :: ends).flatten := by
  rw [flatten_cons, flatten_cons]
  exact append_lt_append_of_lt apart lt _ _

variable {parts ends : List Bytes}

/-- A tuple above a prefix is beyond any tuple the prefix is beyond. Here `missing`
is how the rest of the prefix counts: below everything when the prefix itself is
included, above everything when it is not. -/
theorem upper_lt_of_above (laws : KeyLaws fns) {upper : List (Value D)}
    (above : Above fns incl tuple q) (kinds : Forall₂ SameKind tuple upper)
    (encodes : Encodes fns tuple parts) (encodesEnd : Encodes fns upper ends)
    (compared : cmpBoundTuple fns (if incl then .lt else .gt) q upper = some c) (beyond : c ≠ .lt) :
    ends.flatten < parts.flatten ∨ parts = ends := by
  induction kinds generalizing q parts ends with
  | nil =>
    cases encodes
    cases encodesEnd
    exact .inr rfl
  | @cons x b tuple upper same kinds ih =>
    obtain _ | ⟨first, rests⟩ := encodes
    obtain _ | ⟨firstEnd, restsEnd⟩ := encodesEnd
    rename_i px parts pb ends
    have apart := (laws.part_apart same first firstEnd).symm
    cases q with
    | nil =>
      have incl_true : incl := above
      subst incl_true
      cases compared
      exact absurd rfl beyond
    | cons a q =>
      obtain ⟨pa, partA, ⟨rfl, compared⟩ | ⟨differ, notEq⟩⟩ := cmpBoundTuple_cons compared firstEnd
      · obtain greater | ⟨equal_x, above⟩ := above
        · have gt := compareBytes_eq_gt_iff.mp (greater px pa first partA)
          exact .inl (flatten_lt_flatten apart gt _ _)
        cases compareBytes_eq_eq_iff.mp (equal_x px pa first partA)
        obtain lt | same_parts := ih above rests restsEnd compared
        · exact .inl (append_left_lt lt)
        · rw [same_parts]
          exact .inr rfl
      have gt_ab : pb < pa := by
        cases c with
        | lt => exact absurd rfl beyond
        | eq => exact absurd rfl notEq
        | gt => exact compareBytes_eq_gt_iff.mp differ
      obtain greater | ⟨equal_x, -⟩ := above
      · have gt_xa := compareBytes_eq_gt_iff.mp (greater px pa first partA)
        exact .inl (flatten_lt_flatten apart (gt_ab.trans gt_xa) _ _)
      · cases compareBytes_eq_eq_iff.mp (equal_x px pa first partA)
        exact .inl (flatten_lt_flatten apart gt_ab _ _)

/-- A tuple below a prefix comes before any tuple the prefix comes before. -/
theorem lt_lower_of_below (laws : KeyLaws fns) {lower : List (Value D)}
    (below : Below fns incl tuple q) (kinds : Forall₂ SameKind tuple lower)
    (encodes : Encodes fns tuple parts) (encodesEnd : Encodes fns lower ends)
    (compared : cmpBoundTuple fns (if incl then .gt else .lt) q lower = some c)
    (before : c = .lt ∨ (c = .eq ∧ incl = false)) : parts.flatten < ends.flatten := by
  induction kinds generalizing q parts ends with
  | nil =>
    cases q with
    | nil =>
      have incl_true : incl := below
      cases compared
      obtain wrong | ⟨-, wrong⟩ := before
      · cases wrong
      · rw [incl_true] at wrong
        cases wrong
    | cons a q => cases below
  | @cons x b tuple lower same kinds ih =>
    obtain _ | ⟨first, rests⟩ := encodes
    obtain _ | ⟨firstEnd, restsEnd⟩ := encodesEnd
    rename_i px parts pb ends
    have apart := laws.part_apart same first firstEnd
    cases q with
    | nil =>
      have incl_true : incl := below
      subst incl_true
      cases compared
      rcases before with wrong | ⟨wrong, -⟩ <;> cases wrong
    | cons a q =>
      obtain ⟨pa, partA, ⟨rfl, compared⟩ | ⟨differ, notEq⟩⟩ := cmpBoundTuple_cons compared firstEnd
      · obtain less | ⟨equal_x, below⟩ := below
        · have lt := compareBytes_eq_lt_iff.mp (less px pa first partA)
          exact flatten_lt_flatten apart lt _ _
        · cases compareBytes_eq_eq_iff.mp (equal_x px pa first partA)
          exact append_left_lt (ih below rests restsEnd compared)
      have lt_ab : pa < pb := by
        obtain rfl | ⟨rfl, -⟩ := before
        · exact compareBytes_eq_lt_iff.mp differ
        · exact absurd rfl notEq
      obtain less | ⟨equal_x, -⟩ := below
      · have lt_xa := compareBytes_eq_lt_iff.mp (less px pa first partA)
        exact flatten_lt_flatten apart (lt_xa.trans lt_ab) _ _
      · cases compareBytes_eq_eq_iff.mp (equal_x px pa first partA)
        exact flatten_lt_flatten apart lt_ab _ _

/-! ## Bounds read off a true predicate -/

/-- What stands where a bound can take it for a column. -/
def columnSides : Expr D → List (Expr D)
  | .cmp _ l r => [l, r]
  | .between _ e _ _ => [e]
  | _ => []

variable [Inhabited D]

/-- The conditions under which the bounds read off a predicate are what it says
of the partition columns of a row. -/
structure Readable (fns : Fns D) (tab : Table) (row : Row D) (columns : List ℕ)
    (pred : Expr D) : Prop where
  /-- Only the name of a partition column is taken for it. -/
  names : ∀ n ∈ atoms pred, ∀ ord ∈ columns, ∀ e ∈ columnSides n,
    isColForPrune fns (colName tab ord) e = true → e = .ident (colName tab ord)
  /-- Constants are written without a sign. -/
  literal : ∀ n ∈ atoms pred, ∀ operand ∈ comparands n, ∀ v,
    literalToValueForPrune operand = some v → operand = .literal v
  /-- A literal on the left has the kind of what it is compared with. -/
  left : ∀ n ∈ atoms pred, ∀ op v r x, n = .cmp op (.literal v) r →
    eval fns tab row r = .ok x → x.kind = v.kind
  /-- A partition column is not tested by a negated `BETWEEN`. -/
  positive : ∀ n ∈ atoms pred, ∀ e low high, n = .between true e low high →
    ∀ ord ∈ columns, isColForPrune fns (colName tab ord) e = false
  /-- A converted constant compares with the column as the constant does. -/
  converted : ∀ n ∈ atoms pred, ∀ ord ∈ columns, ∀ b ∈ boundsOn fns (colName tab ord) n,
    ∀ cv x, fns.coerce b.const (colType tab ord) = .ok cv → row[ord]? = some x →
      x.cmp (betweenBound fns x b.const) = x.cmp cv

variable {tab : Table} {columns : List ℕ} {pred : Expr D} {col : String}

/-- A bound of a true predicate is a bound of an operand that is true. -/
theorem exists_atom_of_mem_boundsOn (member : b ∈ boundsOn fns col pred)
    (holds : Holds fns tab row pred) :
    ∃ n ∈ atoms pred, Holds fns tab row n ∧ b ∈ boundsOn fns col n := by
  rw [boundsOn_eq_flatMap] at member
  obtain ⟨c, inside, here⟩ := mem_flatMap.mp member
  refine ⟨c, atoms_subset_of_mem_conjuncts inside ?_,
    (holds_iff_conjuncts pred).mp holds c inside, here⟩
  unfold atoms
  split
  · exact absurd rfl (not_and_of_mem_conjuncts inside _ _)
  · cases here
  · exact mem_singleton_self _

/-- A value that a true predicate pins a column to comes from an equality that is
true: one operand of an `AND` is enough, and an `OR` has one that is true. -/
theorem exists_atom_of_extractEqualValues (pred : Expr D) (vals : List (Value D))
    (found : extractEqualValues fns col pred = some vals) (holds : Holds fns tab row pred) :
    ∃ v ∈ vals, ∃ n ∈ atoms pred, Holds fns tab row n ∧ .equal v ∈ boundsOn fns col n := by
  fun_induction extractEqualValues fns col pred generalizing vals with
  | case1 l r left right _ leftFound ihLeft _ =>
    cases found
    obtain ⟨v, member, n, inside, rest⟩ := ihLeft left leftFound (holds_and.mp holds).1
    exact ⟨v, mem_append_left _ member, n, mem_append_left _ inside, rest⟩
  | case2 l r left _ leftFound ihLeft _ =>
    obtain ⟨v, member, n, inside, rest⟩ := ihLeft vals (leftFound.trans found) (holds_and.mp holds).1
    exact ⟨v, member, n, mem_append_left _ inside, rest⟩
  | case3 l r right rightFound _ _ ihRight =>
    obtain ⟨v, member, n, inside, rest⟩ :=
      ihRight vals (rightFound.trans found) (holds_and.mp holds).2
    exact ⟨v, member, n, mem_append_right _ inside, rest⟩
  | case5 l r left right rightFound leftFound ihLeft ihRight =>
    cases found
    obtain holdsLeft | holdsRight := holds_or holds
    · obtain ⟨v, member, n, inside, rest⟩ := ihLeft left leftFound holdsLeft
      exact ⟨v, mem_append_left _ member, n, mem_append_left _ inside, rest⟩
    · obtain ⟨v, member, n, inside, rest⟩ := ihRight right rightFound holdsRight
      exact ⟨v, mem_append_right _ member, n, mem_append_right _ inside, rest⟩
  | case7 l r isLeft =>
    obtain ⟨v, constant, rfl⟩ := Option.map_eq_some_iff.mp found
    refine ⟨v, mem_singleton_self v, _, mem_singleton_self _, holds, ?_⟩
    rw [boundsOn, if_pos isLeft, constant]
    exact mem_singleton_self _
  | case8 l r notLeft isRight =>
    obtain ⟨v, constant, rfl⟩ := Option.map_eq_some_iff.mp found
    refine ⟨v, mem_singleton_self v, _, mem_singleton_self _, holds, ?_⟩
    rw [boundsOn, if_neg notLeft, if_pos isRight, constant]
    exact mem_singleton_self _
  | _ => cases found

variable [Std.TransOrd D]

/-- **What a bound says of the column it was read off for.** -/
theorem Readable.ordered (readable : Readable fns tab row columns pred) {n : Expr D}
    (inside : n ∈ atoms pred) (column : ord ∈ columns)
    (named : tab.colIndex (colName tab ord) = some ord) (stored : row[ord]? = some x)
    (holds : Holds fns tab row n) (bound : b ∈ boundsOn fns (colName tab ord) n) :
    Ordered fns b.op x b.const := by
  have evaluated : eval fns tab row (.ident (colName tab ord)) = .ok x :=
    eval_ident_eq_ok_iff.mpr ⟨ord, named, stored⟩
  unfold boundsOn at bound
  split at bound
  · exact absurd rfl (not_and_of_mem_atoms inside _ _)
  · rename_i op l r
    split at bound
    · rename_i isLeft
      split at bound
      · rename_i v constant
        obtain ⟨const, op_eq⟩ := mem_boundOf bound
        rw [const, op_eq]
        cases readable.names _ inside ord column l (by simp [columnSides]) isLeft
        cases readable.literal _ inside r (by simp [comparands]) v constant
        obtain ⟨x', here, -, -, ordered⟩ := holds_cmp_literal.mp holds
        cases evaluated.symm.trans here
        exact ordered
      · cases bound
    split at bound
    · rename_i notLeft isRight
      split at bound
      · rename_i v constant
        obtain ⟨const, op_eq⟩ := mem_boundOf bound
        rw [const, op_eq]
        cases readable.names _ inside ord column r (by simp [columnSides]) isRight
        cases readable.literal _ inside l (by simp [comparands]) v constant
        obtain ⟨x', here, -, -, ordered⟩ :=
          (holds_literal_cmp fun y => readable.left _ inside op v _ y rfl).mp holds
        cases evaluated.symm.trans here
        exact ordered
      · cases bound
    · cases bound
  · rename_i negated e low high
    split at bound
    · rename_i isColumn
      cases negated with
      | true =>
        rw [readable.positive _ inside e low high rfl ord column] at isColumn
        cases isColumn
      | false =>
        cases readable.names _ inside ord column e (by simp [columnSides]) isColumn
        obtain ⟨x', lo, hi, here, lows, highs, -, -, above, below⟩ := holds_between_iff.mp holds
        cases evaluated.symm.trans here
        obtain lower | upper := mem_append.mp bound
        · split at lower
          · rename_i v constant
            cases mem_singleton.mp lower
            cases readable.literal _ inside low (by simp [comparands]) v constant
            cases lows
            exact above
          · cases lower
        split at upper
        · rename_i v constant
          cases mem_singleton.mp upper
          cases readable.literal _ inside high (by simp [comparands]) v constant
          cases highs
          exact below
        · cases upper
    · cases bound
  · cases bound

/-- What a row of the table is known to be: its partition columns are reached by
name and hold values of their type. -/
structure TypedRow (tab : Table) (columns : List ℕ) (row : Row D) : Prop where
  named : ∀ ord ∈ columns, tab.colIndex (colName tab ord) = some ord
  kinds : ∀ ord ∈ columns, ∀ x, row[ord]? = some x → x.isNull = false →
    x.kind = (colType tab ord).kind

section

variable (readable : Readable fns tab row columns pred) (laws : KeyLaws fns)
  (typed : TypedRow tab columns row)

include readable laws typed

variable {cv : Value D}

/-- The converted constant of an atom's bound, as a key part. -/
theorem Readable.partOrder_of_atom {n : Expr D} (inside : n ∈ atoms pred) (column : ord ∈ columns)
    (stored : row[ord]? = some x) (holds : Holds fns tab row n)
    (bound : b ∈ boundsOn fns (colName tab ord) n)
    (converts : fns.coerce b.const (colType tab ord) = .ok cv) :
    ∃ o, PartOrder fns o x cv ∧ b.op.test o := by
  obtain ⟨o, compared, passed⟩ :=
    readable.ordered inside column (typed.named ord column) stored holds bound
  rw [readable.converted n inside ord column b bound cv x converts stored] at compared
  obtain ⟨present, present'⟩ := Value.isNull_of_cmp compared
  have kinds : x.kind = cv.kind :=
    (typed.kinds ord column x stored present).trans (laws.coerce_kind _ _ cv converts present').symm
  exact ⟨o, laws.partOrder kinds compared, passed⟩

theorem Readable.partOrder (holds : Holds fns tab row pred) (column : ord ∈ columns)
    (stored : row[ord]? = some x) (bound : b ∈ boundsOn fns (colName tab ord) pred)
    (converts : fns.coerce b.const (colType tab ord) = .ok cv) :
    ∃ o, PartOrder fns o x cv ∧ b.op.test o := by
  obtain ⟨n, inside, holds_n, bound_n⟩ := exists_atom_of_mem_boundsOn bound holds
  exact readable.partOrder_of_atom laws typed inside column stored holds_n bound_n converts

end

/-- **The tuple of a row on which the predicate is true lies between the bounds
of the query.** By induction over the partition columns. -/
theorem Readable.between_queryBounds (readable : Readable fns tab row columns pred)
    (laws : KeyLaws fns) (typed : TypedRow tab columns row) (holds : Holds fns tab row pred) :
    ∀ (cols : List ℕ) (tuple : List (Value D)), cols ⊆ columns →
      partitionTuple row cols = .ok tuple →
      Above fns (queryBounds fns tab pred cols).lowIncl tuple (queryBounds fns tab pred cols).low ∧
        Below fns (queryBounds fns tab pred cols).highIncl tuple
          (queryBounds fns tab pred cols).high
  | [], tuple, _, _ => ⟨above_nil tuple, below_nil tuple⟩
  | ord :: rest, tuple, inside, found => by
    obtain ⟨x, tail, rfl, stored, present, more⟩ := partitionTuple_cons found
    have column : ord ∈ columns := inside mem_cons_self
    have order : ∀ b ∈ boundsOn fns (colName tab ord) pred, ∀ cv,
        fns.coerce b.const (colType tab ord) = .ok cv →
        ∃ o, PartOrder fns o x cv ∧ b.op.test o :=
      fun b bound cv converts =>
        readable.partOrder laws typed holds column stored bound converts
    rw [queryBounds]
    split
    · rename_i v others pinned
      have bound := mem_equals (v := v) (by rw [pinned]; exact mem_cons_self)
      split
      · exact ⟨above_nil _, below_nil _⟩
      rename_i cv converts
      obtain ⟨o, part, passed⟩ := order _ bound cv converts
      have equal : o = .eq := by
        cases o <;> first | rfl | cases passed
      subst equal
      obtain ⟨above, below⟩ := Readable.between_queryBounds readable laws typed holds rest tail
        (fun c later => inside (mem_cons_of_mem _ later)) more
      exact ⟨.inr ⟨part, above⟩, .inr ⟨part, below⟩⟩
    constructor
    · refine convertedBound_cases (P := fun b => Above fns b.2 (x :: tail) b.1)
        (above_nil _) fun v incl cv chosen converts => ?_
      obtain ⟨o, part, passed⟩ := order _ (mem_lowers (mem_of_bestOf chosen)) cv converts
      cases o with
      | lt => cases incl <;> cases passed
      | eq =>
        cases incl with
        | true => exact .inr ⟨part, above_nil _⟩
        | false => cases passed
      | gt => exact .inl part
    refine convertedBound_cases (P := fun b => Below fns b.2 (x :: tail) b.1)
      (below_nil _) fun v incl cv chosen converts => ?_
    obtain ⟨o, part, passed⟩ := order _ (mem_uppers (mem_of_bestOf chosen)) cv converts
    cases o with
    | gt => cases incl <;> cases passed
    | eq =>
      cases incl with
      | true => exact .inr ⟨part, below_nil _⟩
      | false => cases passed
    | lt => exact .inl part

/-! ## Keys of one-byte integers -/

theorem compareBytes_singleton (a b : Byte) : compareBytes [a] [b] = compare a b := by
  obtain lt | rfl | gt := lt_trichotomy a b
  · rw [compare_lt_iff_lt.mpr lt]
    exact compareBytes_eq_lt_iff.mpr (cons_lt_cons_iff.mpr (.inl lt))
  · rw [compare_eq_iff_eq.mpr rfl]
    exact compareBytes_eq_eq_iff.mpr rfl
  · rw [compare_gt_iff_gt.mpr gt]
    exact compareBytes_eq_gt_iff.mpr (cons_lt_cons_iff.mpr (.inl gt))

theorem uint8Fns_keyLaws : KeyLaws uint8Fns where
  coerce_kind := by
    intro v t v' converts present
    unfold uint8Fns at converts
    dsimp only at converts
    split at converts
    · cases converts
      cases present
    split at converts
    · rename_i same
      cases converts
      rw [← same]
      rfl
    · cases converts
  order := by
    intro x y o p q kinds compared left right
    cases x with
    | null t => cases compared
    | bool a =>
      cases y with
      | null t | data t d => cases compared
      | bool b =>
        cases left
        cases right
        cases compared
        rw [compareBytes_singleton]
        cases a <;> cases b <;> rfl
    | data s a =>
      cases y with
      | null t | bool b => cases compared
      | data t b =>
        cases left
        cases right
        rw [compareBytes_singleton]
        rw [Value.cmp] at compared
        split at compared
        · cases compared
        split at compared
        · cases compared
        · exact Except.ok.inj compared
  apart := by
    intro x y p q kinds present present' left right
    have single : ∀ (v : Value Byte) (k : Bytes), uint8Fns.encodeSortable v = .ok k →
        k.length = 1 := by
      intro v k encoded
      cases v <;> cases encoded <;> rfl
    have long : p.length = q.length := (single x p left).trans (single y q right).symm
    exact ⟨fun inside => inside.eq_of_length long, fun inside => (inside.eq_of_length long.symm).symm⟩

end NextSQL.Sql
