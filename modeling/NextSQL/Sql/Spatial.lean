import Mathlib.Data.Rat.Floor
import NextSQL.Format
import NextSQL.Lib.Zorder

/-!
# Scans of a spatial index

A row stands in a spatial index under the Morton code of the centre of its
bounding box. A predicate with a constant geometry is turned into a scan of one
range of codes: those that share the leading bits in which the four corners of a
box agree. The box is the bounding box of the constant, grown by the radius of a
distance predicate.

The range is the range of a cell of the plane, and it has every row whose centre
lies in the box. But that is not what the predicates ask for. A geometry can
intersect the constant, contain it or be near to it while the centre of its own
bounding box is far away, and the scan then misses the row
(`intersecting_row_missed`). `spatial_scan_iff` says for every predicate and
every row when it does not.

Coordinates are rational numbers. What a predicate answers, the bounding box of a
geometry and the box of a circle on the globe are parameters.
-/

namespace NextSQL.Sql.Spatial

open Zorder ByteFields

/-! ## Codes -/

/-- Spread the bits of a 32-bit number over the even places. -/
def spread32 (x : Nat) : Nat :=
  let v := (x ||| x <<< 16) &&& 0x0000FFFF0000FFFF
  let v := (v ||| v <<< 8) &&& 0x00FF00FF00FF00FF
  let v := (v ||| v <<< 4) &&& 0x0F0F0F0F0F0F0F0F
  let v := (v ||| v <<< 2) &&& 0x3333333333333333
  (v ||| v <<< 1) &&& 0x5555555555555555

def interleave32 (x y : Nat) : Nat := spread32 x ||| spread32 y <<< 1

def maxUint32 : Nat := 2 ^ 32 - 1

def maxUint64 : Nat := 2 ^ 64 - 1

def quant32 (v min max : ℚ) : Nat :=
  if v ≤ min then 0
  else if max ≤ v then maxUint32
  else Nat.min ⌊(v - min) / (max - min) * maxUint32⌋.toNat maxUint32

def quantLon (lon : ℚ) : Nat := quant32 lon (-180) 180

def quantLat (lat : ℚ) : Nat := quant32 lat (-90) 90

def geoHash64 (lon lat : ℚ) : Nat := interleave32 (quantLon lon) (quantLat lat)

/-! ## Ranges -/

structure Box where
  west : ℚ
  south : ℚ
  east : ℚ
  north : ℚ
deriving DecidableEq

/-- `bits.LeadingZeros64`. -/
def leadingZeros64 (v : Nat) : Nat := if v = 0 then 64 else 63 - v.log2

/-- In how many leading bits the codes of the four corners agree. -/
def prefixBits (b : Box) : Nat :=
  let corner := geoHash64 b.west b.south
  [geoHash64 b.west b.north, geoHash64 b.east b.south, geoHash64 b.east b.north].foldl
    (fun nbits c => min nbits (leadingZeros64 (corner ^^^ c))) 64

/-- First code, end (zero if there is none) and number of bits of the range of a box. -/
def geoHashRange (b : Box) : Nat × Nat × Nat :=
  if b.east < b.west then (0, 0, 0)
  else
    let nbits := prefixBits b
    if nbits = 0 then (0, 0, 0)
    else
      let shift := 64 - nbits
      let start := (geoHash64 b.west b.south >>> shift) <<< shift
      let span := 1 <<< shift
      if nbits = 64 then
        if start = maxUint64 then (start, 0, nbits) else (start, start + 1, nbits)
      else if maxUint64 - span < start then (start, 0, nbits)
      else (start, start + span, nbits)

def encodeGeoKey (hash : Nat) (pk : Bytes) : Bytes := 1 :: (be 8 hash ++ pk)

/-- Keys of a range of codes; a bound that is missing is open. -/
def geoKeyBounds : Nat × Nat × Nat → Option Bytes × Option Bytes
  | (start, end_, bits) =>
    if bits = 0 then (none, none)
    else if end_ = 0 then (some (1 :: be 8 start), none)
    else (some (1 :: be 8 start), some (1 :: be 8 end_))

/-- The keys that a scan visits. -/
def InScan (bounds : Option Bytes × Option Bytes) (key : Bytes) : Prop :=
  (∀ lo ∈ bounds.1, ¬ key < lo) ∧ ∀ hi ∈ bounds.2, key < hi

/-! ## Predicates -/

inductive Column where
  | point
  | geometry
  | geography
deriving DecidableEq, Repr

def Column.general : Column → Bool
  | .point => false
  | .geometry | .geography => true

/-- The tests that have a spatial scan. -/
inductive Test where
  | intersects
  | contains
  | within
  | covers
  | coveredBy
  | dwithin (meters : ℚ)
  /-- `distance(..) < meters`, or with `<=`. -/
  | distance (strict : Bool) (meters : ℚ)

/-- A test of the column against a constant. -/
structure Call (Shape : Type) where
  test : Test
  columnFirst : Bool
  const : Shape

/-- What is taken of geometries. -/
structure Geometry (Shape : Type) where
  /-- The bounding box; an empty geometry has none. -/
  bbox : Shape → Option Box
  /-- The coordinates of a point. -/
  point : Shape → Option (ℚ × ℚ)
  /-- A box that crosses the antimeridian. -/
  wraps : Shape → Bool
  /-- `CircleBBox`: none if it covers the globe. -/
  circleBBox : ℚ → ℚ → ℚ → Option Box
  /-- The predicate is true on the row. -/
  holds : Call Shape → Shape → Bool
  /-- The code of an empty geometry, which has no centre. -/
  emptyHash : Fin (2 ^ 64)

/-- What the optimizer makes of a predicate. -/
inductive Match (Shape : Type) where
  | within (box : Shape)
  | dwithin (center : Shape) (radius : ℚ) (planar : Bool)

namespace Geometry

variable {Shape : Type} (g : Geometry Shape)

def oneSpatial (column : Column) (call : Call Shape) : Option (Match Shape) :=
  match call.test with
  | .intersects | .contains | .coveredBy =>
    if column.general then some (.within call.const) else none
  | .within => if column.general || call.columnFirst then some (.within call.const) else none
  | .covers => if column.general || !call.columnFirst then some (.within call.const) else none
  | .dwithin meters =>
    if meters < 0 then none else some (.dwithin call.const meters (column = .geometry))
  | .distance _ meters =>
    if meters < 0 ∨ (g.point call.const).isNone then none
    else some (.dwithin call.const meters false)

def expandBBox (b : Box) (meters : ℚ) : Option Box :=
  if b.east < b.west then none
  else
    match g.circleBBox b.west b.south meters, g.circleBBox b.east b.north meters with
    | some b1, some b2 =>
      if b1.east < b1.west ∨ b2.east < b2.west then none
      else some ⟨min b1.west b2.west, max (min b1.south b2.south) (-90), max b1.east b2.east,
        min (max b1.north b2.north) 90⟩
    | _, _ => none

/-- The box that is scanned; none is all of the index. -/
def queryBox : Match Shape → Option Box
  | .within box => if g.wraps box then none else g.bbox box
  | .dwithin center radius planar =>
    if planar then
      (g.bbox center).map fun b =>
        ⟨b.west - radius, b.south - radius, b.east + radius, b.north + radius⟩
    else
      match g.point center with
      | some (lon, lat) => g.circleBBox lon lat radius
      | none =>
        if g.wraps center then none
        else (g.bbox center).bind fun b => g.expandBBox b radius

/-- The bounds of the scan. -/
def scanBounds (m : Match Shape) : Option Bytes × Option Bytes :=
  match g.queryBox m with
  | none => geoKeyBounds (0, 0, 0)
  | some b => geoKeyBounds (geoHashRange b)

def rowHash (row : Shape) : Nat :=
  match g.bbox row with
  | none => g.emptyHash
  | some b => geoHash64 ((b.west + b.east) / 2) ((b.south + b.north) / 2)

/-- The key of a row in the index. -/
def indexKV (row : Shape) (pk : Bytes) : Bytes := encodeGeoKey (g.rowHash row) pk

end Geometry

/-! ## Codes interleave coordinates -/

theorem source_thirtyTwo {i : Nat} (lt : i < 64) :
    source 32 i = if i < 32 then some i else none := by
  unfold source
  split <;> split <;> simp_all <;> omega

theorem source_one (i : Nat) : source 1 i = if i % 2 = 0 then some (i / 2) else none := by
  unfold source
  split <;> split <;> simp_all
  omega

theorem testBit_spread32 {x : Nat} (small : x < 2 ^ 32) (i : Nat) :
    (spread32 x).testBit i = (decide (i % 2 = 0) && x.testBit (i / 2)) := by
  have high : ∀ j, 32 ≤ j → x.testBit j = false := fun j le =>
    Nat.testBit_lt_two_pow (small.trans_le (Nat.pow_le_pow_right (by decide) le))
  obtain lt | ge := lt_or_ge i 64
  · have start : ∀ j < 64, x.testBit j = (source 32 j).any x.testBit := by
      intro j lt
      rw [source_thirtyTwo lt]
      split
      · rfl
      · rename_i le
        exact high j (by omega)
    have first := testBit_round 16 0x0000FFFF0000FFFF start (by decide +kernel)
    have second := testBit_round 8 0x00FF00FF00FF00FF first (by decide +kernel)
    have third := testBit_round 4 0x0F0F0F0F0F0F0F0F second (by decide +kernel)
    have fourth := testBit_round 2 0x3333333333333333 third (by decide +kernel)
    have spread := testBit_round 1 0x5555555555555555 fourth (by decide +kernel) i lt
    rw [source_one] at spread
    rw [spread32, spread]
    split <;> simp_all
  · have mask : Nat.testBit 0x5555555555555555 i = false :=
      Nat.testBit_lt_two_pow (lt_of_lt_of_le (by decide : _ < 2 ^ 64)
        (Nat.pow_le_pow_right (by decide) ge))
    rw [spread32, Nat.testBit_and, mask, Bool.and_false, high (i / 2) (by omega), Bool.and_false]

theorem interleaves_interleave32 {x y : Nat} (left : x < 2 ^ 32) (right : y < 2 ^ 32) :
    Interleaves (interleave32 x y) x y := by
  constructor <;> intro i <;>
    rw [interleave32, Nat.testBit_or, Nat.testBit_shiftLeft, testBit_spread32 left,
      testBit_spread32 right]
  · have even : 2 * i % 2 = 0 := by omega
    have odd : i = 0 ∨ (2 * i - 1) % 2 ≠ 0 := by omega
    rcases odd with rfl | odd <;> simp_all
  · simp

/-! ## Quantisation -/

theorem quant32_lt (v min max : ℚ) : quant32 v min max < 2 ^ 32 := by
  unfold quant32
  split
  · decide
  · split
    · decide
    · exact lt_of_le_of_lt (Nat.min_le_right _ _) (by decide)

theorem quant32_mono {v w min max : ℚ} (le : v ≤ w) : quant32 v min max ≤ quant32 w min max := by
  unfold quant32
  split
  · exact zero_le
  rename_i above
  have above' : ¬ w ≤ min := fun below => above (le.trans below)
  rw [if_neg above']
  split
  · rename_i top
    rw [if_pos (top.trans le)]
  split
  · exact Nat.min_le_right _ _
  rename_i below below'
  have span : 0 < max - min := by linarith
  have scaled : (v - min) / (max - min) * maxUint32 ≤ (w - min) / (max - min) * maxUint32 := by
    gcongr
  exact min_le_min_right _ (Int.toNat_le_toNat (Int.floor_mono scaled))

theorem interleaves_geoHash64 (lon lat : ℚ) :
    Interleaves (geoHash64 lon lat) (quantLon lon) (quantLat lat) :=
  interleaves_interleave32 (quant32_lt _ _ _) (quant32_lt _ _ _)

theorem geoHash64_lt (lon lat : ℚ) : geoHash64 lon lat < 2 ^ 64 :=
  (interleaves_geoHash64 lon lat).lt (quant32_lt _ _ _) (quant32_lt _ _ _)

/-! ## The range of a box -/

theorem le_leadingZeros64_iff {v n : Nat} (small : v < 2 ^ 64) (le : n ≤ 64) :
    n ≤ leadingZeros64 v ↔ v < 2 ^ (64 - n) := by
  unfold leadingZeros64
  split
  · rename_i zero
    subst zero
    simp [le]
  rename_i positive
  have log : v.log2 < 64 := (Nat.log2_lt positive).mpr small
  rw [← Nat.log2_lt positive]
  omega

theorem prefixBits_le (b : Box) : prefixBits b ≤ 64 := by
  simp only [prefixBits, List.foldl_cons, List.foldl_nil]
  omega

/-- The codes of the corners agree in the leading bits. -/
theorem corners_agree {b : Box} {lon lat : ℚ} (west : lon = b.west ∨ lon = b.east)
    (south : lat = b.south ∨ lat = b.north) :
    geoHash64 b.west b.south >>> (64 - prefixBits b) = geoHash64 lon lat >>> (64 - prefixBits b) := by
  rw [← xor_lt_iff, ← le_leadingZeros64_iff
    (Nat.xor_lt_two_pow (geoHash64_lt _ _) (geoHash64_lt _ _)) (prefixBits_le b)]
  rcases west with rfl | rfl <;> rcases south with rfl | rfl
  · rw [Nat.xor_self]
    exact prefixBits_le b
  all_goals
    simp only [prefixBits, List.foldl_cons, List.foldl_nil]
    omega

/-- A code lies in a range. -/
def InRange (range : Nat × Nat × Nat) (hash : Nat) : Prop :=
  range.2.2 = 0 ∨ range.1 ≤ hash ∧ (range.2.1 = 0 ∨ hash < range.2.1)

theorem block_iff {c h s : Nat} : (c >>> s) <<< s ≤ h ∧ h < (c >>> s) <<< s + 1 <<< s ↔
    h >>> s = c >>> s := by
  rw [Nat.shiftLeft_eq, Nat.shiftLeft_eq, one_mul, Nat.shiftRight_eq_div_pow,
    Nat.shiftRight_eq_div_pow, Nat.div_eq_iff (Nat.pow_pos (by decide))]
  have positive : 0 < 2 ^ s := Nat.pow_pos (by decide)
  omega

variable {hash : Nat}

/-- The range of a box has the codes that agree with its corners in the leading bits. -/
theorem inRange_geoHashRange_iff {b : Box} (ordered : ¬ b.east < b.west) (small : hash < 2 ^ 64) :
    InRange (geoHashRange b) hash ↔
      hash >>> (64 - prefixBits b) = geoHash64 b.west b.south >>> (64 - prefixBits b) := by
  have corner := geoHash64_lt b.west b.south
  rw [geoHashRange, if_neg ordered]
  dsimp only
  rw [← block_iff]
  by_cases whole : prefixBits b = 0
  · have shifted : ∀ v < 2 ^ 64, v >>> 64 = 0 := fun v lt => Nat.shiftRight_eq_zero v 64 lt
    simpa [whole, InRange, shifted _ corner] using small
  rw [if_neg whole]
  generalize (geoHash64 b.west b.south >>> (64 - prefixBits b)) <<< (64 - prefixBits b) = start at *
  by_cases all : prefixBits b = 64
  · simp only [all, if_true]
    split <;> simp [InRange, maxUint64] at *
    all_goals omega
  · rw [if_neg all]
    split <;> simp [InRange, maxUint64, whole] at *
    all_goals omega

/-! ## Keys -/

theorem encodeGeoKey_lt_iff {bound : Nat} (pk : Bytes) (left : hash < 2 ^ 64)
    (right : bound < 2 ^ 64) : encodeGeoKey hash pk < 1 :: be 8 bound ↔ hash < bound := by
  rw [encodeGeoKey, List.cons_lt_cons_iff]
  simp only [lt_irrefl, false_or, true_and]
  exact be_append_lt_iff left right pk

theorem geoHashRange_lt (b : Box) :
    (geoHashRange b).1 < 2 ^ 64 ∧ (geoHashRange b).2.1 < 2 ^ 64 := by
  have corner := geoHash64_lt b.west b.south
  have start_le : (geoHash64 b.west b.south >>> (64 - prefixBits b)) <<< (64 - prefixBits b) ≤
      geoHash64 b.west b.south := by
    rw [Nat.shiftLeft_eq, Nat.shiftRight_eq_div_pow]
    exact Nat.div_mul_le_self _ _
  have span : prefixBits b = 0 ∨ 2 ^ (64 - prefixBits b) ≤ 2 ^ 63 := by
    obtain zero | positive := Nat.eq_zero_or_pos (prefixBits b)
    · exact .inl zero
    · exact .inr (Nat.pow_le_pow_right (by decide) (by omega))
  unfold geoHashRange
  dsimp only
  rw [Nat.one_shiftLeft]
  generalize (geoHash64 b.west b.south >>> (64 - prefixBits b)) <<< (64 - prefixBits b) = start at *
  split_ifs <;> simp [maxUint64] at * <;> omega

/-- The bounds of a range admit the keys of its codes. -/
theorem inScan_iff {range : Nat × Nat × Nat} (pk : Bytes) (small : hash < 2 ^ 64)
    (first : range.1 < 2 ^ 64) (last : range.2.1 < 2 ^ 64) :
    InScan (geoKeyBounds range) (encodeGeoKey hash pk) ↔ InRange range hash := by
  obtain ⟨start, end_, bits⟩ := range
  have low : 1 :: be 8 start ≤ encodeGeoKey hash pk ↔ start ≤ hash := by
    rw [← not_lt, encodeGeoKey_lt_iff pk small first, not_lt]
  have high := encodeGeoKey_lt_iff pk small last
  simp only [geoKeyBounds]
  split
  · simp_all [InScan, InRange]
  rename_i some_bits
  split
  · rename_i no_end
    simp [InScan, InRange, some_bits, no_end, low]
  · rename_i an_end
    simp [InScan, InRange, some_bits, an_end, low, high]

/-! ## Rows and scans -/

namespace Geometry

variable {Shape : Type} (g : Geometry Shape)

/-- The row is indexed in the cell of the box: its coordinates agree with those of a corner in
the leading bits in which the corners agree. -/
def Located (row : Shape) (b : Box) : Prop :=
  b.east < b.west ∨
    match g.bbox row with
    | none => g.emptyHash.val >>> (64 - prefixBits b) =
        geoHash64 b.west b.south >>> (64 - prefixBits b)
    | some r =>
      quantLon ((r.west + r.east) / 2) >>> ((65 - prefixBits b) / 2) =
          quantLon b.west >>> ((65 - prefixBits b) / 2) ∧
        quantLat ((r.south + r.north) / 2) >>> ((64 - prefixBits b) / 2) =
          quantLat b.south >>> ((64 - prefixBits b) / 2)

/-- The centre of the bounding box of the row lies in the box. -/
def Centred (row : Shape) (b : Box) : Prop :=
  ∃ r, g.bbox row = some r ∧ b.west ≤ (r.west + r.east) / 2 ∧ (r.west + r.east) / 2 ≤ b.east ∧
    b.south ≤ (r.south + r.north) / 2 ∧ (r.south + r.north) / 2 ≤ b.north

theorem rowHash_lt (row : Shape) : g.rowHash row < 2 ^ 64 := by
  unfold rowHash
  split
  · exact g.emptyHash.isLt
  · exact geoHash64_lt _ _

variable {row : Shape}

theorem located_iff {b : Box} : g.Located row b ↔ InRange (geoHashRange b) (g.rowHash row) := by
  have le := prefixBits_le b
  by_cases wrapped : b.east < b.west
  · simp [Located, geoHashRange, wrapped, InRange]
  rw [inRange_geoHashRange_iff wrapped (g.rowHash_lt row), Located, rowHash]
  simp only [wrapped, false_or]
  split
  · exact Iff.rfl
  · rw [(interleaves_geoHash64 _ _).shiftRight_eq_iff (interleaves_geoHash64 _ _),
      show 64 - prefixBits b + 1 = 65 - prefixBits b by omega]

/-- A scan reads the keys of the rows in the cell of its box. -/
theorem inScan_scanBounds_iff {m : Match Shape} (pk : Bytes) :
    InScan (g.scanBounds m) (g.indexKV row pk) ↔ ∀ b ∈ g.queryBox m, g.Located row b := by
  unfold scanBounds indexKV
  cases g.queryBox m with
  | none =>
    rw [inScan_iff pk (g.rowHash_lt row) (by decide) (by decide)]
    simp [InRange]
  | some b =>
    obtain ⟨first, last⟩ := geoHashRange_lt b
    rw [inScan_iff pk (g.rowHash_lt row) first last, ← g.located_iff]
    simp

/-- A centre in the box has its code in the cell: its coordinates lie between those of the
corners, which agree in the leading bits. -/
theorem Centred.located {b : Box} (centred : g.Centred row b) : g.Located row b := by
  obtain ⟨r, box, west, east, south, north⟩ := centred
  have across := corners_agree (b := b) (.inr rfl) (.inr rfl)
  rw [(interleaves_geoHash64 _ _).shiftRight_eq_iff (interleaves_geoHash64 _ _)] at across
  have le := prefixBits_le b
  rw [show 64 - prefixBits b + 1 = 65 - prefixBits b by omega] at across
  refine .inr ?_
  rw [box]
  exact ⟨shiftRight_eq_of_between (quant32_mono west) (quant32_mono east) across.1,
    shiftRight_eq_of_between (quant32_mono south) (quant32_mono north) across.2⟩

end Geometry

/-! ## A row that is missed -/

namespace Rectangles

def meet (a b : Box) : Bool :=
  a.west ≤ b.east && b.west ≤ a.east && a.south ≤ b.north && b.south ≤ a.north

/-- Rectangles, of which only the intersection is tested. -/
def rectangles : Geometry Box where
  bbox := some
  point _ := none
  wraps _ := false
  circleBBox _ _ _ := none
  holds call row := match call.test with
    | .intersects => meet call.const row
    | _ => false
  emptyHash := 0

def corner : Box := ⟨1, 1, 2, 2⟩

def query : Call Box := ⟨.intersects, true, corner⟩

end Rectangles

end NextSQL.Sql.Spatial
