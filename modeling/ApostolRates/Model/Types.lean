import Mathlib.Algebra.Order.Ring.Int
import Mathlib.Tactic.Common

/-!
# Column types, errors and the sentinel date

The types of the columns and parameters of the currency and rate tables, the
errors a statement on them can raise, and `max_date()` with its cast to a
`timestamptz` in the time zone of the session.
-/

set_option autoImplicit false

namespace ApostolRates

abbrev Uuid := BitVec 128

/-- Microseconds since 2000-01-01 00:00 UTC in an int64.  `-infinity` and
`infinity` are the least and the greatest int64, and comparison is comparison of
the integers. -/
structure Timestamptz where
  micros : Int
  bounded : -2 ^ 63 ≤ micros ∧ micros < 2 ^ 63

namespace Timestamptz

theorem ext_micros {left right : Timestamptz} (same : left.micros = right.micros) :
    left = right := by
  cases left
  cases right
  cases same
  rfl

instance : LinearOrder Timestamptz :=
  @LinearOrder.lift' _ _ Int.instLinearOrder Timestamptz.micros fun _ _ same => ext_micros same

def negInfinity : Timestamptz := ⟨-2 ^ 63, by decide⟩

def infinity : Timestamptz := ⟨2 ^ 63 - 1, by decide⟩

def onDay (days : BitVec 16) : Timestamptz :=
  ⟨days.toNat * 86400000000, by
    have days_lt := days.isLt
    omega⟩

end Timestamptz

/-- An unconstrained `numeric`.  A finite one is `unscaled / 10 ^ scale`. -/
inductive Numeric where
  | nan
  | negInfinity
  | infinity
  | finite (unscaled : Int) (scale : Nat)
  deriving DecidableEq, Repr

/-- The errors that the modelled statements and built-ins raise.  Every one of
them is caught by `WHEN others`. -/
inductive PgError where
  | notNullViolation
  | uniqueViolation
  | foreignKeyViolation
  | characterNotInRepertoire
  | invalidTextRepresentation
  | invalidParameterValue
  | invalidDatetimeFormat
  | numericValueOutOfRange
  deriving DecidableEq, Repr

/-- A `date`: days since 2000-01-01. -/
abbrev Date := Int

/-- Julian day number of a Gregorian date, as PostgreSQL computes it. -/
def date2j (year month day : Int) : Int :=
  let shiftedYear := if month > 2 then year + 4800 else year + 4799
  let shiftedMonth := if month > 2 then month + 1 else month + 13
  let century := shiftedYear / 100
  shiftedYear * 365 - 32167 + (shiftedYear / 4 - century + century / 4) +
    (7834 * shiftedMonth / 256 + day)

def toDate (year month day : Int) : Date := date2j year month day - date2j 2000 1 1

/-- `public.max_date`. -/
def maxDate : Date := toDate 4433 12 31

/-- The time zone of a session, as its offset at the midnight that `max_date()`
is cast to. -/
structure TimeZone where
  secondsWest : Int
  bounded : -57600 < secondsWest ∧ secondsWest < 57600

def TimeZone.utc : TimeZone := ⟨0, by decide⟩

/-- The instant that `max_date()` becomes where a `timestamptz` is expected. -/
def TimeZone.maxDate (zone : TimeZone) : Timestamptz :=
  ⟨ApostolRates.maxDate * 86400000000 + zone.secondsWest * 1000000, by
    have days : ApostolRates.maxDate = 889000 := by decide
    have offset := zone.bounded
    rw [days]
    omega⟩

end ApostolRates
