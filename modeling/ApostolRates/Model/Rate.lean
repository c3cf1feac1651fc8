import ApostolRates.Library.Periods
import ApostolRates.Model.Currency
import Mathlib.Data.Multiset.Bind

/-!
# The rate table and its routines

`public.rate` with its unique index, the statements that the routines run on it,
and `update_rate`, `get_rate` and the `rates` view built from them.  A table is a
multiset of rows: the generated `id` column identifies rows to no routine and is
left out, so that tables are compared up to it.
-/

set_option autoImplicit false

namespace ApostolRates

open ThreeValued ValidTime

structure RateRow where
  currencyFrom : Uuid
  currencyTo : Uuid
  value : Numeric
  validFromDate : Timestamptz
  validToDate : Timestamptz
  deriving DecidableEq

namespace RateRow

def key (row : RateRow) : Uuid × Uuid × Timestamptz × Timestamptz :=
  (row.currencyFrom, row.currencyTo, row.validFromDate, row.validToDate)

def pair (row : RateRow) : Uuid × Uuid := (row.currencyFrom, row.currencyTo)

/-- The `WHERE` clause of `get_rate` and of the statements of `update_rate`. -/
def inForce (row : RateRow) (pCurrencyFrom pCurrencyTo : Option Uuid)
    (pDateFrom : Option Timestamptz) : Tri :=
  both (equal (some row.currencyFrom) pCurrencyFrom)
    (both (equal (some row.currencyTo) pCurrencyTo)
      (both (atMost (some row.validFromDate) pDateFrom)
        (above (some row.validToDate) pDateFrom)))

end RateRow

structure RateTable where
  rows : Multiset RateRow
  keyUnique : (rows.map RateRow.key).Nodup

def RateTable.empty : RateTable := ⟨0, Multiset.nodup_zero⟩

/-- The rows become the table unless the unique index has a duplicate.  An
`UPDATE` checks the index row by row; on the way no row can meet a key that only
another row of the same statement still has, because the new end differs from the
end of every row that is yet to change. -/
def store (rows : Multiset RateRow) : Except PgError RateTable :=
  if keyUnique : (rows.map RateRow.key).Nodup then .ok ⟨rows, keyUnique⟩
  else .error .uniqueViolation

/-- A value on its way into a `NOT NULL` column. -/
def notNull {α : Type} : Option α → Except PgError α
  | some value => .ok value
  | none => .error .notNullViolation

def selectRows (rows : Multiset RateRow) (pCurrencyFrom pCurrencyTo : Option Uuid)
    (pDateFrom : Option Timestamptz) : Multiset RateRow :=
  rows.filter fun row => Holds (row.inForce pCurrencyFrom pCurrencyTo pDateFrom)

/-- The choice PostgreSQL makes when several rows match and no order is asked for. -/
abbrev Scan := (rows : Multiset RateRow) → rows ≠ 0 → { row // row ∈ rows }

/-- The row a non-`STRICT` `SELECT INTO` takes; `none` is `NOT FOUND`. -/
def Scan.selectInto (scan : Scan) (rows : Multiset RateRow) : Option RateRow :=
  if found : rows ≠ 0 then some (scan rows found).val else none

/-- `UPDATE public.rate SET ... WHERE ...`; `assignment` fails when it puts NULL
into a `NOT NULL` column, which only matters when some row matches. -/
def RateTable.update (rate : RateTable) (chosen : RateRow → Tri)
    (assignment : Except PgError (RateRow → RateRow)) : Except PgError RateTable :=
  if rate.rows.filter (fun row => Holds (chosen row)) = 0 then .ok rate
  else do
    let change ← assignment
    store (rate.rows.map fun row => if Holds (chosen row) then change row else row)

/-- `INSERT INTO public.rate (...) VALUES (...)`. -/
def RateTable.insert (rate : RateTable) (currency : CurrencyTable)
    (currencyFrom currencyTo : Option Uuid) (value : Option Numeric)
    (validFromDate validToDate : Option Timestamptz) : Except PgError RateTable := do
  let row : RateRow :=
    { currencyFrom := ← notNull currencyFrom
      currencyTo := ← notNull currencyTo
      value := ← notNull value
      validFromDate := ← notNull validFromDate
      validToDate := ← notNull validToDate }
  let stored ← store (row ::ₘ rate.rows)
  if currency.References row.currencyFrom ∧ currency.References row.currencyTo then .ok stored
  else .error .foreignKeyViolation

/-- `public.update_rate`. -/
def updateRate (zone : TimeZone) (currency : CurrencyTable) (scan : Scan) (rate : RateTable)
    (pCurrencyFrom pCurrencyTo : Option Uuid) (pValue : Option Numeric)
    (pDateFrom : Option Timestamptz) : Except PgError RateTable :=
  let found := scan.selectInto (selectRows rate.rows pCurrencyFrom pCurrencyTo pDateFrom)
  let dtDateFrom := found.map RateRow.validFromDate
  let dtDateTo := found.map RateRow.validToDate
  let current := fun row : RateRow => row.inForce pCurrencyFrom pCurrencyTo pDateFrom
  if Holds (both (some found.isSome) (equal pDateFrom dtDateFrom)) then
    rate.update current ((notNull pValue).map fun value row => { row with value := value })
  else do
    let rate ← rate.update current
      ((notNull pDateFrom).map fun date row => { row with validToDate := date })
    rate.insert currency pCurrencyFrom pCurrencyTo pValue pDateFrom
      (some (dtDateTo.getD zone.maxDate))

/-- `public.get_rate`; `none` is NULL. -/
def getRate (scan : Scan) (rate : RateTable) (pCurrencyFrom pCurrencyTo : Option Uuid)
    (pDateFrom : Option Timestamptz) : Option Numeric :=
  (scan.selectInto (selectRows rate.rows pCurrencyFrom pCurrencyTo pDateFrom)).map RateRow.value

/-- A row of the view `public.rates`. -/
structure RatesRow where
  currencyFrom : Uuid
  currencyFromCode : String
  currencyFromName : String
  currencyTo : Uuid
  currencyToCode : String
  currencyToName : String
  value : Numeric
  validFromDate : Timestamptz
  validToDate : Timestamptz
  deriving DecidableEq

/-- `public.rates`: the rate rows joined with both of their currencies. -/
def rates (currency : CurrencyTable) (rate : RateTable) : Multiset RatesRow :=
  rate.rows.bind fun t =>
    ((currency.rows.filter fun c1 => c1.id = t.currencyFrom : List Currency) :
        Multiset Currency).bind fun c1 =>
      ((currency.rows.filter fun c2 => c2.id = t.currencyTo : List Currency) :
        Multiset Currency).map fun c2 =>
        { currencyFrom := t.currencyFrom, currencyFromCode := c1.code, currencyFromName := c1.name
          currencyTo := t.currencyTo, currencyToCode := c2.code, currencyToName := c2.name
          value := t.value, validFromDate := t.validFromDate, validToDate := t.validToDate }

end ApostolRates
