import ApostolRates.Library.Rollback
import ApostolRates.Model.Rate

/-!
# The routines of the currency table

`new_currency`, `add_currency` and `update_currency` with the constraints of
`public.currency`, the look-up of an id, and the deletion of currencies, which the
foreign keys of `public.rate` restrict.
-/

set_option autoImplicit false

namespace ApostolRates

open ThreeValued Rollback

/-- The rows become the table unless the primary key or the unique index on `code`
has a duplicate. -/
def storeCurrencies (rows : List Currency) : Except PgError CurrencyTable :=
  if idUnique : (rows.map Currency.id).Nodup then
    if codeUnique : (rows.map Currency.code).Nodup then .ok ⟨rows, idUnique, codeUnique⟩
    else .error .uniqueViolation
  else .error .uniqueViolation

/-- `public.new_currency`, with the row that it returns. -/
def newCurrency (currency : CurrencyTable) (pId : Option Uuid) (pCode pName : Option String) :
    Except PgError (CurrencyTable × Currency) := do
  let row : Currency :=
    { id := ← notNull pId
      code := ← notNull pCode
      name := ← notNull pName }
  let stored ← storeCurrencies (currency.rows ++ [row])
  .ok (stored, row)

/-- `public.add_currency`; the first argument is what `gen_random_uuid()` returns. -/
def addCurrency (genRandomUuid : Uuid) (currency : CurrencyTable) (pCode pName : Option String) :
    Except PgError (CurrencyTable × Uuid) := do
  let (stored, row) ← newCurrency currency (some genRandomUuid) pCode pName
  .ok (stored, row.id)

def Currency.revise (pId : Option Uuid) (pCode pName : Option String) (row : Currency) :
    Currency :=
  if Holds (equal (some row.id) pId) then
    { row with code := pCode.getD row.code, name := pName.getD row.name }
  else row

/-- `public.update_currency`, with whether a row was found. -/
def updateCurrency (currency : CurrencyTable) (pId : Option Uuid) (pCode pName : Option String) :
    Except PgError (CurrencyTable × Bool) := do
  let stored ← storeCurrencies (currency.rows.map (Currency.revise pId pCode pName))
  .ok (stored, currency.rows.any fun row => Holds (equal (some row.id) pId))

/-- `public.get_currency_id`. -/
def getCurrencyId (currency : CurrencyTable) (pCode : Option String) : Option Uuid :=
  currency.selectId pCode

def RateTable.RefersTo (rate : RateTable) (id : Uuid) : Prop :=
  ∃ row ∈ rate.rows, row.currencyFrom = id ∨ row.currencyTo = id

instance (rate : RateTable) (id : Uuid) : Decidable (rate.RefersTo id) :=
  Multiset.decidableExistsMultiset

/-- `DELETE FROM public.currency WHERE ...`, with `ON DELETE RESTRICT` on both foreign keys. -/
def deleteCurrency (currency : CurrencyTable) (rate : RateTable) (chosen : Currency → Bool) :
    Except PgError CurrencyTable :=
  if ∃ row ∈ currency.rows, chosen row = true ∧ rate.RefersTo row.id then
    .error .foreignKeyViolation
  else storeCurrencies (currency.rows.filter fun row => !chosen row)

section
variable {currency stored : CurrencyTable} {rows : List Currency}

theorem storeCurrencies_eq_ok : storeCurrencies rows = .ok stored ↔ rows = stored.rows := by
  unfold storeCurrencies
  constructor
  · intro success
    split at success
    · split at success
      · cases success
        rfl
      · cases success
    · cases success
  · rintro rfl
    rw [dif_pos stored.idUnique, dif_pos stored.codeUnique]

theorem CurrencyTable.selectId_of_mem {row : Currency} (member : row ∈ currency.rows) :
    currency.selectId (some row.code) = some row.id := by
  cases found : currency.selectId (some row.code) with
  | none =>
      rw [CurrencyTable.selectId, Option.map_eq_none_iff, List.find?_eq_none] at found
      have missed := found row member
      simp at missed
  | some id =>
      obtain ⟨other, otherMember, sameCode, rfl⟩ := CurrencyTable.selectId_eq_some found
      have same := List.inj_on_of_nodup_map currency.codeUnique otherMember member
        (Option.some.inj sameCode).symm
      rw [same]

/-- Only a reference stops a deletion: the rows that it leaves keep both constraints. -/
theorem deleteCurrency_eq_ok {rate : RateTable} {chosen : Currency → Bool} :
    deleteCurrency currency rate chosen = .ok stored ↔
      (∀ row ∈ currency.rows, chosen row = true → ¬ rate.RefersTo row.id) ∧
        (currency.rows.filter fun row => !chosen row) = stored.rows := by
  unfold deleteCurrency
  split
  · rename_i referenced
    obtain ⟨row, member, isChosen, refers⟩ := referenced
    simp only [reduceCtorEq, false_iff, not_and]
    intro free
    exact absurd refers (free row member isChosen)
  · rename_i free
    rw [storeCurrencies_eq_ok]
    exact (and_iff_right fun row member isChosen refers =>
      free ⟨row, member, isChosen, refers⟩).symm

theorem notNull_eq_ok {α : Type} {given : Option α} {value : α} :
    notNull given = .ok value ↔ given = some value := by
  cases given <;> simp [notNull]

theorem newCurrency_eq_ok {pId : Option Uuid} {pCode pName : Option String} {row : Currency} :
    newCurrency currency pId pCode pName = .ok (stored, row) ↔
      pId = some row.id ∧ pCode = some row.code ∧ pName = some row.name ∧
        currency.rows ++ [row] = stored.rows := by
  unfold newCurrency
  simp only [except_bind_eq_ok, notNull_eq_ok, storeCurrencies_eq_ok, Except.ok.injEq,
    Prod.mk.injEq]
  constructor
  · rintro ⟨id, rfl, code, rfl, name, rfl, table, same, rfl, rfl⟩
    exact ⟨rfl, rfl, rfl, same⟩
  · rintro ⟨rfl, rfl, rfl, same⟩
    exact ⟨row.id, rfl, row.code, rfl, row.name, rfl, stored, same, rfl, rfl⟩

theorem addCurrency_eq_ok {genRandomUuid id : Uuid} {pCode pName : Option String} :
    addCurrency genRandomUuid currency pCode pName = .ok (stored, id) ↔
      ∃ row, newCurrency currency (some genRandomUuid) pCode pName = .ok (stored, row) ∧
        row.id = id := by
  unfold addCurrency
  simp only [except_bind_eq_ok, Except.ok.injEq, Prod.mk.injEq, Prod.exists]
  constructor
  · rintro ⟨table, row, success, rfl, same⟩
    exact ⟨row, success, same⟩
  · rintro ⟨row, success, same⟩
    exact ⟨stored, row, success, rfl, same⟩

theorem Currency.revise_id (pId : Option Uuid) (pCode pName : Option String) (row : Currency) :
    (row.revise pId pCode pName).id = row.id := by
  unfold Currency.revise
  split <;> rfl

theorem Currency.revise_code {row : Currency} {pId : Option Uuid} {pCode pName : Option String}
    (other : pId = some row.id → pCode = none) : (row.revise pId pCode pName).code = row.code := by
  unfold Currency.revise
  split
  · rename_i isRow
    obtain ⟨id, same, given⟩ := (holds_equal _ _).mp isRow
    cases same
    rw [other given]
    rfl
  · rfl

theorem updateCurrency_eq_ok {pId : Option Uuid} {pCode pName : Option String} {found : Bool} :
    updateCurrency currency pId pCode pName = .ok (stored, found) ↔
      currency.rows.map (Currency.revise pId pCode pName) = stored.rows ∧
        found = currency.rows.any fun row => Holds (equal (some row.id) pId) := by
  unfold updateCurrency
  simp only [except_bind_eq_ok, storeCurrencies_eq_ok, Except.ok.injEq, Prod.mk.injEq]
  constructor
  · rintro ⟨table, same, rfl, rfl⟩
    exact ⟨same, rfl⟩
  · rintro ⟨same, rfl⟩
    exact ⟨stored, same, rfl, rfl⟩

end

end ApostolRates
