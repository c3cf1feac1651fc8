import ApostolRates.Database
import ApostolRates.Library.Keyed

/-!
# The directory of currencies

What the currency table is for: under each id a currency, no two of them with one
code.  A statement on the currencies succeeds under conditions that can be read off
the directory, and changes it id by id, so that every run leaves under an id what the
accepted statements on that id have made of it.
-/

set_option autoImplicit false

namespace ApostolRates

open ThreeValued Rollback

/-- The currency under each id. -/
abbrev Directory := Uuid → Option Currency

def CurrencyTable.entry (currency : CurrencyTable) : Directory :=
  Keyed.find Currency.id currency.rows

namespace Directory

/-- A new currency can be entered: nothing is NULL, and neither its id nor its code is
in use. -/
def Admits (directory : Directory) (pId : Option Uuid) (pCode pName : Option String) : Prop :=
  ∃ row : Currency, pId = some row.id ∧ pCode = some row.code ∧ pName = some row.name ∧
    directory row.id = none ∧ ∀ id entry, directory id = some entry → entry.code ≠ row.code

/-- A currency can be given a code: it is not known, so that nothing is done, or no
other currency has the code.  No code, no condition. -/
def Renames (directory : Directory) (pId : Option Uuid) (pCode : Option String) : Prop :=
  ∀ id code, pId = some id → pCode = some code → directory id ≠ none →
    ∀ other entry, directory other = some entry → entry.code = code → other = id

def register (pId : Option Uuid) (pCode pName : Option String) (id : Uuid)
    (entry : Option Currency) : Option Currency :=
  match pId, pCode, pName with
  | some newId, some code, some name => if newId = id then some ⟨newId, code, name⟩ else entry
  | _, _, _ => entry

end Directory

namespace Statement

def OnCurrencies : Statement → Prop
  | .newCurrency _ _ _ | .addCurrency _ _ _ | .updateCurrency _ _ _ | .deleteCurrency _ => True
  | _ => False

def record (statement : Statement) (id : Uuid) (entry : Option Currency) : Option Currency :=
  match statement with
  | .newCurrency pId pCode pName => Directory.register pId pCode pName id entry
  | .addCurrency genRandomUuid pCode pName =>
      Directory.register (some genRandomUuid) pCode pName id entry
  | .updateCurrency pId pCode pName => entry.map (Currency.revise pId pCode pName)
  | .deleteCurrency chosen => entry.filter fun row => !chosen row
  | _ => entry

def Allowed (directory : Directory) (used : Uuid → Prop) : Statement → Prop
  | .newCurrency pId pCode pName => directory.Admits pId pCode pName
  | .addCurrency genRandomUuid pCode pName => directory.Admits (some genRandomUuid) pCode pName
  | .updateCurrency pId pCode _ => directory.Renames pId pCode
  | .deleteCurrency chosen => ∀ id entry, directory id = some entry → chosen entry = true →
      ¬ used id
  | _ => True

end Statement

/-! ## Entries and rows -/

section
variable {currency stored : CurrencyTable} {rows : List Currency} {row : Currency} {id : Uuid}

theorem CurrencyTable.entry_eq_some :
    currency.entry id = some row ↔ row ∈ currency.rows ∧ row.id = id :=
  Keyed.find_eq_some currency.idUnique

theorem CurrencyTable.entry_eq_none :
    currency.entry id = none ↔ ∀ row ∈ currency.rows, row.id ≠ id :=
  Keyed.find_eq_none

theorem getCurrencyId_eq_some {code : String} :
    getCurrencyId currency (some code) = some id ↔
      ∃ row, currency.entry id = some row ∧ row.code = code := by
  constructor
  · intro found
    obtain ⟨row, member, same, isId⟩ := CurrencyTable.selectId_eq_some found
    exact ⟨row, CurrencyTable.entry_eq_some.mpr ⟨member, isId⟩, (Option.some.inj same).symm⟩
  · rintro ⟨row, found, rfl⟩
    obtain ⟨member, rfl⟩ := CurrencyTable.entry_eq_some.mp found
    exact CurrencyTable.selectId_of_mem member

theorem exists_table_iff : (∃ stored : CurrencyTable, rows = stored.rows) ↔
    (rows.map Currency.id).Nodup ∧ (rows.map Currency.code).Nodup := by
  constructor
  · rintro ⟨stored, rfl⟩
    exact ⟨stored.idUnique, stored.codeUnique⟩
  · rintro ⟨idUnique, codeUnique⟩
    exact ⟨⟨rows, idUnique, codeUnique⟩, rfl⟩

theorem exists_concat_iff :
    (∃ stored : CurrencyTable, currency.rows ++ [row] = stored.rows) ↔
      currency.entry row.id = none ∧
        ∀ id entry, currency.entry id = some entry → entry.code ≠ row.code := by
  rw [exists_table_iff, Keyed.nodup_concat, Keyed.nodup_concat, and_iff_right currency.idUnique,
    and_iff_right currency.codeUnique, CurrencyTable.entry_eq_none]
  exact and_congr Iff.rfl (Keyed.forall_mem_iff currency.idUnique)

theorem CurrencyTable.entry_concat (concat : currency.rows ++ [row] = stored.rows) (id : Uuid) :
    stored.entry id = if row.id = id then some row else currency.entry id := by
  have unique := stored.idUnique
  rw [← concat] at unique
  rw [CurrencyTable.entry, ← concat]
  exact Keyed.find_concat unique

end

/-! ## One statement -/

section
variable {currency stored : CurrencyTable} {pId : Option Uuid} {pCode pName : Option String}
variable {row : Currency}

theorem newCurrency_ok_iff :
    (∃ result, newCurrency currency pId pCode pName = .ok result) ↔
      currency.entry.Admits pId pCode pName := by
  constructor
  · rintro ⟨⟨stored, row⟩, success⟩
    obtain ⟨isId, isCode, isName, concat⟩ := newCurrency_eq_ok.mp success
    exact ⟨row, isId, isCode, isName, exists_concat_iff.mp ⟨stored, concat⟩⟩
  · rintro ⟨row, isId, isCode, isName, free⟩
    obtain ⟨stored, concat⟩ := exists_concat_iff.mpr free
    exact ⟨(stored, row), newCurrency_eq_ok.mpr ⟨isId, isCode, isName, concat⟩⟩

theorem newCurrency_entry (success : newCurrency currency pId pCode pName = .ok (stored, row))
    (id : Uuid) : stored.entry id = Directory.register pId pCode pName id (currency.entry id) := by
  obtain ⟨rfl, rfl, rfl, concat⟩ := newCurrency_eq_ok.mp success
  exact CurrencyTable.entry_concat concat id

/-- Only a code for a known currency can be in the way of `update_currency`. -/
theorem updateCurrency_ok_iff :
    (∃ result, updateCurrency currency pId pCode pName = .ok result) ↔
      currency.entry.Renames pId pCode := by
  have stores : (∃ result, updateCurrency currency pId pCode pName = .ok result) ↔
      ∃ stored : CurrencyTable,
        currency.rows.map (Currency.revise pId pCode pName) = stored.rows := by
    constructor
    · rintro ⟨⟨stored, found⟩, success⟩
      exact ⟨stored, (updateCurrency_eq_ok.mp success).1⟩
    · rintro ⟨stored, same⟩
      exact ⟨(stored, _), updateCurrency_eq_ok.mpr ⟨same, rfl⟩⟩
  have sameIds : (currency.rows.map (Currency.revise pId pCode pName)).map Currency.id =
      currency.rows.map Currency.id := by
    rw [List.map_map]
    exact List.map_congr_left fun row _ => row.revise_id pId pCode pName
  rw [stores, exists_table_iff, sameIds, and_iff_right currency.idUnique]
  by_cases recoded : ∃ row ∈ currency.rows, ∃ code, pId = some row.id ∧ pCode = some code
  · obtain ⟨row, member, code, rfl, rfl⟩ := recoded
    have isCode : (row.revise (some row.id) (some code) pName).code = code := by
      simp [Currency.revise, holds_equal]
    rw [Keyed.nodup_map_edit currency.idUnique currency.codeUnique member, isCode]
    · constructor
      · intro apart id given isId isGiven _ other entry found sameCode
        cases isId
        cases isGiven
        obtain ⟨entryMember, rfl⟩ := CurrencyTable.entry_eq_some.mp found
        by_contra differs
        exact apart entry entryMember differs sameCode
      · intro alone other otherMember differs sameCode
        have known : currency.entry row.id ≠ none := by
          rw [CurrencyTable.entry_eq_some.mpr ⟨member, rfl⟩]
          simp
        exact differs (alone row.id code rfl rfl known other.id other
          (CurrencyTable.entry_eq_some.mpr ⟨otherMember, rfl⟩) sameCode)
    · intro other _ differs
      refine Currency.revise_code fun same => absurd (Option.some.inj same).symm differs
  · -- no code changes
    push Not at recoded
    have sameCodes : (currency.rows.map (Currency.revise pId pCode pName)).map Currency.code =
        currency.rows.map Currency.code := by
      rw [List.map_map]
      refine List.map_congr_left fun row member => Currency.revise_code fun isId => ?_
      exact Option.eq_none_iff_forall_ne_some.mpr fun code => recoded row member code isId
    rw [sameCodes, iff_true_left currency.codeUnique]
    rintro id code rfl rfl known
    obtain ⟨row, found⟩ := Option.ne_none_iff_exists'.mp known
    obtain ⟨member, rfl⟩ := CurrencyTable.entry_eq_some.mp found
    exact absurd rfl (recoded row member code rfl)

theorem updateCurrency_entry {found : Bool}
    (success : updateCurrency currency pId pCode pName = .ok (stored, found)) (id : Uuid) :
    stored.entry id = (currency.entry id).map (Currency.revise pId pCode pName) := by
  rw [CurrencyTable.entry, ← (updateCurrency_eq_ok.mp success).1]
  exact Keyed.find_map fun row => row.revise_id pId pCode pName

variable {rate : RateTable} {chosen : Currency → Bool}

theorem deleteCurrency_ok_iff :
    (∃ result, deleteCurrency currency rate chosen = .ok result) ↔
      ∀ id entry, currency.entry id = some entry → chosen entry = true → ¬ rate.RefersTo id := by
  have free : (∀ row ∈ currency.rows, chosen row = true → ¬ rate.RefersTo row.id) ↔
      ∀ id entry, currency.entry id = some entry → chosen entry = true → ¬ rate.RefersTo id := by
    rw [Keyed.forall_mem_iff currency.idUnique]
    refine forall₂_congr fun id entry => forall_congr' fun found => ?_
    rw [(CurrencyTable.entry_eq_some.mp found).2]
  rw [← free]
  constructor
  · rintro ⟨stored, success⟩
    exact (deleteCurrency_eq_ok.mp success).1
  · intro unused
    have kept : (currency.rows.filter fun row => !chosen row).Sublist currency.rows :=
      List.filter_sublist
    obtain ⟨stored, same⟩ := exists_table_iff.mpr
      ⟨currency.idUnique.sublist (kept.map _), currency.codeUnique.sublist (kept.map _)⟩
    exact ⟨stored, deleteCurrency_eq_ok.mpr ⟨unused, same⟩⟩

theorem deleteCurrency_entry (success : deleteCurrency currency rate chosen = .ok stored)
    (id : Uuid) : stored.entry id = (currency.entry id).filter fun row => !chosen row := by
  rw [CurrencyTable.entry, ← (deleteCurrency_eq_ok.mp success).2]
  exact Keyed.find_filter currency.idUnique _

end

/-! ## A transaction -/

section
variable {transaction : Transaction} {tables after : Tables}

theorem exists_bind_ok {Err A B : Type} {first : Except Err A} {next : A → B} :
    (∃ result, (first >>= fun value => .ok (next value)) = .ok result) ↔
      ∃ value, first = .ok value := by
  cases first with
  | error failure => simp [bind, Except.bind]
  | ok value => simp [bind, Except.bind]

theorem Transaction.allowed_iff (onCurrencies : transaction.statement.OnCurrencies) :
    (∃ after, transaction.execute tables = .ok after) ↔
      transaction.statement.Allowed tables.currency.entry tables.rate.RefersTo := by
  unfold Transaction.execute
  cases statement : transaction.statement with
  | newCurrency pId pCode pName => exact exists_bind_ok.trans newCurrency_ok_iff
  | addCurrency genRandomUuid pCode pName =>
      exact exists_bind_ok.trans (exists_bind_ok.trans newCurrency_ok_iff)
  | updateCurrency pId pCode pName => exact exists_bind_ok.trans updateCurrency_ok_iff
  | deleteCurrency chosen => exact exists_bind_ok.trans deleteCurrency_ok_iff
  | _ =>
      rw [statement] at onCurrencies
      exact onCurrencies.elim

theorem Transaction.execute_entry (success : transaction.execute tables = .ok after) (id : Uuid) :
    after.currency.entry id = transaction.statement.record id (tables.currency.entry id) := by
  unfold Transaction.execute at success
  cases statement : transaction.statement with
  | newCurrency pId pCode pName =>
      rw [statement] at success
      obtain ⟨⟨stored, row⟩, created, same⟩ := except_bind_eq_ok.mp success
      cases same
      exact newCurrency_entry created id
  | addCurrency genRandomUuid pCode pName =>
      rw [statement] at success
      obtain ⟨⟨stored, newId⟩, added, same⟩ := except_bind_eq_ok.mp success
      cases same
      obtain ⟨row, created, _⟩ := addCurrency_eq_ok.mp added
      exact newCurrency_entry created id
  | updateCurrency pId pCode pName =>
      rw [statement] at success
      obtain ⟨⟨stored, found⟩, updated, same⟩ := except_bind_eq_ok.mp success
      cases same
      exact updateCurrency_entry updated id
  | deleteCurrency chosen =>
      rw [statement] at success
      obtain ⟨stored, deleted, same⟩ := except_bind_eq_ok.mp success
      cases same
      exact deleteCurrency_entry deleted id
  | updateRate pCurrencyFrom pCurrencyTo pValue pDateFrom =>
      rw [statement] at success
      obtain ⟨update, rate, _, _, rfl⟩ := Transaction.updateRate_eq_ok.mp success
      rfl
  | updateRateNow pCurrencyFrom pCurrencyTo pValue =>
      rw [statement] at success
      obtain ⟨update, rate, _, _, rfl⟩ := Transaction.updateRate_eq_ok.mp success
      rfl
  | exchangeRateDone pRequest =>
      rw [statement] at success
      obtain ⟨rate, _, same⟩ := except_bind_eq_ok.mp success
      cases same
      rfl
  | exchangeRateFail pRequest =>
      rw [statement] at success
      cases success
      rfl

end

/-! ## A run -/

/-- The currency table is a directory: after any run there is under each id what the
accepted transactions have made of it one by one, `get_currency_id` finds an id by the
code of its entry, and whether a statement on the currencies is accepted is decided by
the directory and by the ids that rates refer to. -/
theorem currencies_are_directory (database : Database) (transactions : List Transaction) :
    (∀ id, (database.run transactions).currency.entry id =
        (accepted Database.step database transactions).foldl
          (fun entry transaction => transaction.statement.record id entry)
          (database.currency.entry id)) ∧
      (∀ code id, getCurrencyId (database.run transactions).currency (some code) = some id ↔
        ∃ row, (database.run transactions).currency.entry id = some row ∧ row.code = code) ∧
      ∀ transaction, transaction.statement.OnCurrencies →
        ((∃ after, (database.run transactions).step transaction = .ok after) ↔
          transaction.statement.Allowed (database.run transactions).currency.entry
            (database.run transactions).rate.RefersTo) := by
  refine ⟨fun id => ?_, fun code id => getCurrencyId_eq_some, ?_⟩
  · exact run_part Database.step database (fun reached => reached.currency.entry id)
      (fun entry transaction => transaction.statement.record id entry)
      (fun before transaction after success =>
        Transaction.execute_entry (Database.step_eq_ok.mp success) id) transactions
  · intro transaction onCurrencies
    rw [← Transaction.allowed_iff onCurrencies]
    exact Database.exists_step_iff

end ApostolRates
