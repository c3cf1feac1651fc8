import ApostolRates.History
import ApostolRates.Model.CurrencyRoutines
import ApostolRates.ReplyUpdates

/-!
# The database

The two tables together, with the foreign keys between them, and the statements
that change them: the routines on currencies and rates, the callbacks, and the
deletion of currencies.  Each statement is a transaction of its own, which brings
the session it runs in and the time it began, and is rolled back when it raises.
-/

set_option autoImplicit false

namespace ApostolRates

open ThreeValued ValidTime Rollback

structure Tables where
  currency : CurrencyTable
  rate : RateTable

/-- Both currencies of every rate exist. -/
structure Database extends Tables where
  references : rate.References currency

inductive Statement where
  | newCurrency (pId : Option Uuid) (pCode pName : Option String)
  | addCurrency (genRandomUuid : Uuid) (pCode pName : Option String)
  | updateCurrency (pId : Option Uuid) (pCode pName : Option String)
  | deleteCurrency (chosen : Currency → Bool)
  | updateRate (pCurrencyFrom pCurrencyTo : Option Uuid) (pValue : Option Numeric)
      (pDateFrom : Option Timestamptz)
  | updateRateNow (pCurrencyFrom pCurrencyTo : Option Uuid) (pValue : Option Numeric)
  | exchangeRateDone (pRequest : Uuid)
  | exchangeRateFail (pRequest : Uuid)

structure Transaction where
  runtime : Runtime
  zone : TimeZone
  httpFetch : Uuid → Option Fetch
  scan : Scan
  now : Timestamptz
  statement : Statement

def Transaction.context (transaction : Transaction) (currency : CurrencyTable) : Context :=
  ⟨transaction.runtime, transaction.zone, currency, transaction.httpFetch, transaction.scan,
    transaction.now⟩

def Transaction.updateRate (transaction : Transaction) (tables : Tables)
    (pCurrencyFrom pCurrencyTo : Option Uuid) (pValue : Option Numeric)
    (pDateFrom : Option Timestamptz) : Except PgError Tables := do
  let rate ← ApostolRates.updateRate transaction.zone tables.currency transaction.scan tables.rate
    pCurrencyFrom pCurrencyTo pValue pDateFrom
  .ok { tables with rate := rate }

/-- A statement that leaves `pDateFrom` out gets the default `Now()`, and
`exchange_rate_fail` only reports the request. -/
def Transaction.execute (transaction : Transaction) (tables : Tables) : Except PgError Tables :=
  match transaction.statement with
  | .newCurrency pId pCode pName => do
      let (currency, _) ← ApostolRates.newCurrency tables.currency pId pCode pName
      .ok { tables with currency := currency }
  | .addCurrency genRandomUuid pCode pName => do
      let (currency, _) ← ApostolRates.addCurrency genRandomUuid tables.currency pCode pName
      .ok { tables with currency := currency }
  | .updateCurrency pId pCode pName => do
      let (currency, _) ← ApostolRates.updateCurrency tables.currency pId pCode pName
      .ok { tables with currency := currency }
  | .deleteCurrency chosen => do
      let currency ← ApostolRates.deleteCurrency tables.currency tables.rate chosen
      .ok { tables with currency := currency }
  | .updateRate pCurrencyFrom pCurrencyTo pValue pDateFrom =>
      transaction.updateRate tables pCurrencyFrom pCurrencyTo pValue pDateFrom
  | .updateRateNow pCurrencyFrom pCurrencyTo pValue =>
      transaction.updateRate tables pCurrencyFrom pCurrencyTo pValue (some transaction.now)
  | .exchangeRateDone pRequest => do
      let rate ← ApostolRates.exchangeRateDone (transaction.context tables.currency) tables.rate
        pRequest
      .ok { tables with rate := rate }
  | .exchangeRateFail _ => .ok tables

/-- The codes of a row of the view lead back to its currencies. -/
theorem rates_codes {currency : CurrencyTable} {rate : RateTable} {row : RatesRow}
    (member : row ∈ rates currency rate) :
    getCurrencyId currency (some row.currencyFromCode) = some row.currencyFrom ∧
      getCurrencyId currency (some row.currencyToCode) = some row.currencyTo := by
  obtain ⟨t, _, member⟩ := Multiset.mem_bind.mp member
  obtain ⟨c1, c1Member, member⟩ := Multiset.mem_bind.mp member
  obtain ⟨c2, c2Member, rfl⟩ := Multiset.mem_map.mp member
  obtain ⟨c1Known, c1Id⟩ := List.mem_filter.mp (Multiset.mem_coe.mp c1Member)
  obtain ⟨c2Known, c2Id⟩ := List.mem_filter.mp (Multiset.mem_coe.mp c2Member)
  rw [decide_eq_true_eq] at c1Id c2Id
  unfold getCurrencyId
  rw [CurrencyTable.selectId_of_mem c1Known, CurrencyTable.selectId_of_mem c2Known, c1Id, c2Id]
  exact ⟨rfl, rfl⟩

/-! ## What a statement can do -/

def nonNullUpdate (pCurrencyFrom pCurrencyTo : Option Uuid) (pValue : Option Numeric)
    (pDateFrom : Option Timestamptz) : Except PgError Update := do
  let currencyFrom ← notNull pCurrencyFrom
  let currencyTo ← notNull pCurrencyTo
  let value ← notNull pValue
  let date ← notNull pDateFrom
  .ok ⟨currencyFrom, currencyTo, value, date⟩

theorem nonNullUpdate_eq_ok {pCurrencyFrom pCurrencyTo : Option Uuid} {pValue : Option Numeric}
    {pDateFrom : Option Timestamptz} {update : Update} :
    nonNullUpdate pCurrencyFrom pCurrencyTo pValue pDateFrom = .ok update ↔
      pCurrencyFrom = some update.currencyFrom ∧ pCurrencyTo = some update.currencyTo ∧
        pValue = some update.value ∧ pDateFrom = some update.date := by
  unfold nonNullUpdate
  simp only [except_bind_eq_ok, notNull_eq_ok, Except.ok.injEq]
  constructor
  · rintro ⟨_, rfl, _, rfl, _, rfl, _, rfl, rfl⟩
    exact ⟨rfl, rfl, rfl, rfl⟩
  · rintro ⟨rfl, rfl, rfl, rfl⟩
    exact ⟨_, rfl, _, rfl, _, rfl, _, rfl, rfl⟩

/-- The updates that a statement asks for, whatever the rate table holds. -/
def Transaction.updates (transaction : Transaction) (currency : CurrencyTable) :
    Except PgError (List Update) :=
  match transaction.statement with
  | .updateRate pCurrencyFrom pCurrencyTo pValue pDateFrom =>
      (nonNullUpdate pCurrencyFrom pCurrencyTo pValue pDateFrom).map ([·])
  | .updateRateNow pCurrencyFrom pCurrencyTo pValue =>
      (nonNullUpdate pCurrencyFrom pCurrencyTo pValue (some transaction.now)).map ([·])
  | .exchangeRateDone pRequest =>
      replyUpdates (transaction.context currency) ((transaction.httpFetch pRequest).getD Fetch.null)
  | _ => .ok []

/-- A successful statement registers, renames or removes currencies and leaves the
rates alone, or it writes updates and leaves the currencies alone.  A callback that
is undone writes none. -/
inductive Transaction.Changes (transaction : Transaction) (before : Tables) : Tables → Prop where
  | register (stored : CurrencyTable) (row : Currency)
      (rows : before.currency.rows ++ [row] = stored.rows) :
      Changes transaction before { before with currency := stored }
  | rename (stored : CurrencyTable) (pId : Option Uuid) (pCode pName : Option String)
      (statement : transaction.statement = .updateCurrency pId pCode pName)
      (rows : before.currency.rows.map (Currency.revise pId pCode pName) = stored.rows) :
      Changes transaction before { before with currency := stored }
  | remove (stored : CurrencyTable) (chosen : Currency → Bool)
      (statement : transaction.statement = .deleteCurrency chosen)
      (free : ∀ row ∈ before.currency.rows, chosen row = true → ¬ before.rate.RefersTo row.id)
      (rows : (before.currency.rows.filter fun row => !chosen row) = stored.rows) :
      Changes transaction before { before with currency := stored }
  | write (rate : RateTable) (updates : List Update)
      (asked : transaction.updates before.currency = .ok updates ∨ updates = [])
      (written : updates.foldlM (transaction.context before.currency).write before.rate =
        .ok rate) : Changes transaction before { before with rate := rate }

section
variable {transaction : Transaction} {tables after : Tables}

theorem Transaction.updateRate_eq_ok {pCurrencyFrom pCurrencyTo : Option Uuid}
    {pValue : Option Numeric} {pDateFrom : Option Timestamptz} :
    transaction.updateRate tables pCurrencyFrom pCurrencyTo pValue pDateFrom = .ok after ↔
      ∃ update rate, nonNullUpdate pCurrencyFrom pCurrencyTo pValue pDateFrom = .ok update ∧
        (transaction.context tables.currency).write tables.rate update = .ok rate ∧
        after = { tables with rate := rate } := by
  unfold Transaction.updateRate
  simp only [except_bind_eq_ok, nonNullUpdate_eq_ok, Except.ok.injEq]
  constructor
  · rintro ⟨rate, success, rfl⟩
    obtain ⟨update, hasFrom, hasTo, hasValue, hasDate, applied⟩ := updateRate_ok_nonNull success
    exact ⟨update, rate, ⟨hasFrom, hasTo, hasValue, hasDate⟩, applied, rfl⟩
  · rintro ⟨update, rate, ⟨rfl, rfl, rfl, rfl⟩, applied, rfl⟩
    exact ⟨rate, applied, rfl⟩

theorem loop_single {State Act Err : Type} {step : State → Act → Except Err State}
    {state after : State} {act : Act} (success : step state act = .ok after) :
    [act].foldlM step state = .ok after :=
  loop_cons_ok.mpr ⟨after, success, rfl⟩

theorem Transaction.updateRate_loop {pCurrencyFrom pCurrencyTo : Option Uuid}
    {pValue : Option Numeric} {pDateFrom : Option Timestamptz} :
    transaction.updateRate tables pCurrencyFrom pCurrencyTo pValue pDateFrom = .ok after ↔
      ∃ updates rate,
        (nonNullUpdate pCurrencyFrom pCurrencyTo pValue pDateFrom).map ([·]) = .ok updates ∧
        updates.foldlM (transaction.context tables.currency).write tables.rate = .ok rate ∧
        after = { tables with rate := rate } := by
  rw [Transaction.updateRate_eq_ok]
  constructor
  · rintro ⟨update, rate, nonNull, written, rfl⟩
    exact ⟨[update], rate, except_map_eq_ok.mpr ⟨update, nonNull, rfl⟩, loop_single written, rfl⟩
  · rintro ⟨updates, rate, mapped, written, rfl⟩
    obtain ⟨update, nonNull, rfl⟩ := except_map_eq_ok.mp mapped
    obtain ⟨middle, head, tail⟩ := loop_cons_ok.mp written
    cases tail
    exact ⟨update, rate, nonNull, head, rfl⟩

theorem Transaction.changes_updateRate {pCurrencyFrom pCurrencyTo : Option Uuid}
    {pValue : Option Numeric} {pDateFrom : Option Timestamptz}
    (asks : transaction.updates tables.currency =
      (nonNullUpdate pCurrencyFrom pCurrencyTo pValue pDateFrom).map ([·]))
    (success : transaction.updateRate tables pCurrencyFrom pCurrencyTo pValue pDateFrom =
      .ok after) : transaction.Changes tables after := by
  obtain ⟨update, rate, nonNull, applied, rfl⟩ := Transaction.updateRate_eq_ok.mp success
  rw [nonNull] at asks
  exact .write rate [update] (Or.inl asks) (loop_single applied)

theorem Transaction.execute_cases (success : transaction.execute tables = .ok after) :
    transaction.Changes tables after := by
  unfold Transaction.execute at success
  split at success
  · rename_i pId pCode pName statement
    obtain ⟨⟨stored, row⟩, created, same⟩ := except_bind_eq_ok.mp success
    cases same
    exact .register stored row (newCurrency_eq_ok.mp created).2.2.2
  · rename_i genRandomUuid pCode pName statement
    obtain ⟨⟨stored, id⟩, added, same⟩ := except_bind_eq_ok.mp success
    cases same
    obtain ⟨row, created, _⟩ := addCurrency_eq_ok.mp added
    exact .register stored row (newCurrency_eq_ok.mp created).2.2.2
  · rename_i pId pCode pName statement
    obtain ⟨⟨stored, found⟩, updated, same⟩ := except_bind_eq_ok.mp success
    cases same
    exact .rename stored pId pCode pName statement (updateCurrency_eq_ok.mp updated).1
  · rename_i chosen statement
    obtain ⟨stored, deleted, same⟩ := except_bind_eq_ok.mp success
    cases same
    obtain ⟨free, rows⟩ := deleteCurrency_eq_ok.mp deleted
    exact .remove stored chosen statement free rows
  · rename_i pCurrencyFrom pCurrencyTo pValue pDateFrom statement
    exact Transaction.changes_updateRate (by rw [Transaction.updates, statement]) success
  · rename_i pCurrencyFrom pCurrencyTo pValue statement
    exact Transaction.changes_updateRate (by rw [Transaction.updates, statement]) success
  · rename_i pRequest statement
    obtain ⟨rate, done, same⟩ := except_bind_eq_ok.mp success
    cases same
    have undone := Except.ok.inj done
    cases outcome : exchangeRateBlock (transaction.context tables.currency) tables.rate
        (((transaction.context tables.currency).httpFetch pRequest).getD Fetch.null) with
    | error failure =>
        rw [outcome, undoing_error] at undone
        exact .write rate [] (Or.inr rfl) (congrArg Except.ok undone)
    | ok result =>
        rw [outcome, undoing_ok] at undone
        rw [undone] at outcome
        obtain ⟨updates, asked, written⟩ := exchangeRateBlock_two_phase.mp outcome
        refine .write rate updates (Or.inl ?_) written
        rw [Transaction.updates, statement]
        exact asked
  · cases success
    exact .write tables.rate [] (Or.inr rfl) rfl

end

/-! ## The foreign keys hold -/

theorem references_write {context : Context} {rate after : RateTable} {updates : List Update}
    (references : rate.References context.currency)
    (written : updates.foldlM context.write rate = .ok after) :
    after.References context.currency :=
  loop_invariant (RateTable.References context.currency)
    (fun _ _ _ before success => references_apply before success) references written

theorem Transaction.execute_references {transaction : Transaction} {tables after : Tables}
    (references : tables.rate.References tables.currency)
    (success : transaction.execute tables = .ok after) :
    after.rate.References after.currency := by
  cases Transaction.execute_cases success with
  | register stored row rows =>
      intro entry member
      have kept : ∀ id, tables.currency.References id → stored.References id := by
        intro id found
        rw [CurrencyTable.References, ← rows, List.map_append]
        exact List.mem_append_left _ found
      exact ⟨kept _ (references entry member).1, kept _ (references entry member).2⟩
  | rename stored pId pCode pName statement rows =>
      have same : stored.rows.map Currency.id = tables.currency.rows.map Currency.id := by
        rw [← rows, List.map_map]
        exact List.map_congr_left fun row _ => row.revise_id pId pCode pName
      intro entry member
      have kept : ∀ id, tables.currency.References id → stored.References id := by
        intro id found
        rw [CurrencyTable.References, same]
        exact found
      exact ⟨kept _ (references entry member).1, kept _ (references entry member).2⟩
  | remove stored chosen statement free rows =>
      intro entry member
      have kept : ∀ id, tables.rate.RefersTo id → tables.currency.References id →
          stored.References id := by
        intro id refers found
        obtain ⟨row, rowMember, rfl⟩ := List.mem_map.mp found
        have spared : chosen row = false := by
          by_contra isChosen
          exact free row rowMember (Bool.eq_true_of_not_eq_false isChosen) refers
        rw [CurrencyTable.References, ← rows]
        exact List.mem_map_of_mem (List.mem_filter.mpr ⟨rowMember, by simp [spared]⟩)
      exact ⟨kept _ ⟨entry, member, Or.inl rfl⟩ (references entry member).1,
        kept _ ⟨entry, member, Or.inr rfl⟩ (references entry member).2⟩
  | write rate updates asked written => exact references_write references written

namespace Database

def empty : Database := ⟨⟨⟨[], List.nodup_nil, List.nodup_nil⟩, .empty⟩, fun _ member =>
  absurd member (Multiset.notMem_zero _)⟩

def step (database : Database) (transaction : Transaction) : Except PgError Database :=
  match success : transaction.execute database.toTables with
  | .error failure => .error failure
  | .ok after => .ok ⟨after, Transaction.execute_references database.references success⟩

theorem step_eq_ok {database after : Database} {transaction : Transaction} :
    database.step transaction = .ok after ↔
      transaction.execute database.toTables = .ok after.toTables := by
  unfold step
  constructor
  · intro success
    split at success
    · cases success
    · rename_i tables executed
      cases success
      exact executed
  · intro executed
    split
    · rename_i failure failed
      rw [executed] at failed
      cases failed
    · rename_i tables succeeded
      rw [executed] at succeeded
      cases succeeded
      rfl

theorem exists_step_iff {database : Database} {transaction : Transaction} :
    (∃ after, database.step transaction = .ok after) ↔
      ∃ after, transaction.execute database.toTables = .ok after := by
  constructor
  · rintro ⟨after, success⟩
    exact ⟨after.toTables, step_eq_ok.mp success⟩
  · rintro ⟨after, executed⟩
    exact ⟨⟨after, Transaction.execute_references database.references executed⟩,
      step_eq_ok.mpr executed⟩

def initial : Database :=
  ⟨⟨.init, .empty⟩, fun _ member => absurd member (Multiset.notMem_zero _)⟩

/-- A sequence of transactions one after the other, each rolled back when it raises. -/
def run (database : Database) (transactions : List Transaction) : Database :=
  Rollback.run step database transactions

end Database

/-! ## Some transactions -/

noncomputable def sampleTransaction (now : Timestamptz) (statement : Statement) : Transaction :=
  ⟨sampleRuntime, .utc, sampleContext.httpFetch, .any, now, statement⟩

def Currency.create (row : Currency) : Statement :=
  .newCurrency (some row.id) (some row.code) (some row.name)

noncomputable def initialTransactions : List Transaction :=
  [rub, usd, eur, btc].map fun row => sampleTransaction (.onDay 9000) row.create

theorem initialTransactions_run :
    (Database.empty.run initialTransactions).toTables = Database.initial.toTables := rfl

noncomputable def openingTransactions : List Transaction :=
  [sampleTransaction (.onDay 9000) usd.create, sampleTransaction (.onDay 9000) rub.create]

noncomputable def firstDelivery : Transaction :=
  sampleTransaction (.onDay 9000) (.exchangeRateDone 1)

/-- The reply of the same request, a day later. -/
noncomputable def secondDelivery : Transaction :=
  sampleTransaction (.onDay 9001) (.exchangeRateDone 1)

noncomputable def euroCall : Transaction :=
  sampleTransaction (.onDay 9001)
    (.updateRateNow (some eur.id) (some rub.id) (some (.finite 1042 1)))

end ApostolRates
