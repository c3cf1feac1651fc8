import ApostolRates.Database
import ApostolRates.Library.Shards

/-!
# What transactions have to do with each other

A call of `update_rate` reads and writes the rows of its pair, and a callback those of
its base.  So only the order of the calls for one pair matters, and only that of the
transactions with one base; all others may come in any order.
-/

set_option autoImplicit false

namespace ApostolRates

open ThreeValued ValidTime Rollback Shards

/-! ## Calls for different pairs -/

/-- The pair of a call; a call with NULL for a currency has none. -/
def Attempt.pair (attempt : Attempt) : Option (Uuid × Uuid) :=
  attempt.currencyFrom.bind fun currencyFrom =>
    attempt.currencyTo.map fun currencyTo => (currencyFrom, currencyTo)

theorem attempts_local (zone : TimeZone) :
    Local (fun pair (rate : RateTable) => rate.timeline pair) Attempt.pair
      (Attempt.step zone) := by
  constructor
  · intro before attempt after other success differs
    obtain ⟨update, hasFrom, hasTo, _, _, applied⟩ := updateRate_ok_nonNull success
    refine (updateRate_ok applied).2 other fun same => differs ?_
    rw [Attempt.pair, hasFrom, hasTo, same]
    rfl
  · intro left right attempt pair after isOwn same success
    obtain ⟨update, hasFrom, hasTo, hasValue, hasDate, applied⟩ := updateRate_ok_nonNull success
    rw [Attempt.pair, hasFrom, hasTo] at isOwn
    obtain rfl : update.pair = pair := Option.some.inj isOwn
    obtain ⟨rightAfter, rightApplied, kept⟩ := apply_local same applied
    refine ⟨rightAfter, ?_, kept⟩
    rw [Attempt.step, hasFrom, hasTo, hasValue, hasDate]
    exact rightApplied

def euroRate : Update := ⟨eur.id, rub.id, .finite 1042 1, .onDay 9000⟩

/-- Whatever calls are made for the other pairs, the rows of a pair are those of the
calls for it alone, and two sequences of calls with the same calls in the same order
for each pair leave the same table. -/
theorem pairs_are_independent (zone : TimeZone) (rate : RateTable) (attempts : List Attempt) :
    (∀ pair, pairRows (run (Attempt.step zone) rate attempts).rows pair =
        pairRows (run (Attempt.step zone) rate (actsOf Attempt.pair pair attempts)).rows pair) ∧
      ∀ others, (∀ pair, actsOf Attempt.pair pair attempts = actsOf Attempt.pair pair others) →
        run (Attempt.step zone) rate attempts = run (Attempt.step zone) rate others := by
  constructor
  · intro pair
    rw [pairRows_eq, pairRows_eq]
    exact congrArg _ ((attempts_local zone).part_run pair rate attempts)
  · intro others same
    exact (attempts_local zone).run_eq (fun _ _ => RateTable.ext_timelines) rate same

/-- USD to RUB and EUR to RUB, in either order. -/
theorem exchanged_calls :
    (∀ pair, actsOf Attempt.pair pair
        [Call.attempt .init ⟨firstRate, .any⟩, Call.attempt .init ⟨euroRate, .any⟩] =
      actsOf Attempt.pair pair
        [Call.attempt .init ⟨euroRate, .any⟩, Call.attempt .init ⟨firstRate, .any⟩]) ∧
      run (Attempt.step .utc) .empty
          [Call.attempt .init ⟨firstRate, .any⟩, Call.attempt .init ⟨euroRate, .any⟩] =
        run (Attempt.step .utc) .empty
          [Call.attempt .init ⟨euroRate, .any⟩, Call.attempt .init ⟨firstRate, .any⟩] := by
  have same : ∀ pair, actsOf Attempt.pair pair
        [Call.attempt .init ⟨firstRate, .any⟩, Call.attempt .init ⟨euroRate, .any⟩] =
      actsOf Attempt.pair pair
        [Call.attempt .init ⟨euroRate, .any⟩, Call.attempt .init ⟨firstRate, .any⟩] :=
    fun pair => actsOf_swap (by decide) pair []
  exact ⟨same, (pairs_are_independent .utc .empty _).2 _ same⟩

/-! ## Transactions with different bases -/

def RateTable.ofBase (base : Uuid) (rate : RateTable) (currencyTo : Uuid) :
    Timeline Timestamptz Numeric :=
  rate.timeline (base, currencyTo)

theorem writes_local (context : Context) :
    Local RateTable.ofBase (fun update : Update => some update.currencyFrom) context.write := by
  constructor
  · intro before update after other success differs
    funext currencyTo
    refine (updateRate_ok success).2 (other, currencyTo) fun same => differs ?_
    rw [show update.currencyFrom = other from (congrArg Prod.fst same).symm]
  · intro left right update base after isOwn same success
    obtain rfl : update.currencyFrom = base := Option.some.inj isOwn
    obtain ⟨rightAfter, rightApplied, kept⟩ :=
      apply_local (congrFun same update.currencyTo) success
    refine ⟨rightAfter, rightApplied, ?_⟩
    funext currencyTo
    by_cases isPair : currencyTo = update.currencyTo
    · rw [isPair]
      exact kept
    · have differs : (update.currencyFrom, currencyTo) ≠ update.pair := fun same =>
        isPair (congrArg Prod.snd same)
      rw [RateTable.ofBase, RateTable.ofBase, (updateRate_ok rightApplied).2 _ differs,
        (updateRate_ok success).2 _ differs]
      exact (congrFun same currencyTo).symm

/-- The transaction leaves the currencies alone. -/
def Transaction.OnRates (transaction : Transaction) : Prop :=
  match transaction.statement with
  | .updateRate _ _ _ _ | .updateRateNow _ _ _ | .exchangeRateDone _ | .exchangeRateFail _ => True
  | _ => False

def Transaction.base (currency : CurrencyTable) (transaction : Transaction) : Option Uuid :=
  match transaction.updates currency with
  | .ok (update :: _) => some update.currencyFrom
  | _ => none

/-- What a transaction writes over a fixed currency table. -/
def Transaction.give (currency : CurrencyTable) (rate : RateTable) (transaction : Transaction) :
    Except PgError RateTable := do
  let updates ← transaction.updates currency
  updates.foldlM (transaction.context currency).write rate

section
variable {currency : CurrencyTable} {transaction : Transaction} {updates : List Update}

theorem Transaction.updates_base (asked : transaction.updates currency = .ok updates) :
    ∀ update ∈ updates, transaction.base currency = some update.currencyFrom := by
  have shared : ∃ base, ∀ update ∈ updates, update.currencyFrom = base := by
    have single : ∀ {outcome : Except PgError Update}, outcome.map ([·]) = .ok updates →
        ∃ base, ∀ update ∈ updates, update.currencyFrom = base := by
      intro outcome mapped
      obtain ⟨update, _, rfl⟩ := except_map_eq_ok.mp mapped
      exact ⟨update.currencyFrom, fun other member => by rw [List.mem_singleton.mp member]⟩
    unfold Transaction.updates at asked
    split at asked
    · exact single asked
    · exact single asked
    · obtain ⟨base, each⟩ := replyUpdates_spec asked
      exact ⟨base, fun update member => (each update member).1⟩
    · cases asked
      exact ⟨0, fun _ member => absurd member List.not_mem_nil⟩
  obtain ⟨base, same⟩ := shared
  intro update member
  cases updates with
  | nil => exact absurd member List.not_mem_nil
  | cons first rest =>
      rw [Transaction.base, asked, same update member, ← same first List.mem_cons_self]

theorem gives_local (currency : CurrencyTable) :
    Local RateTable.ofBase (Transaction.base currency) (Transaction.give currency) := by
  constructor
  · intro before transaction after other success differs
    obtain ⟨updates, asked, written⟩ := except_bind_eq_ok.mp success
    refine (writes_local (transaction.context currency)).loop_frame (fun update member same => ?_)
      written
    exact differs ((Transaction.updates_base asked update member).trans same)
  · intro left right transaction base after isOwn same success
    obtain ⟨updates, asked, written⟩ := except_bind_eq_ok.mp success
    obtain ⟨rightAfter, rightWritten, kept⟩ :=
      (writes_local (transaction.context currency)).loop_own
        (fun update member => (Transaction.updates_base asked update member).symm.trans isOwn) same
        written
    exact ⟨rightAfter, except_bind_eq_ok.mpr ⟨updates, asked, rightWritten⟩, kept⟩

/-- A transaction on the rates is what it gives, undone when that fails. -/
theorem undoing_execute (tables : Tables) (onRates : transaction.OnRates) :
    undoing tables (transaction.execute tables) =
      { tables with
        rate := undoing tables.rate (transaction.give tables.currency tables.rate) } := by
  have single : ∀ {pCurrencyFrom pCurrencyTo pValue pDateFrom},
      transaction.updates tables.currency =
        (nonNullUpdate pCurrencyFrom pCurrencyTo pValue pDateFrom).map ([·]) →
      undoing tables (transaction.updateRate tables pCurrencyFrom pCurrencyTo pValue pDateFrom) =
        { tables with
          rate := undoing tables.rate (transaction.give tables.currency tables.rate) } := by
    intro pCurrencyFrom pCurrencyTo pValue pDateFrom asks
    have same : ∀ after,
        transaction.updateRate tables pCurrencyFrom pCurrencyTo pValue pDateFrom = .ok after ↔
          (transaction.give tables.currency tables.rate).map
            (fun rate => { tables with rate := rate }) = .ok after := by
      intro after
      rw [Transaction.updateRate_loop, except_map_eq_ok]
      simp only [Transaction.give, except_bind_eq_ok, asks]
      constructor
      · rintro ⟨updates, rate, asked, written, rfl⟩
        exact ⟨rate, ⟨updates, asked, written⟩, rfl⟩
      · rintro ⟨rate, ⟨updates, asked, written⟩, rfl⟩
        exact ⟨updates, rate, asked, written, rfl⟩
    rw [undoing_congr same]
    cases transaction.give tables.currency tables.rate <;> rfl
  unfold Transaction.execute
  unfold Transaction.OnRates at onRates
  cases statement : transaction.statement with
  | updateRate pCurrencyFrom pCurrencyTo pValue pDateFrom =>
      exact single (by rw [Transaction.updates, statement])
  | updateRateNow pCurrencyFrom pCurrencyTo pValue =>
      exact single (by rw [Transaction.updates, statement])
  | exchangeRateDone pRequest =>
      dsimp only
      rw [exchangeRateDone_eq, Transaction.give, Transaction.updates, statement]
      rfl
  | exchangeRateFail pRequest =>
      rw [Transaction.give, Transaction.updates, statement]
      rfl
  | _ =>
      rw [statement] at onRates
      exact onRates.elim

theorem Database.settle_step (database : Database) (transaction : Transaction) :
    (settle Database.step database transaction).toTables =
      undoing database.toTables (transaction.execute database.toTables) := by
  cases outcome : database.step transaction with
  | ok after =>
      rw [settle_ok _ _ _ after outcome, Database.step_eq_ok.mp outcome, undoing_ok]
  | error failure =>
      rw [settle, outcome, undoing_error]
      cases executed : transaction.execute database.toTables with
      | error other => rfl
      | ok tables =>
          have success : database.step transaction =
              .ok ⟨tables, Transaction.execute_references database.references executed⟩ :=
            Database.step_eq_ok.mpr executed
          rw [outcome] at success
          cases success

theorem Database.run_onRates (database : Database) (transactions : List Transaction)
    (onRates : ∀ transaction ∈ transactions, transaction.OnRates) :
    (database.run transactions).toTables =
      { database.toTables with
        rate := Rollback.run (Transaction.give database.currency) database.rate transactions } := by
  induction transactions using List.reverseRecOn with
  | nil => rfl
  | append_singleton transactions last ih =>
      have before := ih fun transaction member =>
        onRates transaction (List.mem_append_left _ member)
      rw [Database.run, run_concat, run_concat, Database.settle_step,
        undoing_execute _ (onRates last (by simp)), ← Database.run, before]
      rfl

end

/-- Transactions on the rates that give them for different bases may run in any order:
two sequences with the same transactions in the same order for each base leave the same
database. -/
theorem bases_are_independent (database : Database) (transactions others : List Transaction)
    (onRates : ∀ transaction ∈ transactions, transaction.OnRates)
    (othersOnRates : ∀ transaction ∈ others, transaction.OnRates)
    (same : ∀ base, actsOf (Transaction.base database.currency) base transactions =
      actsOf (Transaction.base database.currency) base others) :
    (database.run transactions).toTables = (database.run others).toTables := by
  have ext : ∀ left right : RateTable, (∀ base, left.ofBase base = right.ofBase base) →
      left = right := fun left right parts =>
    RateTable.ext_timelines fun pair => congrFun (parts pair.1) pair.2
  rw [Database.run_onRates database transactions onRates,
    Database.run_onRates database others othersOnRates,
    (gives_local database.currency).run_eq ext database.rate same]

theorem exchanged_transactions :
    (∀ transaction ∈ [firstDelivery, euroCall], transaction.OnRates) ∧
      (∀ base, actsOf (Transaction.base .init) base [firstDelivery, euroCall] =
        actsOf (Transaction.base .init) base [euroCall, firstDelivery]) ∧
      (Database.initial.run [firstDelivery, euroCall]).toTables =
        (Database.initial.run [euroCall, firstDelivery]).toTables := by
  have onRates : ∀ transaction ∈ [firstDelivery, euroCall], transaction.OnRates := by
    simp [Transaction.OnRates, firstDelivery, euroCall, sampleTransaction]
  have isDollar : firstDelivery.base .init = some usd.id := rfl
  have isEuro : euroCall.base .init = some eur.id := rfl
  have same : ∀ base, actsOf (Transaction.base .init) base [firstDelivery, euroCall] =
      actsOf (Transaction.base .init) base [euroCall, firstDelivery] := fun base =>
    actsOf_swap (by rw [isDollar, isEuro]; decide) base []
  exact ⟨onRates, same, bases_are_independent .initial _ _ onRates
    (fun transaction member => onRates transaction (by simpa [or_comm] using member)) same⟩

end ApostolRates
