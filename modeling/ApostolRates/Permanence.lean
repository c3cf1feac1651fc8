import ApostolRates.Coverage
import ApostolRates.Database

/-!
# What transactions never take away

Whatever transactions run, and at whatever dates, every rate stays in the table with
its pair and the start of its period, whose end only ever comes nearer; an instant
that has an answer keeps one; and a currency that has rates stays, under its code,
until it is renamed.
-/

set_option autoImplicit false

namespace ApostolRates

open ThreeValued ValidTime Rollback

/-! ## Rates stay -/

/-- A row later on: the same pair and start, and an end that is no later, though never
before the start because of a change. -/
def RateRow.Kept (old new : RateRow) : Prop :=
  new.pair = old.pair ∧ new.validFromDate = old.validFromDate ∧
    (new.validToDate = old.validToDate ∨
      old.validFromDate ≤ new.validToDate ∧ new.validToDate < old.validToDate)

theorem RateRow.Kept.refl (row : RateRow) : row.Kept row := ⟨rfl, rfl, Or.inl rfl⟩

theorem RateRow.Kept.trans {first second third : RateRow} (kept : first.Kept second)
    (again : second.Kept third) : first.Kept third := by
  obtain ⟨samePair, sameStart, ends⟩ := kept
  obtain ⟨pairAgain, startAgain, endsAgain⟩ := again
  refine ⟨pairAgain.trans samePair, startAgain.trans sameStart, ?_⟩
  rcases endsAgain with sameEnd | ⟨notBefore, shorter⟩
  · rw [sameEnd]
    exact ends
  · rw [sameStart] at notBefore
    rcases ends with sameEnd | ⟨_, alreadyShorter⟩
    · exact Or.inr ⟨notBefore, sameEnd ▸ shorter⟩
    · exact Or.inr ⟨notBefore, shorter.trans alreadyShorter⟩

/-- Every row is kept by a row of its own. -/
def RowsKept (before after : Multiset RateRow) : Prop :=
  ∃ kept added, after = kept + added ∧ Multiset.Rel RateRow.Kept before kept

theorem RowsKept.refl (rows : Multiset RateRow) : RowsKept rows rows :=
  ⟨rows, 0, (add_zero _).symm, Multiset.rel_refl_of_refl_on fun row _ => RateRow.Kept.refl row⟩

theorem RowsKept.trans {first second third : Multiset RateRow} (kept : RowsKept first second)
    (again : RowsKept second third) : RowsKept first third := by
  obtain ⟨middle, new, split, related⟩ := kept
  obtain ⟨last, newer, splitAgain, relatedAgain⟩ := again
  rw [split, Multiset.rel_add_left] at relatedAgain
  obtain ⟨lastKept, lastNew, keptRelated, _, rfl⟩ := relatedAgain
  refine ⟨lastKept, lastNew + newer, by rw [splitAgain, add_assoc], ?_⟩
  have transitive : IsTrans RateRow RateRow.Kept := ⟨fun _ _ _ => RateRow.Kept.trans⟩
  exact Multiset.Rel.trans _ related keptRelated

def RateTable.KeptIn (before after : RateTable) : Prop := RowsKept before.rows after.rows

theorem RateTable.KeptIn.refl (rate : RateTable) : rate.KeptIn rate := RowsKept.refl rate.rows

theorem RateTable.KeptIn.trans {first second third : RateTable} (kept : first.KeptIn second)
    (again : second.KeptIn third) : first.KeptIn third := RowsKept.trans kept again

section
variable {zone : TimeZone} {currency : CurrencyTable} {scan : Scan} {rate after : RateTable}
variable {update : Update}

theorem rel_kept_map {edit : RateRow → RateRow} (edits : ∀ row : RateRow, row.Kept (edit row))
    (rows : Multiset RateRow) : Multiset.Rel RateRow.Kept rows (rows.map edit) := by
  rw [Multiset.rel_map_right]
  exact Multiset.rel_refl_of_refl_on fun row _ => edits row

theorem Update.setValue_kept (update : Update) (row : RateRow) :
    row.Kept (update.setValue row) := by
  unfold Update.setValue
  split
  · exact ⟨rfl, rfl, Or.inl rfl⟩
  · exact RateRow.Kept.refl row

theorem Update.setEnd_kept (update : Update) (row : RateRow) : row.Kept (update.setEnd row) := by
  unfold Update.setEnd
  split
  · rename_i inForce
    obtain ⟨_, covers⟩ := (row.inForce_iff _ _ _).mp inForce
    exact ⟨rfl, rfl, Or.inr ⟨covers.1, covers.2⟩⟩
  · exact RateRow.Kept.refl row

theorem keptIn_apply (success : update.apply zone currency scan rate = .ok after) :
    rate.KeptIn after := by
  have stored := ((update.apply_eq_ok_iff zone currency scan rate).mp success).1
  unfold Update.rows at stored
  split at stored
  · exact ⟨_, 0, by rw [← stored, add_zero], rel_kept_map update.setValue_kept rate.rows⟩
  · refine ⟨rate.rows.map update.setEnd, {update.newRow zone (update.taken scan rate)}, ?_,
      rel_kept_map update.setEnd_kept rate.rows⟩
    rw [← stored, add_comm, Multiset.singleton_add]

theorem keptIn_write {context : Context} {updates : List Update}
    (written : updates.foldlM context.write rate = .ok after) : rate.KeptIn after :=
  loop_ascends RateTable.KeptIn RateTable.KeptIn.refl (fun _ _ _ => RateTable.KeptIn.trans)
    (fun _ _ _ success => keptIn_apply success) written

end

theorem Transaction.keptIn {transaction : Transaction} {tables after : Tables}
    (success : transaction.execute tables = .ok after) : tables.rate.KeptIn after.rate := by
  cases Transaction.execute_cases success with
  | register | rename | remove => exact RateTable.KeptIn.refl _
  | write rate updates asked written => exact keptIn_write written

/-- No transaction deletes a rate or moves it to another pair or start: every row of a
database is kept, with an end that only comes nearer, in all that follow. -/
theorem rates_are_kept (database : Database) (transactions : List Transaction) :
    ∃ kept added, (database.run transactions).rate.rows = kept + added ∧
      Multiset.Rel RateRow.Kept database.rate.rows kept :=
  run_ascends Database.step database (fun before after => before.rate.KeptIn after.rate)
    (fun _ => RateTable.KeptIn.refl _) (fun _ _ _ => RateTable.KeptIn.trans)
    (fun _ _ _ success => Transaction.keptIn (Database.step_eq_ok.mp success)) transactions

/-! ## Answers stay -/

def RateTable.CoveredIn (before after : RateTable) : Prop :=
  ∀ pair instant, (∃ period ∈ before.timeline pair, period.Covers instant) →
    ∃ period ∈ after.timeline pair, period.Covers instant

section
variable {zone : TimeZone} {currency : CurrencyTable} {scan : Scan} {rate after : RateTable}
variable {update : Update}

theorem coveredIn_apply (sound : rate.Sound zone)
    (success : update.apply zone currency scan rate = .ok after) : rate.CoveredIn after := by
  intro pair instant covered
  obtain ⟨own, others⟩ := updateRate_ok success
  by_cases same : pair = update.pair
  · rw [same] at covered ⊢
    rw [own]
    exact (sound update.pair).revise_keeps_covered (update.taken_picks scan rate) covered
  · rw [others pair same]
    exact covered

theorem coveredIn_write {context : Context} {updates : List Update}
    (sound : rate.Sound context.zone) (written : updates.foldlM context.write rate = .ok after) :
    after.Sound context.zone ∧ rate.CoveredIn after :=
  loop_invariant (fun reached : RateTable => reached.Sound context.zone ∧ rate.CoveredIn reached)
    (fun _ _ _ reached success => ⟨sound_apply reached.1 success, fun pair instant covered =>
      coveredIn_apply reached.1 success pair instant (reached.2 pair instant covered)⟩)
    ⟨sound, fun _ _ covered => covered⟩ written

theorem Transaction.coveredIn {transaction : Transaction} {tables tablesAfter : Tables}
    (sameZone : transaction.zone = zone) (sound : tables.rate.Sound zone)
    (success : transaction.execute tables = .ok tablesAfter) :
    tablesAfter.rate.Sound zone ∧ tables.rate.CoveredIn tablesAfter.rate := by
  subst sameZone
  cases Transaction.execute_cases success with
  | register | rename | remove => exact ⟨sound, fun _ _ covered => covered⟩
  | write rate updates asked written => exact coveredIn_write sound written

theorem Database.coveredIn_run {database : Database} {transactions : List Transaction}
    (sameZone : ∀ transaction ∈ transactions, transaction.zone = zone)
    (sound : database.rate.Sound zone) :
    (database.run transactions).rate.Sound zone ∧
      database.rate.CoveredIn (database.run transactions).rate := by
  refine run_keeps Database.step database (fun reached =>
      reached.rate.Sound zone ∧ database.rate.CoveredIn reached.rate) transactions ?_
    ⟨sound, fun _ _ covered => covered⟩
  intro transaction member before after reached success
  obtain ⟨afterSound, kept⟩ := Transaction.coveredIn (sameZone transaction member) reached.1
    (Database.step_eq_ok.mp success)
  exact ⟨afterSound, fun pair instant covered => kept pair instant
    (reached.2 pair instant covered)⟩

end

/-- An instant for which `get_rate` has an answer never loses it, whatever transactions
of the time zone follow and at whatever dates. -/
theorem answers_stay (zone : TimeZone) (earlier later : List Transaction)
    (sameZone : ∀ transaction ∈ earlier ++ later, transaction.zone = zone)
    (before now : Scan) (currencyFrom currencyTo : Uuid) (instant : Timestamptz)
    (answered : getRate before (Database.empty.run earlier).rate (some currencyFrom)
      (some currencyTo) (some instant) ≠ none) :
    getRate now (Database.empty.run (earlier ++ later)).rate (some currencyFrom)
      (some currencyTo) (some instant) ≠ none := by
  have split : Database.empty.run (earlier ++ later) =
      (Database.empty.run earlier).run later := by
    simp only [Database.run, Rollback.run, List.foldl_append]
  have sound : (Database.empty.run earlier).rate.Sound zone :=
    (Database.coveredIn_run (fun transaction member =>
      sameZone transaction (List.mem_append_left _ member)) (sound_empty zone)).1
  have kept := (Database.coveredIn_run (fun transaction member =>
    sameZone transaction (List.mem_append_right _ member)) sound).2
  rw [getRate_ne_none_iff, selectRows_ne_zero_iff] at answered ⊢
  rw [split]
  exact kept _ _ answered

theorem first_answer_stays :
    (∀ transaction ∈ openingTransactions ++ [firstDelivery] ++ [secondDelivery],
        transaction.zone = .utc) ∧
      getRate .any (Database.empty.run (openingTransactions ++ [firstDelivery])).rate (some usd.id)
        (some rub.id) (some (.onDay 9000)) ≠ none ∧
      getRate .any (Database.empty.run (openingTransactions ++ [firstDelivery] ++
        [secondDelivery])).rate (some usd.id) (some rub.id) (some (.onDay 9000)) ≠ none := by
  have sameZone : ∀ transaction ∈ openingTransactions ++ [firstDelivery] ++ [secondDelivery],
      transaction.zone = .utc := by
    simp [openingTransactions, firstDelivery, secondDelivery, sampleTransaction]
  have first : (Database.empty.run (openingTransactions ++ [firstDelivery])).rate =
      firstTable := rfl
  have answered : getRate .any
      (Database.empty.run (openingTransactions ++ [firstDelivery])).rate (some usd.id)
      (some rub.id) (some (.onDay 9000)) ≠ none := by
    rw [getRate_ne_none_iff, selectRows_ne_zero_iff, first]
    exact ⟨_, mem_timelineOf.mpr ⟨_, Multiset.mem_singleton_self _, rfl, rfl⟩, by decide⟩
  exact ⟨sameZone, answered, answers_stay .utc (openingTransactions ++ [firstDelivery])
    [secondDelivery] sameZone .any .any usd.id rub.id (.onDay 9000) answered⟩

/-! ## Currencies with rates stay -/

def Tables.Uses (id : Uuid) (code : String) (tables : Tables) : Prop :=
  (∃ row ∈ tables.currency.rows, row.id = id ∧ row.code = code) ∧ tables.rate.RefersTo id

theorem RateTable.KeptIn.refersTo {before after : RateTable} (kept : before.KeptIn after)
    {id : Uuid} (refers : before.RefersTo id) : after.RefersTo id := by
  obtain ⟨rows, added, split, related⟩ := kept
  obtain ⟨row, member, uses⟩ := refers
  obtain ⟨new, newMember, samePair, _⟩ := Multiset.exists_mem_of_rel_of_mem related member
  refine ⟨new, by rw [split]; exact Multiset.mem_add.mpr (Or.inl newMember), ?_⟩
  rwa [show new.currencyFrom = row.currencyFrom from congrArg Prod.fst samePair,
    show new.currencyTo = row.currencyTo from congrArg Prod.snd samePair]

/-- Only a renaming takes the code away: the currency cannot be deleted. -/
theorem Transaction.uses_kept {transaction : Transaction} {tables after : Tables} {id : Uuid}
    {code : String} (uses : tables.Uses id code)
    (unrenamed : ∀ newCode pName,
      transaction.statement ≠ .updateCurrency (some id) (some newCode) pName)
    (success : transaction.execute tables = .ok after) : after.Uses id code := by
  obtain ⟨⟨row, member, isId, isCode⟩, refers⟩ := uses
  cases Transaction.execute_cases success with
  | register stored new rows =>
      exact ⟨⟨row, by rw [← rows]; exact List.mem_append_left _ member, isId, isCode⟩, refers⟩
  | rename stored pId pCode pName statement rows =>
      refine ⟨⟨row.revise pId pCode pName, by rw [← rows]; exact List.mem_map_of_mem member,
        (row.revise_id _ _ _).trans isId, ?_⟩, refers⟩
      rw [Currency.revise_code, isCode]
      rintro rfl
      cases pCode with
      | none => rfl
      | some newCode => exact absurd statement (isId ▸ unrenamed newCode pName)
  | remove stored chosen statement free rows =>
      have spared : chosen row = false := by
        by_contra isChosen
        exact free row member (Bool.eq_true_of_not_eq_false isChosen) (isId ▸ refers)
      exact ⟨⟨row, by rw [← rows]; exact List.mem_filter.mpr ⟨member, by simp [spared]⟩, isId,
        isCode⟩, refers⟩
  | write rate updates asked written =>
      exact ⟨⟨row, member, isId, isCode⟩, (keptIn_write written).refersTo refers⟩

/-- A code whose currency has rates leads to that currency for ever, unless
`update_currency` gives the currency another code: no transaction deletes it, and none
takes its rates away. -/
theorem codes_with_rates_stay (database : Database) (transactions : List Transaction) (id : Uuid)
    (code : String) (used : database.rate.RefersTo id)
    (named : getCurrencyId database.currency (some code) = some id)
    (unrenamed : ∀ transaction ∈ transactions, ∀ newCode pName,
      transaction.statement ≠ .updateCurrency (some id) (some newCode) pName) :
    getCurrencyId (database.run transactions).currency (some code) = some id ∧
      (database.run transactions).rate.RefersTo id := by
  obtain ⟨row, member, isCode, isId⟩ := CurrencyTable.selectId_eq_some named
  have initial : database.toTables.Uses id code :=
    ⟨⟨row, member, isId, (Option.some.inj isCode).symm⟩, used⟩
  obtain ⟨⟨last, lastMember, lastId, lastCode⟩, refers⟩ :=
    run_keeps Database.step database (fun reached => reached.toTables.Uses id code) transactions
      (fun transaction member _ _ uses success => Transaction.uses_kept uses
        (unrenamed transaction member) (Database.step_eq_ok.mp success)) initial
  have found := CurrencyTable.selectId_of_mem lastMember
  rw [lastCode, lastId] at found
  exact ⟨found, refers⟩

noncomputable def deleteDollar : Transaction :=
  sampleTransaction (.onDay 9001) (.deleteCurrency fun row => row.code = "USD")

theorem dollar_stays :
    (Database.initial.run [firstDelivery]).rate.RefersTo usd.id ∧
      getCurrencyId (Database.initial.run [firstDelivery]).currency (some "USD") = some usd.id ∧
      getCurrencyId ((Database.initial.run [firstDelivery]).run [deleteDollar]).currency
        (some "USD") = some usd.id := by
  have used : (Database.initial.run [firstDelivery]).rate.RefersTo usd.id :=
    ⟨_, Multiset.mem_singleton_self _, Or.inl rfl⟩
  have named : getCurrencyId (Database.initial.run [firstDelivery]).currency (some "USD") =
      some usd.id := by decide
  exact ⟨used, named, (codes_with_rates_stay _ [deleteDollar] usd.id "USD" used named
    (by simp [deleteDollar, sampleTransaction])).1⟩

end ApostolRates
